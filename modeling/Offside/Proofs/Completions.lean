import Offside.Console.Completion
import Offside.Proofs.ByteOrder
import Offside.Proofs.Pieces

/-!
# Completions

The console looks for the word that ends at the cursor and offers what is missing of the names that
go on from it. It fails exactly if a character of more than one byte stands in front of the word.
-/

namespace Offside.Console

/-- A text, and the word at its end as far as it goes back. -/
structure EndsInWord (before front word : List Char) : Prop where
  split : before = front ++ word
  word : ∀ c ∈ word, Piece.isWordPart c
  maximal : ∀ c ∈ front.getLast?, Piece.isWordPart c = false

/-- Every text ends in a word, be it empty, that goes back as far as it can. -/
theorem exists_endsInWord (before : List Char) : ∃ front word, EndsInWord before front word := by
  have hsplit := List.takeWhile_append_dropWhile (p := Piece.isWordPart) (l := before.reverse)
  refine ⟨(before.reverse.dropWhile Piece.isWordPart).reverse,
    (before.reverse.takeWhile Piece.isWordPart).reverse, ?_, ?_, ?_⟩
  · rw [← List.reverse_append, hsplit, List.reverse_reverse]
  · exact fun c hc => of_mem_takeWhile (List.mem_reverse.mp hc)
  · rw [List.getLast?_reverse]
    exact runEnds_dropWhile Piece.isWordPart before.reverse

/-- The text in front of a place between two characters. -/
theorem textBefore?_append (before behind : List Char) :
    textBefore? (Text.byteLength before) (before ++ behind) = some before := by
  induction before with
  | nil => rw [Text.byteLength_nil, textBefore?]
  | cons c before ih =>
    obtain ⟨n, hn⟩ := Nat.exists_eq_add_of_lt c.utf8Size_pos
    have hlength : Text.byteLength (c :: before) = (n + Text.byteLength before) + 1 := by
      rw [Text.byteLength_cons]
      omega
    have hrest : n + Text.byteLength before + 1 - c.utf8Size = Text.byteLength before := by omega
    rw [hlength, List.cons_append, textBefore?, if_pos (by omega), hrest, ih]
    rfl

/-- The word at the end is found unless a character of more than one byte stands in front of it. -/
theorem lastWord?_cases {before front word : List Char} (h : EndsInWord before front word) :
    (∃ c ∈ front.getLast?, c.utf8Size ≠ 1) ∧ lastWord? before = none ∨
      (¬∃ c ∈ front.getLast?, c.utf8Size ≠ 1) ∧ lastWord? before = some word := by
  have hword : ∀ c ∈ word.reverse, Piece.isWordPart c :=
    fun c hc => h.word c (List.mem_reverse.mp hc)
  have hends : RunEnds Piece.isWordPart front.reverse := by
    rw [RunEnds, List.head?_reverse]
    exact h.maximal
  obtain ⟨htake, hdrop⟩ := run_exact hword hends
  rw [← List.reverse_append, ← h.split] at htake hdrop
  rw [lastWord?, htake, hdrop, List.reverse_reverse, ← List.head?_reverse]
  cases front.reverse with
  | nil => simp
  | cons c cs => by_cases hc : c.utf8Size = 1 <;> simp [hc]

/-- What is missing of a name is what stands behind the word in it. -/
theorem remainder?_eq_some_iff {word : List Char} {name rest : String} :
    remainder? word name = some rest ↔ rest ≠ "" ∧ String.ofList word ++ rest = name := by
  have hname : String.ofList word ++ rest = name ↔ word ++ rest.toList = name.toList := by
    rw [← String.toList_inj, String.toList_append, String.toList_ofList]
  have hempty : rest = "" ↔ rest.toList = [] := by
    rw [← String.toList_inj, String.toList_empty]
  have hsplit := List.take_append_drop word.length name.toList
  have hparts (h : word ++ rest.toList = name.toList) :
      name.toList.take word.length = word ∧ name.toList.drop word.length = rest.toList := by
    rw [← h]
    exact ⟨List.take_left, List.drop_left⟩
  rw [remainder?, hname, Ne, hempty]
  split
  next hnil =>
    refine iff_of_false nofun fun h => h.1 ?_
    rw [← (hparts h.2).2, hnil]
  next hsome =>
    constructor
    · intro h
      split at h
      next htake =>
        obtain rfl := Option.some.inj h
        rw [htake] at hsplit
        exact ⟨by simpa using hsome, by simpa using hsplit⟩
      next => cases h
    · rintro ⟨-, h⟩
      rw [if_pos (hparts h).1, (hparts h).2, String.ofList_toList]

/-- Exactly the non-empty texts are offered that turn the word into one of the names. -/
theorem mem_candidates_iff {names : List String} {word : List Char} {rest : String} :
    rest ∈ candidates names word ↔
      word ≠ [] ∧ rest ≠ "" ∧ String.ofList word ++ rest ∈ names := by
  rw [candidates]
  by_cases hword : word = []
  · simp [hword]
  · rw [if_neg (by simpa using hword), Text.mem_sortedNames, List.mem_filterMap]
    simp only [remainder?_eq_some_iff]
    constructor
    · rintro ⟨name, hname, hrest, rfl⟩
      exact ⟨hword, hrest, hname⟩
    · rintro ⟨-, hrest, hname⟩
      exact ⟨_, hname, hrest, rfl⟩

/-- The offered texts increase strictly in the order of their bytes. -/
theorem pairwise_candidates (names : List String) (word : List Char) :
    (candidates names word).Pairwise (Text.bytes · < Text.bytes ·) := by
  rw [candidates]
  split
  · exact .nil
  · exact (Text.pairwise_sortedNames _).imp Text.bytes_lt

/-- The console knows all reserved words. -/
theorem mem_reservedWords {name : String} :
    name ∈ Keyword.all.map Keyword.text ↔ ∃ k : Keyword, name = k.text := by
  rw [List.mem_map]
  exact ⟨fun ⟨k, _, h⟩ => ⟨k, h.symm⟩, fun ⟨k, h⟩ => ⟨k, Keyword.mem_all k, h.symm⟩⟩

/-- What the console offers behind `before`, where the word at the end of it is given. -/
structure Offer.Completes (globals : Bindings) (before word : List Char) (o : Offer) : Prop where
  position : o.position = Text.byteLength before
  /-- The order is that of the bytes, and no text is offered twice. -/
  increasing : o.texts.Pairwise (Text.bytes · < Text.bytes ·)
  /-- Nothing is offered where there is no word. -/
  texts (rest : String) : rest ∈ o.texts ↔ word ≠ [] ∧ rest ≠ "" ∧
    (String.ofList word ++ rest ∈ globals.names ∨
      ∃ k : Keyword, String.ofList word ++ rest = k.text)

/-- At every place between two characters of a line the console offers exactly the texts that
complete the word in front of the place to a global name or reserved word, in increasing order. It
fails exactly if the character in front of the word is not ASCII. -/
theorem offer?_completes (globals : Bindings) (before behind : List Char) :
    ∃ front word, EndsInWord before front word ∧
      (offer? globals (String.ofList (before ++ behind)) (Text.byteLength before) = none ↔
        ∃ c ∈ front.getLast?, 128 ≤ c.toNat) ∧
      ∀ o, offer? globals (String.ofList (before ++ behind)) (Text.byteLength before) = some o →
        o.Completes globals before word := by
  obtain ⟨front, word, h⟩ := exists_endsInWord before
  have hascii (c : Char) : c.utf8Size ≠ 1 ↔ 128 ≤ c.toNat := by
    rw [Ne, Char.utf8Size_eq_one_iff, UInt32.le_iff_toNat_le]
    change ¬c.toNat ≤ 127 ↔ 128 ≤ c.toNat
    omega
  have hfront := lastWord?_cases h
  simp only [hascii] at hfront
  refine ⟨front, word, h, ?_⟩
  rw [offer?, complete?, String.toList_ofList, textBefore?_append]
  simp only [Option.bind_eq_bind, Option.bind_some]
  rcases hfront with ⟨hwide, hword⟩ | ⟨hnarrow, hword⟩
  · rw [hword]
    exact ⟨iff_of_true rfl hwide, nofun⟩
  · rw [hword]
    refine ⟨iff_of_false nofun hnarrow, fun o ho => ?_⟩
    obtain rfl := Option.some.inj ho
    refine ⟨rfl, pairwise_candidates _ _, fun rest => ?_⟩
    rw [mem_candidates_iff, List.mem_append, mem_reservedWords]

end Offside.Console
