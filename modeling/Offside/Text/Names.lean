/-!
# Sorted lists of names

The distinct names of a list in increasing order. Strings are ordered by their code points, which
is the order of their UTF-8 bytes. Main statements: the result has the same members as the list, and
it is strictly increasing.
-/

namespace Offside.Text

/-- Removes every name that stands in front of an equal one. -/
def dropRepeats : List String → List String
  | [] => []
  | [a] => [a]
  | a :: b :: rest =>
    if a = b then dropRepeats (b :: rest) else a :: dropRepeats (b :: rest)

/-- The distinct names of a list, in increasing order. -/
def sortedNames (names : List String) : List String :=
  dropRepeats (names.mergeSort fun a b => decide (a ≤ b))

/-- Dropping repeats keeps every name. -/
@[simp] theorem mem_dropRepeats {x : String} {names : List String} :
    x ∈ dropRepeats names ↔ x ∈ names := by
  fun_induction dropRepeats names with
  | case1 => rfl
  | case2 => rfl
  | case3 a rest ih => simp [ih]
  | case4 a b rest _ ih => rw [List.mem_cons, ih, List.mem_cons (l := b :: rest)]

/-- Without repeats, an increasing list is strictly increasing. -/
theorem pairwise_dropRepeats {names : List String} (h : names.Pairwise (· ≤ ·)) :
    (dropRepeats names).Pairwise (· < ·) := by
  fun_induction dropRepeats names with
  | case1 => exact .nil
  | case2 a => simp
  | case3 a rest ih => exact ih (List.pairwise_cons.mp h).2
  | case4 a b rest hne ih =>
    obtain ⟨ha, hrest⟩ := List.pairwise_cons.mp h
    refine List.pairwise_cons.mpr ⟨fun x hx => ?_, ih hrest⟩
    have hx' : x ∈ b :: rest := mem_dropRepeats.mp hx
    have hbx : b ≤ x := by
      rcases List.mem_cons.mp hx' with rfl | hmem
      · exact String.le_refl x
      · exact (List.pairwise_cons.mp hrest).1 x hmem
    apply String.not_le.mp
    intro hxa
    have hab : a ≤ b := ha b (by simp)
    exact hne (String.le_antisymm hab (String.le_trans hbx hxa))

/-- Sorting neither adds nor loses a name. -/
@[simp] theorem mem_sortedNames {x : String} {names : List String} :
    x ∈ sortedNames names ↔ x ∈ names := by
  simp [sortedNames]

/-- Sorted names are strictly increasing, so no name occurs twice. -/
theorem pairwise_sortedNames (names : List String) : (sortedNames names).Pairwise (· < ·) := by
  apply pairwise_dropRepeats
  have htrans : ∀ a b c : String,
      decide (a ≤ b) = true → decide (b ≤ c) = true → decide (a ≤ c) = true := by
    intro a b c hab hbc
    simp only [decide_eq_true_eq] at *
    exact String.le_trans hab hbc
  have htotal : ∀ a b : String, (decide (a ≤ b) || decide (b ≤ a)) = true := by
    intro a b
    simp only [Bool.or_eq_true, decide_eq_true_eq]
    exact String.le_total a b
  exact (List.pairwise_mergeSort htrans htotal names).imp fun hab => by simpa using hab

end Offside.Text
