import Offside.Proofs.Carrying
import Offside.Proofs.Pieces

/-!
# Readers side by side

Two readers run side by side on two token streams that agree, up to positions, on the tokens inside
a line. They take the same tokens, and they end alike: the second one yields what the first one
yields with its tokens moved, or it fails in the same way in front of the corresponding token. The
limits on depth and repetition may differ, as long as neither is smaller than the number of tokens.
-/

namespace Offside

/-- A syntax error that is blamed on a moved token. -/
def SyntaxError.move (g : Token → Token) (e : SyntaxError) : SyntaxError :=
  ⟨e.fault, e.blamed.map g⟩

/-- Moving nothing leaves an error as it is. -/
theorem SyntaxError.move_id (e : SyntaxError) : e.move id = e := by
  simp [SyntaxError.move]

/-- How an error inside a line is blamed: on the next token, except that an invalid target is blamed
on the sign behind it. -/
def SyntaxError.StopsAt (rest : List Token) (e : SyntaxError) : Prop :=
  match e.fault with
  | .expected what => what ≠ .blockEnd ∧ e.blamed = rest.head?
  | .invalidTarget => ∃ sign, e.blamed = some sign ∧ sign.kind = .symbol .equal

/-- Two token streams that agree inside a line. -/
structure Lines (g : Token → Token) where
  /-- The rest of the streams inside a line. -/
  inLine : List Token → List Token → Prop
  isMove : IsMove g
  agree {ts us : List Token} : inLine ts us → us.head? = ts.head?.map g
  take {t u : Token} {ts us : List Token} : inLine (t :: ts) (u :: us) →
    t.kind.isStructural = false → inLine ts us

/-- Streams with corresponding heads show the same next kind. -/
theorem leads_of_head {g : Token → Token} (hg : IsMove g) {ts us : List Token}
    (h : us.head? = ts.head?.map g) (p : Kind → Bool) : leads p us = leads p ts := by
  simp [leads, h, Option.any_map, hg.kind]

/-- What follows a token that satisfies `p`, if there is one. -/
def Reader.tail {α : Type} (p : Kind → Bool) (item : Token → Reader α) : Reader (Option α) := do
  match ← Reader.acceptIf p with
  | none => return none
  | some t => some <$> item t

namespace Lines

variable {g : Token → Token} {L : Lines g} {t : Token} {ts us : List Token}

/-- Inside a line both streams end together. -/
theorem eq_nil (h : L.inLine [] us) : us = [] := by
  have hhead := L.agree h
  simpa using hhead

/-- Inside a line the next tokens correspond. -/
theorem uncons (h : L.inLine (t :: ts) us) : ∃ vs, us = g t :: vs := by
  have hhead := L.agree h
  exact List.head?_eq_some_iff.mp hhead

/-- How two readers end alike that were given `m` and `m'` tokens: a success takes at least `k` of
them and yields in the second run what `f` makes of the first. -/
inductive Outcome {α β : Type} (L : Lines g) (m m' k : Nat) (f : α → β) :
    EStateM.Result SyntaxError (List Token) α → EStateM.Result SyntaxError (List Token) β → Prop
  | ok {a : α} {rest rest' : List Token} : L.inLine rest rest' → rest.length + k ≤ m →
    rest'.length + k ≤ m' → Outcome L m m' k f (.ok a rest) (.ok (f a) rest')
  | error {e : SyntaxError} {rest rest' : List Token} : L.inLine rest rest' → rest.length ≤ m →
    rest'.length ≤ m' → e.StopsAt rest →
    Outcome L m m' k f (.error e rest) (.error (e.move g) rest')

/-- Two readers that end alike on streams of fewer than `n` and `n'` tokens. -/
def Abreast {α β : Type} (L : Lines g) (n n' k : Nat) (f : α → β) (r : Reader α) (r' : Reader β) :
    Prop :=
  ∀ ts us, ts.length < n → us.length < n' → L.inLine ts us →
    L.Outcome ts.length us.length k f (r ts) (r' us)

variable {α β γ δ : Type} {f : α → β} {h : γ → δ} {n n' m m' k l : Nat}

/-- An outcome holds for larger bounds. -/
theorem Outcome.mono {x : EStateM.Result SyntaxError (List Token) α}
    {x' : EStateM.Result SyntaxError (List Token) β} (hx : L.Outcome n n' k f x x') (hn : n ≤ m)
    (hn' : n' ≤ m') (hk : l + n ≤ k + m) (hk' : l + n' ≤ k + m') : L.Outcome m m' l f x x' := by
  cases hx with
  | ok hrest hlength hlength' => exact .ok hrest (by omega) (by omega)
  | error hrest hlength hlength' hstops => exact .error hrest (by omega) (by omega) hstops

/-- Readers abreast stay so for smaller budgets. -/
theorem Abreast.mono {r : Reader α} {r' : Reader β} (hr : L.Abreast n n' k f r r') (hm : m ≤ n)
    (hm' : m' ≤ n') (hl : l ≤ k) : L.Abreast m m' l f r r' := by
  intro ts us hts hus hline
  exact (hr ts us (by omega) (by omega) hline).mono (by omega) (by omega) (by omega) (by omega)

/-- A success that takes `k` tokens takes any smaller number of them. -/
theorem Abreast.weaken {r : Reader α} {r' : Reader β} (hr : L.Abreast n n' k f r r') (hl : l ≤ k) :
    L.Abreast n n' l f r r' :=
  hr.mono (Nat.le_refl _) (Nat.le_refl _) hl

/-- Returning corresponding results keeps abreast. -/
theorem abreast_pure (a : α) : L.Abreast n n' 0 f (pure a) (pure (f a)) :=
  fun _ _ _ _ hline => .ok hline (Nat.le_refl _) (Nat.le_refl _)

/-- Readers abreast go on abreast. -/
theorem Abreast.bind {r : Reader α} {r' : Reader β} {q : α → Reader γ} {q' : β → Reader δ}
    (hr : L.Abreast n n' k f r r') (hq : ∀ a, L.Abreast (n - k) (n' - k) l h (q a) (q' (f a))) :
    L.Abreast n n' (k + l) h (r >>= q) (r' >>= q') := by
  intro ts us hts hus hline
  have hfirst := hr ts us hts hus hline
  simp only [Bind.bind, EStateM.bind]
  generalize r ts = x at hfirst
  generalize r' us = x' at hfirst
  cases hfirst with
  | @ok a rest rest' hrest hlength hlength' =>
    have hsecond := hq a rest rest' (by omega) (by omega) hrest
    exact hsecond.mono (by omega) (by omega) (by omega) (by omega)
  | error hrest hlength hlength' hstops => exact .error hrest hlength hlength' hstops

/-- What is made of the result by a function. -/
theorem Abreast.map {r : Reader α} {r' : Reader β} (hr : L.Abreast n n' k f r r') {u : α → γ}
    {u' : β → δ} (hu : ∀ a, u' (f a) = h (u a)) : L.Abreast n n' k h (u <$> r) (u' <$> r') := by
  rw [map_eq_pure_bind, map_eq_pure_bind]
  refine hr.bind (l := 0) fun a => ?_
  rw [hu a]
  exact abreast_pure (u a)

/-! ## Elementary readers -/

/-- Both readers fail at corresponding tokens. -/
theorem abreast_fail {what : Expectation} (hwhat : what ≠ .blockEnd) :
    L.Abreast n n' k f (Reader.fail what) (Reader.fail what) := by
  intro ts us _ _ hline
  have hmoved : (⟨.expected what, us.head?⟩ : SyntaxError) =
      SyntaxError.move g ⟨.expected what, ts.head?⟩ := by
    rw [L.agree hline]
    rfl
  rw [Reader.fail, Reader.fail, hmoved]
  exact .error hline (Nat.le_refl _) (Nat.le_refl _) ⟨hwhat, rfl⟩

/-- Both readers see the same next kind. -/
theorem abreast_nextIs (kind : Kind) :
    L.Abreast n n' 0 id (Reader.nextIs kind) (Reader.nextIs kind) := by
  intro ts us _ _ hline
  have hleads : us.head?.any (·.kind == kind) = ts.head?.any (·.kind == kind) :=
    leads_of_head L.isMove (L.agree hline) (· == kind)
  rw [Reader.nextIs, Reader.nextIs, hleads]
  exact .ok hline (Nat.le_refl _) (Nat.le_refl _)

/-- A token that is taken if it is of the given kind, and what follows in either case. -/
theorem Abreast.accept {kind : Kind} (hkind : kind.isStructural = false)
    {q : Option Token → Reader α} {q' : Option Token → Reader β}
    (hnone : L.Abreast n n' 0 f (q none) (q' none))
    (hsome : ∀ t, t.kind = kind → L.Abreast n n' 0 f (q (some t)) (q' (some (g t)))) :
    L.Abreast n n' 0 f (Reader.accept kind >>= q) (Reader.accept kind >>= q') := by
  intro ts us hts hus hline
  cases ts with
  | nil =>
    obtain rfl := eq_nil hline
    exact hnone [] [] hts hus hline
  | cons t ts =>
    obtain ⟨vs, rfl⟩ := uncons hline
    simp only [Bind.bind, EStateM.bind, Reader.accept, Reader.acceptIf, L.isMove.kind]
    by_cases ht : t.kind = kind
    · have hrest := L.take hline (ht ▸ hkind)
      simp only [List.length_cons] at hts hus ⊢
      simp only [ht, beq_self_eq_true, if_true]
      have hsecond := hsome t ht ts vs (by omega) (by omega) hrest
      exact hsecond.mono (by omega) (by omega) (by omega) (by omega)
    · simp only [beq_eq_false_iff_ne.mpr ht, Bool.false_eq_true, if_false]
      exact hnone (t :: ts) (g t :: vs) hts hus hline

/-- Both readers take the expected token or fail at corresponding ones. -/
theorem abreast_expect {kind : Kind} (hkind : kind.isStructural = false) {what : Expectation}
    (hwhat : what ≠ .blockEnd) :
    L.Abreast n n' 1 g (Reader.expect kind what) (Reader.expect kind what) := by
  intro ts us hts hus hline
  cases ts with
  | nil =>
    obtain rfl := eq_nil hline
    exact abreast_fail hwhat [] [] hts hus hline
  | cons t ts =>
    obtain ⟨vs, rfl⟩ := uncons hline
    rw [Reader.expect, Reader.expect, L.isMove.kind]
    by_cases ht : t.kind = kind
    · simp only [ht, beq_self_eq_true, if_true]
      exact .ok (L.take hline (ht ▸ hkind)) (Nat.le_refl _) (Nat.le_refl _)
    · simp only [beq_eq_false_iff_ne.mpr ht, Bool.false_eq_true, if_false]
      exact abreast_fail hwhat (t :: ts) (g t :: vs) hts hus hline

/-- Both readers take corresponding runs of tokens. -/
theorem abreast_takeWhile {p : Kind → Bool} (hp : ∀ kind, p kind → kind.isStructural = false) :
    L.Abreast n n' 0 (List.map g) (Reader.takeWhile p) (Reader.takeWhile p) := by
  intro ts
  induction ts with
  | nil =>
    intro us _ _ hline
    obtain rfl := eq_nil hline
    exact .ok hline (Nat.le_refl _) (Nat.le_refl _)
  | cons t ts ih =>
    intro us hts hus hline
    obtain ⟨vs, rfl⟩ := uncons hline
    unfold Reader.takeWhile at ih ⊢
    by_cases ht : p t.kind = true
    · simp only [List.length_cons] at hts hus
      have hrest := ih vs (by omega) (by omega) (L.take hline (hp _ ht))
      simp only [List.takeWhile_cons, List.dropWhile_cons, L.isMove.kind, ht, if_true,
        List.length_cons]
      generalize hus' : vs.takeWhile (p ·.kind) = found' at hrest
      cases hrest with
      | ok hrest hlength hlength' =>
        exact .ok (a := t :: ts.takeWhile (p ·.kind)) hrest (by omega) (by omega)
    · simp only [List.takeWhile_cons, List.dropWhile_cons, L.isMove.kind, ht]
      exact .ok (a := []) hline (Nat.le_refl _) (Nat.le_refl _)

/-! ## Repetition -/

/-- At the end of the stream no further item is collected. -/
theorem collect_tail_nil {p : Kind → Bool} {item : Token → Reader α} (done : List α)
    (limit : Nat) : collect (Reader.tail p item) done limit [] = .ok done.reverse [] := by
  cases limit with
  | zero => rfl
  | succ limit => rfl

/-- A token that leads an item is collected with it, and any other ends the items. -/
theorem collect_tail_cons {p : Kind → Bool} {item : Token → Reader α} (done : List α)
    (limit : Nat) (t : Token) (ts : List Token) :
    collect (Reader.tail p item) done (limit + 1) (t :: ts) =
      if p t.kind then (item t >>= fun a => collect (Reader.tail p item) (a :: done) limit) ts
      else .ok done.reverse (t :: ts) := by
  by_cases ht : p t.kind = true
  · simp only [collect, Bind.bind, EStateM.bind, Reader.tail, Reader.acceptIf, ht, if_true,
      Functor.map, EStateM.map]
    cases item t ts with
    | ok a rest => rfl
    | error e rest => rfl
  · simp only [collect, Bind.bind, EStateM.bind, Reader.tail, Reader.acceptIf, ht]
    rfl

/-- Items behind separators, as many as there are. -/
theorem abreast_collect {p : Kind → Bool} (hp : ∀ kind, p kind → kind.isStructural = false)
    {item : Token → Reader α} {item' : Token → Reader β}
    (hitem : ∀ t, p t.kind → L.Abreast (n - 1) (n' - 1) 0 f (item t) (item' (g t)))
    {limit limit' : Nat} (hn : n ≤ limit + 1) (hn' : n' ≤ limit' + 1) :
    L.Abreast n n' 0 (List.map f) (collect (Reader.tail p item) [] limit)
      (collect (Reader.tail p item') [] limit') := by
  have hstop (done : List α) {ts us : List Token} (hline : L.inLine ts us) :
      L.Outcome ts.length us.length 0 (List.map f) (.ok done.reverse ts)
        (.ok (done.map f).reverse us) := by
    rw [← List.map_reverse]
    exact .ok hline (Nat.le_refl _) (Nat.le_refl _)
  -- Both limits are at least the number of tokens left, and every item takes one.
  have hall : ∀ (limit limit' : Nat) (done : List α) (ts us : List Token), ts.length < n →
      us.length < n' → ts.length ≤ limit → us.length ≤ limit' → L.inLine ts us →
      L.Outcome ts.length us.length 0 (List.map f) (collect (Reader.tail p item) done limit ts)
        (collect (Reader.tail p item') (done.map f) limit' us) := by
    intro limit
    induction limit with
    | zero =>
      intro limit' done ts us _ _ hts _ hline
      obtain rfl := List.length_eq_zero_iff.mp (Nat.le_zero.mp hts)
      obtain rfl := eq_nil hline
      rw [collect_tail_nil, collect_tail_nil]
      exact hstop done hline
    | succ limit ih =>
      intro limit' done ts us hts hus hlimit hlimit' hline
      cases ts with
      | nil =>
        obtain rfl := eq_nil hline
        rw [collect_tail_nil, collect_tail_nil]
        exact hstop done hline
      | cons t ts =>
        obtain ⟨vs, rfl⟩ := uncons hline
        simp only [List.length_cons] at hts hus hlimit hlimit'
        obtain ⟨limit', rfl⟩ : ∃ l, limit' = l + 1 := ⟨limit' - 1, by omega⟩
        rw [collect_tail_cons, collect_tail_cons, L.isMove.kind]
        split
        next ht =>
          have hfirst := hitem t ht ts vs (by omega) (by omega) (L.take hline (hp _ ht))
          simp only [Bind.bind, EStateM.bind]
          generalize item t ts = x at hfirst
          generalize item' (g t) vs = x' at hfirst
          cases hfirst with
          | @ok a rest rest' hrest hlength hlength' =>
            have hmore := ih limit' (a :: done) rest rest' (by omega) (by omega) (by omega)
              (by omega) hrest
            exact hmore.mono (by simp only [List.length_cons]; omega)
              (by simp only [List.length_cons]; omega) (by simp only [List.length_cons]; omega)
              (by simp only [List.length_cons]; omega)
          | error hrest hlength hlength' hstops =>
            exact .error hrest (by simp only [List.length_cons]; omega)
              (by simp only [List.length_cons]; omega) hstops
        next => exact hstop done hline
  intro ts us hts hus hline
  exact hall limit limit' [] ts us hts hus (by omega) (by omega) hline

end Lines

end Offside
