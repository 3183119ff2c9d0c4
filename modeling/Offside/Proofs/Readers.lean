import Offside.Tree.Reader

/-!
# What readers accept

A reader that succeeds says which tokens it took. For the elementary readers and for repetition this
is stated here as an equivalence, so that the forms of the grammar can be opened by rewriting.
-/

namespace Offside

/-- Whether there is a next token and its kind satisfies `p`. -/
def leads (p : Kind → Bool) (ts : List Token) : Bool := ts.head?.any (p ·.kind)

/-- An empty stream leads with nothing. -/
@[simp] theorem leads_nil (p : Kind → Bool) : leads p [] = false := rfl

/-- A stream leads with its first token. -/
@[simp] theorem leads_cons (p : Kind → Bool) (t : Token) (ts : List Token) :
    leads p (t :: ts) = p t.kind := rfl

/-- A weaker test of the next token is passed too. -/
theorem leads_mono {p q : Kind → Bool} {ts : List Token} (h : ∀ kind, p kind → q kind)
    (hp : leads p ts = true) : leads q ts = true := by
  cases ts with
  | nil => simp at hp
  | cons t ts => exact h t.kind hp

/-- A stronger test of the next token is failed too. -/
theorem leads_eq_false_mono {p q : Kind → Bool} {ts : List Token} (h : ∀ kind, p kind → q kind)
    (hq : leads q ts = false) : leads p ts = false := by
  cases hp : leads p ts with
  | false => rfl
  | true => exact absurd (leads_mono h hp) (by simp [hq])

/-- A token that passes one test fails any that excludes it. -/
theorem leads_eq_false_of {p q : Kind → Bool} {ts : List Token}
    (h : ∀ kind, p kind → q kind = false) (hp : leads p ts = true) : leads q ts = false := by
  cases ts with
  | nil => rfl
  | cons t ts => exact h t.kind hp

/-- Being in a one-element list is being that element. -/
theorem leads_contains_singleton (kind : Kind) (ts : List Token) :
    leads [kind].contains ts = leads (· == kind) ts := by
  cases ts with
  | nil => rfl
  | cons t ts => simp only [leads_cons, List.contains_cons, List.contains_nil, Bool.or_false]

section

variable {ε σ α β : Type} {s s' : σ}

/-- A sequence succeeds exactly when both of its steps do. -/
theorem bind_eq_ok {x : EStateM ε σ α} {k : α → EStateM ε σ β} {b : β} :
    (x >>= k) s = .ok b s' ↔ ∃ a mid, x s = .ok a mid ∧ k a mid = .ok b s' := by
  simp only [bind, EStateM.bind]
  constructor
  · intro h
    split at h
    next a mid hx => exact ⟨a, mid, hx, h⟩
    next => cases h
  · rintro ⟨a, mid, hx, h⟩
    rw [hx]
    exact h

/-- Returning gives the value and leaves the state. -/
theorem pure_eq_ok {a b : α} :
    (pure a : EStateM ε σ α) s = .ok b s' ↔ a = b ∧ s = s' := by
  simp [pure, EStateM.pure]

/-- What was found first stands in front of what is found by repeating an action. -/
theorem collect_singleton_eq_ok {action : EStateM ε σ (Option α)} {a : α} {limit : Nat}
    {found : List α} :
    collect action [a] limit s = .ok found s' ↔
      ∃ more, collect action [] limit s = .ok more s' ∧ found = a :: more := by
  rw [collect_eq]
  cases collect action [] limit s with
  | error e mid => simp
  | ok more mid =>
    simp only [List.reverse_cons, List.reverse_nil, List.nil_append, List.singleton_append,
      EStateM.Result.ok.injEq]
    constructor
    · rintro ⟨rfl, rfl⟩
      exact ⟨more, ⟨rfl, rfl⟩, rfl⟩
    · rintro ⟨more, ⟨rfl, rfl⟩, rfl⟩
      exact ⟨rfl, rfl⟩

/-- The results of repeating an action until it yields nothing. -/
inductive Collected (action : EStateM ε σ (Option α)) : List α → σ → σ → Prop
  | nil {s s' : σ} : action s = .ok none s' → Collected action [] s s'
  | cons {a : α} {as : List α} {s mid s' : σ} : action s = .ok (some a) mid →
    Collected action as mid s' → Collected action (a :: as) s s'

/-- A limit on repetition does not matter if every round makes the state smaller and nothing is left
to do in a state of size zero. -/
theorem collect_eq_ok {action : EStateM ε σ (Option α)} (size : σ → Nat) {limit : Nat}
    (hround : ∀ s a s', size s ≤ limit → action s = .ok (some a) s' → size s' < size s)
    (hempty : ∀ s, size s = 0 → action s = .ok none s) (hs : size s ≤ limit) {as : List α} :
    collect action [] limit s = .ok as s' ↔ Collected action as s s' := by
  induction limit generalizing s as with
  | zero =>
    have hnone := hempty s (by omega)
    simp only [collect, List.reverse_nil, pure_eq_ok]
    constructor
    · rintro ⟨rfl, rfl⟩
      exact .nil hnone
    · intro h
      cases h with
      | nil h =>
        rw [hnone] at h
        cases h
        exact ⟨rfl, rfl⟩
      | cons h _ =>
        rw [hnone] at h
        cases h
  | succ limit ih =>
    have hround' : ∀ s a s', size s ≤ limit → action s = .ok (some a) s' → size s' < size s :=
      fun s a s' hs => hround s a s' (by omega)
    rw [collect, bind_eq_ok]
    constructor
    · rintro ⟨_ | a, mid, haction, h⟩
      · obtain ⟨rfl, rfl⟩ := pure_eq_ok.mp h
        exact .nil haction
      · have hmid := hround s a mid hs haction
        obtain ⟨more, hmore, rfl⟩ := collect_singleton_eq_ok.mp h
        exact .cons haction ((ih hround' (by omega)).mp hmore)
    · intro h
      cases h with
      | nil haction => exact ⟨none, s', haction, rfl⟩
      | @cons a as _ mid _ haction hrest =>
        have hmid := hround s a mid hs haction
        have hmore := (ih hround' (by omega)).mpr hrest
        exact ⟨some a, mid, haction, collect_singleton_eq_ok.mpr ⟨as, hmore, rfl⟩⟩

end

namespace Reader

variable {α : Type} {ts rest : List Token}

/-- A reader finds exactly what a relation describes, as long as there are at most `n` tokens. -/
def Finds (r : Reader α) (n : Nat) (D : α → List Token → List Token → Prop) : Prop :=
  ∀ ⦃ts : List Token⦄, ts.length ≤ n → ∀ a rest, r ts = .ok a rest ↔ D a ts rest

/-- A failure never succeeds. -/
theorem fail_eq_ok {what : Expectation} {a : α} : fail what ts = .ok a rest ↔ False := by
  simp [fail]

/-- An expected token is taken exactly when it stands in front. -/
theorem expect_eq_ok {kind : Kind} {what : Expectation} {t : Token} :
    expect kind what ts = .ok t rest ↔ ts = t :: rest ∧ t.kind = kind := by
  cases ts with
  | nil => simp [expect, fail]
  | cons first ts =>
    rw [expect]
    by_cases h : first.kind = kind
    · simp only [h, beq_self_eq_true, if_true, EStateM.Result.ok.injEq, List.cons.injEq]
      constructor
      · rintro ⟨rfl, rfl⟩
        exact ⟨⟨rfl, rfl⟩, h⟩
      · rintro ⟨⟨rfl, rfl⟩, -⟩
        exact ⟨rfl, rfl⟩
    · simp only [beq_eq_false_iff_ne.mpr h, Bool.false_eq_true, if_false, fail, reduceCtorEq,
        List.cons.injEq, false_iff]
      rintro ⟨⟨rfl, -⟩, hkind⟩
      exact h hkind

/-- A token is accepted exactly when it stands in front and passes the test. -/
theorem acceptIf_eq_some {p : Kind → Bool} {t : Token} :
    acceptIf p ts = .ok (some t) rest ↔ ts = t :: rest ∧ p t.kind = true := by
  cases ts with
  | nil => simp [acceptIf]
  | cons first ts =>
    rw [acceptIf]
    by_cases h : p first.kind = true
    · simp only [h, if_true, EStateM.Result.ok.injEq, Option.some.injEq, List.cons.injEq]
      constructor
      · rintro ⟨rfl, rfl⟩
        exact ⟨⟨rfl, rfl⟩, h⟩
      · rintro ⟨⟨rfl, rfl⟩, -⟩
        exact ⟨rfl, rfl⟩
    · simp only [h, if_false, EStateM.Result.ok.injEq, reduceCtorEq, false_and, List.cons.injEq,
        false_iff]
      rintro ⟨⟨rfl, -⟩, hkind⟩
      exact h hkind

/-- Nothing is accepted exactly when the next token fails the test. -/
theorem acceptIf_eq_none {p : Kind → Bool} :
    acceptIf p ts = .ok none rest ↔ rest = ts ∧ leads p ts = false := by
  cases ts with
  | nil => simp [acceptIf, eq_comm]
  | cons first ts =>
    rw [acceptIf, leads_cons]
    by_cases h : p first.kind = true
    · simp [h]
    · simp [h, eq_comm]

/-- A token of one kind is accepted exactly when it stands in front. -/
theorem accept_eq_some {kind : Kind} {t : Token} :
    accept kind ts = .ok (some t) rest ↔ ts = t :: rest ∧ t.kind = kind := by
  rw [accept, acceptIf_eq_some, beq_iff_eq]

/-- Nothing of one kind is accepted exactly when the next token is of another. -/
theorem accept_eq_none {kind : Kind} :
    accept kind ts = .ok none rest ↔ rest = ts ∧ leads (· == kind) ts = false :=
  acceptIf_eq_none

end Reader

end Offside
