import Mathlib
import Offside.Proofs.Values

/-!
# Equality of values

A list equals itself whatever it holds, and otherwise lists are equal if their items are. This
shortcut by identity is what makes equality depend on the lists that are shared, but only where a
value is not a number. For values whose lists stand in one heap, so that an identity belongs to one
list, equality is symmetric and transitive, and among values without such an item it is equality of
the trees that the values unfold to.
-/

namespace Offside

/-- The lists that exist, by identity. -/
def Heap := Nat → Option (List Value)

/-- The kinds of values. -/
inductive Family where
  | numbers
  | strings
  | booleans
  | none
  | lists
  | functions

namespace Value

/-- All lists in a value stand in the heap. -/
inductive Lives (h : Heap) : Value → Prop
  | plain {v : Value} : v.isPlain → Lives h v
  | list {i : Nat} {items : List Value} : h i = some items → (∀ v ∈ items, Lives h v) →
    Lives h (.list i items)
  | function (i : Nat) (definition : Function) : Lives h (.function i definition)

/-- The kind of a value. -/
def family : Value → Family
  | .number _ => .numbers
  | .string _ => .strings
  | .boolean _ => .booleans
  | .none => .none
  | .list _ _ => .lists
  | .function _ _ => .functions

/-- No number at any depth of a value is a NaN. -/
inductive FreeOfNaN : Value → Prop
  | number {a : Float} : a.isNaN = false → FreeOfNaN (.number a)
  | string (s : String) : FreeOfNaN (.string s)
  | boolean (b : Bool) : FreeOfNaN (.boolean b)
  | none : FreeOfNaN .none
  | list (i : Nat) {items : List Value} : (∀ v ∈ items, FreeOfNaN v) → FreeOfNaN (.list i items)
  | function (i : Nat) (definition : Function) : FreeOfNaN (.function i definition)

/-- Values that are equal up to a shortcut, by which lists are equal because of their identities
alone. Numbers are compared as numbers, and functions by identity. -/
inductive Matches (shortcut : Nat → Nat → Prop) : Value → Value → Prop
  | number {a b : Float} : a == b → Matches shortcut (.number a) (.number b)
  | string (s : String) : Matches shortcut (.string s) (.string s)
  | boolean (b : Bool) : Matches shortcut (.boolean b) (.boolean b)
  | none : Matches shortcut .none .none
  | shared {i j : Nat} {xs ys : List Value} : shortcut i j →
    Matches shortcut (.list i xs) (.list j ys)
  | items {i j : Nat} {xs ys : List Value} : List.Forall₂ (Matches shortcut) xs ys →
    Matches shortcut (.list i xs) (.list j ys)
  | function (i : Nat) (d d' : Function) : Matches shortcut (.function i d) (.function i d')

/-- The trees that two values unfold to are equal: there is no shortcut. -/
def UnfoldAlike : Value → Value → Prop := Matches fun _ _ => False

/-! ## Equality and its shortcut -/

mutual

/-- Values that compare equal match: either they are one list, or they agree in their contents. -/
theorem matches_of_equal : ∀ {x y : Value}, x.equal y = true → x.Matches (· = ·) y
  | .number _, y, h => by
    cases y with
    | number b => exact .number h
    | _ => cases h
  | .string _, y, h => by
    cases y with
    | string t =>
      cases of_decide_eq_true h
      exact .string _
    | _ => cases h
  | .boolean _, y, h => by
    cases y with
    | boolean b =>
      simp only [equal, beq_iff_eq] at h
      exact h ▸ .boolean _
    | _ => cases h
  | .none, y, h => by
    cases y with
    | none => exact .none
    | _ => cases h
  | .list _ xs, y, h => by
    cases y with
    | list j ys =>
      simp only [equal, Bool.or_eq_true, beq_iff_eq] at h
      rcases h with hshared | hitems
      · exact .shared hshared
      · exact .items (matches_of_equalItems hitems)
    | _ => cases h
  | .function _ _, y, h => by
    cases y with
    | function j d =>
      simp only [equal, beq_iff_eq] at h
      exact h ▸ .function _ _ _
    | _ => cases h

/-- So do items that compare equal one by one. -/
theorem matches_of_equalItems : ∀ {xs ys : List Value}, equalItems xs ys = true →
    List.Forall₂ (Matches (· = ·)) xs ys
  | [], ys, h => by
    cases ys with
    | nil => exact .nil
    | cons y ys => cases h
  | x :: xs, ys, h => by
    cases ys with
    | nil => cases h
    | cons y ys =>
      simp only [equalItems, Bool.and_eq_true] at h
      exact .cons (matches_of_equal h.1) (matches_of_equalItems h.2)

end

mutual

/-- Values that match compare equal. -/
theorem equal_of_matches : ∀ {x y : Value}, x.Matches (· = ·) y → x.equal y = true
  | .number _, _, h => by
    cases h with
    | number hab => exact hab
  | .string _, _, h | .boolean _, _, h | .none, _, h | .function _ _, _, h => by
    cases h
    simp [equal]
  | .list _ xs, _, h => by
    cases h with
    | shared hij => simp [equal, hij]
    | items hitems => simp [equal, equalItems_of_matches hitems]

/-- So do items that match one by one. -/
theorem equalItems_of_matches : ∀ {xs ys : List Value},
    List.Forall₂ (Matches (· = ·)) xs ys → equalItems xs ys = true
  | [], _, h => by
    cases h
    rfl
  | x :: xs, _, h => by
    cases h with
    | cons hx hxs => simp [equalItems, equal_of_matches hx, equalItems_of_matches hxs]

end

variable {h : Heap} {x y z : Value}

/-- Only values of one family match. -/
theorem Matches.family_eq {shortcut : Nat → Nat → Prop} (hxy : x.Matches shortcut y) :
    x.family = y.family := by
  cases hxy <;> rfl

/-! ## Laws of equality -/

/-- A number is equal to itself unless it is not a number at all. -/
theorem beq_self_iff_not_isNaN (a : Float) : a == a ↔ a.isNaN = false := by
  rw [Float.beq_self_iff, Float.isNaN_eq_decide_eq_nan, decide_eq_false_iff_not]

/-- Every value equals itself except a bare NaN. -/
theorem equal_self_iff : x.equal x = true ↔ ∀ a, x = .number a → a.isNaN = false := by
  cases x with
  | number a => simp [equal]
  | _ => simp [equal]

mutual

/-- Matching is symmetric. -/
theorem Matches.symm : ∀ {x y : Value}, x.Matches (· = ·) y → y.Matches (· = ·) x
  | .number _, _, h => by
    cases h with
    | number hab => exact .number (BEq.symm hab)
  | .string _, _, h | .boolean _, _, h | .none, _, h | .function _ _, _, h => by
    cases h
    constructor
  | .list _ xs, _, h => by
    cases h with
    | shared hij => exact .shared hij.symm
    | items hitems => exact .items (Matches.symm_each hitems)

/-- So it is for items one by one. -/
theorem Matches.symm_each : ∀ {xs ys : List Value}, List.Forall₂ (Matches (· = ·)) xs ys →
    List.Forall₂ (Matches (· = ·)) ys xs
  | [], _, h => by
    cases h
    exact .nil
  | _ :: _, _, h => by
    cases h with
    | cons hx hxs => exact .cons hx.symm (Matches.symm_each hxs)

end

/-- Lists with one identity have the same items, as the heap holds them once. -/
theorem Lives.items_eq {i : Nat} {xs ys : List Value} (hx : (Value.list i xs).Lives h)
    (hy : (Value.list i ys).Lives h) : xs = ys := by
  cases hx with
  | plain hplain => cases hplain
  | list hxs _ =>
    cases hy with
    | plain hplain => cases hplain
    | list hys _ => exact Option.some.inj (hxs.symm.trans hys)

/-- The items of a list in the heap are in the heap. -/
theorem Lives.item {i : Nat} {items : List Value} {v : Value} (hx : (Value.list i items).Lives h)
    (hv : v ∈ items) : v.Lives h := by
  cases hx with
  | plain hplain => cases hplain
  | list _ hitems => exact hitems v hv

mutual

/-- Equality is transitive on the values of one heap: a shortcut on either side means that the two
lists are the same. -/
theorem Matches.trans : ∀ {x y z : Value}, x.Lives h → y.Lives h → z.Lives h →
    x.Matches (· = ·) y → y.Matches (· = ·) z → x.Matches (· = ·) z
  | .number _, _, _, _, _, _, hxy, hyz => by
    cases hxy with
    | number hab =>
      cases hyz with
      | number hbc => exact .number (BEq.trans hab hbc)
  | .string _, _, _, _, _, _, hxy, hyz | .boolean _, _, _, _, _, _, hxy, hyz
  | .none, _, _, _, _, _, hxy, hyz => by
    cases hxy
    exact hyz
  | .function _ _, _, _, _, _, _, hxy, hyz => by
    cases hxy
    cases hyz
    exact .function _ _ _
  | .list _ xs, _, _, hx, hy, hz, hxy, hyz => by
    cases hxy with
    | shared hij =>
      subst hij
      rw [hx.items_eq hy]
      exact hyz
    | items hitems =>
      cases hyz with
      | shared hjk =>
        subst hjk
        rw [← hy.items_eq hz]
        exact .items hitems
      | items hitems' =>
        exact .items (Matches.trans_each (fun _ => hx.item) (fun _ => hy.item) (fun _ => hz.item)
          hitems hitems')

/-- Matching is transitive for items one by one. -/
theorem Matches.trans_each : ∀ {xs ys zs : List Value}, (∀ v ∈ xs, v.Lives h) →
    (∀ v ∈ ys, v.Lives h) → (∀ v ∈ zs, v.Lives h) → List.Forall₂ (Matches (· = ·)) xs ys →
    List.Forall₂ (Matches (· = ·)) ys zs → List.Forall₂ (Matches (· = ·)) xs zs
  | [], _, _, _, _, _, hxy, hyz => by
    cases hxy
    exact hyz
  | _ :: _, _, _, hx, hy, hz, hxy, hyz => by
    cases hxy with
    | cons hab habs =>
      cases hyz with
      | cons hbc hbcs =>
        rw [List.forall_mem_cons] at hx hy hz
        exact .cons (hab.trans hx.1 hy.1 hz.1 hbc) (Matches.trans_each hx.2 hy.2 hz.2 habs hbcs)

end

/-! ## Equality without the shortcut -/

/-- The items of a list inherit that nothing in it fails to be a number. -/
theorem FreeOfNaN.item {i : Nat} {items : List Value} {v : Value}
    (hx : (Value.list i items).FreeOfNaN) (hv : v ∈ items) : v.FreeOfNaN := by
  cases hx with
  | list _ hitems => exact hitems v hv

mutual

/-- A value unfolds like itself, as all its numbers are equal to themselves. -/
theorem FreeOfNaN.unfoldAlike_self : ∀ {x : Value}, x.FreeOfNaN → x.UnfoldAlike x
  | .number a, hx => by
    cases hx with
    | number ha => exact .number ((beq_self_iff_not_isNaN a).mpr ha)
  | .string _, _ | .boolean _, _ | .none, _ | .function _ _, _ => by constructor
  | .list _ xs, hx => .items (FreeOfNaN.unfoldAlike_each fun _ => hx.item)

/-- So do the items of a list. -/
theorem FreeOfNaN.unfoldAlike_each : ∀ {xs : List Value}, (∀ v ∈ xs, v.FreeOfNaN) →
    List.Forall₂ UnfoldAlike xs xs
  | [], _ => .nil
  | _ :: _, hx => .cons (hx _ List.mem_cons_self).unfoldAlike_self
    (FreeOfNaN.unfoldAlike_each fun v hv => hx v (List.mem_cons_of_mem _ hv))

end

mutual

/-- Without a NaN the shortcut is taken only where the items are equal anyway. -/
theorem Matches.unfoldAlike : ∀ {x y : Value}, x.Lives h → y.Lives h → x.FreeOfNaN →
    x.Matches (· = ·) y → x.UnfoldAlike y
  | .number _, _, _, _, _, hxy => by
    cases hxy with
    | number hab => exact .number hab
  | .string _, _, _, _, _, hxy | .boolean _, _, _, _, _, hxy | .none, _, _, _, _, hxy
  | .function _ _, _, _, _, _, hxy => by
    cases hxy
    constructor
  | .list _ xs, _, hx, hy, hfree, hxy => by
    cases hxy with
    | shared hij =>
      subst hij
      rw [← hx.items_eq hy]
      exact hfree.unfoldAlike_self
    | items hitems =>
      exact .items (Matches.unfoldAlike_each (fun _ => hx.item) (fun _ => hy.item)
        (fun _ => hfree.item) hitems)

/-- Items that match one by one unfold alike. -/
theorem Matches.unfoldAlike_each : ∀ {xs ys : List Value}, (∀ v ∈ xs, v.Lives h) →
    (∀ v ∈ ys, v.Lives h) → (∀ v ∈ xs, v.FreeOfNaN) → List.Forall₂ (Matches (· = ·)) xs ys →
    List.Forall₂ UnfoldAlike xs ys
  | [], _, _, _, _, hxy => by
    cases hxy
    exact .nil
  | _ :: _, _, hx, hy, hfree, hxy => by
    cases hxy with
    | cons hab habs =>
      rw [List.forall_mem_cons] at hx hy hfree
      exact .cons (hab.unfoldAlike hx.1 hy.1 hfree.1)
        (Matches.unfoldAlike_each hx.2 hy.2 hfree.2 habs)

end

mutual

/-- Values that unfold alike match, without any use of the identities. -/
theorem UnfoldAlike.matches : ∀ {x y : Value}, x.UnfoldAlike y → x.Matches (· = ·) y
  | .number _, _, h => by
    cases h with
    | number hab => exact .number hab
  | .string _, _, h | .boolean _, _, h | .none, _, h | .function _ _, _, h => by
    cases h
    constructor
  | .list _ xs, _, h => by
    cases h with
    | shared hfalse => exact hfalse.elim
    | items hitems => exact .items (UnfoldAlike.matches_each hitems)

/-- So do items that unfold alike one by one. -/
theorem UnfoldAlike.matches_each : ∀ {xs ys : List Value}, List.Forall₂ UnfoldAlike xs ys →
    List.Forall₂ (Matches (· = ·)) xs ys
  | [], _, h => by
    cases h
    exact .nil
  | _ :: _, _, h => by
    cases h with
    | cons hx hxs => exact .cons hx.matches (UnfoldAlike.matches_each hxs)

end

/-- What equality of values has to satisfy: it is symmetric and transitive, every value but a bare
NaN equals itself, equal values are of one kind, and without a NaN at any depth it is equality of
what the values unfold to. -/
structure EqualityLaws (x y z : Value) : Prop where
  symm : x.equal y → y.equal x
  trans : x.equal y → y.equal z → x.equal z
  self_iff : x.equal x ↔ ∀ a, x = .number a → a.isNaN = false
  family_eq : x.equal y → x.family = y.family
  iff_unfoldAlike : x.FreeOfNaN → y.FreeOfNaN → (x.equal y ↔ x.UnfoldAlike y)

/-- The laws of equality for values in one heap. -/
theorem Lives.equalityLaws (hx : x.Lives h) (hy : y.Lives h) (hz : z.Lives h) :
    EqualityLaws x y z where
  symm hxy := equal_of_matches (matches_of_equal hxy).symm
  trans hxy hyz :=
    equal_of_matches ((matches_of_equal hxy).trans hx hy hz (matches_of_equal hyz))
  self_iff := equal_self_iff
  family_eq hxy := (matches_of_equal hxy).family_eq
  iff_unfoldAlike hfree _ :=
    ⟨fun hxy => (matches_of_equal hxy).unfoldAlike hx hy hfree,
      fun hxy => equal_of_matches hxy.matches⟩

end Value

end Offside
