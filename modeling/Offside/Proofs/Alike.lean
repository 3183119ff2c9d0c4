import Mathlib.Data.List.Forall2
import Offside.Proofs.Moves
import Offside.Proofs.Values

/-!
# Values that no program can tell apart

Two values are alike if they differ only in the identities of their lists and functions, which
correspond to each other, and in the positions of the tokens in their functions. Operators,
comparisons and printing treat alike values alike, provided that corresponding identities are equal
on one side exactly if they are on the other.
-/

namespace Offside

/-- How the values of two runs may differ. -/
structure Likeness where
  /-- Which identities correspond. -/
  identity : Nat → Nat → Prop
  /-- How the tokens of functions may have moved. -/
  moves : (Token → Token) → Prop
  identity_iff {i i' j j' : Nat} : identity i i' → identity j j' → (i = j ↔ i' = j')
  isMove {g : Token → Token} : moves g → IsMove g

/-- Values that differ in identities and positions only. -/
inductive Value.Alike (L : Likeness) : Value → Value → Prop
  | number (x : Float) : Alike L (.number x) (.number x)
  | string (contents : String) : Alike L (.string contents) (.string contents)
  | boolean (b : Bool) : Alike L (.boolean b) (.boolean b)
  | none : Alike L .none .none
  | list {i i' : Nat} {items items' : List Value} :
    L.identity i i' → List.Forall₂ (Alike L) items items' →
      Alike L (.list i items) (.list i' items')
  | function {i i' : Nat} {g : Token → Token} (definition : Function) :
    L.identity i i' → L.moves g →
      Alike L (.function i definition) (.function i' (definition.move g))

/-! ## Selections from related lists -/

namespace Selection

variable {α : Type} {R : α → α → Prop} {items items' : List α}

/-- Lists that are alike item by item have alike items at the same index, or none there. -/
theorem rel_getElem? (h : List.Forall₂ R items items') (j : Nat) :
    Option.Rel R items[j]? items'[j]? := by
  induction h generalizing j with
  | nil => exact .none
  | cons ha _ ih =>
    cases j with
    | zero => exact .some ha
    | succ j => simpa using ih j

/-- Elements of related lists at one position are related, or missing in both. -/
theorem element_cases (h : List.Forall₂ R items items') (i : Int) :
    (∃ a a', element items i = .ok a ∧ element items' i = .ok a' ∧ R a a') ∨
      ∃ fault, element items i = .error fault ∧ element items' i = .error fault := by
  unfold element
  rw [h.length_eq]
  cases index? items'.length i with
  | none => exact .inr ⟨_, rfl, rfl⟩
  | some j =>
    have hj := rel_getElem? h j
    simp only [Option.bind_some]
    generalize items[j]? = item at hj
    generalize items'[j]? = item' at hj
    cases hj with
    | none => exact .inr ⟨_, rfl, rfl⟩
    | some ha => exact .inl ⟨_, _, rfl, rfl, ha⟩

/-- So have the items that are picked out by the same indices. -/
theorem forall₂_filterMap_getElem? (h : List.Forall₂ R items items') (js : List Nat) :
    List.Forall₂ R (js.filterMap (items[·]?)) (js.filterMap (items'[·]?)) := by
  induction js with
  | nil => exact .nil
  | cons j js ih =>
    have hj := rel_getElem? h j
    simp only [List.filterMap_cons]
    generalize items[j]? = item at hj
    generalize items'[j]? = item' at hj
    cases hj with
    | none => exact ih
    | some ha => exact .cons ha ih

/-- Slices of related lists are related, or fail in the same way. -/
theorem slice_cases (h : List.Forall₂ R items items') (start stop step : Int) :
    (∃ found found', slice items start stop step = .ok found ∧
      slice items' start stop step = .ok found' ∧ List.Forall₂ R found found') ∨
      ∃ fault, slice items start stop step = .error fault ∧
        slice items' start stop step = .error fault := by
  unfold slice
  simp only [List.size_toArray, h.length_eq, List.getElem?_toArray]
  split
  · exact .inr ⟨_, rfl, rfl⟩
  · split
    · exact .inl ⟨_, _, rfl, rfl, forall₂_filterMap_getElem? h _⟩
    · exact .inr ⟨_, rfl, rfl⟩

end Selection

namespace Value.Alike

variable {L : Likeness} {v v' w w' : Value}

mutual

/-- Alike values compare alike. -/
theorem equal_eq : ∀ {v v' w w' : Value}, v.Alike L v' → w.Alike L w' → v.equal w = v'.equal w'
  | .list i items, v', w, w', hv, hw => by
    cases hv with
    | list hi hitems =>
      cases hw with
      | list hj hitems' =>
        simp only [Value.equal]
        rw [equalItems_eq hitems hitems']
        congr 1
        exact Bool.eq_iff_iff.mpr (by simpa using L.identity_iff hi hj)
      | _ => rfl
  | .number _, v', w, w', hv, hw => by cases hv; cases hw <;> rfl
  | .string _, v', w, w', hv, hw => by cases hv; cases hw <;> rfl
  | .boolean _, v', w, w', hv, hw => by cases hv; cases hw <;> rfl
  | .none, v', w, w', hv, hw => by cases hv; cases hw <;> rfl
  | .function _ _, v', w, w', hv, hw => by
    cases hv with
    | function definition hi hg =>
      cases hw with
      | function definition' hj hg' =>
        simp only [Value.equal]
        exact Bool.eq_iff_iff.mpr (by simpa using L.identity_iff hi hj)
      | _ => rfl

/-- Comparing lists of values item by item has the same outcome for alike lists. -/
theorem equalItems_eq : ∀ {items items' others others' : List Value},
    List.Forall₂ (Alike L) items items' → List.Forall₂ (Alike L) others others' →
      Value.equalItems items others = Value.equalItems items' others'
  | [], _, _, _, h, h' => by cases h; cases h' <;> rfl
  | item :: items, _, _, _, h, h' => by
    cases h with
    | cons hitem hitems =>
      cases h' with
      | nil => rfl
      | cons hother hothers =>
        simp only [Value.equalItems]
        rw [equal_eq hitem hother, equalItems_eq hitems hothers]

end

mutual

/-- Alike values print alike. -/
theorem text_eq : ∀ {v v' : Value}, v.Alike L v' → v.text = v'.text
  | .list i items, v', h => by
    cases h with
    | list hi hitems => simp only [Value.text, texts_eq hitems]
  | .number _, v', h | .string _, v', h | .boolean _, v', h | .none, v', h => by cases h; rfl
  | .function _ _, v', h => by
    cases h with
    | function definition hi hg =>
      simp only [Value.text, Function.move, (L.isMove hg).lexeme]

/-- The items of alike lists are printed as the same texts. -/
theorem texts_eq : ∀ {items items' : List Value},
    List.Forall₂ (Alike L) items items' → Value.texts items = Value.texts items'
  | [], _, h => by cases h; rfl
  | item :: items, _, h => by
    cases h with
    | cons hitem hitems => simp only [Value.texts, text_eq hitem, texts_eq hitems]

end

/-- Alike values are both taken for true or both for false. -/
theorem isTruthy_eq (h : v.Alike L v') : v.isTruthy = v'.isTruthy := by
  cases h <;> rfl

/-- What a literal stands for is alike itself, since no identity is made for it. -/
theorem ofLiteral (value : Literal) : (Value.ofLiteral value).Alike L (Value.ofLiteral value) := by
  cases value <;> constructor

/-- Whether an operator needs no second operand depends on the likeness of the first one only. -/
theorem decides_eq {g : Token → Token} (hg : L.moves g) (operator : Token) (h : v.Alike L v') :
    v.decides operator = v'.decides (g operator) := by
  simp only [Value.decides, (L.isMove hg).kind, h.isTruthy_eq]

/-- Alike values are the same index, or both are none. -/
theorem position?_eq (h : v.Alike L v') :
    Selection.position? v = Selection.position? v' := by
  cases h <;> rfl

/-- The elements of alike values are alike. -/
theorem elements? (h : v.Alike L v') :
    Option.Rel (List.Forall₂ (Alike L)) v.elements? v'.elements? := by
  cases h with
  | list hi hitems => exact .some hitems
  | string contents =>
    refine .some (List.forall₂_map_left_iff.mpr (List.forall₂_map_right_iff.mpr ?_))
    exact List.forall₂_same.mpr fun c _ => .string _
  | _ => exact .none

/-- A value without an identity is alike itself. -/
theorem of_isPlain (h : v.isPlain) : v.Alike L v := by
  cases v with
  | number x => exact .number x
  | string contents => exact .string contents
  | boolean b => exact .boolean b
  | none => exact .none
  | list i items => cases h
  | function i definition => cases h

/-! ## Operators -/

/-- Unary operators fail on alike operands in the same way. -/
theorem unaryFault_eq (kind : Kind) (h : v.Alike L v') :
    Value.unaryFault kind v = Value.unaryFault kind v' := by
  by_cases hminus : kind = .symbol .minus
  · subst hminus
    cases h <;> rfl
  · by_cases hbang : kind = .symbol .bang
    · subst hbang
      simp only [Value.unaryFault, h.isTruthy_eq]
    · simp [Value.unaryFault, hminus]

/-- Alike operands are the same two numbers, or not both of them are numbers. -/
theorem numbers?_eq (hv : v.Alike L v') (hw : w.Alike L w') :
    Value.numbers? v w = Value.numbers? v' w' := by
  cases hv <;> cases hw <;> rfl

/-- Alike operands have the same sum, or both pairs have none. -/
theorem add_eq (hv : v.Alike L v') (hw : w.Alike L w') : Value.add v w = Value.add v' w' := by
  cases hv <;> cases hw <;> rfl

/-- A binary operator does the same with alike operands. -/
theorem binaryFault_eq (kind : Kind) (hv : v.Alike L v') (hw : w.Alike L w') :
    Value.binaryFault kind v w = Value.binaryFault kind v' w' := by
  simp only [Value.binaryFault, Value.arithmetic, Value.comparison, Value.divide,
    numbers?_eq hv hw, add_eq hv hw, equal_eq hv hw]

end Value.Alike

end Offside
