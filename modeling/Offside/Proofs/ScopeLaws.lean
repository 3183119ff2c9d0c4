import Offside.Proofs.Scopes

/-!
# Laws of scopes

Frames that are made one after the other, each inside an older one or inside none, form a forest,
and a chain follows the frames outward to the root. Giving a name a value writes to a single frame:
all else that any frame holds stays as it is, and only look-ups that end in that frame see the
write.
-/

namespace Offside

namespace Scopes

/-! ## Frames that operations make -/

/-- The operations on frames. -/
inductive Operation where
  /-- Makes an empty frame, inside another one or on its own. -/
  | new (outer : Option Nat)
  | define (frame : Nat) (name : String) (value : Value)
  | assign (frame : Nat) (name : String) (value : Value)

/-- Only frames that exist are operated on. -/
def Operation.Allowed (s : Scopes) : Operation → Prop
  | .new outer => ∀ f ∈ outer, f < s.size
  | .define frame _ _ | .assign frame _ _ => frame < s.size

/-- The frames after an operation. -/
def perform (s : Scopes) : Operation → Scopes
  | .new outer => s.push outer []
  | .define frame name value => s.define frame name value
  | .assign frame name value => s.assign frame name value

/-- Frames that are made by a sequence of operations. -/
inductive Made : Scopes → Prop
  | start : Made {}
  | step {s : Scopes} {operation : Operation} : Made s → operation.Allowed s →
    Made (s.perform operation)

/-- The frame around a given one. -/
def outer? (s : Scopes) (f : Nat) : Option Nat := (s.frames[f]?).bind Frame.outer

/-- Every frame lies inside an older one, or inside none. -/
def Nested (s : Scopes) : Prop := ∀ f, ∀ o ∈ s.outer? f, o < f

section

variable {s : Scopes} {f g : Nat}

/-- A new frame has the outer frame it was made with. -/
theorem outer?_push (s : Scopes) (outer : Option Nat) (bindings : Bindings) (f : Nat) :
    (s.push outer bindings).outer? f = if f = s.size then outer else s.outer? f := by
  by_cases hf : f = s.size
  · rw [if_pos hf, hf, outer?, push, size, Array.getElem?_push_size, Option.bind_some]
  · have hne : f ≠ s.frames.size := hf
    simp [outer?, push, Array.getElem?_push, hne, hf]

/-- Defining a name moves no frame. -/
theorem outer?_define (s : Scopes) (f : Nat) (name : String) (value : Value) (g : Nat) :
    (s.define f name value).outer? g = s.outer? g := by
  by_cases hf : f = g
  · subst hf
    cases hget : s.frames[f]? with
    | none => simp [outer?, define, Array.getElem?_modify, hget]
    | some frame => simp [outer?, define, Array.getElem?_modify, hget, Frame.set]
  · simp [outer?, define, Array.getElem?_modify, hf]

/-- An allowed operation keeps frames inside earlier ones. -/
theorem Nested.perform (h : s.Nested) {operation : Operation} (hop : operation.Allowed s) :
    (s.perform operation).Nested := by
  intro f o ho
  cases operation with
  | new outer =>
    rw [Scopes.perform, outer?_push] at ho
    split at ho
    next hf => exact hf ▸ hop o ho
    next => exact h f o ho
  | define frame name value =>
    rw [Scopes.perform, outer?_define] at ho
    exact h f o ho
  | assign frame name value =>
    rw [Scopes.perform, assign_eq, outer?_define] at ho
    exact h f o ho

/-- In all that was made, frames lie inside earlier ones. -/
theorem Made.nested (h : s.Made) : s.Nested := by
  induction h with
  | start => exact fun f o ho => by cases ho
  | step _ hop ih => exact ih.perform hop

/-- In a forest no chain is cut short. -/
theorem Nested.chain_eq (h : s.Nested) (hf : f < s.size) :
    s.chain f = f :: ((s.outer? f).map s.chain).getD [] := by
  have hparent : s.parent f = s.outer? f := by
    have hget : s.frames[f]? = some s.frames[f] := Array.getElem?_eq_getElem hf
    have houter : s.outer? f = s.frames[f].outer := by rw [outer?, hget, Option.bind_some]
    rw [parent, hget, Option.bind_some, ← houter]
    cases ho : s.outer? f with
    | none => rfl
    | some o => rw [Option.filter_some, if_pos (decide_eq_true (h f o ho))]
  rw [Scopes.chain_eq, if_pos hf, hparent]

/-! ## Writes -/

/-- Giving a name a value in one frame: no other frame and no other name is touched. -/
structure Writes (s t : Scopes) (target : Nat) (name : String) (value : Value) : Prop where
  size : t.size = s.size
  chain (g : Nat) : t.chain g = s.chain g
  lookup (g : Nat) (other : String) : (t.bindings g).lookup other =
    if g = target ∧ other = name then some value else (s.bindings g).lookup other
  /-- Only the frame that is written to may gain the name, and only if it does not hold it. -/
  names (g : Nat) : (t.bindings g).names =
    if g = target ∧ name ∉ (s.bindings g).names then (s.bindings g).names ++ [name]
    else (s.bindings g).names

/-- Defining a name writes it in its frame and nowhere else. -/
theorem writes_define (hf : f < s.size) (name : String) (value : Value) :
    Writes s (s.define f name value) f name value where
  size := size_define ..
  chain := chain_define s f name value
  lookup g other := by
    rw [bindings_define]
    by_cases hg : f = g
    · subst hg
      simp [hf, Bindings.lookup_set]
    · rw [if_neg fun h => hg h.1, if_neg fun h => hg h.1.symm]
  names g := by
    rw [bindings_define]
    by_cases hg : f = g
    · subst hg
      by_cases hname : name ∈ (s.bindings f).names <;> simp [hf, Bindings.names_set, hname]
    · rw [if_neg fun h => hg h.1, if_neg fun h => hg h.1.symm]

/-! ## Look-ups behind a write -/

/-- The name defined is held besides the names held before. -/
theorem holds_define (hf : f < s.size) (g : Nat) (name other : String) (value : Value) :
    (s.define f name value).holds g other =
      (s.holds g other || (decide (g = f) && decide (other = name))) := by
  have hnames := (writes_define hf name value).names g
  rw [Bool.eq_iff_iff, Bool.or_eq_true, Bool.and_eq_true, holds_iff, holds_iff, hnames,
    decide_eq_true_eq, decide_eq_true_eq]
  split
  next h => simp [h.1]
  next h =>
    constructor
    · exact .inl
    · rintro (hheld | ⟨rfl, rfl⟩)
      · exact hheld
      · exact Decidable.not_not.mp fun hnot => h ⟨rfl, hnot⟩

/-- The holder of a name is the first frame that held it or was given it. -/
theorem holder?_define (hf : f < s.size) (g : Nat) (name other : String) (value : Value) :
    (s.define f name value).holder? g other =
      (s.chain g).find? fun h => s.holds h other || (decide (h = f) && decide (other = name)) := by
  rw [holder?, chain_define]
  exact congrArg (List.find? · _) (funext fun h => holds_define hf h name other value)

/-- No other name is seen to change. -/
theorem lookup_define_of_ne (hf : f < s.size) (g : Nat) {name other : String} (value : Value)
    (hne : other ≠ name) : (s.define f name value).lookup g other = s.lookup g other := by
  have hholder : (s.define f name value).holder? g other = s.holder? g other := by
    rw [holder?_define hf, holder?]
    simp [hne]
  rw [lookup_eq, lookup_eq, hholder]
  simp only [(writes_define hf name value).lookup, hne, and_false, if_false]

/-- The first element for which one of two things holds is the first one for the one of them, unless
it is one for the other. -/
theorem find?_or_of_ne {α : Type} {p : α → Bool} {a : α} [DecidableEq α] {xs : List α}
    (h : xs.find? (fun x => p x || decide (x = a)) ≠ some a) :
    xs.find? (fun x => p x || decide (x = a)) = xs.find? p := by
  induction xs with
  | nil => rfl
  | cons x xs ih =>
    by_cases hp : p x
    · simp [hp]
    · by_cases hx : x = a
      · simp [hx] at h
      · simp only [hp, hx, decide_false, Bool.or_self, List.find?_cons_of_neg,
          Bool.false_eq_true, not_false_eq_true] at h ⊢
        exact ih h

/-- The write is seen from exactly those frames from which the frame written to is the nearest one
that holds the name. -/
theorem lookup_define_self (hf : f < s.size) (g : Nat) (name : String) (value : Value) :
    (s.define f name value).lookup g name =
      if (s.define f name value).holder? g name = some f then some value else s.lookup g name := by
  rw [lookup_eq]
  split
  next h => simp [h, (writes_define hf name value).lookup]
  next h =>
    have hholder : (s.define f name value).holder? g name = s.holder? g name := by
      rw [holder?_define hf] at h ⊢
      simp only [decide_true, Bool.and_true] at h ⊢
      exact find?_or_of_ne h
    rw [lookup_eq, ← hholder]
    cases hholds : (s.define f name value).holder? g name with
    | none => rfl
    | some holder =>
      have hne : holder ≠ f := fun heq => h (heq ▸ hholds)
      simp [(writes_define hf name value).lookup, hne]

/-- An assignment goes to a frame that exists. -/
theorem target_lt (hf : f < s.size) (name : String) : s.target f name < s.size := by
  rcases target_cases s f name with heq | ⟨hmem, -⟩
  · rwa [heq]
  · exact (mem_chain hmem).2

/-- From the frame that assigns, the frame written to is the nearest one that holds the name. -/
theorem holder?_assign_self (hf : f < s.size) (name : String) (value : Value) :
    (s.assign f name value).holder? f name = some (s.target f name) := by
  rw [assign_eq, holder?_define (target_lt hf name)]
  simp only [decide_true, Bool.and_true]
  cases hholder : s.holder? f name with
  | none =>
    have htarget : s.target f name = f := by simp [target, hholder]
    rw [htarget, Scopes.chain_eq, if_pos hf, List.find?_cons_of_pos (by simp)]
  | some h =>
    have htarget : s.target f name = h := by simp [target, hholder]
    obtain ⟨hholds, inner, outer, hsplit, hnone⟩ := List.find?_eq_some_iff_append.mp hholder
    rw [htarget, hsplit]
    refine List.find?_eq_some_iff_append.mpr ⟨by simp, inner, outer, rfl, fun g hg => ?_⟩
    have hnot := hnone g hg
    have hne : g ≠ h := by
      rintro rfl
      simp [hholds] at hnot
    simpa [hne] using hnot

/-- The visible names are those that can be looked up. -/
theorem mem_identifiers_iff (s : Scopes) (g : Nat) (name : String) :
    name ∈ s.identifiers g ↔ (s.lookup g name).isSome := by
  have hbound (h : Nat) : name ∈ (s.bindings h).names ↔ s.holds h name := (holds_iff s h name).symm
  rw [identifiers, Text.mem_sortedNames, List.mem_flatMap, lookup_eq]
  cases hholder : s.holder? g name with
  | none =>
    have hnone := List.find?_eq_none.mp hholder
    simp only [Option.bind_none, Option.isSome_none, Bool.false_eq_true, iff_false]
    rintro ⟨h, hmem, hname⟩
    exact hnone h hmem ((hbound h).mp hname)
  | some holder =>
    have hmem := List.mem_of_find?_eq_some hholder
    have hholds := List.find?_some hholder
    have hname := (hbound holder).mpr hholds
    obtain ⟨entry, hentry, hkey⟩ := List.mem_map.mp hname
    have hlookup : ((s.bindings holder).lookup name).isSome :=
      List.lookup_isSome_iff.mpr ⟨entry, hentry, beq_iff_eq.mpr hkey.symm⟩
    simp only [Option.bind_some, hlookup, iff_true]
    exact ⟨holder, hmem, hname⟩

end

/-! ## The laws -/

/-- What giving a name a value, seen from a frame, does to some frames. -/
structure Laws (s : Scopes) (f : Nat) (name : String) (value : Value) : Prop where
  /-- A chain leads from the frame outward. -/
  chain : s.chain f = f :: ((s.outer? f).map s.chain).getD []
  /-- What was assigned is found. -/
  found : (s.assign f name value).lookup f name = some value
  /-- If some frame on the chain holds the name, the nearest such frame is written to, and no frame
  gains a name. -/
  held (inner : List Nat) (holder : Nat) (outer : List Nat) :
    s.chain f = inner ++ holder :: outer → (∀ g ∈ inner, name ∉ (s.bindings g).names) →
    name ∈ (s.bindings holder).names →
      Writes s (s.assign f name value) holder name value ∧
        ∀ g, ((s.assign f name value).bindings g).names = (s.bindings g).names
  /-- If none does, the frame itself gains the name, and no other frame gains any. -/
  unheld : (∀ g ∈ s.chain f, name ∉ (s.bindings g).names) →
    Writes s (s.assign f name value) f name value ∧
      ∀ g, ((s.assign f name value).bindings g).names =
        if g = f then (s.bindings f).names ++ [name] else (s.bindings g).names
  /-- From no frame is any other name seen to change. -/
  others (g : Nat) (other : String) : other ≠ name →
    (s.assign f name value).lookup g other = s.lookup g other
  /-- The change is seen from exactly those frames from which the frame written to is the nearest
  one that holds the name. -/
  seen (g : Nat) : (s.assign f name value).lookup g name =
    if (s.assign f name value).holder? g name = some (s.target f name) then some value
    else s.lookup g name
  /-- A definition writes to the frame itself, whatever the frames around it hold. -/
  define : Writes s (s.define f name value) f name value
  /-- The visible names are those that can be looked up. -/
  visible (g : Nat) (other : String) : other ∈ s.identifiers g ↔ (s.lookup g other).isSome

/-- Assignments, definitions and look-ups obey the laws of scopes in all frames that operations can
make. -/
theorem laws_of_made {s : Scopes} (h : s.Made) {f : Nat} (hf : f < s.size) (name : String)
    (value : Value) : s.Laws f name value := by
  have htarget := target_lt hf name
  have hwrites : Writes s (s.assign f name value) (s.target f name) name value :=
    writes_define htarget name value
  have hseen (g : Nat) := lookup_define_self htarget g name value
  exact {
    chain := h.nested.chain_eq hf
    found := by
      rw [assign_eq, hseen, ← assign_eq, if_pos (holder?_assign_self hf name value)]
    held := by
      intro inner holder outer hchain hinner hholder
      have hholds : s.holder? f name = some holder := by
        refine List.find?_eq_some_iff_append.mpr
          ⟨(holds_iff s holder name).mpr hholder, inner, outer, hchain, fun g hg => ?_⟩
        simpa [← holds_iff] using hinner g hg
      have heq : s.target f name = holder := by simp [target, hholds]
      rw [heq] at hwrites
      refine ⟨hwrites, fun g => ?_⟩
      rw [hwrites.names, if_neg]
      rintro ⟨rfl, hnot⟩
      exact hnot hholder
    unheld := by
      intro hnone
      have hholds : s.holder? f name = none :=
        List.find?_eq_none.mpr fun g hg hg' => hnone g hg ((holds_iff s g name).mp hg')
      have heq : s.target f name = f := by simp [target, hholds]
      rw [heq] at hwrites
      refine ⟨hwrites, fun g => ?_⟩
      rw [hwrites.names]
      have hfresh := hnone f (mem_chain_self hf)
      by_cases hg : g = f
      · simp [hg, hfresh]
      · simp [hg]
    others := fun g other hne => lookup_define_of_ne htarget g value hne
    seen := hseen
    define := writes_define hf name value
    visible := s.mem_identifiers_iff }

/-- Two frames inside the first one, and one inside the second of them. The first frame holds a
name, and another frame has shadowed it. -/
def forest : Scopes :=
  let frames := [.new none, .new (some 0), .new (some 0), .new (some 2)].foldl perform {}
  (frames.define 0 "x" .none).define 1 "x" (.boolean false)

/-- From the innermost frame the name of the outermost one is written to. -/
theorem laws_of_made_forest :
    forest.Made ∧ 3 < forest.size ∧ forest.chain 3 = [3, 2, 0] ∧
      forest.Laws 3 "x" (.boolean true) := by
  have hnew {s : Scopes} (h : s.Made) {f : Nat} (hf : f < s.size) : (s.push (some f) []).Made :=
    have hallowed : Operation.Allowed s (.new (some f)) := by simpa [Operation.Allowed] using hf
    h.step hallowed
  have hdefine {s : Scopes} (h : s.Made) {f : Nat} (hf : f < s.size) (value : Value) :
      (s.define f "x" value).Made :=
    have hallowed : Operation.Allowed s (.define f "x" value) := hf
    h.step hallowed
  have hroot : (Scopes.push {} none []).Made :=
    have hallowed : Operation.Allowed {} (.new none) := nofun
    Made.start.step hallowed
  have hframes := hnew (hnew (hnew hroot (f := 0) (by decide)) (f := 0) (by decide)) (f := 2)
    (by decide)
  have hmade : forest.Made := hdefine (hdefine hframes (by decide) .none) (by decide) _
  have hsize : 3 < forest.size := by decide
  exact ⟨hmade, hsize, by decide +kernel, laws_of_made hmade hsize "x" _⟩

end Scopes

end Offside
