import Offside.Machine

/-!
# Frames after each operation

What the operations on scopes leave unchanged. The chain of a frame depends only on how frames lie
inside each other, so no assignment changes it. An assignment writes to one frame of the chain, and
it adds a name only to the frame from which it is made.
-/

namespace Offside

/-- Every value after setting a name was there before, or is the new one. -/
theorem Bindings.snd_mem_set {bindings : Bindings} {name : String} {value v : Value}
    (h : v ∈ (bindings.set name value).map Prod.snd) : v = value ∨ v ∈ bindings.map Prod.snd := by
  induction bindings with
  | nil => simpa [Bindings.set] using h
  | cons entry rest ih =>
    obtain ⟨n, w⟩ := entry
    simp only [Bindings.set] at h
    split at h
    · rcases List.mem_cons.mp h with h | h
      · exact .inl h
      · exact .inr (List.mem_cons_of_mem _ h)
    · rcases List.mem_cons.mp h with h | h
      · exact .inr (h ▸ List.mem_cons_self)
      · rcases ih h with h | h
        · exact .inl h
        · exact .inr (List.mem_cons_of_mem _ h)

/-- A value that is looked up is bound. -/
theorem Bindings.snd_mem_of_lookup {bindings : Bindings} {name : String} {v : Value}
    (h : bindings.lookup name = some v) : v ∈ bindings.map Prod.snd := by
  obtain ⟨l, r, hsplit, -⟩ := List.lookup_eq_some_iff.mp h
  rw [hsplit]
  simp

namespace Scopes

variable {s : Scopes} {f g : Nat}

/-! ## Bindings -/

/-- A frame that does not exist binds nothing. -/
theorem bindings_of_size_le (h : s.size ≤ g) : s.bindings g = [] := by
  simp [bindings, Array.getElem?_eq_none h]

/-- A definition writes to its own frame and to no other. -/
theorem bindings_define (s : Scopes) (f g : Nat) (name : String) (value : Value) :
    (s.define f name value).bindings g =
      if f = g ∧ g < s.size then (s.bindings g).set name value else s.bindings g := by
  by_cases hg : g < s.size
  · have hget : s.frames[g]? = some s.frames[g] := Array.getElem?_eq_getElem hg
    by_cases hf : f = g
    · simp [bindings, define, Array.getElem?_modify, hf, hget, hg, Frame.set]
    · simp [bindings, define, Array.getElem?_modify, hf]
  · rw [if_neg (by omega), bindings_of_size_le (by simpa using hg), bindings_of_size_le (by omega)]

/-- Making a frame leaves the bindings of all others. -/
theorem bindings_push (s : Scopes) (outer : Option Nat) (bindings : Bindings) (g : Nat) :
    (s.push outer bindings).bindings g = if g = s.size then bindings else s.bindings g := by
  by_cases hg : g = s.size
  · simp [Scopes.bindings, push, hg, size]
  · have hne : g ≠ s.frames.size := hg
    simp [Scopes.bindings, push, Array.getElem?_push, hne, hg]

/-- A new frame leaves the bindings of the others. -/
theorem bindings_push_of_lt (h : g < s.size) (outer : Option Nat) (bindings : Bindings) :
    (s.push outer bindings).bindings g = s.bindings g := by
  rw [bindings_push, if_neg (by omega)]

/-- Truncation keeps the frames below. -/
theorem frames_truncate_of_lt {n : Nat} (h : g < n) :
    (s.truncate n).frames[g]? = s.frames[g]? := by
  by_cases hg : g < s.frames.size
  · have hmin : g < min n s.frames.size := by omega
    simp [truncate, hmin]
  · have hmin : ¬ g < min n s.frames.size := by omega
    simp [truncate, hmin, Nat.le_of_not_lt hg]

/-- The bindings of the frames that remain stay when the others are dropped. -/
theorem bindings_truncate_of_lt {n : Nat} (h : g < n) :
    (s.truncate n).bindings g = s.bindings g := by
  rw [bindings, frames_truncate_of_lt h, bindings]

/-- A frame holds a name exactly if the name is bound in it. -/
theorem holds_iff (s : Scopes) (g : Nat) (name : String) :
    s.holds g name = true ↔ name ∈ (s.bindings g).names := by
  cases hget : s.frames[g]? with
  | none => simp [holds, bindings, Bindings.names, hget]
  | some frame =>
    simp only [holds, bindings, Bindings.names, hget, Option.any_some, Frame.holds, Option.map_some,
      Option.getD_some, List.lookup_isSome_iff, List.mem_map, beq_iff_eq]
    exact ⟨fun ⟨entry, hmem, heq⟩ => ⟨entry, hmem, heq.symm⟩,
      fun ⟨entry, hmem, heq⟩ => ⟨entry, hmem, heq.symm⟩⟩

/-! ## Chains -/

/-- The frame around a given one, if it was made earlier. -/
def parent (s : Scopes) (g : Nat) : Option Nat :=
  (s.frames[g]?).bind fun frame => frame.outer.filter (· < g)

/-- A chain is its first frame and the chain of the frame around it. -/
theorem chain_eq (s : Scopes) (g : Nat) :
    s.chain g = if g < s.size then g :: ((s.parent g).map s.chain).getD [] else [] := by
  rw [chain]
  by_cases hg : g < s.size
  · have hget : s.frames[g]? = some s.frames[g] := Array.getElem?_eq_getElem hg
    cases houter : s.frames[g].outer with
    | none => simp [parent, hget, hg, houter]
    | some outer =>
      by_cases hlt : outer < g
      · simp [parent, hget, hg, houter, Option.filter_some, hlt]
      · simp [parent, hget, hg, houter, Option.filter_some, hlt]
  · have hget : s.frames[g]? = none := Array.getElem?_eq_none (by simpa [size] using hg)
    simp [hget, hg]

/-- A parent was made before its child. -/
theorem parent_lt {outer : Nat} (h : s.parent g = some outer) : outer < g := by
  obtain ⟨frame, _, hframe⟩ := Option.bind_eq_some_iff.mp h
  exact of_decide_eq_true (Option.filter_eq_some_iff.mp hframe).2

/-- A frame that does not exist has no parent. -/
theorem parent_of_size_le (h : s.size ≤ g) : s.parent g = none := by
  simp [parent, Array.getElem?_eq_none h]

/-- Chains agree where the frames that exist and the frames around them agree. -/
theorem chain_congr {t : Scopes} (hsize : ∀ h ≤ g, h < s.size ↔ h < t.size)
    (hparent : ∀ h ≤ g, s.parent h = t.parent h) : s.chain g = t.chain g := by
  induction g using Nat.strongRecOn with
  | _ g ih =>
    rw [chain_eq s, chain_eq t, hparent g (Nat.le_refl _)]
    have houter : (t.parent g).map s.chain = (t.parent g).map t.chain := by
      cases hp : t.parent g with
      | none => rfl
      | some outer =>
        have hlt := parent_lt hp
        simp only [Option.map_some]
        rw [ih outer hlt (fun h hh => hsize h (by omega)) (fun h hh => hparent h (by omega))]
    rw [houter]
    simp only [hsize g (Nat.le_refl _)]

/-- Every frame of a chain exists, and none is newer than its first one. -/
theorem mem_chain {h : Nat} (hmem : h ∈ s.chain g) : h ≤ g ∧ h < s.size := by
  induction g using Nat.strongRecOn with
  | _ g ih =>
    rw [chain_eq] at hmem
    split at hmem
    next hg =>
      rcases List.mem_cons.mp hmem with rfl | hmem
      · exact ⟨(Nat.le_refl _), hg⟩
      · cases hp : s.parent g with
        | none => simp [hp] at hmem
        | some outer =>
          have hlt := parent_lt hp
          have := ih outer hlt (by simpa [hp] using hmem)
          omega
    next => simp at hmem

/-- A chain starts at its own frame. -/
theorem mem_chain_self (h : g < s.size) : g ∈ s.chain g := by
  rw [chain_eq, if_pos h]
  exact List.mem_cons_self

/-- Defining a name moves no frame. -/
theorem parent_define (s : Scopes) (f : Nat) (name : String) (value : Value) (g : Nat) :
    (s.define f name value).parent g = s.parent g := by
  by_cases hf : f = g
  · subst hf
    cases hget : s.frames[f]? with
    | none => simp [parent, define, Array.getElem?_modify, hget]
    | some frame => simp [parent, define, Array.getElem?_modify, hget, Frame.set]
  · simp [parent, define, Array.getElem?_modify, hf]

/-- No definition changes how frames lie inside each other. -/
theorem chain_define (s : Scopes) (f : Nat) (name : String) (value : Value) (g : Nat) :
    (s.define f name value).chain g = s.chain g :=
  chain_congr (by simp) fun h _ => parent_define s f name value h

/-- A new frame has the parent it was made with. -/
theorem parent_push (s : Scopes) (outer : Option Nat) (bindings : Bindings) (g : Nat) :
    (s.push outer bindings).parent g =
      if g = s.size then outer.filter (· < s.size) else s.parent g := by
  by_cases hg : g = s.size
  · rw [if_pos hg, hg, parent, push, size, Array.getElem?_push_size, Option.bind_some]
  · have hne : g ≠ s.frames.size := hg
    simp [parent, push, Array.getElem?_push, hne, hg]

/-- A new frame lies in no chain of an older one. -/
theorem chain_push_of_lt (h : g < s.size) (outer : Option Nat) (bindings : Bindings) :
    (s.push outer bindings).chain g = s.chain g := by
  apply chain_congr
  · intro k hk
    simp only [size_push]
    omega
  · intro k hk
    rw [parent_push, if_neg (by omega)]

/-- The chain of a new frame continues with the chain of the frame around it. -/
theorem chain_push_size (s : Scopes) (outer : Nat) (bindings : Bindings) :
    (s.push (some outer) bindings).chain s.size = s.size :: s.chain outer := by
  rw [chain_eq, if_pos (by simp), parent_push, if_pos rfl]
  by_cases h : outer < s.size
  · simp [Option.filter_some, h, chain_push_of_lt h]
  · rw [chain_eq s outer, if_neg h]
    simp [Option.filter_some, h]

/-- Truncation keeps the parents of the frames below. -/
theorem parent_truncate_of_lt {n : Nat} (h : g < n) : (s.truncate n).parent g = s.parent g := by
  rw [parent, frames_truncate_of_lt h, parent]

/-- Truncation keeps the chains of the frames below. -/
theorem chain_truncate_of_lt {n : Nat} (h : g < n) (hn : n ≤ s.size) :
    (s.truncate n).chain g = s.chain g := by
  apply chain_congr
  · intro k hk
    simp only [size_truncate]
    omega
  · intro k hk
    exact parent_truncate_of_lt (by omega)

/-! ## Look-up -/

/-- A name is looked up in the frame that holds it. -/
theorem lookup_eq (s : Scopes) (f : Nat) (name : String) :
    s.lookup f name = (s.holder? f name).bind fun holder => (s.bindings holder).lookup name := by
  unfold lookup
  cases s.holder? f name with
  | none => rfl
  | some holder =>
    cases hget : s.frames[holder]? with
    | none => simp [bindings, hget]
    | some frame => simp [bindings, hget]

/-! ## Assignments -/

/-- The frame that an assignment writes to. -/
def target (s : Scopes) (f : Nat) (name : String) : Nat := (s.holder? f name).getD f

/-- A name is assigned where it is held, or else where the assignment stands. -/
theorem assign_eq (s : Scopes) (f : Nat) (name : String) (value : Value) :
    s.assign f name value = s.define (s.target f name) name value := rfl

/-- An assignment writes to the frame from which it is made, or to a frame of its chain that holds
the name. -/
theorem target_cases (s : Scopes) (f : Nat) (name : String) :
    s.target f name = f ∨
      s.target f name ∈ s.chain f ∧ name ∈ (s.bindings (s.target f name)).names := by
  unfold target
  cases hholder : s.holder? f name with
  | none => exact .inl rfl
  | some holder =>
    right
    have hholds := List.find?_some hholder
    exact ⟨List.mem_of_find?_eq_some hholder, (holds_iff s holder name).mp hholds⟩

/-- An assignment adds no name to any frame but the one from which it is made. -/
theorem names_assign_of_ne (name : String) (value : Value) (hg : g ≠ f) :
    ((s.assign f name value).bindings g).names = (s.bindings g).names := by
  rw [assign_eq, bindings_define]
  split
  next h =>
    rcases target_cases s f name with heq | ⟨_, hbound⟩
    · exact absurd (h.1.symm.trans heq) hg
    · rw [h.1] at hbound
      rw [Bindings.names_set, if_pos hbound]
  next => rfl

/-- An assignment leaves every frame outside the chain as it was. -/
theorem bindings_assign_of_not_mem (name : String) (value : Value) (hg : g ∉ s.chain f) :
    (s.assign f name value).bindings g = s.bindings g := by
  rw [assign_eq, bindings_define]
  split
  next h =>
    rcases target_cases s f name with heq | ⟨hmem, _⟩
    · have hfg : f = g := heq.symm.trans h.1
      exact absurd (mem_chain_self (hfg ▸ h.2)) (hfg ▸ hg)
    · exact absurd (h.1 ▸ hmem) hg
  next => rfl

/-- An assignment moves no frame. -/
theorem chain_assign (s : Scopes) (f : Nat) (name : String) (value : Value) (g : Nat) :
    (s.assign f name value).chain g = s.chain g :=
  chain_define ..

/-! ## All bound values -/

/-- Every value that is bound in some frame satisfies `P`. -/
def Binds (P : Value → Prop) (s : Scopes) : Prop := ∀ g, ∀ v ∈ (s.bindings g).map Prod.snd, P v

section

variable {P : Value → Prop}

/-- No frame binds nothing. -/
theorem binds_empty (P : Value → Prop) : Binds P {} := by
  intro g v hv
  rw [bindings_of_size_le (Nat.zero_le _)] at hv
  cases hv

namespace Binds

/-- What is looked up has the property of all that is bound. -/
theorem lookup (h : s.Binds P) {name : String} {v : Value}
    (hv : s.lookup f name = some v) : P v := by
  rw [lookup_eq] at hv
  obtain ⟨g, -, hbound⟩ := Option.bind_eq_some_iff.mp hv
  exact h g v (Bindings.snd_mem_of_lookup hbound)

/-- An assignment keeps a property that its value has. -/
theorem assign (h : s.Binds P) (f : Nat) (name : String) {v : Value} (hv : P v) :
    (s.assign f name v).Binds P := by
  intro g w hw
  rw [assign_eq, bindings_define] at hw
  split at hw
  · rcases Bindings.snd_mem_set hw with rfl | hw
    · exact hv
    · exact h g w hw
  · exact h g w hw

/-- A new frame keeps a property that its values have. -/
theorem push (h : s.Binds P) (outer : Option Nat) {bindings : Bindings}
    (hbindings : ∀ v ∈ bindings.map Prod.snd, P v) : (s.push outer bindings).Binds P := by
  intro g w hw
  rw [bindings_push] at hw
  split at hw
  · exact hbindings w hw
  · exact h g w hw

/-- Truncation keeps a property of all that is bound. -/
theorem truncate (h : s.Binds P) (size : Nat) : (s.truncate size).Binds P := by
  intro g w hw
  by_cases hg : g < size
  · rw [bindings_truncate_of_lt hg] at hw
    exact h g w hw
  · have hsize : (s.truncate size).size ≤ g := by simp; omega
    rw [bindings_of_size_le hsize] at hw
    cases hw

end Binds

end

end Scopes

end Offside
