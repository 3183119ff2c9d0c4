import Offside.Proofs.Scopes
import Offside.Proofs.Simulation

/-!
# Runs that correspond up to numbering and positions

Frames and identities are numbered in the order in which they are made, so two runs of the same code
may use different numbers for the same things. A renumbering keeps some first numbers and matches
the others in order. Two states correspond if their corresponding frames hold alike values. Frames
that correspond to none may hold anything: they are out of reach.
-/

namespace Offside

/-- Numbers below `shared` stand for themselves, and those from `first` on for those from `first'`
on. -/
structure Renumbering where
  shared : Nat
  first : Nat
  first' : Nat
  shared_le : shared ≤ first
  shared_le' : shared ≤ first'

namespace Renumbering

variable {r : Renumbering} {i i' j j' : Nat}

/-- Numbers that were given out in both runs after the same number of others. -/
def Later (r : Renumbering) (i i' : Nat) : Prop := ∃ k, i = r.first + k ∧ i' = r.first' + k

/-- Numbers that stand for the same thing. -/
def Rel (r : Renumbering) (i i' : Nat) : Prop := i = i' ∧ i < r.shared ∨ r.Later i i'

/-- Numbers that were given out later correspond. -/
theorem Later.rel (h : r.Later i i') : r.Rel i i' := .inr h

/-- The next numbers to be given out correspond again. -/
theorem Later.succ (h : r.Later i i') : r.Later (i + 1) (i' + 1) := by
  obtain ⟨k, rfl, rfl⟩ := h
  exact ⟨k + 1, rfl, rfl⟩

/-- The smaller ones of two pairs of later numbers correspond. -/
theorem Later.min (h : r.Later i i') (h' : r.Later j j') : r.Later (min i j) (min i' j') := by
  obtain ⟨k, rfl, rfl⟩ := h
  obtain ⟨l, rfl, rfl⟩ := h'
  exact ⟨Min.min k l, by omega, by omega⟩

/-- A renumbering keeps the order. -/
theorem Rel.lt_iff (h : r.Rel i i') (h' : r.Rel j j') : i < j ↔ i' < j' := by
  have := r.shared_le
  have := r.shared_le'
  rcases h with ⟨rfl, h⟩ | ⟨k, rfl, rfl⟩ <;> rcases h' with ⟨rfl, h'⟩ | ⟨l, rfl, rfl⟩ <;> omega

/-- Numbers are equal on one side exactly if they are on the other. -/
theorem Rel.eq_iff (h : r.Rel i i') (h' : r.Rel j j') : i = j ↔ i' = j' := by
  have hlt := h.lt_iff h'
  have hgt := h'.lt_iff h
  omega

/-- Every number stands for itself. -/
def same : Renumbering := ⟨0, 0, 0, Nat.le_refl _, Nat.le_refl _⟩

/-- Where nothing is renumbered, every number corresponds to itself. -/
theorem same_rel (i : Nat) : same.Rel i i := .inr ⟨i, by simp [same], by simp [same]⟩

end Renumbering

/-- How two runs may differ: in the numbers of frames, in identities, and in the positions of
tokens. -/
structure Correspondence where
  frames : Renumbering
  identities : Renumbering
  moves : (Token → Token) → Prop
  isMove {g : Token → Token} : moves g → IsMove g
  global : frames.Rel Machine.globalFrame Machine.globalFrame

namespace Correspondence

variable {C : Correspondence} {m m' : Machine} {f f' : Nat}

/-- How the values of corresponding runs may differ. -/
def likeness (C : Correspondence) : Likeness where
  identity := C.identities.Rel
  moves := C.moves
  identity_iff := Renumbering.Rel.eq_iff
  isMove := C.isMove

/-- Scopes whose corresponding frames hold alike values. -/
structure OfScopes (C : Correspondence) (s s' : Scopes) : Prop where
  size : C.frames.Later s.size s'.size
  parent {f f' : Nat} : C.frames.Rel f f' → Option.Rel C.frames.Rel (s.parent f) (s'.parent f')
  bindings {f f' : Nat} : C.frames.Rel f f' →
    (s.bindings f).Alike C.likeness (s'.bindings f')

/-- States of corresponding runs. -/
structure OfMachines (C : Correspondence) (m m' : Machine) : Prop where
  scopes : C.OfScopes m.scopes m'.scopes
  sink : m.sink = m'.sink
  depth : m.depth = m'.depth
  depthLimit : m.depthLimit = m'.depthLimit
  identity : C.identities.Later m.nextIdentity m'.nextIdentity

/-! ## Alike bindings -/

/-- Alike bindings are bindings of the same names. -/
theorem names_eq {L : Likeness} {b b' : Bindings} (h : b.Alike L b') : b.names = b'.names := by
  induction h with
  | nil => rfl
  | cons hentry _ ih => simp only [Bindings.names, List.map_cons] at ih ⊢; rw [hentry.1, ih]

/-- A name has alike values in alike bindings, or none in both. -/
theorem rel_lookup {L : Likeness} {b b' : Bindings} (h : b.Alike L b') (name : String) :
    Option.Rel (Value.Alike L) (b.lookup name) (b'.lookup name) := by
  induction h with
  | nil => exact .none
  | @cons entry entry' _ _ hentry _ ih =>
    obtain ⟨n, v⟩ := entry
    obtain ⟨n', v'⟩ := entry'
    obtain ⟨rfl, hv⟩ := hentry
    simp only [List.lookup_cons]
    split
    · exact .some hv
    · exact ih

/-! ## Scopes -/

namespace OfScopes

variable {s s' : Scopes}

/-- Corresponding frames exist in both states or in none. -/
theorem lt_size_iff (h : C.OfScopes s s') (hf : C.frames.Rel f f') :
    f < s.size ↔ f' < s'.size :=
  hf.lt_iff h.size.rel

/-- The frames around two corresponding frames correspond, from the inside out. -/
theorem chain (h : C.OfScopes s s') (hf : C.frames.Rel f f') :
    List.Forall₂ C.frames.Rel (s.chain f) (s'.chain f') := by
  induction f using Nat.strongRecOn generalizing f' with
  | _ f ih =>
    rw [Scopes.chain_eq s, Scopes.chain_eq s']
    simp only [h.lt_size_iff hf]
    split
    · refine .cons hf ?_
      have hparent := h.parent hf
      cases hp : s.parent f with
      | none =>
        rw [hp] at hparent
        cases hp' : s'.parent f' with
        | none => exact .nil
        | some outer' =>
          rw [hp'] at hparent
          cases hparent
      | some outer =>
        rw [hp] at hparent
        cases hp' : s'.parent f' with
        | none =>
          rw [hp'] at hparent
          cases hparent
        | some outer' =>
          rw [hp'] at hparent
          cases hparent with
          | some houter => exact ih outer (Scopes.parent_lt hp) houter
    · exact .nil

/-- A name is bound in both of two corresponding frames or in none. -/
theorem holds_eq (h : C.OfScopes s s') (hf : C.frames.Rel f f') (name : String) :
    s.holds f name = s'.holds f' name := by
  rw [Bool.eq_iff_iff, Scopes.holds_iff, Scopes.holds_iff, names_eq (h.bindings hf)]

/-- The innermost frames in which a name is bound correspond. -/
theorem holder? (h : C.OfScopes s s') (hf : C.frames.Rel f f') (name : String) :
    Option.Rel C.frames.Rel (s.holder? f name) (s'.holder? f' name) := by
  have hchain := h.chain hf
  unfold Scopes.holder?
  generalize s.chain f = frames at hchain
  generalize s'.chain f' = frames' at hchain
  induction hchain with
  | nil => exact .none
  | cons hg _ ih =>
    simp only [List.find?_cons, h.holds_eq hg name]
    split
    · exact .some hg
    · exact ih

/-- A name that is looked up from corresponding frames has alike values. -/
theorem lookup (h : C.OfScopes s s') (hf : C.frames.Rel f f') (name : String) :
    Option.Rel (Value.Alike C.likeness) (s.lookup f name) (s'.lookup f' name) := by
  rw [Scopes.lookup_eq, Scopes.lookup_eq]
  have hholder := h.holder? hf name
  generalize s.holder? f name = holder at hholder
  generalize s'.holder? f' name = holder' at hholder
  cases hholder with
  | none => exact .none
  | some hg => exact rel_lookup (h.bindings hg) name

/-- The frames into which a name is assigned correspond. -/
theorem target (h : C.OfScopes s s') (hf : C.frames.Rel f f') (name : String) :
    C.frames.Rel (s.target f name) (s'.target f' name) := by
  have hholder := h.holder? hf name
  unfold Scopes.target
  generalize s.holder? f name = holder at hholder
  generalize s'.holder? f' name = holder' at hholder
  cases hholder with
  | none => exact hf
  | some hg => exact hg

/-- Assigning alike values keeps the frames alike. -/
theorem assign {v v' : Value} (h : C.OfScopes s s') (hf : C.frames.Rel f f') (name : String)
    (hv : v.Alike C.likeness v') :
    C.OfScopes (s.assign f name v) (s'.assign f' name v') where
  size := by simpa using h.size
  parent hg := by
    rw [Scopes.assign_eq, Scopes.assign_eq, Scopes.parent_define, Scopes.parent_define]
    exact h.parent hg
  bindings hg := by
    rw [Scopes.assign_eq, Scopes.assign_eq, Scopes.bindings_define, Scopes.bindings_define]
    simp only [(h.target hf name).eq_iff hg, h.lt_size_iff hg]
    split
    · exact (h.bindings hg).set name hv
    · exact h.bindings hg

/-- So does entering frames with alike bindings. -/
theorem push {b b' : Bindings} (h : C.OfScopes s s') (hf : C.frames.Rel f f')
    (hb : b.Alike C.likeness b') : C.OfScopes (s.push (some f) b) (s'.push (some f') b') where
  size := by simpa using h.size.succ
  parent hg := by
    rw [Scopes.parent_push, Scopes.parent_push]
    simp only [hg.eq_iff h.size.rel]
    split
    · simp only [Option.filter_some, decide_eq_true_eq, h.lt_size_iff hf]
      split
      · exact .some hf
      · exact .none
    · exact h.parent hg
  bindings hg := by
    rw [Scopes.bindings_push, Scopes.bindings_push]
    simp only [hg.eq_iff h.size.rel]
    split
    · exact hb
    · exact h.bindings hg

/-- So does dropping the frames that were entered later. -/
theorem truncate {n n' : Nat} (h : C.OfScopes s s') (hn : C.frames.Later n n') :
    C.OfScopes (s.truncate n) (s'.truncate n') where
  size := by simpa using hn.min h.size
  parent {g g'} hg := by
    have hlt := hg.lt_iff hn.rel
    by_cases hgn : g < n
    · rw [Scopes.parent_truncate_of_lt hgn, Scopes.parent_truncate_of_lt (hlt.mp hgn)]
      exact h.parent hg
    · have hsize : (s.truncate n).size ≤ g := by simp; omega
      have hsize' : (s'.truncate n').size ≤ g' := by simp; omega
      rw [Scopes.parent_of_size_le hsize, Scopes.parent_of_size_le hsize']
      exact .none
  bindings {g g'} hg := by
    have hlt := hg.lt_iff hn.rel
    by_cases hgn : g < n
    · rw [Scopes.bindings_truncate_of_lt hgn, Scopes.bindings_truncate_of_lt (hlt.mp hgn)]
      exact h.bindings hg
    · have hsize : (s.truncate n).size ≤ g := by simp; omega
      have hsize' : (s'.truncate n').size ≤ g' := by simp; omega
      rw [Scopes.bindings_of_size_le hsize, Scopes.bindings_of_size_le hsize']
      exact .nil

end OfScopes

/-- Corresponding runs as a simulation. -/
def simulation (C : Correspondence) : Simulation where
  toLikeness := C.likeness
  machine := C.OfMachines
  frame := C.frames.Rel
  excused halt := halt = .exhausted
  exhausted := rfl
  global := C.global
  lookup name hm hf := hm.scopes.lookup hf name
  assign name hm hf hv := { hm with scopes := hm.scopes.assign hf name hv }
  issue hm := ⟨hm.identity.rel, { hm with identity := hm.identity.succ }⟩
  print line hm := by
    have hsink := hm.sink
    exact ⟨by rw [hsink], { hm with sink := by rw [hsink] }⟩
  enter hm hf := ⟨hm.scopes.size.rel, { hm with scopes := hm.scopes.push hf .nil }⟩
  leave hm hn := { hn with scopes := hn.scopes.truncate hm.scopes.size }
  tooDeep hm hdeep := .inl (by rw [← hm.depth, ← hm.depthLimit]; exact hdeep)
  notTooDeep hm hdeep := by rw [hm.depth, hm.depthLimit]; exact hdeep
  call hm hb := ⟨hm.scopes.size.rel,
    { hm with
      scopes := hm.scopes.push C.global hb
      depth := congrArg (· + 1) hm.depth }⟩
  comeBack hm hn :=
    { hn with
      scopes := hn.scopes.truncate hm.scopes.size
      depth := congrArg (· - 1) hn.depth }

end Correspondence

end Offside
