import Offside.Proofs.Contract
import Offside.Proofs.Scopes

/-!
# What evaluation leaves of the frames

Evaluating something in a frame makes and drops frames of its own, but in the end there are as many
frames as before, lying inside each other as before. New names appear only in the frame of the
evaluation, and only frames of its chain and the global frame are written to. Since blocks and
function bodies run in a frame that is dropped afterwards, they add no name to any frame.
-/

namespace Offside

/-- The change that evaluation in the frame `f` may bring about in the frames. -/
structure FrameStep (f : Nat) (s s' : Scopes) : Prop where
  size : s'.size = s.size
  chain (g : Nat) : s'.chain g = s.chain g
  /-- Only the frame of the evaluation gets new names. -/
  names (g : Nat) : g ≠ f → (s'.bindings g).names = (s.bindings g).names
  /-- Frames outside the chain are not written to, except for the global one. -/
  kept (g : Nat) : g ∉ s.chain f → g ≠ Machine.globalFrame → s'.bindings g = s.bindings g

/-- A change that adds no name to any frame. -/
structure SealedStep (f : Nat) (s s' : Scopes) : Prop extends FrameStep f s s' where
  allNames (g : Nat) : (s'.bindings g).names = (s.bindings g).names

namespace FrameStep

variable {f : Nat} {s s' s'' : Scopes}

/-- Leaving the frames alone is a step. -/
theorem refl (f : Nat) (s : Scopes) : FrameStep f s s :=
  ⟨rfl, fun _ => rfl, fun _ _ => rfl, fun _ _ _ => rfl⟩

/-- Two steps on one frame make a step on it. -/
theorem trans (h : FrameStep f s s') (h' : FrameStep f s' s'') : FrameStep f s s'' where
  size := h'.size.trans h.size
  chain g := (h'.chain g).trans (h.chain g)
  names g hg := (h'.names g hg).trans (h.names g hg)
  kept g hg hglobal := by
    have hg' : g ∉ s'.chain f := by rwa [h.chain f]
    exact (h'.kept g hg' hglobal).trans (h.kept g hg hglobal)

/-- Assigning in a frame is a step on it. -/
theorem assign (name : String) (v : Value) : FrameStep f s (s.assign f name v) where
  size := Scopes.size_assign ..
  chain _ := Scopes.chain_assign ..
  names _ hg := Scopes.names_assign_of_ne name v hg
  kept _ hg _ := Scopes.bindings_assign_of_not_mem name v hg

/-- What was done in a new frame adds no name once the frame is dropped. -/
theorem truncate {outer : Nat} {bindings : Bindings}
    (h : FrameStep s.size (s.push (some outer) bindings) s') :
    SealedStep outer s (s'.truncate s.size) := by
  have hsize : s'.size = s.size + 1 := by rw [h.size, Scopes.size_push]
  have hleft : (s'.truncate s.size).size = s.size := by
    rw [Scopes.size_truncate, hsize]
    omega
  have hnames (g : Nat) : ((s'.truncate s.size).bindings g).names = (s.bindings g).names := by
    by_cases hg : g < s.size
    · rw [Scopes.bindings_truncate_of_lt hg, h.names g (by omega),
        Scopes.bindings_push_of_lt hg]
    · rw [Scopes.bindings_of_size_le (by omega), Scopes.bindings_of_size_le (by omega)]
  refine ⟨⟨hleft, fun g => ?_, fun g _ => hnames g, fun g hg hglobal => ?_⟩, hnames⟩
  · by_cases hg : g < s.size
    · rw [Scopes.chain_truncate_of_lt hg (by omega), h.chain, Scopes.chain_push_of_lt hg]
    · rw [Scopes.chain_eq, if_neg (by omega), Scopes.chain_eq, if_neg hg]
  · by_cases hlt : g < s.size
    · have hnot : g ∉ (s.push (some outer) bindings).chain s.size := by
        rw [Scopes.chain_push_size]
        intro hmem
        rcases List.mem_cons.mp hmem with heq | hmem
        · omega
        · exact hg hmem
      rw [Scopes.bindings_truncate_of_lt hlt, h.kept g hnot hglobal,
        Scopes.bindings_push_of_lt hlt]
    · rw [Scopes.bindings_of_size_le (by omega), Scopes.bindings_of_size_le (by omega)]

end FrameStep

/-- Evaluation below the global frame writes to no other frame. -/
theorem SealedStep.kept_of_ne {s s' : Scopes} (h : SealedStep Machine.globalFrame s s') {g : Nat}
    (hg : g ≠ Machine.globalFrame) : s'.bindings g = s.bindings g := by
  have hnot : g ∉ s.chain Machine.globalFrame := by
    intro hmem
    have hle : g ≤ Machine.globalFrame := (Scopes.mem_chain hmem).1
    exact hg (Nat.le_zero.mp hle)
  exact h.kept g hnot hg

/-- Evaluation below the global frame may be seen from any frame. -/
theorem SealedStep.ofGlobal {s s' : Scopes} (h : SealedStep Machine.globalFrame s s') (f : Nat) :
    FrameStep f s s' where
  size := h.size
  chain := h.chain
  names g _ := h.allNames g
  kept _ _ hg := h.kept_of_ne hg

/-- What evaluation does to the frames, as a contract. -/
def Contract.frames : Contract where
  holds _ := True
  allows f m m' := FrameStep f m.scopes m'.scopes
  knows _ _ := True
  refl := FrameStep.refl _ _
  trans := FrameStep.trans
  knows_mono _ _ := trivial
  knows_plain _ := trivial
  knows_item _ _ := trivial
  knows_list _ := trivial
  knows_function _ := trivial
  knows_leave _ _ := trivial
  knows_comeBack _ _ := trivial
  lookup _ _ := trivial
  assign name _ _ := ⟨trivial, FrameStep.assign name _⟩
  issue f m _ := ⟨trivial, FrameStep.refl f m.scopes⟩
  print f m _ _ := ⟨trivial, FrameStep.refl f m.scopes⟩
  enter _ _ _ := trivial
  leave _ _ h := ⟨trivial, h.truncate.toFrameStep⟩
  call _ _ := trivial
  comeBack f _ _ _ _ _ h := ⟨trivial, h.truncate.ofGlobal f⟩

/-- A block adds no name to the frames that were there before it, however it ends. -/
theorem sealedStep_execBlock (fuel f : Nat) (body : List Stmt) (m : Machine) :
    SealedStep f m.scopes
      (Eval.stateAfter ((Parts.withFuel fuel).execBlock f body m)).scopes := by
  have hbody := Contract.yields_untilReturn body
    ((Contract.frames.ofParts fuel).exec m.scopes.size)
  have hstep := (hbody.result (m := m.enter f []) trivial trivial).2
  rw [Parts.execBlock_apply, Eval.stateAfter_thenAlways]
  exact hstep.truncate

/-- A function body adds no name to the frames that were there before the call, and it writes to
the global one only. -/
theorem sealedStep_runBody (fuel : Nat) (function : Function) (values : List Value) (m : Machine) :
    SealedStep Machine.globalFrame m.scopes
      (Eval.stateAfter ((Parts.withFuel fuel).runBody function values m)).scopes := by
  let bindings := Parts.bindParameters function.parameters values
  have hbody := Contract.yields_untilReturn function.body
    ((Contract.frames.ofParts fuel).exec m.scopes.size)
  have hstep := (hbody.result (m := m.call bindings) trivial trivial).2
  rw [Parts.runBody, Eval.stateAfter_thenAlways]
  exact hstep.truncate

/-- An invocation changes no names but the globals', however its body ends. -/
theorem sealedStep_invoke (fuel : Nat) (name : Token) (function : Function) (values : List Value)
    (m : Machine) :
    SealedStep Machine.globalFrame m.scopes
      (Eval.stateAfter ((Parts.withFuel fuel).invoke name function values m)).scopes := by
  rw [Parts.invoke_apply]
  split
  · exact ⟨FrameStep.refl _ _, fun _ => rfl⟩
  · have h := sealedStep_runBody fuel function values m
    simp only [Bind.bind, EStateM.bind]
    cases hrun : (Parts.withFuel fuel).runBody function values m with
    | ok flow m' =>
      rw [hrun] at h
      exact h
    | error e m' =>
      rw [hrun] at h
      exact h

/-- Blocks and function bodies never leak names: however a block or the body of a called function
ends, the frames that were there before are there afterwards, each with exactly the names that were
bound in it. -/
theorem names_kept_by_blocks_and_bodies (fuel : Nat) (m : Machine) :
    (∀ (frame : Nat) (body : List Stmt),
      let m' := Eval.stateAfter ((Parts.withFuel fuel).execBlock frame body m)
      m'.scopes.size = m.scopes.size ∧
        ∀ g, (m'.scopes.bindings g).names = (m.scopes.bindings g).names) ∧
    (∀ (frame : Nat) (body : List Stmt),
      let m' := Eval.stateAfter (Stmt.exec fuel frame (.block body) m)
      m'.scopes.size = m.scopes.size ∧
        ∀ g, (m'.scopes.bindings g).names = (m.scopes.bindings g).names) ∧
    ∀ (name : Token) (function : Function) (values : List Value),
      let m' := Eval.stateAfter ((Parts.withFuel fuel).invoke name function values m)
      m'.scopes.size = m.scopes.size ∧
        ∀ g, (m'.scopes.bindings g).names = (m.scopes.bindings g).names := by
  refine ⟨fun frame body => ?_, fun frame body => ?_, fun name function values => ?_⟩
  · have h := sealedStep_execBlock fuel frame body m
    exact ⟨h.size, h.allNames⟩
  · cases fuel with
    | zero => exact ⟨rfl, fun _ => rfl⟩
    | succ fuel =>
      have h := sealedStep_execBlock fuel frame body m
      exact ⟨h.size, h.allNames⟩
  · have h := sealedStep_invoke fuel name function values m
    exact ⟨h.size, h.allNames⟩

end Offside
