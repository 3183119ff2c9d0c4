import Offside.Proofs.Contract
import Offside.Proofs.Scopes
import Offside.Session

/-!
# Identities that were given out

Every list and every function that a running program can reach got its identity from the counter of
the machine, so the next identity is new. A state in which this holds is sound; a session starts in
such a state, and running a program keeps it.
-/

namespace Offside

/-- All identities in a value are below `n`. -/
inductive Value.MadeBefore (n : Nat) : Value → Prop
  | plain {v : Value} : v.isPlain → MadeBefore n v
  | list {i : Nat} {items : List Value} : i < n → (∀ v ∈ items, MadeBefore n v) →
    MadeBefore n (.list i items)
  | function {i : Nat} (definition : Function) : i < n → MadeBefore n (.function i definition)

/-- All identities in the values of some bindings are below `n`. -/
def Bindings.MadeBefore (n : Nat) (bindings : Bindings) : Prop :=
  ∀ v ∈ bindings.map Prod.snd, v.MadeBefore n

/-- There is a global frame, and all identities that a program can reach have been given out. -/
structure Machine.Sound (m : Machine) : Prop where
  global : globalFrame < m.scopes.size
  bindings (f : Nat) : (m.scopes.bindings f).MadeBefore m.nextIdentity

/-- What was made before one identity was made before any later one. -/
theorem Value.MadeBefore.mono {n n' : Nat} {v : Value} (h : v.MadeBefore n) (hn : n ≤ n') :
    v.MadeBefore n' := by
  induction h with
  | plain hv => exact .plain hv
  | list hi _ ih => exact .list (Nat.lt_of_lt_of_le hi hn) ih
  | function definition hi => exact .function definition (Nat.lt_of_lt_of_le hi hn)

/-- The items of a list were made when the list was, or before. -/
theorem Value.MadeBefore.item {n i : Nat} {items : List Value} {v : Value}
    (h : (Value.list i items).MadeBefore n) (hv : v ∈ items) : v.MadeBefore n := by
  cases h with
  | plain hplain => simp [Value.isPlain] at hplain
  | list _ hitems => exact hitems v hv

namespace Machine.Sound

variable {m m' : Machine}

/-- What a sound machine looks up was made before. -/
theorem lookup {f : Nat} {name : String} {v : Value} (hm : m.Sound)
    (h : m.scopes.lookup f name = some v) : v.MadeBefore m.nextIdentity :=
  Scopes.Binds.lookup hm.bindings h

/-- Assigning a value that was made before keeps a machine sound. -/
theorem assign {f : Nat} {v : Value} (hm : m.Sound) (name : String)
    (hv : v.MadeBefore m.nextIdentity) : (m.assign f name v).Sound where
  global := by
    have hsize : (m.assign f name v).scopes.size = m.scopes.size := Scopes.size_assign ..
    rw [hsize]
    exact hm.global
  bindings := Scopes.Binds.assign hm.bindings f name hv

/-- Entering a frame of values that were made before keeps a machine sound. -/
theorem enter {bindings : Bindings} (hm : m.Sound) (f : Nat)
    (h : bindings.MadeBefore m.nextIdentity) : (m.enter f bindings).Sound where
  global := by
    have hsize : (m.enter f bindings).scopes.size = m.scopes.size + 1 := Scopes.size_push ..
    have hglobal := hm.global
    omega
  bindings := Scopes.Binds.push hm.bindings (some f) h

/-- Dropping frames keeps a state sound as long as the global frame stays. -/
theorem leave {size : Nat} (hm : m.Sound) (hsize : globalFrame < size) : (m.leave size).Sound where
  global := by
    have hleft : (m.leave size).scopes.size = min size m.scopes.size := Scopes.size_truncate ..
    have hglobal := hm.global
    omega
  bindings := Scopes.Binds.truncate hm.bindings size

/-- Identities that were given out stay given out. -/
theorem later (hm : m.Sound) (hscopes : m'.scopes = m.scopes)
    (hnext : m.nextIdentity ≤ m'.nextIdentity) : m'.Sound where
  global := hscopes ▸ hm.global
  bindings g w hw := (hm.bindings g w (hscopes ▸ hw)).mono hnext

end Machine.Sound

/-- Identities are given out once, as a contract. -/
def Contract.identities : Contract where
  holds := Machine.Sound
  allows _ m m' := m.nextIdentity ≤ m'.nextIdentity
  knows m v := v.MadeBefore m.nextIdentity
  refl := Nat.le_refl _
  trans := Nat.le_trans
  knows_mono hstep hv := hv.mono hstep
  knows_plain hv := .plain hv
  knows_item := Value.MadeBefore.item
  knows_list h := .list (Nat.lt_succ_self _) fun v hv => (h v hv).mono (Nat.le_succ _)
  knows_function definition := .function definition (Nat.lt_succ_self _)
  knows_leave _ hv := hv
  knows_comeBack _ hv := hv
  lookup hm h := hm.lookup h
  assign name hm hv := ⟨hm.assign name hv, Nat.le_refl _⟩
  issue _ _ hm := ⟨hm.later rfl (Nat.le_succ _), Nat.le_succ _⟩
  print _ _ _ hm := ⟨hm.later rfl (Nat.le_refl _), Nat.le_refl _⟩
  enter f _ hm := hm.enter f (by simp [Bindings.MadeBefore])
  leave hm hm' hstep := ⟨hm'.leave hm.global, hstep⟩
  call hm hbindings := (hm.enter Machine.globalFrame hbindings).later rfl (Nat.le_refl _)
  comeBack _ _ _ _ hm hm' hstep :=
    ⟨(hm'.leave hm.global).later rfl (Nat.le_refl _), hstep⟩

/-- A session starts in a sound state. -/
theorem Session.sound_new (depthLimit : Nat) (sink : Sink) :
    (Session.new depthLimit sink).machine.Sound where
  global := by
    change 0 < (Scopes.push {} none []).size
    simp
  bindings := (Scopes.binds_empty _).push none (by simp)

/-- Running a source keeps the state of a session sound, however the run ends. -/
theorem Session.sound_run {fuel : Nat} {s s' : Session} {source : String} {outcome : Outcome}
    (hs : s.machine.Sound) (hrun : s.run fuel source = some (outcome, s')) : s'.machine.Sound := by
  have hstart : s.start.Sound := hs.later rfl (Nat.le_refl _)
  have h := (Contract.yields_untilReturn (check source).program
    ((Contract.identities.ofParts fuel).exec Machine.globalFrame)).result hstart trivial
  rw [Session.run_eq] at hrun
  split at hrun
  · change (Eval.stateAfter (runProgram fuel (check source).program s.start)).Sound ∧ _ at h
    generalize runProgram fuel (check source).program s.start = r at h hrun
    rcases r with ⟨flow, m⟩ | ⟨e | _, m⟩
    · cases hrun
      exact h.1
    · cases hrun
      exact h.1
    · cases hrun
  · cases hrun
    exact hs

end Offside
