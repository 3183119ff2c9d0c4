import Offside.Proofs.Splitting

/-!
# Runs of moved programs

A program whose tokens have moved runs as before: it prints the same and ends alike, and a runtime
error is blamed on the moved token. So a program whose tokens a move leaves where they are blames
its errors on tokens that the move leaves where they are.
-/

namespace Offside

/-! ## Moving twice -/

section

variable (g h : Token → Token)

mutual

/-- Moving an expression twice moves it once by the composition. -/
theorem Expr.move_move : ∀ e : Expr, (e.move g).move h = e.move (h ∘ g)
  | .literal _ | .variable _ => rfl
  | .grouping inner => by simp [Expr.move, inner.move_move]
  | .unary _ operand => by simp [Expr.move, operand.move_move]
  | .binary left _ right => by simp [Expr.move, left.move_move, right.move_move]
  | .logical left _ right => by simp [Expr.move, left.move_move, right.move_move]
  | .assign _ value => by simp [Expr.move, value.move_move]
  | .list items => by simp [Expr.move, Expr.moveEach_move items]
  | .element _ position => by simp [Expr.move, position.move_move]
  | .slice _ start stop => by simp [Expr.move, start.move_move, stop.move_move]
  | .stride _ start stop step => by
    simp [Expr.move, start.move_move, stop.move_move, step.move_move]
  | .call _ arguments => by simp [Expr.move, Expr.moveEach_move arguments]

/-- So it is for each of several expressions. -/
theorem Expr.moveEach_move : ∀ es : List Expr,
    Expr.moveEach h (Expr.moveEach g es) = Expr.moveEach (h ∘ g) es
  | [] => rfl
  | e :: es => by simp [Expr.moveEach, e.move_move, Expr.moveEach_move es]

end

/-- So it is for an expression that may be left out. -/
theorem Expr.map_move_move (e : Option Expr) :
    (e.map (Expr.move g)).map (Expr.move h) = e.map (Expr.move (h ∘ g)) := by
  cases e with
  | none => rfl
  | some e => exact congrArg some (e.move_move g h)

mutual

/-- Moving a statement twice moves it once by the composition. -/
theorem Stmt.move_move : ∀ s : Stmt, (s.move g).move h = s.move (h ∘ g)
  | .expression value => by simp [Stmt.move, value.move_move]
  | .print _ value => by simp [Stmt.move, value.move_move]
  | .assign _ value => by simp [Stmt.move, value.move_move]
  | .block body => by simp [Stmt.move, Stmt.moveEach_move body]
  | .branch condition body otherwise => by
    simp [Stmt.move, condition.move_move, Stmt.moveEach_move body, otherwise.move_move]
  | .loop condition body => by simp [Stmt.move, condition.move_move, Stmt.moveEach_move body]
  | .forRange _ start stop step body => by
    rw [Stmt.move, Stmt.move, Stmt.move, Expr.map_move_move, Expr.map_move_move, stop.move_move,
      Stmt.moveEach_move body, Function.comp_apply]
  | .forEach _ iterable body => by
    simp [Stmt.move, iterable.move_move, Stmt.moveEach_move body]
  | .define _ _ body => by simp [Stmt.move, Stmt.moveEach_move body]
  | .return _ value => by rw [Stmt.move, Stmt.move, Stmt.move, Expr.map_move_move,
      Function.comp_apply]

/-- So it is for an alternative. -/
theorem Alternative.move_move : ∀ a : Alternative, (a.move g).move h = a.move (h ∘ g)
  | .nothing => rfl
  | .another condition body otherwise => by
    simp [Alternative.move, condition.move_move, Stmt.moveEach_move body, otherwise.move_move]
  | .last body => by simp [Alternative.move, Stmt.moveEach_move body]

/-- So it is for a body. -/
theorem Stmt.moveEach_move : ∀ body : List Stmt,
    Stmt.moveEach h (Stmt.moveEach g body) = Stmt.moveEach (h ∘ g) body
  | [] => rfl
  | s :: rest => by simp [Stmt.moveEach, s.move_move, Stmt.moveEach_move rest]

end

end

/-! ## Runs on their own -/

variable {g : Token → Token}

/-- How the run of a moved program differs from that of the program: in the positions of tokens
only. -/
def Correspondence.moved (hg : IsMove g) : Correspondence where
  frames := .same
  identities := .same
  moves h := h = g
  isMove := by
    rintro _ rfl
    exact hg
  global := Renumbering.same_rel _

/-- The state in which a program starts that runs on its own. -/
def freshStart (depthLimit : Nat) : Machine := (Session.new depthLimit {}).start

/-- There is nothing in a fresh state that could have moved. -/
theorem Correspondence.moved_freshStart (hg : IsMove g) (depthLimit : Nat) :
    (Correspondence.moved hg).OfMachines (freshStart depthLimit) (freshStart depthLimit) where
  scopes :=
    { size := ⟨1, rfl, rfl⟩
      parent := by
        intro f f' hf
        obtain rfl := Renumbering.same_rel_iff.mp hf
        cases f with
        | zero => exact .none
        | succ f =>
          rw [Scopes.parent_of_size_le (Nat.le_add_left 1 f)]
          exact .none
      bindings := by
        intro f f' hf
        obtain rfl := Renumbering.same_rel_iff.mp hf
        cases f with
        | zero => exact .nil
        | succ f =>
          rw [Scopes.bindings_of_size_le (Nat.le_add_left 1 f)]
          exact .nil }
  sink := rfl
  depth := rfl
  depthLimit := rfl
  identity := ⟨0, rfl, rfl⟩

/-- A program and its moved copy run alike from a fresh start. -/
theorem related_moved (hg : IsMove g) (fuel depthLimit : Nat) (program : List Stmt) :
    (Correspondence.moved hg).simulation.Related (Correspondence.moved hg).simulation.Flows
      (runProgram fuel program (freshStart depthLimit))
      (runProgram fuel (Stmt.moveEach g program) (freshStart depthLimit)) := by
  let S := (Correspondence.moved hg).simulation
  exact Simulation.matches_body (S.matchesParts (Nat.le_refl fuel)) S.global rfl program _ _
    (Correspondence.moved_freshStart hg depthLimit)

/-- A program that a move leaves as it is blames its errors on tokens that the move leaves as they
are. -/
theorem move_token_of_failed (hg : IsMove g) {fuel depthLimit : Nat} {program : List Stmt}
    (hprogram : Stmt.moveEach g program = program) {e : RuntimeError} {m : Machine}
    (h : runProgram fuel program (freshStart depthLimit) = .error (.failed e) m) :
    g e.token = e.token := by
  have hrelated := related_moved hg fuel depthLimit program
  rw [hprogram, h] at hrelated
  cases hrelated with
  | failed _ he =>
    obtain ⟨-, k, hk, htoken⟩ := he
    have hk' : k = g := hk
    rw [← hk', ← htoken]
  | excused hhalt => cases hhalt

/-- How the ends of a run and of the run of the moved program correspond. -/
inductive MovedEnd (g : Token → Token) :
    EStateM.Result Halt Machine Flow → EStateM.Result Halt Machine Flow → Prop
  | ok {flow flow' : Flow} {m m' : Machine} : m'.sink = m.sink →
    MovedEnd g (.ok flow m) (.ok flow' m')
  | failed {e : RuntimeError} {m m' : Machine} : m'.sink = m.sink →
    MovedEnd g (.error (.failed e) m) (.error (.failed ⟨e.fault, g e.token⟩) m')
  | exhausted {m m' : Machine} : MovedEnd g (.error .exhausted m) (.error .exhausted m')

/-- A moved program ends as before. If the move can be undone, it also runs out of fuel only where
the program does. -/
theorem movedEnd_runProgram {h : Token → Token} (hg : IsMove g) (hh : IsMove h)
    (hundo : ∀ t, h (g t) = t) (fuel depthLimit : Nat) (program : List Stmt) :
    MovedEnd g (runProgram fuel program (freshStart depthLimit))
      (runProgram fuel (Stmt.moveEach g program) (freshStart depthLimit)) := by
  have hthere := related_moved hg fuel depthLimit program
  have hback := related_moved hh fuel depthLimit (Stmt.moveEach g program)
  have hid : h ∘ g = id := funext hundo
  rw [Stmt.moveEach_move, hid, Stmt.moveEach_id] at hback
  generalize runProgram fuel program (freshStart depthLimit) = r at hthere hback
  generalize runProgram fuel (Stmt.moveEach g program) (freshStart depthLimit) = r' at hthere hback
  cases hthere with
  | ok hm _ => exact .ok hm.sink.symm
  | @failed e e' m m' hm he =>
    obtain ⟨fault', token'⟩ := e'
    obtain ⟨hfault, k, hk, htoken⟩ := he
    have hk' : k = g := hk
    simp only at hfault htoken
    rw [hfault, htoken, hk']
    exact .failed hm.sink.symm
  | excused hhalt =>
    cases hhalt
    cases hback with
    | excused hhalt' =>
      cases hhalt'
      exact .exhausted

end Offside
