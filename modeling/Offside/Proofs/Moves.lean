import Offside.Value.Basic

/-!
# Programs whose tokens have moved

The same program at another place in a source text has the same tokens with other positions. A move
is a function on tokens that keeps their kind and lexeme; trees and functions move token by token.
-/

namespace Offside

/-- A function on tokens that changes positions only. -/
structure IsMove (g : Token → Token) : Prop where
  kind (t : Token) : (g t).kind = t.kind
  lexeme (t : Token) : (g t).lexeme = t.lexeme

/-- Leaving every token where it is is a move. -/
theorem IsMove.id : IsMove id := ⟨fun _ => rfl, fun _ => rfl⟩

/-- Likewise for a function that is only equal to the identity. -/
theorem isMove_of_eq_id {g : Token → Token} (h : g = id) : IsMove g := h ▸ .id

variable (g : Token → Token)

mutual

/-- An expression with moved tokens. -/
def Expr.move : Expr → Expr
  | .literal value => .literal value
  | .variable name => .variable (g name)
  | .grouping inner => .grouping inner.move
  | .unary operator operand => .unary (g operator) operand.move
  | .binary left operator right => .binary left.move (g operator) right.move
  | .logical left operator right => .logical left.move (g operator) right.move
  | .assign name value => .assign (g name) value.move
  | .list items => .list (Expr.moveEach items)
  | .element name position => .element (g name) position.move
  | .slice name start stop => .slice (g name) start.move stop.move
  | .stride name start stop step => .stride (g name) start.move stop.move step.move
  | .call name arguments => .call (g name) (Expr.moveEach arguments)

/-- Several expressions with moved tokens. -/
def Expr.moveEach : List Expr → List Expr
  | [] => []
  | e :: es => e.move :: Expr.moveEach es

end

mutual

/-- A statement with moved tokens. -/
def Stmt.move : Stmt → Stmt
  | .expression value => .expression (value.move g)
  | .print keyword value => .print (g keyword) (value.move g)
  | .assign name value => .assign (g name) (value.move g)
  | .block body => .block (Stmt.moveEach body)
  | .branch condition body otherwise =>
    .branch (condition.move g) (Stmt.moveEach body) otherwise.move
  | .loop condition body => .loop (condition.move g) (Stmt.moveEach body)
  | .forRange name start stop step body =>
    .forRange (g name) (start.map (Expr.move g)) (stop.move g) (step.map (Expr.move g))
      (Stmt.moveEach body)
  | .forEach name iterable body => .forEach (g name) (iterable.move g) (Stmt.moveEach body)
  | .define name parameters body => .define (g name) (parameters.map g) (Stmt.moveEach body)
  | .return keyword value => .return (g keyword) (value.map (Expr.move g))

/-- The further clauses of a branch with moved tokens. -/
def Alternative.move : Alternative → Alternative
  | .nothing => .nothing
  | .another condition body otherwise =>
    .another (condition.move g) (Stmt.moveEach body) otherwise.move
  | .last body => .last (Stmt.moveEach body)

/-- Several statements with moved tokens. -/
def Stmt.moveEach : List Stmt → List Stmt
  | [] => []
  | s :: rest => s.move :: Stmt.moveEach rest

end

/-- A function with moved tokens. -/
def Function.move (f : Function) : Function :=
  ⟨g f.name, f.parameters.map g, Stmt.moveEach g f.body⟩

/-- Expressions are moved one by one. -/
theorem Expr.moveEach_eq (es : List Expr) : Expr.moveEach g es = es.map (Expr.move g) := by
  induction es with
  | nil => rfl
  | cons e es ih => simp [Expr.moveEach, ih]

/-- Statements are moved one by one. -/
theorem Stmt.moveEach_eq (body : List Stmt) : Stmt.moveEach g body = body.map (Stmt.move g) := by
  induction body with
  | nil => rfl
  | cons s rest ih => simp [Stmt.moveEach, ih]

/-! ## Moving nothing -/

mutual

/-- An expression none of whose tokens is moved is the same expression. -/
@[simp] theorem Expr.move_id : ∀ e : Expr, e.move id = e
  | .literal _ | .variable _ => rfl
  | .grouping inner => by simp [Expr.move, inner.move_id]
  | .unary _ operand => by simp [Expr.move, operand.move_id]
  | .binary left _ right => by simp [Expr.move, left.move_id, right.move_id]
  | .logical left _ right => by simp [Expr.move, left.move_id, right.move_id]
  | .assign _ value => by simp [Expr.move, value.move_id]
  | .list items => by simp [Expr.move, Expr.moveEach_id items]
  | .element _ position => by simp [Expr.move, position.move_id]
  | .slice _ start stop => by simp [Expr.move, start.move_id, stop.move_id]
  | .stride _ start stop step => by simp [Expr.move, start.move_id, stop.move_id, step.move_id]
  | .call _ arguments => by simp [Expr.move, Expr.moveEach_id arguments]

/-- The same holds for the items of a list or the arguments of a call. -/
theorem Expr.moveEach_id : ∀ es : List Expr, Expr.moveEach id es = es
  | [] => rfl
  | e :: es => by simp [Expr.moveEach, e.move_id, Expr.moveEach_id es]

end

/-- The same holds for a part of an expression or statement that may be missing. -/
theorem Expr.map_move_id (e : Option Expr) : e.map (Expr.move id) = e := by
  cases e <;> simp

mutual

/-- A statement none of whose tokens is moved is the same statement. -/
@[simp] theorem Stmt.move_id : ∀ s : Stmt, s.move id = s
  | .expression _ | .print _ _ | .assign _ _ => by simp [Stmt.move]
  | .block body => by simp [Stmt.move, Stmt.moveEach_id body]
  | .branch _ body otherwise => by simp [Stmt.move, Stmt.moveEach_id body, otherwise.move_id]
  | .loop _ body => by simp [Stmt.move, Stmt.moveEach_id body]
  | .forRange _ _ _ _ body => by simp [Stmt.move, Stmt.moveEach_id body, Expr.map_move_id]
  | .forEach _ _ body => by simp [Stmt.move, Stmt.moveEach_id body]
  | .define _ _ body => by simp [Stmt.move, Stmt.moveEach_id body]
  | .return _ _ => by simp [Stmt.move, Expr.map_move_id]

/-- The same holds for what follows the first block of a branch. -/
@[simp] theorem Alternative.move_id : ∀ a : Alternative, a.move id = a
  | .nothing => rfl
  | .another _ body otherwise => by
    simp [Alternative.move, Stmt.moveEach_id body, otherwise.move_id]
  | .last body => by simp [Alternative.move, Stmt.moveEach_id body]

/-- The same holds for the statements of a block. -/
@[simp] theorem Stmt.moveEach_id : ∀ body : List Stmt, Stmt.moveEach id body = body
  | [] => rfl
  | s :: rest => by simp [Stmt.moveEach, s.move_id, Stmt.moveEach_id rest]

end

/-- The same holds for a function with its name, its parameters and its body. -/
@[simp] theorem Function.move_id (f : Function) : f.move id = f := by
  simp [Function.move]

end Offside
