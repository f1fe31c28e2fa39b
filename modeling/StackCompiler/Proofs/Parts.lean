import StackCompiler.Program

/-!
# Parts of programs

All the expressions and all the statements that a program is built of, at any depth. Nothing is
said about the order in which they come up.
-/

namespace StackCompiler

/-! ## 1. Expressions -/

mutual

/-- An expression and all expressions inside it. -/
def Expr.parts : Expr → List Expr
  | .num value => [.num value]
  | .var name offset loc => [.var name offset loc]
  | .binary op lhs rhs => .binary op lhs rhs :: (lhs.parts ++ rhs.parts)
  | .assign target value loc => .assign target value loc :: (target.parts ++ value.parts)
  | .call name args loc => .call name args loc :: partsOfArgs args

/-- All expressions in the arguments of a call. -/
def partsOfArgs : List Expr → List Expr
  | [] => []
  | arg :: args => arg.parts ++ partsOfArgs args

end

/-- All expressions in a clause that may be absent. -/
def partsOfClause (clause : Option Expr) : List Expr :=
  clause.elim [] Expr.parts

mutual

/-- All expressions in a statement. -/
def Stmt.exprs : Stmt → List Expr
  | .ret value => value.parts
  | .expr e => e.parts
  | .block body => exprsOfBlock body
  | .cond test yes none => test.parts ++ yes.exprs
  | .cond test yes (some no) => test.parts ++ yes.exprs ++ no.exprs
  | .loop start test next body =>
    partsOfClause start ++ partsOfClause test ++ partsOfClause next ++ body.exprs

/-- All expressions in the statements of a block. -/
def exprsOfBlock : List Stmt → List Expr
  | [] => []
  | s :: rest => s.exprs ++ exprsOfBlock rest

end

/-- Whether an expression is a call. -/
def Expr.isCall : Expr → Bool
  | .call .. => true
  | _ => false

/-! ## 2. Statements -/

mutual

/-- A statement and all statements inside it. -/
def Stmt.parts : Stmt → List Stmt
  | .ret value => [.ret value]
  | .expr e => [.expr e]
  | .block body => .block body :: partsOfBlock body
  | .cond test yes none => .cond test yes none :: yes.parts
  | .cond test yes (some no) => .cond test yes (some no) :: (yes.parts ++ no.parts)
  | .loop start test next body => .loop start test next body :: body.parts

/-- All statements in a block. -/
def partsOfBlock : List Stmt → List Stmt
  | [] => []
  | s :: rest => s.parts ++ partsOfBlock rest

end

/-- Whether a statement is a branch or a loop. -/
def Stmt.isControl : Stmt → Bool
  | .cond .. => true
  | .loop .. => true
  | _ => false

/-! ## 3. Functions and programs -/

/-- All expressions in a function. -/
def Function.exprs (f : Function) : List Expr :=
  exprsOfBlock f.body

/-- All statements in a function. -/
def Function.stmts (f : Function) : List Stmt :=
  partsOfBlock f.body

namespace Program

/-- All expressions in a program. -/
def exprs (p : Program) : List Expr :=
  p.flatMap Function.exprs

/-- All statements in a program. -/
def stmts (p : Program) : List Stmt :=
  p.flatMap Function.stmts

theorem exprs_cons (f : Function) (rest : Program) : exprs (f :: rest) = f.exprs ++ exprs rest :=
  rfl

theorem stmts_cons (f : Function) (rest : Program) : stmts (f :: rest) = f.stmts ++ stmts rest :=
  rfl

/-- The number of calls, branches and loops in a program. -/
def labelled (p : Program) : Nat :=
  p.exprs.countP Expr.isCall + p.stmts.countP Stmt.isControl

end Program

end StackCompiler
