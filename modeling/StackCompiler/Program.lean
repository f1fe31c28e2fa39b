import StackCompiler.Frame

/-!
# Programs

The trees that code is generated from. Every variable is bound to a stack slot, and every
comparison is one of four: a program has no "greater than".

The trees may be built by hand. Nothing ties the offsets in a function to the size of its frame,
and any expression may stand as the target of an assignment.
-/

namespace StackCompiler

/-- The binary operations that code is generated for. -/
inductive Op where
  | add | sub | mul | div | eq | ne | lt | le
  deriving Repr, DecidableEq

/-- Expressions. Each has exactly one value, a signed 64-bit integer. -/
inductive Expr where
  | num (value : Int64)
  | var (name : String) (offset loc : Nat)
  | binary (op : Op) (lhs rhs : Expr)
  | assign (target value : Expr) (loc : Nat)
  | call (name : String) (args : List Expr) (loc : Nat)
  deriving Repr

/-- Statements. -/
inductive Stmt where
  | ret (value : Expr)
  | expr (e : Expr)
  | block (body : List Stmt)
  | cond (test : Expr) (yes : Stmt) (no : Option Stmt)
  | loop (start test next : Option Expr) (body : Stmt)
  deriving Repr

/-- A function: its parameters with the slots they are stored in, its body, and the number of
bytes reserved for its frame. -/
structure Function where
  name : String
  loc : Nat
  params : List Slot
  body : List Stmt
  frame : Frame
  frameSize : Nat
  deriving Repr

/-- A program is its functions in source order. -/
abbrev Program := List Function

end StackCompiler
