/-!
# Programs as written

The trees that the grammar gives to a program. Names stand for variables and functions, every
comparison is kept in the direction it was written in, and a unary minus has a node of its own.
Parentheses and unary plus only group, so they leave no node.

Every name keeps the byte offset it was written at, and an assignment the offset of the first
token of its left side.
-/

namespace StackCompiler

namespace Surface

/-- The binary operators of the language. -/
inductive Op where
  | add | sub | mul | div
  | eq | ne
  | lt | le | gt | ge
  deriving Repr, DecidableEq

namespace Op

/-- All operators. -/
def all : List Op :=
  [add, sub, mul, div, eq, ne, lt, le, gt, ge]

/-- How the operator is written. -/
def spelling : Op → String
  | add => "+"
  | sub => "-"
  | mul => "*"
  | div => "/"
  | eq => "=="
  | ne => "!="
  | lt => "<"
  | le => "<="
  | gt => ">"
  | ge => ">="

/-- How loosely the operator binds: an operator of a smaller level binds tighter. -/
def level : Op → Nat
  | mul | div => 1
  | add | sub => 2
  | lt | le | gt | ge => 3
  | eq | ne => 4

/-- The operator of the given level that is written `s`. -/
def ofSpelling? (level : Nat) (s : String) : Option Op :=
  all.find? fun op => op.level == level && op.spelling == s

end Op

/-- The level of the loosest operators. -/
def maxLevel : Nat := 4

/-- Expressions as written. -/
inductive Expr where
  | num (value : Int64)
  | var (name : String) (loc : Nat)
  | neg (operand : Expr)
  | binary (op : Op) (lhs rhs : Expr)
  | assign (target value : Expr) (loc : Nat)
  | call (name : String) (args : List Expr) (loc : Nat)
  deriving Repr

/-- Statements as written. A loop may lack any of its three clauses. -/
inductive Stmt where
  | ret (value : Expr)
  | expr (e : Expr)
  | block (body : List Stmt)
  | cond (test : Expr) (yes : Stmt) (no : Option Stmt)
  | loop (start test next : Option Expr) (body : Stmt)
  deriving Repr

/-- A function definition as written. -/
structure Function where
  name : String
  loc : Nat
  params : List String
  body : List Stmt
  deriving Repr

end Surface

end StackCompiler
