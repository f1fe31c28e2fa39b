import StackCompiler.Fault
import StackCompiler.Program.Code
import StackCompiler.Symbol

/-!
# Code of a program

One pass lays out the code of a program and checks it on the way. A function must have a name of its
own that is not reserved, the argument registers must suffice for all parameters and arguments, and
only variables can be assigned to. Every branch, every loop and every call takes a label from the
supply where its code needs one.

Emission stops at the first violation. The labels that were taken before it stay taken.

The code of an expression leaves its value on the stack, one word above what was there, and the
code of a statement leaves the stack as it was. All returns of a function jump to one place at its
end.
-/

namespace StackCompiler

/-- The violation at which emission stopped, its place, and the labels left at that moment. -/
structure Refusal where
  fault : Fault
  loc : Nat
  supply : Label.Supply
  deriving Repr, DecidableEq

/-- The violation as a located fault. -/
def Refusal.located (r : Refusal) : Located :=
  ⟨r.fault, r.loc⟩

/-- The outcome of a check that code can be generated: the labels left, or a violation. -/
abbrev Admission := Except Refusal Label.Supply

/-- The outcome of emission: the code and the labels left, or a violation. -/
abbrev Emission := Except Refusal (Listing × Label.Supply)

/-! ## 1. Checks -/

namespace Admission

/-- Goes on exactly if `holds`. -/
def require (holds : Bool) (fault : Fault) (loc : Nat) (s : Label.Supply) : Admission :=
  if holds then .ok s else .error ⟨fault, loc, s⟩

/-- Goes on exactly if a function may be called `name`. -/
def requireSymbol (name : String) (loc : Nat) (s : Label.Supply) : Admission :=
  require (!Symbol.isReserved name) (.reservedName name) loc s

end Admission

/-- Takes one label for the function at `owner`. -/
def nextLabel (owner : Nat) (s : Label.Supply) : Except Refusal (Nat × Label.Supply) :=
  match s.take? with
  | some taken => .ok taken
  | none => .error ⟨.labelsExhausted, owner, s⟩

/-- The largest number of arguments of a call, and of parameters of a function. -/
def argLimit : Nat :=
  argRegs.length

/-- Whether an expression can be assigned to. -/
def Expr.isVariable : Expr → Bool
  | .var .. => true
  | _ => false

/-! ## 2. Expressions -/

mutual

/-- Lays out an expression of the function at `owner`. -/
def Expr.emit (owner : Nat) : Expr → Label.Supply → Emission
  | .num value, s => .ok (instrs [.movImm .rax value, .push .rax], s)
  | .var _ offset _, s => .ok (instrs [.loadSlot .rax offset, .push .rax], s)
  | .binary op lhs rhs, s => do
    let (left, s) ← lhs.emit owner s
    let (right, s) ← rhs.emit owner s
    .ok (left ++ right ++ instrs ([.pop .rdi, .pop .rax] ++ op.code ++ [.push .rax]), s)
  | .assign target value loc, s => do
    let s ← Admission.require target.isVariable .notAssignable loc s
    let (operand, s) ← value.emit owner s
    .ok (instrs target.addressCode ++ operand
      ++ instrs [.pop .rdi, .pop .rax, .store .rax .rdi, .push .rdi], s)
  | .call name args loc, s => do
    let s ← Admission.require (args.length ≤ argLimit) (.tooManyArguments argLimit) loc s
    let s ← Admission.requireSymbol name loc s
    let (operands, s) ← emitArgs owner args s
    let (number, s) ← nextLabel owner s
    .ok (operands ++ callCode name args.length number, s)

/-- Lays out the arguments of a call, which pushes their values in order. -/
def emitArgs (owner : Nat) : List Expr → Label.Supply → Emission
  | [], s => .ok ([], s)
  | arg :: args, s => do
    let (first, s) ← arg.emit owner s
    let (others, s) ← emitArgs owner args s
    .ok (first ++ others, s)

end

/-- Lays out a clause that may be absent, and `rest` behind it if it is there. -/
def emitClause (owner : Nat) (rest : List Instr) (clause : Option Expr) (s : Label.Supply) :
    Emission :=
  match clause with
  | none => .ok ([], s)
  | some e => do
    let (value, s) ← e.emit owner s
    .ok (value ++ instrs rest, s)

/-! ## 3. Statements -/

mutual

/-- Lays out a statement of `function`, which is the one at `owner`. The third clause of a loop
comes after its body. -/
def Stmt.emit (function : String) (owner : Nat) : Stmt → Label.Supply → Emission
  | .ret value, s => do
    let (value, s) ← value.emit owner s
    .ok (value ++ instrs [.pop .rax, .jump (.exit function)], s)
  | .expr e, s => do
    let (value, s) ← e.emit owner s
    .ok (value ++ instrs dropCode, s)
  | .block body, s => emitBlock function owner body s
  | .cond test yes none, s => do
    let (number, s) ← nextLabel owner s
    let (tested, s) ← test.emit owner s
    let (chosen, s) ← yes.emit function owner s
    .ok (tested ++ instrs (skipCode (.numbered .done number)) ++ chosen
      ++ [.label (.numbered .done number)], s)
  | .cond test yes (some no), s => do
    let (number, s) ← nextLabel owner s
    let (tested, s) ← test.emit owner s
    let (chosen, s) ← yes.emit function owner s
    let (other, s) ← no.emit function owner s
    .ok (tested ++ instrs (skipCode (.numbered .otherwise number)) ++ chosen
      ++ instrs [.jump (.numbered .done number)]
      ++ .label (.numbered .otherwise number) :: other
      ++ [.label (.numbered .done number)], s)
  | .loop start test next body, s => do
    let (number, s) ← nextLabel owner s
    let (started, s) ← emitClause owner dropCode start s
    let (tested, s) ← emitClause owner (skipCode (.numbered .done number)) test s
    let (ran, s) ← body.emit function owner s
    let (stepped, s) ← emitClause owner dropCode next s
    .ok (started ++ .label (.numbered .again number) :: tested ++ ran ++ stepped
      ++ instrs [.jump (.numbered .again number)] ++ [.label (.numbered .done number)], s)

/-- Lays out the statements of a block. -/
def emitBlock (function : String) (owner : Nat) : List Stmt → Label.Supply → Emission
  | [], s => .ok ([], s)
  | stmt :: rest, s => do
    let (first, s) ← stmt.emit function owner s
    let (others, s) ← emitBlock function owner rest s
    .ok (first ++ others, s)

end

/-! ## 4. Functions and programs -/

/-- Lays out the section of a function that comes after those with the names `defined`. -/
def Function.emit (defined : List String) (f : Function) (s : Label.Supply) : Emission := do
  let s ← Admission.requireSymbol f.name f.loc s
  let s ← Admission.require (!defined.contains f.name) (.redefinition f.name) f.loc s
  let s ← Admission.require (f.params.length ≤ argLimit) (.tooManyParameters argLimit) f.loc s
  let (body, s) ← emitBlock f.name f.loc f.body s
  .ok ([.exported f.name, .entry f.name] ++ instrs f.enterCode ++ body
    ++ .label (.exit f.name) :: instrs leaveCode, s)

namespace Program

/-- Lays out the sections of functions that come after those with the names `defined`. -/
def emitAfter (defined : List String) : Program → Label.Supply → Emission
  | [], s => .ok ([], s)
  | f :: rest, s => do
    let (first, s) ← f.emit defined s
    let (others, s) ← emitAfter (f.name :: defined) rest s
    .ok (first ++ others, s)

/-- Generates the listing of a program with labels from the supply `s`, and gives the supply
after it. Labels met before a violation stay taken. -/
def generate (p : Program) (s : Label.Supply) : Except Located Listing × Label.Supply :=
  match p.emitAfter [] s with
  | .ok (sections, rest) => (.ok (.dialect :: sections), rest)
  | .error refusal => (.error refusal.located, refusal.supply)

end Program

end StackCompiler
