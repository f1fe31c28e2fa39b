import StackCompiler.Program
import StackCompiler.Surface

/-!
# Programs from what was written

A function as written becomes a function with stack slots. One pass goes over the parameters and
then over the body in source order, with the frame that has grown so far. Where it meets a variable
for the first time, the variable claims the next slot, and everywhere else it has its slot already.

"Greater than" is "less than" with the sides exchanged, and a negation is a subtraction from zero.
The sides are bound before they are exchanged, so slots follow the source order.
-/

namespace StackCompiler

namespace Surface

/-! ## 1. Operators -/

/-- The operation that computes an operator, and whether its sides are exchanged first. -/
def Op.operation : Op → StackCompiler.Op × Bool
  | add => (.add, false)
  | sub => (.sub, false)
  | mul => (.mul, false)
  | div => (.div, false)
  | eq => (.eq, false)
  | ne => (.ne, false)
  | lt => (.lt, false)
  | le => (.le, false)
  | gt => (.lt, true)
  | ge => (.le, true)

/-- The expression for an operator with its two sides in source order. -/
def Op.apply (op : Op) (lhs rhs : StackCompiler.Expr) : StackCompiler.Expr :=
  if op.operation.2 then .binary op.operation.1 rhs lhs else .binary op.operation.1 lhs rhs

/-! ## 2. Binding to slots -/

mutual

/-- An expression with its variables bound to slots, and the frame that holds them. -/
def Expr.bind (frame : Frame) : Expr → StackCompiler.Expr × Frame
  | .num value => (.num value, frame)
  | .var name loc =>
    let (offset, frame) := frame.resolve name
    (.var name offset loc, frame)
  | .neg operand =>
    let (operand, frame) := operand.bind frame
    (.binary .sub (.num 0) operand, frame)
  | .binary op lhs rhs =>
    let (lhs, frame) := lhs.bind frame
    let (rhs, frame) := rhs.bind frame
    (op.apply lhs rhs, frame)
  | .assign target value loc =>
    let (target, frame) := target.bind frame
    let (value, frame) := value.bind frame
    (.assign target value loc, frame)
  | .call name args loc =>
    let (args, frame) := bindArgs frame args
    (.call name args loc, frame)

/-- The arguments of a call with their variables bound to slots. -/
def bindArgs (frame : Frame) : List Expr → List StackCompiler.Expr × Frame
  | [] => ([], frame)
  | arg :: args =>
    let (arg, frame) := arg.bind frame
    let (args, frame) := bindArgs frame args
    (arg :: args, frame)

end

/-- A clause that may be absent with its variables bound to slots. -/
def bindClause (frame : Frame) : Option Expr → Option StackCompiler.Expr × Frame
  | none => (none, frame)
  | some e =>
    let (e, frame) := e.bind frame
    (some e, frame)

mutual

/-- A statement with its variables bound to slots, and the frame that holds them. -/
def Stmt.bind (frame : Frame) : Stmt → StackCompiler.Stmt × Frame
  | .ret value =>
    let (value, frame) := value.bind frame
    (.ret value, frame)
  | .expr e =>
    let (e, frame) := e.bind frame
    (.expr e, frame)
  | .block body =>
    let (body, frame) := bindBlock frame body
    (.block body, frame)
  | .cond test yes none =>
    let (test, frame) := test.bind frame
    let (yes, frame) := yes.bind frame
    (.cond test yes none, frame)
  | .cond test yes (some no) =>
    let (test, frame) := test.bind frame
    let (yes, frame) := yes.bind frame
    let (no, frame) := no.bind frame
    (.cond test yes (some no), frame)
  | .loop start test next body =>
    let (start, frame) := bindClause frame start
    let (test, frame) := bindClause frame test
    let (next, frame) := bindClause frame next
    let (body, frame) := body.bind frame
    (.loop start test next body, frame)

/-- The statements of a block with their variables bound to slots. -/
def bindBlock (frame : Frame) : List Stmt → List StackCompiler.Stmt × Frame
  | [] => ([], frame)
  | s :: rest =>
    let (s, frame) := s.bind frame
    let (rest, frame) := bindBlock frame rest
    (s :: rest, frame)

end

/-- Parameters with their slots, and the frame that holds them. -/
def bindParams (frame : Frame) : List String → List Slot × Frame
  | [] => ([], frame)
  | name :: names =>
    let (offset, frame) := frame.resolve name
    let (slots, frame) := bindParams frame names
    (⟨name, offset⟩ :: slots, frame)

/-- A function with its parameters and variables bound to slots of a frame of its own. All of the
frame is reserved. -/
def Function.bind (f : Function) : StackCompiler.Function :=
  let (params, frame) := bindParams .empty f.params
  let (body, frame) := bindBlock frame f.body
  { name := f.name
    loc := f.loc
    params := params
    body := body
    frame := frame
    frameSize := frame.size }

end Surface

end StackCompiler
