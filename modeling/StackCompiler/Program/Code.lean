import StackCompiler.Listing
import StackCompiler.Program

/-!
# Pieces of code

The instructions of which code is put together. The code uses the machine as a stack machine:
operands are pushed, operations take them from the stack, and a function keeps its variables in
slots below `rbp`.

Calls keep the stack pointer a multiple of sixteen. Its alignment is known only when the program
runs, so every call comes twice, the second time with one word of padding.
-/

namespace StackCompiler

/-- Instructions as lines. -/
def instrs (is : List Instr) : List Line :=
  is.map .instr

/-- Turns the outcome of comparing the two operands into the value zero or one. -/
def compareCode (test : Test) : List Instr :=
  [.compare .rax .rdi, .setByte test, .widenByte]

/-- Computes an operation on the operands in `rax` and `rdi` into `rax`. -/
def Op.code : Op → List Instr
  | .add => [.arith .add .rax .rdi]
  | .sub => [.arith .sub .rax .rdi]
  | .mul => [.arith .imul .rax .rdi]
  | .div => [.signExtend, .divide .rdi]
  | .eq => compareCode .equal
  | .ne => compareCode .notEqual
  | .lt => compareCode .less
  | .le => compareCode .lessOrEqual

/-- Pushes the address of a variable. -/
def Expr.addressCode : Expr → List Instr
  | .var _ offset _ => [.slotAddress .rax offset, .push .rax]
  | _ => []

/-- Calls a function with as many arguments as are pushed, under the label `number`. -/
def callCode (name : String) (args number : Nat) : List Line :=
  instrs ((argRegs.take args).reverse.map .pop)
    ++ instrs [.mov .rax .rsp, .andImm .rax 15, .jumpNonzero (.numbered .padded number),
      .movImm .rax 0, .call name, .jump (.numbered .done number)]
    ++ .label (.numbered .padded number)
    :: instrs [.subImm .rsp 8, .movImm .rax 0, .call name, .addImm .rsp 8]
    ++ .label (.numbered .done number)
    :: instrs [.push .rax]

/-- Drops a value of which only the effects matter. -/
def dropCode : List Instr :=
  [.addImm .rsp 8]

/-- Skips to `target` if the value is zero. -/
def skipCode (target : Target) : List Instr :=
  [.pop .rax, .compareImm .rax 0, .jumpEqual target]

/-- Reserves `size` bytes for a frame. -/
def reserveCode (size : Nat) : List Instr :=
  if size = 0 then [] else [.subImm .rsp size]

/-- Enters a function: sets up its frame and stores its parameters. -/
def Function.enterCode (f : Function) : List Instr :=
  [.push .rbp, .mov .rbp .rsp] ++ reserveCode f.frameSize
    ++ List.zipWith (fun param reg => .storeSlot param.offset reg) f.params argRegs

/-- Leaves a function. All its returns jump to the place where this begins. -/
def leaveCode : List Instr :=
  [.mov .rsp .rbp, .pop .rbp, .ret]

end StackCompiler
