import StackCompiler.Label

/-!
# Listings

The output of the compiler: the lines of an assembly listing for x86-64, in the Intel dialect
without register prefixes. A line is a value of an inductive type, and its text is a function of
it.

The code uses the machine as a stack machine. Operands are pushed, and a few registers hold them
only between two pushes.
-/

namespace StackCompiler

/-! ## 1. Operands -/

/-- The 64-bit registers that listings use. -/
inductive Reg where
  | rax | rdi | rsi | rdx | rcx | r8 | r9 | rbp | rsp
  deriving Repr, DecidableEq

/-- The name of a register. -/
def Reg.text : Reg → String
  | rax => "rax"
  | rdi => "rdi"
  | rsi => "rsi"
  | rdx => "rdx"
  | rcx => "rcx"
  | r8 => "r8"
  | r9 => "r9"
  | rbp => "rbp"
  | rsp => "rsp"

/-- The registers that hold the arguments of a call, in their order. -/
def argRegs : List Reg :=
  [.rdi, .rsi, .rdx, .rcx, .r8, .r9]

/-- The parts that the numbered labels play. -/
inductive Role where
  | otherwise
  | done
  | again
  | padded
  deriving Repr, DecidableEq

/-- How a part is written in a label. -/
def Role.text : Role → String
  | otherwise => "else"
  | done => "end"
  | again => "begin"
  | padded => "call"

/-- The targets of jumps: the place where a function returns, and the numbered labels. -/
inductive Target where
  | exit (function : String)
  | numbered (role : Role) (number : Nat)
  deriving Repr, DecidableEq

/-- How a target is written. -/
def Target.text : Target → String
  | exit function => ".L.return." ++ function
  | numbered role number => ".L." ++ role.text ++ "." ++ Label.text number

/-! ## 2. Instructions -/

/-- The arithmetic instructions that take two registers. -/
inductive Arith where
  | add | sub | imul
  deriving Repr, DecidableEq

/-- The mnemonic of an arithmetic instruction. -/
def Arith.text : Arith → String
  | add => "add"
  | sub => "sub"
  | imul => "imul"

/-- The outcomes of a comparison that can be turned into a value. -/
inductive Test where
  | equal | notEqual | less | lessOrEqual
  deriving Repr, DecidableEq

/-- The mnemonic of the instruction that turns an outcome into a byte. -/
def Test.text : Test → String
  | equal => "sete"
  | notEqual => "setne"
  | less => "setl"
  | lessOrEqual => "setle"

/-- The instructions that listings use. -/
inductive Instr where
  | push (r : Reg)
  | pop (r : Reg)
  /-- Copies a register. -/
  | mov (dst src : Reg)
  /-- Loads a constant. -/
  | movImm (dst : Reg) (value : Int64)
  /-- Reads the frame slot at `offset`. -/
  | loadSlot (dst : Reg) (offset : Nat)
  /-- Writes the frame slot at `offset`. -/
  | storeSlot (offset : Nat) (src : Reg)
  /-- Computes the address of the frame slot at `offset`. -/
  | slotAddress (dst : Reg) (offset : Nat)
  /-- Writes the word at an address. -/
  | store (address src : Reg)
  | arith (op : Arith) (dst src : Reg)
  | addImm (dst : Reg) (value : Nat)
  | subImm (dst : Reg) (value : Nat)
  | andImm (dst : Reg) (value : Nat)
  /-- Widens `rax` to the dividend that a division takes. -/
  | signExtend
  /-- Divides the widened `rax`. -/
  | divide (divisor : Reg)
  | compare (lhs rhs : Reg)
  | compareImm (lhs : Reg) (value : Nat)
  /-- Sets the low byte of `rax` to the outcome of the last comparison. -/
  | setByte (test : Test)
  /-- Clears all of `rax` but its low byte. -/
  | widenByte
  | jump (target : Target)
  /-- Jumps if the last comparison found its sides equal. -/
  | jumpEqual (target : Target)
  /-- Jumps if the last result was not zero. -/
  | jumpNonzero (target : Target)
  | call (function : String)
  | ret
  deriving Repr, DecidableEq

/-- How a frame slot is written as an operand. -/
def slotText (offset : Nat) : String :=
  "[rbp-" ++ toString offset ++ "]"

/-- An instruction with two operands. -/
def twoOperands (mnemonic first second : String) : String :=
  mnemonic ++ " " ++ first ++ ", " ++ second

/-- How an instruction is written. -/
def Instr.text : Instr → String
  | push r => "push " ++ r.text
  | pop r => "pop " ++ r.text
  | mov dst src => twoOperands "mov" dst.text src.text
  | movImm dst value => twoOperands "mov" dst.text (toString value.toInt)
  | loadSlot dst offset => twoOperands "mov" dst.text (slotText offset)
  | storeSlot offset src => twoOperands "mov" (slotText offset) src.text
  | slotAddress dst offset => twoOperands "lea" dst.text (slotText offset)
  | store address src => twoOperands "mov" ("[" ++ address.text ++ "]") src.text
  | arith op dst src => twoOperands op.text dst.text src.text
  | addImm dst value => twoOperands "add" dst.text (toString value)
  | subImm dst value => twoOperands "sub" dst.text (toString value)
  | andImm dst value => twoOperands "and" dst.text (toString value)
  | signExtend => "cqo"
  | divide divisor => "idiv " ++ divisor.text
  | compare lhs rhs => twoOperands "cmp" lhs.text rhs.text
  | compareImm lhs value => twoOperands "cmp" lhs.text (toString value)
  | setByte test => test.text ++ " al"
  | widenByte => "movzx rax, al"
  | jump target => "jmp " ++ target.text
  | jumpEqual target => "je " ++ target.text
  | jumpNonzero target => "jnz " ++ target.text
  | call function => "call " ++ function
  | ret => "ret"

/-! ## 3. Lines -/

/-- The lines of a listing. -/
inductive Line where
  /-- Chooses the dialect. -/
  | dialect
  /-- Makes a function known to the linker. -/
  | exported (function : String)
  /-- The place where a function starts. -/
  | entry (function : String)
  /-- The place that a jump leads to. -/
  | label (target : Target)
  | instr (i : Instr)
  deriving Repr, DecidableEq

/-- How a line is written. Instructions are indented by four spaces. -/
def Line.text : Line → String
  | dialect => ".intel_syntax noprefix"
  | exported function => ".globl " ++ function
  | entry function => function ++ ":"
  | label target => target.text ++ ":"
  | instr i => "    " ++ i.text

/-- A listing is its lines in order. -/
abbrev Listing := List Line

/-- The text of a listing, every line with its line feed. -/
def Listing.text (lines : Listing) : String :=
  lines.foldl (fun written line => written ++ line.text ++ "\n") ""

end StackCompiler
