import Mathlib.Logic.Relation
import StackCompiler.Listing
import StackCompiler.Proofs.Memory

/-!
# A machine that runs listings

The meaning of the instructions of a listing on x86-64. Registers and memory words have 64 bits,
and arithmetic wraps around. Where a run stands is given by the lines that are still to come.

The stack may use every address down to zero. A stack pointer that would have to pass zero stops
the machine, as do a division that traps and a conditional instruction that tests flags which the
instruction before it leaves open. Labels, entries and directives take no effect.

Where the lines are loaded is up to whoever loads them (`Image`). A return address is a word like
any other, and returning to a word that is no address of the listing leaves the listing.
-/

namespace StackCompiler

/-- The lines of a listing from the first `line` on. -/
def Listing.startingAt? (line : Line) : Listing → Option Listing
  | [] => none
  | first :: rest => if first = line then some (first :: rest) else startingAt? line rest

namespace Machine

/-! ## 1. States -/

/-- The flags that conditional instructions test. -/
structure Flags where
  zero : Bool
  sign : Bool
  overflow : Bool

namespace Flags

/-- The flags after a comparison, which subtracts `b` from `a`. -/
def ofDifference (a b : Word) : Flags where
  zero := a - b == 0
  sign := (a - b).msb
  overflow := a.msb != b.msb && (a - b).msb != a.msb

/-- The flags after an operation on bits with the given result. -/
def ofBits (result : Word) : Flags where
  zero := result == 0
  sign := result.msb
  overflow := false

/-- Whether a test holds. -/
def passes (f : Flags) : Test → Bool
  | .equal => f.zero
  | .notEqual => !f.zero
  | .less => f.sign != f.overflow
  | .lessOrEqual => f.zero || f.sign != f.overflow

end Flags

/-- Where a run stands. -/
inductive Control where
  /-- In the listing, with these lines still to come. -/
  | here (rest : Listing)
  /-- Outside of the listing, at this address. -/
  | away (address : Word)

/-- A state of the machine. Flags that no program may rely on are left open. -/
structure State where
  control : Control
  reg : Reg → Word
  flags : Option Flags
  mem : Memory

namespace State

/-- The state in which a register holds `v`. -/
def set (s : State) (r : Reg) (v : Word) : State :=
  { s with reg := fun q => if q = r then v else s.reg q }

/-- The state in which the word at the address `a` is `v`. -/
def poke (s : State) (a v : Word) : State :=
  { s with mem := s.mem.write a v }

/-- The state with these flags. -/
def flag (s : State) (f : Option Flags) : State :=
  { s with flags := f }

/-- The state that stands elsewhere. -/
def goto (s : State) (c : Control) : State :=
  { s with control := c }

/-- The state after a jump, if the listing has the line that the jump leads to. -/
def jump? (s : State) (lines : Listing) (line : Line) : Option State :=
  (lines.startingAt? line).map fun rest => s.goto (.here rest)

/-- The address of the frame slot at `offset`. -/
def slot (s : State) (offset : Nat) : Word :=
  s.reg .rbp - BitVec.ofNat 64 offset

/-- The address that the stack pointer holds, as a number. -/
def top (s : State) : Nat :=
  (s.reg .rsp).toNat

/-- The state after pushing `v`. -/
def push (s : State) (v : Word) : State :=
  (s.set .rsp (s.reg .rsp - 8)).poke (s.reg .rsp - 8) v

/-- The state after popping a word into a register. -/
def pop (s : State) (r : Reg) : State :=
  (s.set .rsp (s.reg .rsp + 8)).set r (s.mem.read (s.reg .rsp))

/-- The state after dividing the double word in `rdx` and `rax`. There is none if the divisor is
zero or the quotient does not fit into a word. -/
def divide? (s : State) (divisor : Word) : Option State :=
  let dividend := (s.reg .rdx ++ s.reg .rax).toInt
  let quotient := dividend.tdiv divisor.toInt
  if divisor ≠ 0 ∧ (BitVec.ofInt 64 quotient).toInt = quotient then
    some (((s.set .rax (BitVec.ofInt 64 quotient)).set .rdx
      (BitVec.ofInt 64 (dividend.tmod divisor.toInt))).flag none)
  else none

/-- A state that starts with the given lines, with an empty stack below `top` and an argument in the
first of its registers. -/
def entering (entry : Listing) (top : Word) (arg : Int64) : State where
  control := .here entry
  reg r := if r = .rsp then top else if r = .rdi then arg.toBitVec else 0
  flags := none
  mem _ := 0

end State

end Machine

/-! ## 2. Instructions -/

open Machine

/-- The value of an arithmetic instruction. -/
def Arith.apply : Arith → Word → Word → Word
  | add, a, b => a + b
  | sub, a, b => a - b
  | imul, a, b => a * b

/-- What an instruction does to registers, flags and memory. There is nothing that an instruction
does which stops the machine, or which only goes elsewhere. -/
def Instr.effect (s : State) : Instr → Option State
  | push r => if 8 ≤ s.top then some (s.push (s.reg r)) else none
  | pop r => some (s.pop r)
  | mov dst src => some (s.set dst (s.reg src))
  | movImm dst value => some (s.set dst value.toBitVec)
  | loadSlot dst offset => some (s.set dst (s.mem.read (s.slot offset)))
  | storeSlot offset src => some (s.poke (s.slot offset) (s.reg src))
  | slotAddress dst offset => some (s.set dst (s.slot offset))
  | store address src => some (s.poke (s.reg address) (s.reg src))
  | arith op dst src => some ((s.set dst (op.apply (s.reg dst) (s.reg src))).flag none)
  | addImm dst value => some ((s.set dst (s.reg dst + BitVec.ofNat 64 value)).flag none)
  | subImm dst value =>
    if dst = .rsp ∧ s.top < value then none
    else some ((s.set dst (s.reg dst - BitVec.ofNat 64 value)).flag none)
  | andImm dst value =>
    let result := s.reg dst &&& BitVec.ofNat 64 value
    some ((s.set dst result).flag (some (.ofBits result)))
  | signExtend => some (s.set .rdx (if (s.reg .rax).msb then BitVec.allOnes 64 else 0))
  | divide divisor => s.divide? (s.reg divisor)
  | compare lhs rhs => some (s.flag (some (.ofDifference (s.reg lhs) (s.reg rhs))))
  | compareImm lhs value => some (s.flag (some (.ofDifference (s.reg lhs) (BitVec.ofNat 64 value))))
  | setByte test => s.flags.map fun f =>
    s.set .rax ((s.reg .rax).extractLsb' 8 56 ++ (if f.passes test then 1 else 0 : BitVec 8))
  | widenByte => some (s.set .rax (((s.reg .rax).extractLsb' 0 8).setWidth 64))
  | jump _ | jumpEqual _ | jumpNonzero _ | call _ | ret => none

/-- The address at which an instruction writes a word to memory, if it does. -/
def Instr.written? (s : State) : Instr → Option Word
  | push _ | call _ => some (s.reg .rsp - 8)
  | storeSlot offset _ => some (s.slot offset)
  | store address _ => some (s.reg address)
  | _ => none

namespace Machine

/-! ## 3. Runs -/

/-- A listing in memory: where its lines are, and which line is found at an address. Labels take
no space, so only instructions are found at their addresses. -/
structure Image (lines : Listing) where
  address : Nat → Word
  line? : Word → Option Nat
  line?_address : ∀ n i, lines[n]? = some (.instr i) → line? (address n) = some n

namespace Image

/-- The image in which the number of a line is its address. -/
def plain (lines : Listing) (short : lines.length < 18446744073709551616) : Image lines where
  address n := BitVec.ofNat 64 n
  line? w := if w.toNat < lines.length then some w.toNat else none
  line?_address n i h := by
    have lt : n < lines.length := (List.getElem?_eq_some_iff.mp h).1
    rw [BitVec.toNat_ofNat, Nat.mod_eq_of_lt (by omega), if_pos lt]

variable {lines : Listing} (image : Image lines)

/-- The address of what is still to come. -/
def addressOf (rest : Listing) : Word :=
  image.address (lines.length - rest.length)

/-- Where a return to an address leads. -/
def arrival (address : Word) : Control :=
  match image.line? address with
  | some n => .here (lines.drop n)
  | none => .away address

/-- The next state of a run, unless the run has left the listing or is stopped. A call to a
function that the listing lacks has no next state. -/
def step (s : State) : Option State :=
  match s.control with
  | .away _ => none
  | .here [] => none
  | .here (.instr i :: rest) =>
    match i with
    | .jump target => s.jump? lines (.label target)
    | .jumpEqual target =>
      s.flags.bind fun f =>
        if f.zero then s.jump? lines (.label target) else some (s.goto (.here rest))
    | .jumpNonzero target =>
      s.flags.bind fun f =>
        if f.zero then some (s.goto (.here rest)) else s.jump? lines (.label target)
    | .call function =>
      if 8 ≤ s.top then (s.push (image.addressOf rest)).jump? lines (.entry function) else none
    | .ret => some ((s.set .rsp (s.reg .rsp + 8)).goto
        (image.arrival (s.mem.read (s.reg .rsp))))
    | i => (i.effect s).map fun s => s.goto (.here rest)
  | .here (_ :: rest) => some (s.goto (.here rest))

/-- A state that a run comes to. -/
def Reaches : State → State → Prop :=
  Relation.ReflTransGen fun s s' => image.step s = some s'

end Image

end Machine

end StackCompiler
