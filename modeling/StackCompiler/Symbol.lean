import StackCompiler.Decimal

/-!
# Symbols of the assembler

In the dialect of the listings a register or an operand keyword is written like a symbol. A
function of such a name could not be called, so these names are reserved. The assembler does not
tell upper case from lower case in them.

Most registers have fixed names. The others come in families, a stem followed by a number.
-/

namespace StackCompiler

namespace Symbol

/-- The operand keywords. -/
def operandKeywords : List String :=
  ["byte", "word", "dword", "fword", "qword", "mmword", "tbyte", "oword", "xmmword", "ymmword",
   "zmmword", "ptr", "offset", "flat", "short", "near", "far", "and", "or", "xor", "not", "mod",
   "shl", "shr", "eq", "ne", "lt", "le", "gt", "ge"]

/-- The registers that belong to no family. -/
def fixedRegisters : List String :=
  ["rax", "rbx", "rcx", "rdx", "rsi", "rdi", "rbp", "rsp", "eax", "ebx", "ecx", "edx", "esi",
   "edi", "ebp", "esp", "ax", "bx", "cx", "dx", "si", "di", "bp", "sp", "al", "bl", "cl", "dl",
   "ah", "bh", "ch", "dh", "sil", "dil", "bpl", "spl", "rip", "eip", "ip", "cs", "ds", "es", "fs",
   "gs", "ss", "st", "eflags", "rflags"]

/-- A family of registers: a stem, the numbers that may follow it, and the letters of which one
may come last. -/
structure Family where
  stem : String
  first : Nat
  last : Nat
  sizes : List Char
  deriving Repr, DecidableEq

/-- The families of numbered registers. The numbered general registers also have names for
their lower parts, which end in a letter. -/
def families : List Family :=
  [⟨"r", 8, 15, ['d', 'w', 'b', 'l']⟩,
   ⟨"xmm", 0, 31, []⟩, ⟨"ymm", 0, 31, []⟩, ⟨"zmm", 0, 31, []⟩,
   ⟨"mm", 0, 7, []⟩, ⟨"k", 0, 7, []⟩, ⟨"cr", 0, 15, []⟩, ⟨"dr", 0, 15, []⟩,
   ⟨"st", 0, 7, []⟩, ⟨"bnd", 0, 3, []⟩]

/-- The characters without the last one, if that is one of `sizes`. -/
def dropSize (sizes cs : List Char) : List Char :=
  match cs.getLast? with
  | some c => if sizes.contains c then cs.dropLast else cs
  | none => cs

/-- Whether the family has a register of this name. -/
def Family.has (f : Family) (name : List Char) : Bool :=
  f.stem.toList.isPrefixOf name &&
    match Decimal.canonical? (dropSize f.sizes (name.drop f.stem.length)) with
    | some number => f.first ≤ number && number ≤ f.last
    | none => false

/-- A name as the assembler compares it: ASCII letters in lower case. -/
def fold (name : String) : List Char :=
  name.toList.map Char.toLower

/-- Whether the assembler reads `name` as a register or an operand keyword. -/
def isReserved (name : String) : Bool :=
  let folded := fold name
  operandKeywords.contains (String.ofList folded) || fixedRegisters.contains (String.ofList folded)
    || families.any (·.has folded)

end Symbol

end StackCompiler
