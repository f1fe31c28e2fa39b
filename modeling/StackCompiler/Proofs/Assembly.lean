import Mathlib
import StackCompiler.Proofs.Naming

/-!
# Reading listings back

The assembler gets the text of a listing and nothing else. This file reads such a text: it is cut
into lines, a line into a mnemonic and operands, and an operand into registers and numbers. The
words are looked up in tables of their own, so nothing here depends on how lines are written.

A name is read only where it is written as an identifier and no register has it, since the
assembler takes `call rax` for a call through the register. A number is read in decimal.

The main statements are these.
* An instruction is read back from its text (`Instr.ofChars?_text`), and a line from its
  (`Line.ofChars?_text`).
* The text of the listing of a program is read back as that listing
  (`Program.ofText?_of_generate`, `Program.ofText?_of_ofSource`).
-/

namespace StackCompiler

/-! ## 1. Words -/

/-- The register of the given name. -/
def Reg.ofWord? : String → Option Reg
  | "rax" => some .rax
  | "rdi" => some .rdi
  | "rsi" => some .rsi
  | "rdx" => some .rdx
  | "rcx" => some .rcx
  | "r8" => some .r8
  | "r9" => some .r9
  | "rbp" => some .rbp
  | "rsp" => some .rsp
  | _ => none

/-- The part that a word in a label stands for. -/
def Role.ofWord? : String → Option Role
  | "else" => some .otherwise
  | "end" => some .done
  | "begin" => some .again
  | "call" => some .padded
  | _ => none

/-- The number that three capital letters write. `A` stands for zero. -/
def Label.ofWord? (word : String) : Option Nat :=
  match word.toList with
  | [high, middle, low] =>
    if high.isUpper ∧ middle.isUpper ∧ low.isUpper then
      some (676 * (high.toNat - 65) + 26 * (middle.toNat - 65) + (low.toNat - 65))
    else none
  | _ => none

/-- A word that is written as an identifier. -/
def identifier? (word : String) : Option String :=
  match word.toList with
  | [] => none
  | c :: cs => if Token.startsWord c ∧ cs.all Token.continuesWord then some word else none

/-- A word that names a function and no register. -/
def symbol? (word : String) : Option String :=
  if Symbol.isReserved word then none else identifier? word

/-- The target that a word is read as. -/
def Target.ofWord? (word : String) : Option Target :=
  match (word.toList.splitOn '.').map String.ofList with
  | ["", "L", "return", function] => (identifier? function).map .exit
  | ["", "L", part, letters] =>
    match Role.ofWord? part, Label.ofWord? letters with
    | some role, some number => some (.numbered role number)
    | _, _ => none
  | _ => none

/-! ## 2. Operands -/

/-- The operands of instructions other than jumps and calls. -/
inductive Operand where
  | reg (r : Reg)
  /-- The low byte of `rax`. -/
  | byte
  | imm (value : Int)
  /-- The word at `offset` below `rbp`. -/
  | slot (offset : Nat)
  /-- The word at the address that a register holds. -/
  | word (address : Reg)
  deriving Repr, DecidableEq

/-- The place in memory that is written between brackets. -/
def Operand.ofBrackets? (inside : List Char) : Option Operand :=
  match inside.splitOn '-' with
  | [base] => (Reg.ofWord? (String.ofList base)).map .word
  | [base, offset] =>
    if String.ofList base = "rbp" then (Decimal.canonical? offset).map .slot else none
  | _ => none

/-- The operand that a word is read as. -/
def Operand.ofWord? (word : String) : Option Operand :=
  match word.toList with
  | '[' :: rest => if rest.getLast? = some ']' then ofBrackets? rest.dropLast else none
  | '-' :: digits => (Decimal.canonical? digits).map fun n => .imm (-n)
  | cs =>
    match Decimal.canonical? cs with
    | some n => some (.imm n)
    | none => if word = "al" then some .byte else (Reg.ofWord? word).map .reg

/-! ## 3. Instructions -/

/-- The mnemonic that a text starts with, and the operands behind it, which stand between
commas. -/
def words (cs : List Char) : String × List String :=
  (String.ofList (cs.takeWhile (· != ' ')),
    match cs.dropWhile (· != ' ') with
    | [] => []
    | _ :: operands =>
      (operands.splitOn ',').map fun operand => String.ofList (operand.dropWhile (· == ' ')))

/-- The instruction with the given mnemonic and operands. -/
def Instr.ofOperands? : String → List Operand → Option Instr
  | "push", [.reg r] => some (.push r)
  | "pop", [.reg r] => some (.pop r)
  | "mov", [.reg dst, .reg src] => some (.mov dst src)
  | "mov", [.reg dst, .imm value] =>
    if (Int64.ofInt value).toInt = value then some (.movImm dst (Int64.ofInt value)) else none
  | "mov", [.reg dst, .slot offset] => some (.loadSlot dst offset)
  | "mov", [.slot offset, .reg src] => some (.storeSlot offset src)
  | "mov", [.word address, .reg src] => some (.store address src)
  | "lea", [.reg dst, .slot offset] => some (.slotAddress dst offset)
  | "add", [.reg dst, .reg src] => some (.arith .add dst src)
  | "sub", [.reg dst, .reg src] => some (.arith .sub dst src)
  | "imul", [.reg dst, .reg src] => some (.arith .imul dst src)
  | "add", [.reg dst, .imm (.ofNat value)] => some (.addImm dst value)
  | "sub", [.reg dst, .imm (.ofNat value)] => some (.subImm dst value)
  | "and", [.reg dst, .imm (.ofNat value)] => some (.andImm dst value)
  | "cqo", [] => some .signExtend
  | "idiv", [.reg divisor] => some (.divide divisor)
  | "cmp", [.reg lhs, .reg rhs] => some (.compare lhs rhs)
  | "cmp", [.reg lhs, .imm (.ofNat value)] => some (.compareImm lhs value)
  | "sete", [.byte] => some (.setByte .equal)
  | "setne", [.byte] => some (.setByte .notEqual)
  | "setl", [.byte] => some (.setByte .less)
  | "setle", [.byte] => some (.setByte .lessOrEqual)
  | "movzx", [.reg .rax, .byte] => some .widenByte
  | "ret", [] => some .ret
  | _, _ => none

/-- The instruction with the given mnemonic and words for operands. Jumps and calls take a word as
the name of a place, and all others take it as an operand. -/
def Instr.ofWords? : String × List String → Option Instr
  | ("jmp", [target]) => (Target.ofWord? target).map .jump
  | ("je", [target]) => (Target.ofWord? target).map .jumpEqual
  | ("jnz", [target]) => (Target.ofWord? target).map .jumpNonzero
  | ("call", [function]) => (symbol? function).map .call
  | (mnemonic, operands) => (operands.mapM Operand.ofWord?).bind (ofOperands? mnemonic)

/-- The instruction that a text is read as. -/
def Instr.ofChars? (cs : List Char) : Option Instr :=
  ofWords? (words cs)

/-! ## 4. Lines -/

/-- The line that marks a place with the given word. -/
def Line.ofMark? (word : String) : Option Line :=
  match Target.ofWord? word with
  | some target => some (.label target)
  | none => (symbol? word).map .entry

/-- The line that a text is read as. Instructions are indented, places end with a colon, and all
others are directives. -/
def Line.ofChars? (cs : List Char) : Option Line :=
  if cs.head? = some ' ' then (Instr.ofChars? (cs.dropWhile (· == ' '))).map .instr
  else if cs.getLast? = some ':' then ofMark? (String.ofList cs.dropLast)
  else match words cs with
    | (".intel_syntax", ["noprefix"]) => some .dialect
    | (".globl", [function]) => (symbol? function).map .exported
    | _ => none

/-- The listing that a text is read as. The text ends with a line feed. -/
def Listing.ofText? (text : String) : Option Listing :=
  let lines := text.toList.splitOn '\n'
  if lines.getLast? = some [] then lines.dropLast.mapM Line.ofChars? else none

/-! ## 5. Words read back -/

/-- The text consists of letters, digits and underscores. -/
def Unbroken (text : String) : Prop :=
  ∀ c ∈ text.toList, Token.continuesWord c

theorem Unbroken.of_all {text : String} (h : text.toList.all Token.continuesWord = true) :
    Unbroken text :=
  List.all_eq_true.mp h

theorem Unbroken.not_mem {text : String} (h : Unbroken text) {c : Char}
    (breaks : Token.continuesWord c = false) : c ∉ text.toList := by
  intro mem
  rw [h c mem] at breaks
  cases breaks

theorem Unbroken.of_isIdentifier {name : String} (h : IsIdentifier name) : Unbroken name := by
  unfold Unbroken
  unfold IsIdentifier at h
  generalize name.toList = text at h
  cases h with
  | word start parts _ _ =>
    exact List.forall_mem_cons.mpr ⟨Token.continuesWord_of_startsWord start, parts⟩

theorem toList_toString (n : Nat) : (toString n).toList = Nat.toDigits 10 n := by
  rw [Nat.toString_eq_repr, Nat.toList_repr]

theorem unbroken_toString (n : Nat) : Unbroken (toString n) := by
  intro c mem
  rw [toList_toString] at mem
  exact Token.continuesWord_of_isDigit (Nat.isDigit_of_mem_toDigits (by decide) (by decide) mem)

theorem Label.unbroken_text (number : Nat) : Unbroken (Label.text number) := by
  have letters : ∀ d < radix, Token.continuesWord (letter d) := by decide
  have small : ∀ d ∈ digits number, d < radix := by
    simp [digits, radix, Nat.mod_lt]
  intro c mem
  rw [Label.text, String.toList_ofList, List.mem_map] at mem
  obtain ⟨d, hd, rfl⟩ := mem
  exact letters d (small d hd)

theorem Reg.unbroken_text (r : Reg) : Unbroken r.text := by
  cases r <;> exact .of_all rfl

theorem Role.unbroken_text (role : Role) : Unbroken role.text := by
  cases role <;> exact .of_all rfl

theorem Reg.ofWord?_text (r : Reg) : ofWord? r.text = some r := by
  cases r <;> rfl

theorem Role.ofWord?_text (role : Role) : ofWord? role.text = some role := by
  cases role <;> rfl

theorem Label.ofWord?_text {number : Nat} (small : number < capacity) :
    ofWord? (text number) = some number := by
  have letters : ∀ d < radix, (letter d).isUpper ∧ (letter d).toNat - 65 = d := by decide
  have digit_lt : ∀ k, k % radix < radix := fun k => Nat.mod_lt k (by decide)
  obtain ⟨upper₁, value₁⟩ := letters _ (digit_lt (number / (radix * radix)))
  obtain ⟨upper₂, value₂⟩ := letters _ (digit_lt (number / radix))
  obtain ⟨upper₃, value₃⟩ := letters _ (digit_lt number)
  unfold ofWord? text
  simp only [digits, List.map_cons, List.map_nil, String.toList_ofList, upper₁, upper₂, upper₃,
    value₁, value₂, value₃, and_self, if_true, Option.some.injEq]
  simp only [capacity, radix] at small ⊢
  omega

theorem identifier?_eq_some {name : String} (h : IsIdentifier name) :
    identifier? name = some name := by
  obtain ⟨c, cs, chars, start⟩ := h.exists_start
  have parts := Unbroken.of_isIdentifier h
  unfold Unbroken at parts
  rw [chars] at parts
  have others : cs.all Token.continuesWord = true :=
    List.all_eq_true.mpr fun d hd => parts d (List.mem_cons_of_mem c hd)
  simp only [identifier?, chars, start, others, and_self, if_true]

theorem symbol?_eq_some {name : String} (h : IsIdentifier name)
    (free : Symbol.isReserved name = false) : symbol? name = some name := by
  rw [symbol?, free, if_neg Bool.false_ne_true, identifier?_eq_some h]

/-- The parts between the dots of a text. -/
theorem splitOn_dots {text a b c : String} (ha : Unbroken a) (hb : Unbroken b) (hc : Unbroken c)
    (chars : text.toList = '.' :: (a.toList ++ '.' :: (b.toList ++ '.' :: c.toList))) :
    (text.toList.splitOn '.').map String.ofList = ["", a, b, c] := by
  have joined : text.toList = ['.'].intercalate [[], a.toList, b.toList, c.toList] := by
    simp [chars]
  have dots : ∀ part ∈ [[], a.toList, b.toList, c.toList], '.' ∉ part := by
    simp [ha.not_mem, hb.not_mem, hc.not_mem, show Token.continuesWord '.' = false from rfl]
  rw [joined, List.splitOn_intercalate _ dots (by simp)]
  simp

theorem Target.ofWord?_text {target : Target} (named : ∀ f, target.name? = some f → IsIdentifier f)
    (spelled : target.Spelled) : ofWord? target.text = some target := by
  have letter : Unbroken "L" := .of_all rfl
  unfold ofWord?
  cases target with
  | exit f =>
    have identifier := named f rfl
    have word : Unbroken "return" := .of_all rfl
    rw [splitOn_dots letter word (.of_isIdentifier identifier) (by simp [text])]
    simp [identifier?_eq_some identifier]
  | numbered role number =>
    rw [splitOn_dots letter role.unbroken_text (Label.unbroken_text number) (by simp [text])]
    cases role <;> simp [Role.text, Role.ofWord?, Label.ofWord?_text spelled]

/-! ## 6. Operands read back -/

/-- No blank and no comma is in the text, so it is cut out whole. -/
def Solid (text : String) : Prop :=
  ' ' ∉ text.toList ∧ ',' ∉ text.toList

theorem Unbroken.solid {text : String} (h : Unbroken text) : Solid text :=
  ⟨h.not_mem rfl, h.not_mem rfl⟩

theorem Solid.append {a b : String} (ha : Solid a) (hb : Solid b) : Solid (a ++ b) := by
  unfold Solid at *
  simp only [String.toList_append, List.mem_append, not_or]
  exact ⟨⟨ha.1, hb.1⟩, ha.2, hb.2⟩

theorem Target.solid_text {target : Target} (named : ∀ f, target.name? = some f → IsIdentifier f) :
    Solid target.text := by
  cases target with
  | exit f =>
    exact .append (by unfold Solid; decide) (Unbroken.of_isIdentifier (named f rfl)).solid
  | numbered role number =>
    exact .append (.append (.append (by unfold Solid; decide) role.unbroken_text.solid)
      (by unfold Solid; decide)) (Label.unbroken_text number).solid

/-- An operand is written as the word, without blanks or commas. -/
structure Operand.Reads (word : String) (operand : Operand) : Prop where
  solid : Solid word
  read : Operand.ofWord? word = some operand

namespace Operand

theorem Reads.reg (r : Reg) : Reads r.text (.reg r) where
  solid := r.unbroken_text.solid
  read := by cases r <;> rfl

theorem Reads.byte : Reads "al" .byte where
  solid := by unfold Solid; decide
  read := rfl

theorem Reads.nat (n : Nat) : Reads (toString n) (.imm n) where
  solid := (unbroken_toString n).solid
  read := by
    have unbroken := unbroken_toString n
    unfold ofWord?
    split
    · next rest begins => exact absurd (begins ▸ List.mem_cons_self) (unbroken.not_mem rfl)
    · next digits begins => exact absurd (begins ▸ List.mem_cons_self) (unbroken.not_mem rfl)
    · rw [Decimal.canonical?_eq_some.mpr (toList_toString n)]

theorem Reads.int (value : Int) : Reads (toString value) (.imm value) := by
  cases value with
  | ofNat n => exact .nat n
  | negSucc n =>
    have chars : (toString (Int.negSucc n)).toList = '-' :: Nat.toDigits 10 (n + 1) := by
      show ("-" ++ toString (n + 1)).toList = _
      rw [String.toList_append, toList_toString]
      rfl
    constructor
    · exact .append (a := "-") (by unfold Solid; decide) (unbroken_toString (n + 1)).solid
    · simp only [ofWord?, chars, Decimal.canonical?_eq_some.mpr rfl]
      rfl

/-- Behind an opening bracket and before the closing one stands a place in memory. -/
theorem ofWord?_brackets {word : String} {inside : List Char}
    (chars : word.toList = '[' :: (inside ++ [']'])) : ofWord? word = ofBrackets? inside := by
  simp [ofWord?, chars]

theorem Reads.slot (offset : Nat) : Reads (slotText offset) (.slot offset) where
  solid := ((show Solid "[rbp-" by unfold Solid; decide).append
    (unbroken_toString offset).solid).append (by unfold Solid; decide)
  read := by
    have dashes : ∀ part ∈ ["rbp".toList, Nat.toDigits 10 offset], '-' ∉ part := by
      have := (unbroken_toString offset).not_mem (c := '-') rfl
      simpa [toList_toString] using this
    have chars : (slotText offset).toList =
        '[' :: (['-'].intercalate ["rbp".toList, Nat.toDigits 10 offset] ++ [']']) := by
      simp [slotText]
    rw [ofWord?_brackets chars, ofBrackets?, List.splitOn_intercalate _ dashes (by simp)]
    simp [Decimal.canonical?_eq_some]

theorem Reads.word (r : Reg) : Reads ("[" ++ r.text ++ "]") (.word r) where
  solid := ((show Solid "[" by unfold Solid; decide).append r.unbroken_text.solid).append
    (by unfold Solid; decide)
  read := by
    have chars : ("[" ++ r.text ++ "]").toList = '[' :: (r.text.toList ++ [']']) := by simp
    rw [ofWord?_brackets chars]
    cases r <;> rfl

end Operand

/-! ## 7. Instructions read back -/

theorem words_plain {mnemonic : String} (whole : ' ' ∉ mnemonic.toList) :
    words mnemonic.toList = (mnemonic, []) := by
  have blank : ∀ c ∈ mnemonic.toList, (c != ' ') = true := fun c hc =>
    bne_iff_ne.mpr fun is => whole (is ▸ hc)
  rw [words, List.takeWhile_eq_self_iff.mpr blank, List.dropWhile_eq_nil_iff.mpr blank,
    String.ofList_toList]

/-- The mnemonic ends at the first blank. -/
theorem words_append {mnemonic : String} (whole : ' ' ∉ mnemonic.toList) (cs : List Char) :
    words (mnemonic.toList ++ ' ' :: cs) =
      (mnemonic, (cs.splitOn ',').map fun o => String.ofList (o.dropWhile (· == ' '))) := by
  have blank : ∀ c ∈ mnemonic.toList, (c != ' ') = true := fun c hc =>
    bne_iff_ne.mpr fun is => whole (is ▸ hc)
  rw [words, List.takeWhile_append_of_pos blank, List.dropWhile_append_of_pos blank]
  simp

theorem Solid.dropWhile {word : String} (h : Solid word) :
    String.ofList (word.toList.dropWhile (· == ' ')) = word := by
  have kept : word.toList.dropWhile (· == ' ') = word.toList := by
    rw [List.dropWhile_eq_self_iff]
    intro pos
    simp only [beq_iff_eq]
    exact fun is => h.1 (is ▸ List.getElem_mem pos)
  rw [kept, String.ofList_toList]

theorem words_one {mnemonic operand : String} (whole : ' ' ∉ mnemonic.toList)
    (solid : Solid operand) :
    words (mnemonic.toList ++ ' ' :: operand.toList) = (mnemonic, [operand]) := by
  rw [words_append whole, List.splitOn_eq_singleton solid.2, List.map_singleton,
    solid.dropWhile]

theorem words_two {mnemonic first second : String} (whole : ' ' ∉ mnemonic.toList)
    (solid : Solid first) (solid' : Solid second) :
    words (twoOperands mnemonic first second).toList = (mnemonic, [first, second]) := by
  have chars : (twoOperands mnemonic first second).toList =
      mnemonic.toList ++ ' ' :: (first.toList ++ ',' :: ' ' :: second.toList) := by
    simp [twoOperands]
  have comma : ',' ∉ ' ' :: second.toList := by simpa using solid'.2
  rw [chars, words_append whole, List.splitOn_append_cons_self,
    List.splitOn_eq_singleton solid.2, List.splitOn_eq_singleton comma]
  simp [solid.dropWhile, solid'.dropWhile]

/-- The names in a line are identifiers, none of them is reserved, and the numbers of labels have
texts of their own. -/
structure Line.Legible (line : Line) : Prop where
  names : ∀ f, line.name? = some f → IsIdentifier f ∧ Symbol.isReserved f = false
  numbers : ∀ target, line.target? = some target → target.Spelled

namespace Instr

theorem ofChars?_one (mnemonic : String) {word text : String} (whole : ' ' ∉ mnemonic.toList)
    (solid : Solid word) (chars : text.toList = mnemonic.toList ++ ' ' :: word.toList) :
    ofChars? text.toList = ofWords? (mnemonic, [word]) := by
  rw [ofChars?, chars, words_one whole solid]

theorem ofChars?_operand (mnemonic : String) {word text : String} {x : Operand}
    (whole : ' ' ∉ mnemonic.toList) (other : mnemonic ∉ ["jmp", "je", "jnz", "call"])
    (hx : x.Reads word) (chars : text.toList = mnemonic.toList ++ ' ' :: word.toList) :
    ofChars? text.toList = ofOperands? mnemonic [x] := by
  rw [ofChars?_one mnemonic whole hx.solid chars]
  simp only [List.mem_cons, List.not_mem_nil, or_false, not_or] at other
  obtain ⟨jmp, je, jnz, call⟩ := other
  unfold ofWords?
  split
  · next same => exact absurd (Prod.mk.inj same).1 jmp
  · next same => exact absurd (Prod.mk.inj same).1 je
  · next same => exact absurd (Prod.mk.inj same).1 jnz
  · next same => exact absurd (Prod.mk.inj same).1 call
  · next same =>
    cases same
    simp [hx.read]

theorem ofChars?_two (mnemonic : String) {first second : String} {x y : Operand}
    (whole : ' ' ∉ mnemonic.toList) (hx : x.Reads first) (hy : y.Reads second) :
    ofChars? (twoOperands mnemonic first second).toList = ofOperands? mnemonic [x, y] := by
  rw [ofChars?, words_two whole hx.solid hy.solid]
  unfold ofWords?
  split
  · next same => cases same
  · next same => cases same
  · next same => cases same
  · next same => cases same
  · next same =>
    cases same
    simp [hx.read, hy.read]

/-- An instruction is read back from its text. -/
theorem ofChars?_text {i : Instr} (legible : (Line.instr i).Legible) :
    ofChars? i.text.toList = some i := by
  have named : ∀ f, i.name? = some f → IsIdentifier f := fun f hf => (legible.names f hf).1
  cases i with
  | push r => exact ofChars?_operand "push" (by decide) (by decide) (.reg r) (by simp [text])
  | pop r => exact ofChars?_operand "pop" (by decide) (by decide) (.reg r) (by simp [text])
  | divide r => exact ofChars?_operand "idiv" (by decide) (by decide) (.reg r) (by simp [text])
  | setByte test =>
    have whole : ' ' ∉ test.text.toList := by cases test <;> decide
    have other : test.text ∉ ["jmp", "je", "jnz", "call"] := by cases test <;> decide
    rw [ofChars?_operand test.text whole other .byte (by simp [text])]
    cases test <;> rfl
  | signExtend | ret =>
    rw [ofChars?, text, words_plain (by decide)]
    rfl
  | widenByte =>
    have parts : widenByte.text = twoOperands "movzx" Reg.rax.text "al" := by
      simp [text, twoOperands, Reg.text]
    rw [parts]
    exact ofChars?_two "movzx" (by decide) (.reg .rax) .byte
  | mov a b => exact ofChars?_two "mov" (by decide) (.reg a) (.reg b)
  | compare a b => exact ofChars?_two "cmp" (by decide) (.reg a) (.reg b)
  | arith op a b =>
    have whole : ' ' ∉ op.text.toList := by cases op <;> decide
    rw [text, ofChars?_two op.text whole (.reg a) (.reg b)]
    cases op <;> rfl
  | movImm r value =>
    refine (ofChars?_two "mov" (by decide) (.reg r) (.int value.toInt)).trans ?_
    show (if (Int64.ofInt value.toInt).toInt = value.toInt then
      some (movImm r (Int64.ofInt value.toInt)) else none) = _
    rw [Int64.ofInt_toInt, if_pos rfl]
  | addImm r value => exact ofChars?_two "add" (by decide) (.reg r) (.nat value)
  | subImm r value => exact ofChars?_two "sub" (by decide) (.reg r) (.nat value)
  | andImm r value => exact ofChars?_two "and" (by decide) (.reg r) (.nat value)
  | compareImm r value => exact ofChars?_two "cmp" (by decide) (.reg r) (.nat value)
  | loadSlot r offset => exact ofChars?_two "mov" (by decide) (.reg r) (.slot offset)
  | slotAddress r offset => exact ofChars?_two "lea" (by decide) (.reg r) (.slot offset)
  | storeSlot offset r => exact ofChars?_two "mov" (by decide) (.slot offset) (.reg r)
  | store a b => exact ofChars?_two "mov" (by decide) (.word a) (.reg b)
  | jump target =>
    refine (ofChars?_one "jmp" (by decide) (Target.solid_text named) (by simp [text])).trans ?_
    exact congrArg (Option.map jump) (Target.ofWord?_text named (legible.numbers target rfl))
  | jumpEqual target =>
    refine (ofChars?_one "je" (by decide) (Target.solid_text named) (by simp [text])).trans ?_
    exact congrArg (Option.map jumpEqual) (Target.ofWord?_text named (legible.numbers target rfl))
  | jumpNonzero target =>
    refine (ofChars?_one "jnz" (by decide) (Target.solid_text named) (by simp [text])).trans ?_
    exact congrArg (Option.map jumpNonzero) (Target.ofWord?_text named (legible.numbers target rfl))
  | call f =>
    have solid := (Unbroken.of_isIdentifier (named f rfl)).solid
    refine (ofChars?_one "call" (by decide) solid (by simp [text])).trans ?_
    exact congrArg (Option.map call) (symbol?_eq_some (named f rfl) (legible.names f rfl).2)

/-- The text of an instruction is not indented by itself. -/
theorem dropWhile_text (i : Instr) :
    i.text.toList.dropWhile (· == ' ') = i.text.toList := by
  cases i with
  | arith op a b => cases op <;> simp [text, twoOperands, Arith.text]
  | setByte test => cases test <;> simp [text, Test.text]
  | _ => simp [text, twoOperands]

end Instr

/-! ## 8. Lines read back -/

namespace Line

theorem ofMark?_target {target : Target} (named : ∀ f, target.name? = some f → IsIdentifier f)
    (spelled : target.Spelled) : ofMark? target.text = some (.label target) := by
  rw [ofMark?, Target.ofWord?_text named spelled]

/-- A name without dots is no target. -/
theorem ofMark?_name {name : String} (identifier : IsIdentifier name)
    (free : Symbol.isReserved name = false) : ofMark? name = some (.entry name) := by
  have dot := (Unbroken.of_isIdentifier identifier).not_mem (c := '.') rfl
  have noTarget : Target.ofWord? name = none := by
    simp [Target.ofWord?, List.splitOn_eq_singleton dot]
  rw [ofMark?, noTarget, symbol?_eq_some identifier free]
  rfl

theorem ofChars?_mark (word : String) {text : String} (chars : text.toList = word.toList ++ [':'])
    (begins : text.toList.head? ≠ some ' ') : ofChars? text.toList = ofMark? word := by
  have ends : text.toList.getLast? = some ':' := by simp [chars]
  rw [ofChars?, if_neg begins, if_pos ends, chars, List.dropLast_concat, String.ofList_toList]

theorem ofChars?_directive (mnemonic : String) {operand text : String}
    (chars : text.toList = mnemonic.toList ++ ' ' :: operand.toList)
    (whole : ' ' ∉ mnemonic.toList) (solid : Solid operand)
    (begins : text.toList.head? ≠ some ' ') (colon : ':' ∉ text.toList) :
    ofChars? text.toList = match (mnemonic, [operand]) with
      | (".intel_syntax", ["noprefix"]) => some .dialect
      | (".globl", [function]) => (symbol? function).map .exported
      | _ => none := by
  have ends : text.toList.getLast? ≠ some ':' := fun last => colon (List.mem_of_getLast? last)
  rw [ofChars?, if_neg begins, if_neg ends, chars, words_one whole solid]

/-- A line is read back from its text. -/
theorem ofChars?_text {line : Line} (legible : line.Legible) :
    ofChars? line.text.toList = some line := by
  have named : ∀ f, line.name? = some f → IsIdentifier f := fun f hf => (legible.names f hf).1
  cases line with
  | dialect =>
    have operand : Unbroken "noprefix" := .of_all rfl
    rw [ofChars?_directive ".intel_syntax" (by simp [text]) (by decide) operand.solid
      (by simp [text]) (by simp [text])]
    simp
  | exported f =>
    have unbroken := Unbroken.of_isIdentifier (named f rfl)
    have colon : ':' ∉ f.toList := unbroken.not_mem rfl
    rw [ofChars?_directive ".globl" (by simp [text]) (by decide) unbroken.solid
      (by simp [text]) (by simp [text, colon])]
    simp [symbol?_eq_some (named f rfl) (legible.names f rfl).2]
  | entry f =>
    obtain ⟨c, cs, chars, start⟩ := (named f rfl).exists_start
    have begins : (entry f).text.toList.head? ≠ some ' ' := by
      simp only [text, chars, String.toList_append, List.cons_append, List.head?_cons]
      rintro ⟨⟩
      cases start
    rw [ofChars?_mark f (by simp [text]) begins]
    exact ofMark?_name (named f rfl) (legible.names f rfl).2
  | label target =>
    have begins : (label target).text.toList.head? ≠ some ' ' := by
      cases target <;> simp [text, Target.text]
    rw [ofChars?_mark target.text (by simp [text]) begins]
    exact ofMark?_target named (legible.numbers target rfl)
  | instr i =>
    have begins : (instr i).text.toList.head? = some ' ' := by simp [text]
    have indented : (instr i).text.toList.dropWhile (· == ' ') = i.text.toList := by
      simp [text, i.dropWhile_text]
    rw [ofChars?, if_pos begins, indented, Instr.ofChars?_text legible]
    rfl

end Line

/-! ## 9. Listings read back -/

theorem Listing.mapM_text {lines : Listing} (h : ∀ line ∈ lines, line.Legible) :
    (lines.map (·.text.toList)).mapM Line.ofChars? = some lines := by
  induction lines with
  | nil => rfl
  | cons line rest ih =>
    obtain ⟨first, others⟩ := List.forall_mem_cons.mp h
    simp [Line.ofChars?_text first, ih others]

/-- A listing is read back from its text. -/
theorem Listing.ofText?_text {lines : Listing} (h : ∀ line ∈ lines, line.Legible) :
    ofText? lines.text = some lines := by
  have oneLine : ∀ line ∈ lines, OneLine line.text := fun line hl =>
    Line.oneLine_text fun f hf => ((h line hl).names f hf).1.oneLine
  rw [ofText?, splitOn_text oneLine, List.getLast?_concat, List.dropLast_concat, if_pos rfl,
    mapM_text h]

namespace Program

variable {p : Program} {s s' : Label.Supply} {lines : Listing}

/-- The targets in a listing have texts of their own, those of jumps included. -/
theorem spelled_target_of_generate (names : ∀ f ∈ p, IsIdentifier f.name)
    (h : p.generate s = (.ok lines, s')) :
    ∀ line ∈ lines, ∀ target, line.target? = some target → target.Spelled := by
  intro line mem target is
  have labelled := wellLabelled_of_generate names h
  have mem' := mem
  rw [labelled.sections, List.mem_cons, List.mem_flatMap] at mem'
  rcases mem' with rfl | ⟨part, hp, inside⟩
  · cases is
  have sub : part.lines ⊆ lines := fun line hl => by
    rw [labelled.sections]
    exact List.mem_cons_of_mem _ (List.mem_flatMap.mpr ⟨part, hp, hl⟩)
  cases line with
  | label target' =>
    cases is
    exact spelled_of_generate names h _ mem
  | instr i =>
    have closed := labelled.closed part hp i target inside is
    exact spelled_of_generate names h _ (sub closed)
  | dialect | exported | entry => cases is

/-- If the functions of a program and those that it calls have identifiers as names, then its
listing is what the text of its listing is read as. -/
theorem ofText?_of_generate (functions : ∀ f ∈ p, IsIdentifier f.name)
    (calls : ∀ name args loc, .call name args loc ∈ p.exprs → IsIdentifier name)
    (h : p.generate s = (.ok lines, s')) : Listing.ofText? lines.text = some lines := by
  refine Listing.ofText?_text fun line mem => ⟨fun f hf => ?_, ?_⟩
  · have name : f ∈ lines.names := List.mem_filterMap.mpr ⟨line, mem, hf⟩
    exact ⟨names_of_generate functions calls h f name, isReserved_of_generate h f name⟩
  · exact spelled_target_of_generate functions h line mem

/-- The functions that a program from a source calls have identifiers as names. -/
theorem isIdentifier_call_of_ofSource {source : String} (read : Program.ofSource source = .ok p)
    {name : String} {args : List Expr} {loc : Nat} (mem : .call name args loc ∈ p.exprs) :
    IsIdentifier name := by
  obtain ⟨body, lexes, derivation, -, -⟩ := exists_derivation read
  obtain ⟨f, hf, inside⟩ := List.mem_flatMap.mp mem
  obtain ⟨-, written⟩ := derivation.written (List.Subset.refl _) f hf
  obtain ⟨t, ht, kind, text, -⟩ := written _ inside
  exact (lexes.placed t ht).isIdentifier kind text

/-- The listing of a source is what its text is read as. -/
theorem ofText?_of_ofSource {source : String} (read : Program.ofSource source = .ok p)
    (h : p.generate s = (.ok lines, s')) : Listing.ofText? lines.text = some lines :=
  ofText?_of_generate (isIdentifier_of_ofSource read)
    (fun _ _ _ mem => isIdentifier_call_of_ofSource read mem) h

end Program

end StackCompiler
