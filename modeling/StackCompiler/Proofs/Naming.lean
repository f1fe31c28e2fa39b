import Mathlib
import StackCompiler.Proofs.Joining
import StackCompiler.Proofs.Pointing
import StackCompiler.Proofs.Words

/-!
# Names of functions in listings

The names that the assembler finds in a listing. They stand in the line that exports a function, in
the one where it starts, in the one where it returns, and in the instructions that call it or jump
to its end.

The main statements are these.
* Every name in a listing is the name of a function of the program or of one that is called in it,
  at whatever depth (`Program.names_sections`).
* The text of a listing has its lines as lines (`Listing.splitOn_text`).
* The test for reserved names is exact, and no reserved word is exported, starts a function or is
  called in a listing (`reserved_exact`).
-/

namespace StackCompiler

/-! ## 1. Names in lines -/

/-- The name that a target is written with. -/
def Target.name? : Target → Option String
  | .exit function => some function
  | .numbered .. => none

/-- The name that an instruction is written with. -/
def Instr.name? : Instr → Option String
  | .call function => some function
  | .jump target | .jumpEqual target | .jumpNonzero target => target.name?
  | _ => none

/-- The name that a line is written with. -/
def Line.name? : Line → Option String
  | .exported function | .entry function => some function
  | .label target => target.name?
  | .instr i => i.name?
  | .dialect => none

namespace Listing

/-- The names of functions in a listing, in order. -/
def names (lines : Listing) : List String :=
  lines.filterMap Line.name?

@[simp] theorem names_nil : names [] = [] := rfl

@[simp] theorem names_append (xs ys : Listing) : names (xs ++ ys) = names xs ++ names ys :=
  List.filterMap_append

@[simp] theorem names_numbered (role : Role) (number : Nat) (rest : Listing) :
    names (.label (.numbered role number) :: rest) = names rest := rfl

theorem names_instrs (is : List Instr) : names (instrs is) = is.filterMap Instr.name? := by
  unfold names instrs
  rw [List.filterMap_map]
  rfl

@[simp] theorem names_jump (role : Role) (number : Nat) :
    names (instrs [.jump (.numbered role number)]) = [] := rfl

theorem names_instrs_eq_nil {is : List Instr} (h : ∀ i ∈ is, i.name? = none) :
    names (instrs is) = [] := by
  rw [names_instrs]
  exact List.filterMap_eq_nil_iff.mpr h

end Listing

/-- The name of the function that an expression calls. -/
def Expr.callee? : Expr → Option String
  | .call name _ _ => some name
  | _ => none

/-- The names of the functions that are called by expressions. -/
def callees (es : List Expr) : List String :=
  es.filterMap Expr.callee?

@[simp] theorem callees_append (xs ys : List Expr) :
    callees (xs ++ ys) = callees xs ++ callees ys :=
  List.filterMap_append

@[simp] theorem callees_binary (op : Op) (lhs rhs : Expr) (es : List Expr) :
    callees (.binary op lhs rhs :: es) = callees es := rfl

@[simp] theorem callees_assign (target value : Expr) (loc : Nat) (es : List Expr) :
    callees (.assign target value loc :: es) = callees es := rfl

@[simp] theorem callees_call (name : String) (args : List Expr) (loc : Nat) (es : List Expr) :
    callees (.call name args loc :: es) = name :: callees es := rfl

theorem mem_callees {name : String} {es : List Expr} :
    name ∈ callees es ↔ ∃ args loc, .call name args loc ∈ es := by
  unfold callees
  rw [List.mem_filterMap]
  constructor
  · rintro ⟨e, mem, called⟩
    cases e with
    | call name' args loc =>
      cases called
      exact ⟨args, loc, mem⟩
    | num | var | binary | assign => cases called
  · rintro ⟨args, loc, mem⟩
    exact ⟨_, mem, rfl⟩

/-! ## 2. Names in code -/

open Listing (names names_append names_instrs names_instrs_eq_nil names_jump)

theorem Op.name?_code (op : Op) : ∀ i ∈ op.code, i.name? = none := by
  cases op <;> decide

theorem Expr.name?_addressCode (e : Expr) : ∀ i ∈ e.addressCode, i.name? = none := by
  cases e with
  | var name offset loc => simp [addressCode, Instr.name?]
  | num | binary | assign | call => exact List.forall_mem_nil _

/-- The code of a call has its name twice, because the call comes with and without padding. -/
theorem names_callCode (name : String) (args number : Nat) :
    names (callCode name args number) = [name, name] := by
  have pops : ∀ i ∈ (argRegs.take args).reverse.map Instr.pop, i.name? = none := by
    intro i hi
    obtain ⟨r, -, rfl⟩ := List.mem_map.mp hi
    rfl
  unfold callCode
  rw [names_append, names_append, names_append, names_instrs_eq_nil pops]
  rfl

mutual

/-- The names in the code of an expression are names of functions that it calls. -/
theorem Expr.mem_callees_of_code {name : String} (e : Expr) (number : Nat)
    (h : name ∈ names (e.code number)) : name ∈ callees e.parts := by
  cases e with
  | num value => cases h
  | var x offset loc => cases h
  | binary op lhs rhs =>
    have quiet : ∀ i ∈ [.pop .rdi, .pop .rax] ++ op.code ++ [.push .rax], i.name? = none := by
      simpa [Instr.name?, or_imp, forall_and] using op.name?_code
    rw [Expr.code, names_append, names_append, names_instrs_eq_nil quiet, List.append_nil,
      List.mem_append] at h
    rw [Expr.parts, callees_binary, callees_append, List.mem_append]
    exact h.imp (lhs.mem_callees_of_code number) (rhs.mem_callees_of_code _)
  | assign target value loc =>
    rw [Expr.code, names_append, names_append, names_instrs_eq_nil target.name?_addressCode] at h
    rw [Expr.parts, callees_assign, callees_append]
    refine List.mem_append_right _ (value.mem_callees_of_code number ?_)
    simpa [names_instrs, Instr.name?] using h
  | call callee args loc =>
    rw [Expr.code, names_append, names_callCode, List.mem_append] at h
    rw [Expr.parts, callees_call, List.mem_cons]
    rcases h with inside | own
    · exact .inr (mem_callees_of_codeOfArgs args number inside)
    · exact .inl (by simpa using own)

theorem mem_callees_of_codeOfArgs {name : String} (args : List Expr) (number : Nat)
    (h : name ∈ names (codeOfArgs number args)) : name ∈ callees (partsOfArgs args) := by
  cases args with
  | nil => cases h
  | cons arg args =>
    rw [codeOfArgs, names_append, List.mem_append] at h
    rw [partsOfArgs, callees_append, List.mem_append]
    exact h.imp (arg.mem_callees_of_code number) (mem_callees_of_codeOfArgs args _)

end

@[simp] theorem Expr.names_effectCode (e : Expr) (number : Nat) :
    names (e.effectCode number) = names (e.code number) := by
  rw [effectCode, names_append]
  exact List.append_nil _

@[simp] theorem Expr.names_branchCode (e : Expr) (number : Nat) (role : Role) (dest : Nat) :
    names (e.branchCode number (.numbered role dest)) = names (e.code number) := by
  rw [branchCode, names_append]
  exact List.append_nil _

theorem mem_callees_of_clause {name : String} {code : Expr → Listing} {clause : Option Expr}
    (h : name ∈ names (clause.elim [] code))
    (inside : ∀ e, name ∈ names (code e) → name ∈ callees e.parts) :
    name ∈ callees (partsOfClause clause) := by
  cases clause with
  | none => cases h
  | some e => exact inside e h

mutual

/-- The names in the code of a statement are that of its function and names of functions that it
calls. -/
theorem Stmt.eq_or_mem_callees_of_code {name function : String} (s : Stmt) (number : Nat)
    (h : name ∈ names (s.code function number)) : name = function ∨ name ∈ callees s.exprs := by
  match s with
  | .ret value =>
    rw [Stmt.code, names_append, List.mem_append] at h
    rcases h with inside | own
    · exact .inr (value.mem_callees_of_code number inside)
    · exact .inl (List.mem_singleton.mp own)
  | .expr e =>
    rw [Stmt.code, Expr.names_effectCode] at h
    exact .inr (e.mem_callees_of_code number h)
  | .block body => exact eq_or_mem_callees_of_codeOfBlock body number h
  | .cond test yes none =>
    simp only [Stmt.code, names_append, Expr.names_branchCode, Listing.names_numbered,
      Listing.names_nil, List.append_nil, List.mem_append] at h
    rw [Stmt.exprs, callees_append, List.mem_append]
    rcases h with tested | chosen
    · exact .inr (.inl (test.mem_callees_of_code _ tested))
    · exact (yes.eq_or_mem_callees_of_code _ chosen).imp_right .inr
  | .cond test yes (some no) =>
    simp only [Stmt.code, names_append, Expr.names_branchCode, Listing.names_numbered,
      names_jump, Listing.names_nil, List.append_nil, List.mem_append] at h
    rw [Stmt.exprs, callees_append, callees_append, List.mem_append, List.mem_append]
    rcases h with (tested | chosen) | chosen
    · exact .inr (.inl (.inl (test.mem_callees_of_code _ tested)))
    · exact (yes.eq_or_mem_callees_of_code _ chosen).imp_right (.inl ∘ .inr)
    · exact (no.eq_or_mem_callees_of_code _ chosen).imp_right .inr
  | .loop start test next body =>
    simp only [Stmt.code, names_append, Listing.names_numbered, names_jump, Listing.names_nil,
      List.append_nil, List.mem_append] at h
    rw [Stmt.exprs, callees_append, callees_append, callees_append, List.mem_append,
      List.mem_append, List.mem_append]
    rcases h with ((started | tested) | inside) | next
    · refine .inr (.inl (.inl (.inl (mem_callees_of_clause started fun e he => ?_))))
      rw [Expr.names_effectCode] at he
      exact e.mem_callees_of_code _ he
    · refine .inr (.inl (.inl (.inr (mem_callees_of_clause tested fun e he => ?_))))
      rw [Expr.names_branchCode] at he
      exact e.mem_callees_of_code _ he
    · exact (body.eq_or_mem_callees_of_code _ inside).imp_right .inr
    · refine .inr (.inl (.inr (mem_callees_of_clause next fun e he => ?_)))
      rw [Expr.names_effectCode] at he
      exact e.mem_callees_of_code _ he

theorem eq_or_mem_callees_of_codeOfBlock {name function : String} (body : List Stmt) (number : Nat)
    (h : name ∈ names (codeOfBlock function number body)) :
    name = function ∨ name ∈ callees (exprsOfBlock body) := by
  match body with
  | [] => cases h
  | s :: rest =>
    rw [codeOfBlock, names_append, List.mem_append] at h
    rw [exprsOfBlock, callees_append, List.mem_append]
    rcases h with first | later
    · exact (s.eq_or_mem_callees_of_code number first).imp_right .inl
    · exact (eq_or_mem_callees_of_codeOfBlock rest _ later).imp_right .inr

end

theorem Function.name?_enterCode (f : Function) : ∀ i ∈ f.enterCode, i.name? = none := by
  intro i hi
  rcases mem_enterCode hi with rfl | rfl | rfl | ⟨offset, reg, rfl⟩ <;> rfl

/-- The names in the code of a function are its own and names of functions that it calls. -/
theorem Function.eq_or_mem_callees_of_code {name : String} (f : Function) (number : Nat)
    (h : name ∈ (f.code number).names) : name = f.name ∨ name ∈ callees f.exprs := by
  have head : names [.exported f.name, .entry f.name] = [f.name, f.name] := rfl
  have foot : names (.label (.exit f.name) :: instrs [.mov .rsp .rbp, .pop .rbp, .ret]) =
      [f.name] := rfl
  rw [Function.code, names_append, names_append, names_append, head, foot,
    names_instrs_eq_nil f.name?_enterCode, List.append_nil, List.mem_append, List.mem_append] at h
  rcases h with (own | inside) | own
  · exact .inl (by simpa using own)
  · exact eq_or_mem_callees_of_codeOfBlock f.body number inside
  · exact .inl (List.mem_singleton.mp own)

namespace Program

/-- The names in the code of a program are names of its functions and names of functions that they
call. -/
theorem names_sections {name : String} (p : Program) (number : Nat)
    (h : name ∈ (p.sections number).names) :
    (∃ f ∈ p, name = f.name) ∨ name ∈ callees p.exprs := by
  induction p generalizing number with
  | nil => cases h
  | cons f rest ih =>
    rw [sections, names_append, List.mem_append] at h
    rw [exprs_cons, callees_append, List.mem_append]
    rcases h with first | later
    · rcases f.eq_or_mem_callees_of_code number first with own | called
      · exact .inl ⟨f, List.mem_cons_self, own⟩
      · exact .inr (.inl called)
    · rcases ih _ later with ⟨g, hg, own⟩ | called
      · exact .inl ⟨g, List.mem_cons_of_mem _ hg, own⟩
      · exact .inr (.inr called)

variable {p : Program} {s s' : Label.Supply} {lines : Listing}

/-- What holds of the names of all functions and of all that are called holds of the names in the
listing. -/
theorem names_of_generate {P : String → Prop} (functions : ∀ f ∈ p, P f.name)
    (calls : ∀ name args loc, .call name args loc ∈ p.exprs → P name)
    (h : p.generate s = (.ok lines, s')) : ∀ name ∈ lines.names, P name := by
  obtain ⟨-, rfl⟩ := generate_eq_ok h
  intro name mem
  rcases p.names_sections s.taken mem with ⟨f, hf, rfl⟩ | called
  · exact functions f hf
  · obtain ⟨args, loc, call⟩ := mem_callees.mp called
    exact calls name args loc call

/-- No name in a listing is reserved. -/
theorem isReserved_of_generate (h : p.generate s = (.ok lines, s')) :
    ∀ name ∈ lines.names, Symbol.isReserved name = false := by
  have acceptable := (generate_eq_ok_iff.mp ⟨lines, h⟩).1.1
  exact names_of_generate acceptable.names
    (fun name args loc call => (acceptable.calls name args loc call).2) h

end Program

/-! ## 3. Lines of the text -/

theorem IsIdentifier.oneLine {name : String} (h : IsIdentifier name) : OneLine name :=
  fun feed => absurd (Token.IsLexeme.not_isBlank h _ feed) (by decide)

theorem oneLine_toString_int (value : Int) : OneLine (toString value) := by
  cases value with
  | ofNat n => exact oneLine_toString n
  | negSucc n => exact OneLine.append (s := "-") (by decide) (oneLine_toString (n + 1))

theorem Reg.oneLine_text (r : Reg) : OneLine r.text := by
  cases r <;> decide

theorem Label.oneLine_text (number : Nat) : OneLine (Label.text number) := by
  have letters : ∀ d < radix, letter d ≠ '\n' := by decide
  have small : ∀ d ∈ digits number, d < radix := by
    simp [digits, radix, Nat.mod_lt]
  unfold OneLine Label.text
  rw [String.toList_ofList, List.mem_map]
  rintro ⟨d, hd, feed⟩
  exact letters d (small d hd) feed

theorem Target.oneLine_text {target : Target} (named : ∀ f, target.name? = some f → OneLine f) :
    OneLine target.text := by
  cases target with
  | exit f => exact .append (by decide) (named f rfl)
  | numbered role number =>
    refine .append (.append (.append (by decide) ?_) (by decide)) (Label.oneLine_text number)
    cases role <;> decide

theorem oneLine_slotText (offset : Nat) : OneLine (slotText offset) :=
  .append (.append (by decide) (oneLine_toString offset)) (by decide)

theorem oneLine_twoOperands {mnemonic first second : String} (hm : OneLine mnemonic)
    (h₁ : OneLine first) (h₂ : OneLine second) : OneLine (twoOperands mnemonic first second) :=
  .append (.append (.append (.append hm (by decide)) h₁) (by decide)) h₂

/-- An instruction is written in one line if the name in it is. -/
theorem Instr.oneLine_text {i : Instr} (named : ∀ f, i.name? = some f → OneLine f) :
    OneLine i.text := by
  cases i with
  | push r | pop r | divide r => exact .append (by decide) r.oneLine_text
  | mov a b | compare a b => exact oneLine_twoOperands (by decide) a.oneLine_text b.oneLine_text
  | movImm r value =>
    exact oneLine_twoOperands (by decide) r.oneLine_text (oneLine_toString_int _)
  | addImm r value | subImm r value | andImm r value | compareImm r value =>
    exact oneLine_twoOperands (by decide) r.oneLine_text (oneLine_toString value)
  | loadSlot r offset | slotAddress r offset =>
    exact oneLine_twoOperands (by decide) r.oneLine_text (oneLine_slotText offset)
  | storeSlot offset r =>
    exact oneLine_twoOperands (by decide) (oneLine_slotText offset) r.oneLine_text
  | store a b =>
    exact oneLine_twoOperands (by decide) (.append (.append (by decide) a.oneLine_text)
      (by decide)) b.oneLine_text
  | arith op a b =>
    refine oneLine_twoOperands ?_ a.oneLine_text b.oneLine_text
    cases op <;> decide
  | setByte test => cases test <;> decide
  | signExtend | widenByte | ret => decide
  | jump target | jumpEqual target | jumpNonzero target =>
    exact .append (by decide) (Target.oneLine_text named)
  | call f => exact .append (by decide) (named f rfl)

/-- A line is written in one line if the name in it is. -/
theorem Line.oneLine_text {line : Line} (named : ∀ f, line.name? = some f → OneLine f) :
    OneLine line.text := by
  cases line with
  | dialect => decide
  | exported f => exact .append (by decide) (named f rfl)
  | entry f => exact .append (named f rfl) (by decide)
  | label target => exact .append (Target.oneLine_text named) (by decide)
  | instr i => exact .append (by decide) (Instr.oneLine_text named)

/-- The lines of the text of a listing are the texts of its lines. Nothing stands behind the last
line feed. -/
theorem Listing.splitOn_text {lines : Listing} (h : ∀ line ∈ lines, OneLine line.text) :
    lines.text.toList.splitOn '\n' = lines.map (·.text.toList) ++ [[]] := by
  induction lines with
  | nil => rfl
  | cons line rest ih =>
    obtain ⟨first, later⟩ := List.forall_mem_cons.mp h
    have single : text [line] = line.text ++ "\n" := by simp [text]
    have parts : (text (line :: rest)).toList = line.text.toList ++ '\n' :: (text rest).toList := by
      rw [← List.singleton_append, text_append, single]
      simp
    rw [parts, List.splitOn_append_cons_self, List.splitOn_eq_singleton first, ih later]
    rfl

/-! ## 4. Names that the assembler reads -/

/-- Only the place where a function starts is written as a name and a colon. -/
theorem Line.name?_of_label {line : Line} {name : String} {c : Char} {cs : List Char}
    (begins : name.toList = c :: cs) (start : Token.startsWord c) (h : line.text = name ++ ":") :
    line.name? = some name := by
  have chars : line.text.toList = c :: (cs ++ [':']) := by
    rw [h]
    simp [begins]
  obtain ⟨function, rfl⟩ := Line.eq_entry_of_text chars start
  obtain rfl : function = name := by simpa [Line.text] using h
  rfl

/-- What stands behind a word at the beginning of a line is a name. -/
theorem Line.name?_of_export {line : Line} {name : String}
    (named : ∀ f, line.name? = some f → IsIdentifier f) (h : line.text = ".globl " ++ name) :
    line.name? = some name := by
  have chars := congrArg String.toList h
  cases line with
  | exported function =>
    obtain rfl : function = name := by simpa [Line.text] using h
    rfl
  | entry function =>
    -- an identifier does not begin with a dot
    obtain ⟨c, cs, parts, start⟩ := (named function rfl).exists_start
    obtain ⟨rfl, -⟩ : c = '.' ∧ _ := by simpa [Line.text, parts] using chars
    cases start
  | dialect => simp [Line.text] at chars
  | label target => cases target <;> simp [Line.text, Target.text] at chars
  | instr i => simp [Line.text] at chars

theorem Line.name?_of_call {line : Line} {name : String}
    (named : ∀ f, line.name? = some f → IsIdentifier f) (h : line.text = "    call " ++ name) :
    line.name? = some name := by
  have chars := congrArg String.toList h
  cases line with
  | instr i =>
    cases i with
    | call function =>
      obtain rfl : function = name := by
        simpa [Line.text, Instr.text, String.toList_inj] using chars
      rfl
    | arith op a b => cases op <;> simp [Line.text, Instr.text, twoOperands, Arith.text] at chars
    | setByte test => cases test <;> simp [Line.text, Instr.text, Test.text] at chars
    | _ => simp [Line.text, Instr.text, twoOperands] at chars
  | entry function =>
    -- an identifier does not begin with a space
    obtain ⟨c, cs, parts, start⟩ := (named function rfl).exists_start
    obtain ⟨rfl, -⟩ : c = ' ' ∧ _ := by simpa [Line.text, parts] using chars
    cases start
  | dialect => simp [Line.text] at chars
  | exported function => simp [Line.text] at chars
  | label target => cases target <;> simp [Line.text, Target.text] at chars

/-- A line of the text of a listing is the text of a line. -/
theorem Program.exists_line_of_generate {p : Program} {s s' : Label.Supply} {lines : Listing}
    (functions : ∀ f ∈ p, IsIdentifier f.name)
    (calls : ∀ name args loc, .call name args loc ∈ p.exprs → IsIdentifier name)
    (h : p.generate s = (.ok lines, s')) {written : List Char}
    (mem : written ∈ lines.text.toList.splitOn '\n') (ne : written ≠ []) :
    ∃ line ∈ lines, written = line.text.toList ∧ ∀ f, line.name? = some f → IsIdentifier f := by
  have named : ∀ line ∈ lines, ∀ f, line.name? = some f → IsIdentifier f := fun line hl f hf =>
    names_of_generate functions calls h f (List.mem_filterMap.mpr ⟨line, hl, hf⟩)
  have oneLine : ∀ line ∈ lines, OneLine line.text := fun line hl =>
    Line.oneLine_text fun f hf => (named line hl f hf).oneLine
  rw [Listing.splitOn_text oneLine, List.mem_append, List.mem_singleton, or_iff_left ne,
    List.mem_map] at mem
  obtain ⟨line, hl, rfl⟩ := mem
  exact ⟨line, hl, rfl, named line hl⟩

/-- The reserved words are kept out of listings.

* A name is reserved exactly if in lower case it is one of the words that the assembler takes for a
  register or for an operand keyword.
* If the functions of a program and those that it calls have identifiers as names, then no line of
  its listing exports, labels or calls a function of a name that is such a word. -/
theorem reserved_exact :
    (∀ name, Symbol.isReserved name = true ↔ Symbol.IsWord name.toLower) ∧
      ∀ (p : Program) (s s' : Label.Supply) (lines : Listing),
        (∀ f ∈ p, IsIdentifier f.name) →
          (∀ name args loc, .call name args loc ∈ p.exprs → IsIdentifier name) →
            p.generate s = (.ok lines, s') →
              ∀ written ∈ lines.text.toList.splitOn '\n', ∀ name,
                written = (".globl " ++ name).toList ∨ written = (name ++ ":").toList ∨
                    written = ("    call " ++ name).toList →
                  ¬ Symbol.IsWord name.toLower := by
  refine ⟨fun name => Symbol.isReserved_iff, ?_⟩
  intro p s s' lines functions calls generated written mem name form word
  obtain ⟨c, cs, begins, letter⟩ := Symbol.exists_isAlpha word
  have start : Token.startsWord c := by
    rw [← Token.isWordStart_eq, Token.isWordStart, letter, Bool.true_or]
  have ne : written ≠ [] := by
    rintro rfl
    simp at form
  obtain ⟨line, hl, rfl, named⟩ := Program.exists_line_of_generate functions calls generated mem ne
  simp only [String.toList_inj] at form
  have read : line.name? = some name := by
    rcases form with exported | entry | called
    · exact Line.name?_of_export named exported
    · exact Line.name?_of_label begins start entry
    · exact Line.name?_of_call named called
  have free : Symbol.isReserved name = false :=
    Program.isReserved_of_generate generated name (List.mem_filterMap.mpr ⟨line, hl, read⟩)
  rw [Symbol.isReserved_iff.mpr word] at free
  cases free

/-- The program `R16(){Xmm032();}`, whose names are almost those of registers. -/
def Program.nearMisses : Program :=
  [⟨"R16", 0, [], [.expr (.call "Xmm032" [] 6)], .empty, 0⟩]

theorem reserved_exact_near_misses :
    Symbol.IsWord "R15B".toLower ∧ (∀ f ∈ Program.nearMisses, IsIdentifier f.name) ∧
      (∀ name args loc, .call name args loc ∈ Program.nearMisses.exprs → IsIdentifier name) ∧
      Program.nearMisses.generate .full = (.ok (Program.nearMisses.listing 0), ⟨1, by decide⟩) ∧
      "    call Xmm032".toList ∈ (Program.nearMisses.listing 0).text.toList.splitOn '\n' ∧
      ¬ Symbol.IsWord "Xmm032".toLower := by
  have functions : ∀ f ∈ Program.nearMisses, IsIdentifier f.name := by
    refine List.forall_mem_singleton.mpr ?_
    exact .word rfl (Token.forall_of_all (by decide)) (Token.notFirst_nil _) (by decide)
  have calls : ∀ name args loc,
      .call name args loc ∈ Program.nearMisses.exprs → IsIdentifier name := by
    intro name args loc mem
    cases List.mem_singleton.mp mem
    exact .word rfl (Token.forall_of_all (by decide)) (Token.notFirst_nil _) (by decide)
  have generated : Program.nearMisses.generate .full =
      (.ok (Program.nearMisses.listing 0), ⟨1, by decide⟩) := by rfl
  have oneLine : ∀ line ∈ Program.nearMisses.listing 0, OneLine line.text := by decide +kernel
  have here : Line.instr (.call "Xmm032") ∈ Program.nearMisses.listing 0 := by decide +kernel
  have called : "    call Xmm032".toList ∈
      (Program.nearMisses.listing 0).text.toList.splitOn '\n' := by
    rw [Listing.splitOn_text oneLine]
    exact List.mem_append_left _ (List.mem_map.mpr ⟨_, here, rfl⟩)
  refine ⟨(reserved_exact.1 "R15B").mp (by decide +kernel), functions, calls, generated, called, ?_⟩
  exact reserved_exact.2 _ _ _ _ functions calls generated _ called "Xmm032" (.inr (.inr rfl))

end StackCompiler
