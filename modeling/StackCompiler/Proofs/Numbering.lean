import StackCompiler.Proofs.Admission

/-!
# Code numbered by counting

Labels are numbered in the order in which emission takes them. So the number that a part of the
program starts with can be a parameter of its code, and the number of labels it uses is counted
(`Expr.labels`). Laid out like that, code cannot fail: what could go wrong is settled by admission.

Main statement: emission gives this code if the program is admitted, and stops where admission stops
(`Program.generate_eq`). Every number that is printed is the one that was taken from the supply at
that place.
-/

namespace StackCompiler

/-! ## 1. Expressions -/

mutual

/-- The code of an expression whose first label is `number`. -/
def Expr.code (number : Nat) : Expr → List Line
  | .num value => instrs [.movImm .rax value, .push .rax]
  | .var _ offset _ => instrs [.loadSlot .rax offset, .push .rax]
  | .binary op lhs rhs =>
    lhs.code number ++ rhs.code (number + lhs.labels)
      ++ instrs ([.pop .rdi, .pop .rax] ++ op.code ++ [.push .rax])
  | .assign target value _ =>
    instrs target.addressCode ++ value.code number
      ++ instrs [.pop .rdi, .pop .rax, .store .rax .rdi, .push .rdi]
  | .call name args _ =>
    codeOfArgs number args ++ callCode name args.length (number + labelsOfArgs args)

/-- The code of arguments, which pushes their values in order. -/
def codeOfArgs (number : Nat) : List Expr → List Line
  | [] => []
  | arg :: args => arg.code number ++ codeOfArgs (number + arg.labels) args

end

/-- The code of an expression of which only the effects matter. -/
def Expr.effectCode (number : Nat) (e : Expr) : List Line :=
  e.code number ++ instrs [.addImm .rsp 8]

/-- The code that goes to `target` if the expression is zero. -/
def Expr.branchCode (number : Nat) (e : Expr) (target : Target) : List Line :=
  e.code number ++ instrs [.pop .rax, .compareImm .rax 0, .jumpEqual target]

/-! ## 2. Statements -/

mutual

/-- The code of a statement of `function` whose first label is `number`. A branch or a loop has
the first label for itself. -/
def Stmt.code (function : String) (number : Nat) : Stmt → List Line
  | .ret value => value.code number ++ instrs [.pop .rax, .jump (.exit function)]
  | .expr e => e.effectCode number
  | .block body => codeOfBlock function number body
  | .cond test yes none =>
    test.branchCode (number + 1) (.numbered .done number)
      ++ yes.code function (number + 1 + test.labels)
      ++ [.label (.numbered .done number)]
  | .cond test yes (some no) =>
    test.branchCode (number + 1) (.numbered .otherwise number)
      ++ yes.code function (number + 1 + test.labels)
      ++ instrs [.jump (.numbered .done number)]
      ++ .label (.numbered .otherwise number)
      :: no.code function (number + 1 + test.labels + yes.labels)
      ++ [.label (.numbered .done number)]
  | .loop start test next body =>
    let second := number + 1 + labelsOfClause start
    let third := second + labelsOfClause test
    start.elim [] (Expr.effectCode (number + 1))
      ++ .label (.numbered .again number)
      :: test.elim [] (fun e => e.branchCode second (.numbered .done number))
      ++ body.code function third
      ++ next.elim [] (Expr.effectCode (third + body.labels))
      ++ instrs [.jump (.numbered .again number)]
      ++ [.label (.numbered .done number)]

/-- The code of the statements of a block. -/
def codeOfBlock (function : String) (number : Nat) : List Stmt → List Line
  | [] => []
  | s :: rest => s.code function number ++ codeOfBlock function (number + s.labels) rest

end

/-! ## 3. Functions and programs -/

/-- The section of a function whose first label is `number`. -/
def Function.code (number : Nat) (f : Function) : Listing :=
  [.exported f.name, .entry f.name] ++ instrs f.enterCode ++ codeOfBlock f.name number f.body
    ++ .label (.exit f.name) :: instrs [.mov .rsp .rbp, .pop .rbp, .ret]

namespace Program

/-- The sections of a program whose first label is `number`. -/
def sections (number : Nat) : Program → Listing
  | [] => []
  | f :: rest => f.code number ++ sections (number + f.labels) rest

/-- The listing of a program whose first label is `number`. -/
def listing (number : Nat) (p : Program) : Listing :=
  .dialect :: p.sections number

end Program

/-! ## 4. Emission -/

namespace Admission

/-- The emission that gives `code` if the admission goes on. -/
def emitting (code : Listing) (a : Admission) : Emission :=
  a.map fun s => (code, s)

/-- Code that is put together when admission is through. -/
theorem bind_ok (code : Listing) (a : Admission) :
    (a >>= fun s => (.ok (code, s) : Emission)) = a.emitting code := by
  cases a <;> rfl

theorem emitting_bind (code : Listing) (a : Admission) (next : Listing × Label.Supply → Emission) :
    (a.emitting code >>= next) = a >>= fun s => next (code, s) := by
  cases a <;> rfl

/-- Behind a check, emission goes on as admission does. -/
theorem bind_eq_emitting {a : Admission} {whole : Listing} {next : Label.Supply → Emission}
    {later : Label.Supply → Admission}
    (h : ∀ s, a = .ok s → next s = (later s).emitting whole) :
    (a >>= next) = emitting whole (a >>= later) := by
  cases a with
  | error refusal => rfl
  | ok s => exact h s rfl

/-- Behind code that was emitted, emission goes on as admission does. -/
theorem emitting_bind_eq_emitting {a : Admission} {code whole : Listing}
    {next : Listing × Label.Supply → Emission} {later : Label.Supply → Admission}
    (h : ∀ s, a = .ok s → next (code, s) = (later s).emitting whole) :
    (a.emitting code >>= next) = emitting whole (a >>= later) := by
  rw [emitting_bind]
  exact bind_eq_emitting h

/-- The label that is taken has the number of labels taken before. -/
theorem nextLabel_bind (owner : Nat) (s : Label.Supply) (next : Nat × Label.Supply → Emission) :
    (nextLabel owner s >>= next) = takeLabel owner s >>= fun rest => next (s.taken, rest) := by
  unfold takeLabel nextLabel
  cases h : s.take? with
  | none => rfl
  | some taken =>
    obtain ⟨number, rest⟩ := taken
    obtain ⟨rfl, -⟩ := Label.Supply.take?_eq_some.mp h
    rfl

end Admission

open Admission

mutual

/-- Emission of an expression gives the code that starts with the next label. -/
theorem Expr.emit_eq (e : Expr) (owner : Nat) (s : Label.Supply) :
    e.emit owner s = (e.admission owner s).emitting (e.code s.taken) := by
  cases e with
  | num value => rfl
  | var name offset loc => rfl
  | binary op lhs rhs =>
    rw [Expr.emit, lhs.emit_eq, Expr.admission]
    refine emitting_bind_eq_emitting fun s₁ first => ?_
    dsimp only
    rw [rhs.emit_eq, emitting_bind, Expr.taken_of_admission first]
    exact bind_ok ((Expr.binary op lhs rhs).code s.taken) _
  | assign target value loc =>
    rw [Expr.emit, Expr.admission]
    refine bind_eq_emitting fun s₁ first => ?_
    obtain ⟨-, rfl⟩ := require_eq_ok.mp first
    rw [value.emit_eq, emitting_bind]
    exact bind_ok ((Expr.assign target value loc).code s₁.taken) _
  | call name args loc =>
    rw [Expr.emit, Expr.admission]
    refine bind_eq_emitting fun s₁ first => ?_
    obtain ⟨-, rfl⟩ := require_eq_ok.mp first
    refine bind_eq_emitting fun s₂ second => ?_
    obtain ⟨-, rfl⟩ := require_eq_ok.mp second
    rw [emitArgs_eq]
    refine emitting_bind_eq_emitting fun s₃ third => ?_
    dsimp only
    rw [nextLabel_bind, taken_of_admissionOfArgs third]
    exact bind_ok ((Expr.call name args loc).code s₂.taken) _

theorem emitArgs_eq (args : List Expr) (owner : Nat) (s : Label.Supply) :
    emitArgs owner args s = (admissionOfArgs owner args s).emitting (codeOfArgs s.taken args) := by
  cases args with
  | nil => rfl
  | cons arg args =>
    rw [emitArgs, arg.emit_eq, admissionOfArgs]
    refine emitting_bind_eq_emitting fun s₁ first => ?_
    dsimp only
    rw [emitArgs_eq args, emitting_bind, Expr.taken_of_admission first]
    exact bind_ok (codeOfArgs s.taken (arg :: args)) _

end

/-- Emission of a clause gives its code with the rest behind it. -/
theorem emitClause_eq (owner : Nat) (rest : List Instr) (clause : Option Expr)
    (s : Label.Supply) :
    emitClause owner rest clause s = (admissionOfClause owner clause s).emitting
      (clause.elim [] fun e => e.code s.taken ++ instrs rest) := by
  cases clause with
  | none => rfl
  | some e =>
    rw [emitClause, e.emit_eq, emitting_bind]
    exact bind_ok (e.code s.taken ++ instrs rest) _

mutual

/-- Emission of a statement gives the code that starts with the next label. -/
theorem Stmt.emit_eq (function : String) (owner : Nat) (stmt : Stmt) (s : Label.Supply) :
    stmt.emit function owner s =
      (stmt.admission owner s).emitting (stmt.code function s.taken) := by
  match stmt with
  | .ret value =>
    rw [Stmt.emit, value.emit_eq, emitting_bind]
    exact bind_ok ((Stmt.ret value).code function s.taken) _
  | .expr e =>
    rw [Stmt.emit, e.emit_eq, emitting_bind]
    exact bind_ok ((Stmt.expr e).code function s.taken) _
  | .block body => exact emitBlock_eq function owner body s
  | .cond test yes none =>
    rw [Stmt.emit, nextLabel_bind, Stmt.admission]
    refine bind_eq_emitting fun s₁ first => ?_
    dsimp only
    rw [test.emit_eq]
    refine emitting_bind_eq_emitting fun s₂ second => ?_
    dsimp only
    rw [yes.emit_eq, emitting_bind, Expr.taken_of_admission second, takeLabel_eq_ok.mp first]
    exact bind_ok ((Stmt.cond test yes none).code function s.taken) _
  | .cond test yes (some no) =>
    rw [Stmt.emit, nextLabel_bind, Stmt.admission]
    refine bind_eq_emitting fun s₁ first => ?_
    dsimp only
    rw [test.emit_eq]
    refine emitting_bind_eq_emitting fun s₂ second => ?_
    dsimp only
    rw [yes.emit_eq]
    refine emitting_bind_eq_emitting fun s₃ third => ?_
    dsimp only
    rw [no.emit_eq, emitting_bind, Stmt.taken_of_admission third, Expr.taken_of_admission second,
      takeLabel_eq_ok.mp first]
    exact bind_ok ((Stmt.cond test yes (some no)).code function s.taken) _
  | .loop start test next body =>
    rw [Stmt.emit, nextLabel_bind, Stmt.admission]
    refine bind_eq_emitting fun s₁ first => ?_
    dsimp only
    rw [emitClause_eq]
    refine emitting_bind_eq_emitting fun s₂ second => ?_
    dsimp only
    rw [emitClause_eq]
    refine emitting_bind_eq_emitting fun s₃ third => ?_
    dsimp only
    rw [body.emit_eq]
    refine emitting_bind_eq_emitting fun s₄ fourth => ?_
    dsimp only
    rw [emitClause_eq, emitting_bind, Stmt.taken_of_admission fourth,
      taken_of_admissionOfClause third, taken_of_admissionOfClause second,
      takeLabel_eq_ok.mp first]
    exact bind_ok ((Stmt.loop start test next body).code function s.taken) _

theorem emitBlock_eq (function : String) (owner : Nat) (body : List Stmt) (s : Label.Supply) :
    emitBlock function owner body s =
      (admissionOfBlock owner body s).emitting (codeOfBlock function s.taken body) := by
  match body with
  | [] => rfl
  | stmt :: rest =>
    rw [emitBlock, stmt.emit_eq, admissionOfBlock]
    refine emitting_bind_eq_emitting fun s₁ first => ?_
    dsimp only
    rw [emitBlock_eq function owner rest, emitting_bind, Stmt.taken_of_admission first]
    exact bind_ok (codeOfBlock function s.taken (stmt :: rest)) _

end

theorem Function.emit_eq (defined : List String) (f : Function) (s : Label.Supply) :
    f.emit defined s = (f.admission defined s).emitting (f.code s.taken) := by
  rw [Function.emit, Function.admission]
  refine bind_eq_emitting fun s₁ first => ?_
  obtain ⟨-, rfl⟩ := require_eq_ok.mp first
  refine bind_eq_emitting fun s₂ second => ?_
  obtain ⟨-, rfl⟩ := require_eq_ok.mp second
  refine bind_eq_emitting fun s₃ third => ?_
  obtain ⟨-, rfl⟩ := require_eq_ok.mp third
  rw [emitBlock_eq, emitting_bind]
  exact bind_ok (f.code s₃.taken) _

namespace Program

theorem emitAfter_eq (defined : List String) (p : Program) (s : Label.Supply) :
    p.emitAfter defined s = (p.admissionAfter defined s).emitting (p.sections s.taken) := by
  induction p generalizing defined s with
  | nil => rfl
  | cons f rest ih =>
    rw [emitAfter, f.emit_eq, admissionAfter]
    refine emitting_bind_eq_emitting fun s₁ first => ?_
    dsimp only
    rw [ih, emitting_bind, Function.taken_of_admission first]
    exact bind_ok (sections s.taken (f :: rest)) _

/-- What is generated for a program is its listing, numbered from the next label on, if it is
admitted, and else the violation that admission stops at. -/
theorem generate_eq (p : Program) (s : Label.Supply) :
    p.generate s =
      match p.admission s with
      | .ok rest => (.ok (p.listing s.taken), rest)
      | .error refusal => (.error refusal.located, refusal.supply) := by
  rw [generate, emitAfter_eq, admission]
  cases p.admissionAfter [] s <;> rfl

end Program

end StackCompiler
