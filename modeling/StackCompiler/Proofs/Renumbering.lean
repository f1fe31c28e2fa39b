import Mathlib
import StackCompiler.Proofs.Blame
import StackCompiler.Proofs.Labelling

/-!
# Numbers of labels

The labels that are taken before a program is compiled decide with which number its own labels
begin, and nothing else. Two listings of one program have the same lines, apart from these numbers.

The main statements are these.
* The code that is laid out from the number `n` is the code that is laid out from the number `m`,
  with `n + i` in the place of every `m + i` (`Stmt.shifted_code`).
* Every compilation in a session gives the listing of the first one with greater numbers, as long
  as there are labels, and after that no compilation succeeds (`compile_renumbered`).
-/

namespace StackCompiler

/-! ## 1. Lines with other numbers -/

/-- The number of a target, unless it is the place where a function returns. -/
def Target.number? : Target → Option Nat
  | .exit _ => none
  | .numbered _ number => some number

/-- The target with another number. -/
def Target.renumber (g : Nat → Nat) : Target → Target
  | .exit function => .exit function
  | .numbered role number => .numbered role (g number)

/-- The instruction with the target of a jump renumbered. -/
def Instr.renumber (g : Nat → Nat) : Instr → Instr
  | .jump target => .jump (target.renumber g)
  | .jumpEqual target => .jumpEqual (target.renumber g)
  | .jumpNonzero target => .jumpNonzero (target.renumber g)
  | i => i

namespace Line

/-- The label number that is written in a line, if there is one. -/
def number? (line : Line) : Option Nat :=
  line.target?.bind Target.number?

@[simp] theorem number?_label (target : Target) : (label target).number? = target.number? := rfl

@[simp] theorem number?_instr (i : Instr) :
    (instr i).number? = i.target?.bind Target.number? := rfl

/-- The line with another label number. -/
def renumber (g : Nat → Nat) : Line → Line
  | .label target => .label (target.renumber g)
  | .instr i => .instr (i.renumber g)
  | .dialect => .dialect
  | .exported function => .exported function
  | .entry function => .entry function

variable {line : Line} {k : Nat}

/-- A line in which a number is written is a label or a jump. -/
theorem exists_role (h : line.number? = some k) :
    ∃ role, line = .label (.numbered role k) ∨ line = .instr (.jump (.numbered role k)) ∨
      line = .instr (.jumpEqual (.numbered role k)) ∨
        line = .instr (.jumpNonzero (.numbered role k)) := by
  obtain ⟨target, written, numbered⟩ := Option.bind_eq_some_iff.mp h
  obtain ⟨role, rfl⟩ : ∃ role, target = .numbered role k := by
    cases target with
    | exit function => cases numbered
    | numbered role number =>
      cases numbered
      exact ⟨role, rfl⟩
  refine ⟨role, ?_⟩
  cases line with
  | label target =>
    cases written
    exact .inl rfl
  | instr i =>
    right
    cases i <;> simp_all [target?, Instr.target?]
  | dialect | exported | entry => cases written

/-- What is written around a label number does not depend on it. -/
theorem text_renumber (h : line.number? = some k) :
    ∃ before after, line.text = before ++ Label.text k ++ after ∧
      ∀ g, (line.renumber g).text = before ++ Label.text (g k) ++ after := by
  have jump (mnemonic : String) (role : Role) (number : Nat) :
      "    " ++ (mnemonic ++ (".L." ++ role.text ++ "." ++ Label.text number)) =
        "    " ++ mnemonic ++ ".L." ++ role.text ++ "." ++ Label.text number ++ "" := by
    simp [String.append_assoc]
  obtain ⟨role, rfl | rfl | rfl | rfl⟩ := exists_role h
  · exact ⟨_, ":", rfl, fun g => rfl⟩
  · exact ⟨_, "", jump "jmp " role k, fun g => jump "jmp " role (g k)⟩
  · exact ⟨_, "", jump "je " role k, fun g => jump "je " role (g k)⟩
  · exact ⟨_, "", jump "jnz " role k, fun g => jump "jnz " role (g k)⟩

theorem renumber_of_none {g : Nat → Nat} (h : line.number? = none) : line.renumber g = line := by
  have kept {target : Target} (h : target.number? = none) : target.renumber g = target := by
    cases target with
    | exit function => rfl
    | numbered role number => cases h
  cases line with
  | label target => rw [renumber, kept h]
  | instr i =>
    cases i with
    | jump target | jumpEqual target | jumpNonzero target =>
      rw [renumber, Instr.renumber, kept h]
    | _ => rfl
  | dialect | exported | entry => rfl

/-- Only the number that is written in a line matters. -/
theorem renumber_of_some {g g' : Nat → Nat} (h : line.number? = some k) (same : g k = g' k) :
    line.renumber g = line.renumber g' := by
  obtain ⟨role, rfl | rfl | rfl | rfl⟩ := exists_role h <;>
    simp [renumber, Instr.renumber, Target.renumber, same]

end Line

/-- `Line.Shifted m n c x y`: the line `y` is the line `x`, where the label number `m + i`, if that
is written in `x`, is exchanged for `n + i`. Here `i` is below `c`. -/
inductive Line.Shifted (m n c : Nat) : Line → Line → Prop
  | same {line : Line} : line.number? = none → Shifted m n c line line
  | moved {line : Line} {i : Nat} :
      i < c → line.number? = some (m + i) → Shifted m n c line (line.renumber fun _ => n + i)

/-- The listings have the same lines, apart from label numbers: where the first one has `m + i` the
second one has `n + i`, for some `i` below `c`. -/
def Listing.Shifted (m n c : Nat) (xs ys : Listing) : Prop :=
  List.Forall₂ (Line.Shifted m n c) xs ys

namespace Listing.Shifted

variable {m n c : Nat} {xs ys xs' ys' : Listing}

theorem nil : Shifted m n c [] [] :=
  List.Forall₂.nil

theorem append (h : Shifted m n c xs ys) (h' : Shifted m n c xs' ys') :
    Shifted m n c (xs ++ xs') (ys ++ ys') :=
  List.rel_append h h'

/-- Code in which no label number is written. -/
theorem quiet (h : ∀ line ∈ xs, line.number? = none) : Shifted m n c xs xs :=
  List.forall₂_same.mpr fun line hl => .same (h line hl)

theorem instrs {is : List Instr} (h : ∀ i ∈ is, i.target? = none) :
    Shifted m n c (StackCompiler.instrs is) (StackCompiler.instrs is) := by
  refine quiet fun line hl => ?_
  obtain ⟨i, hi, rfl⟩ := List.mem_map.mp hl
  show i.target?.bind Target.number? = none
  rw [h i hi]
  rfl

/-- Code in which no number but the first one is written. -/
theorem own (pos : 0 < c) (h : ∀ line ∈ xs, ∀ k, line.number? = some k → k = m)
    (renumbered : ys = xs.map (Line.renumber fun _ => n)) : Shifted m n c xs ys := by
  rw [renumbered]
  refine List.forall₂_map_right_iff.mpr (List.forall₂_same.mpr fun line hl => ?_)
  cases known : line.number? with
  | some k =>
    obtain rfl := h line hl k known
    exact .moved (i := 0) pos known
  | none =>
    rw [Line.renumber_of_none known]
    exact .same known

theorem label (h : Shifted m n c xs ys) (pos : 0 < c) (role : Role) :
    Shifted m n c (.label (.numbered role m) :: xs) (.label (.numbered role n) :: ys) :=
  List.Forall₂.cons (.moved (i := 0) pos rfl) h

theorem jump (pos : 0 < c) (role : Role) :
    Shifted m n c (StackCompiler.instrs [.jump (.numbered role m)])
      (StackCompiler.instrs [.jump (.numbered role n)]) :=
  List.Forall₂.cons (.moved (i := 0) pos rfl) .nil

/-- A part of the code, behind a part with `a` labels. -/
theorem widen {m' n' c' : Nat} (a : Nat) (h : Shifted m' n' c' xs ys) (hm : m' = m + a)
    (hn : n' = n + a) (le : a + c' ≤ c) : Shifted m n c xs ys := by
  subst hm hn
  refine List.Forall₂.imp (fun x y hxy => ?_) h
  cases hxy with
  | same none => exact .same none
  | @moved i lt written =>
    rw [Nat.add_assoc] at written
    rw [Nat.add_assoc]
    exact .moved (by omega) written

end Listing.Shifted

/-! ## 2. Code from another number on -/

open Listing (Shifted)

theorem callCode_shifted (m n : Nat) (name : String) (args : Nat) :
    Shifted m n 1 (callCode name args m) (callCode name args n) := by
  have pops : ∀ i ∈ (argRegs.take args).reverse.map Instr.pop, i.target? = none := by
    intro i hi
    obtain ⟨r, -, rfl⟩ := List.mem_map.mp hi
    rfl
  refine .append (.append (.append (.instrs pops) ?_) ?_) ?_ <;>
  exact .own Nat.one_pos (by simp [instrs, Instr.target?, Target.number?]) rfl

mutual

/-- The code of an expression from another first label number on. -/
theorem Expr.shifted_code (e : Expr) (m n : Nat) :
    Shifted m n e.labels (e.code m) (e.code n) := by
  cases e with
  | num value => exact .instrs (by simp [Instr.target?])
  | var name offset loc => exact .instrs (by simp [Instr.target?])
  | binary op lhs rhs =>
    rw [Expr.code, Expr.code, Expr.labels]
    have operands := ((lhs.shifted_code m n).widen 0 rfl rfl (by omega)).append
      ((rhs.shifted_code _ _).widen lhs.labels rfl rfl (Nat.le_refl _))
    refine operands.append (.instrs ?_)
    simpa [Instr.target?, or_imp, forall_and] using op.target?_code
  | assign target value loc =>
    rw [Expr.code, Expr.code, Expr.labels]
    have operands := (Shifted.instrs target.target?_addressCode).append (value.shifted_code m n)
    exact operands.append (.instrs (by simp [Instr.target?]))
  | call name args loc =>
    rw [Expr.code, Expr.code, Expr.labels]
    exact ((codeOfArgs_shifted args m n).widen 0 rfl rfl (by omega)).append
      ((callCode_shifted _ _ name args.length).widen _ rfl rfl (Nat.le_refl _))

theorem codeOfArgs_shifted (args : List Expr) (m n : Nat) :
    Shifted m n (labelsOfArgs args) (codeOfArgs m args) (codeOfArgs n args) := by
  cases args with
  | nil => exact .nil
  | cons arg args =>
    rw [codeOfArgs, codeOfArgs, labelsOfArgs]
    exact ((arg.shifted_code m n).widen 0 rfl rfl (by omega)).append
      ((codeOfArgs_shifted args _ _).widen _ rfl rfl (Nat.le_refl _))

end

theorem Expr.shifted_effectCode (e : Expr) (m n : Nat) :
    Shifted m n e.labels (e.effectCode m) (e.effectCode n) :=
  .append (e.shifted_code m n) (.instrs (by simp [Instr.target?]))

/-- The code that goes to a label of the statement that the expression belongs to. -/
theorem Expr.shifted_branchCode {m n m' n' c : Nat} (e : Expr) (role : Role) (a : Nat)
    (hm : m' = m + a) (hn : n' = n + a) (le : a + e.labels ≤ c) (pos : 0 < c) :
    Shifted m n c (e.branchCode m' (.numbered role m)) (e.branchCode n' (.numbered role n)) :=
  ((e.shifted_code _ _).widen a hm hn le).append
    (.own pos (by simp [instrs, Instr.target?, Target.number?]) rfl)

theorem effectCode_shifted_clause (clause : Option Expr) (m n : Nat) :
    Shifted m n (labelsOfClause clause) (clause.elim [] (Expr.effectCode m))
      (clause.elim [] (Expr.effectCode n)) := by
  cases clause with
  | none => exact .nil
  | some e => exact e.shifted_effectCode m n

theorem branchCode_shifted_clause {m n m' n' c : Nat} (clause : Option Expr) (role : Role) (a : Nat)
    (hm : m' = m + a) (hn : n' = n + a) (le : a + labelsOfClause clause ≤ c) (pos : 0 < c) :
    Shifted m n c (clause.elim [] fun e => e.branchCode m' (.numbered role m))
      (clause.elim [] fun e => e.branchCode n' (.numbered role n)) := by
  cases clause with
  | none => exact .nil
  | some e => exact e.shifted_branchCode role a hm hn le pos

mutual

/-- The code of a statement from another first label number on. -/
theorem Stmt.shifted_code (s : Stmt) (function : String) (m n : Nat) :
    Shifted m n s.labels (s.code function m) (s.code function n) := by
  match s with
  | .ret value =>
    rw [Stmt.code, Stmt.code, Stmt.labels]
    exact (value.shifted_code m n).append (.quiet (by simp [instrs, Instr.target?, Target.number?]))
  | .expr e => exact e.shifted_effectCode m n
  | .block body => exact codeOfBlock_shifted body function m n
  | .cond test yes none =>
    rw [Stmt.code, Stmt.code, Stmt.labels]
    refine .append (.append (test.shifted_branchCode .done 1 rfl rfl ?_ ?_)
      ((yes.shifted_code function _ _).widen (1 + test.labels) ?_ ?_ ?_)) (.label .nil ?_ _)
    all_goals omega
  | .cond test yes (some no) =>
    rw [Stmt.code, Stmt.code, Stmt.labels]
    refine .append (.append (.append (.append (test.shifted_branchCode .otherwise 1 rfl rfl ?_ ?_)
      ((yes.shifted_code function _ _).widen (1 + test.labels) ?_ ?_ ?_)) (.jump ?_ _))
      (.label ((no.shifted_code function _ _).widen (1 + test.labels + yes.labels) ?_ ?_ ?_) ?_ _))
      (.label .nil ?_ _)
    all_goals omega
  | .loop start test next body =>
    rw [Stmt.code, Stmt.code, Stmt.labels]
    refine .append (.append (.append (.append (.append
      ((effectCode_shifted_clause start _ _).widen 1 rfl rfl ?_)
      (.label (branchCode_shifted_clause test .done (1 + labelsOfClause start) ?_ ?_ ?_ ?_) ?_ _))
      ((body.shifted_code function _ _).widen (1 + labelsOfClause start + labelsOfClause test)
        ?_ ?_ ?_))
      ((effectCode_shifted_clause next _ _).widen
        (1 + labelsOfClause start + labelsOfClause test + body.labels) ?_ ?_ ?_))
      (.jump ?_ _)) (.label .nil ?_ _)
    all_goals omega

/-- The code of a block from another first label number on. -/
theorem codeOfBlock_shifted (body : List Stmt) (function : String) (m n : Nat) :
    Shifted m n (labelsOfBlock body) (codeOfBlock function m body)
      (codeOfBlock function n body) := by
  match body with
  | [] => exact .nil
  | s :: rest =>
    rw [codeOfBlock, codeOfBlock, labelsOfBlock]
    exact ((s.shifted_code function m n).widen 0 rfl rfl (by omega)).append
      ((codeOfBlock_shifted rest function _ _).widen _ rfl rfl (Nat.le_refl _))

end

/-! ## 3. Listings -/

theorem Function.shifted_code (f : Function) (m n : Nat) :
    Shifted m n f.labels (f.code m) (f.code n) := by
  have enter : Shifted m n f.labels (instrs f.enterCode) (instrs f.enterCode) :=
    .instrs f.target?_enterCode
  have leave : Shifted m n f.labels
      (.label (.exit f.name) :: instrs [.mov .rsp .rbp, .pop .rbp, .ret]) _ :=
    .quiet (by simp [instrs, Instr.target?, Target.number?])
  have start : Shifted m n f.labels [.exported f.name, .entry f.name] _ :=
    .quiet (by simp [Line.number?, Line.target?])
  exact ((start.append enter).append (codeOfBlock_shifted f.body f.name m n)).append leave

namespace Program

theorem shifted_sections (p : Program) (m n : Nat) :
    Shifted m n p.labels (p.sections m) (p.sections n) := by
  induction p generalizing m n with
  | nil => exact .nil
  | cons f rest ih =>
    rw [sections, sections, labels]
    exact ((f.shifted_code m n).widen 0 rfl rfl (by omega)).append
      ((ih _ _).widen _ rfl rfl (Nat.le_refl _))

/-- The listing of a program from another first label number on. -/
theorem shifted_listing (p : Program) (m n : Nat) :
    Shifted m n p.labels (p.listing m) (p.listing n) :=
  List.Forall₂.cons (.same rfl) (p.shifted_sections m n)

end Program

/-- All label numbers are written with three letters. -/
theorem Label.utf8ByteSize_text (number : Nat) : (text number).utf8ByteSize = 3 := by
  have letters : ∀ d < radix, (letter d).utf8Size = 1 := by decide
  have digit (k : Nat) : (letter (k % radix)).utf8Size = 1 := letters _ (Nat.mod_lt k (by decide))
  rw [text, ← Text.byteSize_eq_utf8ByteSize]
  simp [digits, digit]

theorem Line.Shifted.utf8ByteSize_text {m n c : Nat} {x y : Line} (h : Line.Shifted m n c x y) :
    y.text.utf8ByteSize = x.text.utf8ByteSize := by
  cases h with
  | same _ => rfl
  | moved _ written =>
    obtain ⟨before, after, here, there⟩ := Line.text_renumber written
    rw [here, there]
    simp [Label.utf8ByteSize_text]

theorem Listing.Shifted.utf8ByteSize_text {m n c : Nat} {xs ys : Listing}
    (h : Listing.Shifted m n c xs ys) : ys.text.utf8ByteSize = xs.text.utf8ByteSize := by
  have grown {written written' : String} (same : written'.utf8ByteSize = written.utf8ByteSize) :
      (ys.foldl (fun written line => written ++ line.text ++ "\n") written').utf8ByteSize =
        (xs.foldl (fun written line => written ++ line.text ++ "\n") written).utf8ByteSize := by
    unfold Shifted at h
    induction h generalizing written written' with
    | nil => exact same
    | cons first _ ih =>
      refine ih ?_
      simp [same, first.utf8ByteSize_text]
  exact grown rfl

/-- A listing that begins with the label number zero, and one that begins with another number. -/
theorem Listing.Shifted.eq_map {n c : Nat} {xs ys : Listing} (h : Listing.Shifted 0 n c xs ys) :
    ys = xs.map (Line.renumber (· + n)) := by
  unfold Shifted at h
  induction h with
  | nil => rfl
  | cons first _ ih =>
    rw [List.map_cons, ← ih]
    congr 1
    cases first with
    | same none => exact (Line.renumber_of_none none).symm
    | moved _ written => exact Line.renumber_of_some written (by omega)

/-! ## 4. Compiling again -/

namespace Program

variable {p : Program} {s : Label.Supply}

/-- Where there are labels enough, the listing of an acceptable program is generated. -/
theorem generate_of_room (h : p.Acceptable) (room : s.taken + p.labelled ≤ 17576) :
    p.generate s = (.ok (p.listing s.taken), ⟨s.taken + p.labelled, room⟩) := by
  obtain ⟨lines, generated⟩ := generate_eq_ok_iff.mpr
    ⟨⟨h, room⟩, show (⟨s.taken + p.labelled, room⟩ : Label.Supply).taken = _ from rfl⟩
  rw [generated, (generate_eq_ok generated).2]

/-- Where there are not, all labels are taken, and one more is missing in one of the functions. -/
theorem generate_of_no_room (h : p.Acceptable) (full : 17576 < s.taken + p.labelled) :
    ∃ f ∈ p, p.generate s = (.error ⟨.labelsExhausted, f.loc⟩, ⟨17576, Nat.le_refl _⟩) := by
  have unmet : ¬ Demand.AllMet s.taken p.demands :=
    fun met => Nat.not_le.mpr full ((p.allMet_demands s).mp met).2
  obtain ⟨before, d, first⟩ := Demand.exists_firstUnmet unmet
  have ⟨⟨after, split⟩, mets, missing⟩ := first
  have mem : d ∈ p.demands := by
    rw [split]
    exact List.mem_append_right _ List.mem_cons_self
  obtain ⟨f, hf, concerns⟩ := concerns_demands mem
  cases d with
  | label owner =>
    cases concerns
    have room : s.taken + Demand.labels before ≤ 17576 := mets.room s.taken_le
    have taken : 17576 = s.taken + Demand.labels before :=
      Nat.le_antisymm (Nat.le_of_not_lt missing) room
    exact ⟨f, hf, generate_eq_error_iff.mpr ⟨before, _, first, rfl, taken⟩⟩
  | condition holds fault loc =>
    -- the conditions of an acceptable program are met
    exact absurd (p.granted_demands.mpr h holds fault loc mem) missing

end Program

namespace Session

/-- The session after its source was compiled `n` times. -/
def after (session : Session) : Nat → Session
  | 0 => session
  | n + 1 => (session.after n).compile.2

theorem source_after (session : Session) (n : Nat) : (session.after n).source = session.source := by
  induction n with
  | zero => rfl
  | succ n ih => exact ih

/-- What is compiled in a session from a source that is read as the program `p`. -/
theorem compile_eq {session : Session} {p : Program}
    (read : Program.ofSource session.source = .ok p) :
    session.compile = ((p.generate session.supply).1.mapError Located.report,
      { session with supply := (p.generate session.supply).2 }) := by
  unfold compile
  rw [compileWith_of_read read]

/-- Every compilation takes as many labels as the first one, or those that are left. -/
theorem taken_after {source : String} {p : Program} (read : Program.ofSource source = .ok p)
    (h : p.Acceptable) (n : Nat) :
    ((start source).after n).supply.taken = min (n * p.labelled) 17576 := by
  induction n with
  | zero => simp [after, start, Label.Supply.full]
  | succ n ih =>
    have read' : Program.ofSource ((start source).after n).source = .ok p := by
      rw [source_after]
      exact read
    rw [after, compile_eq read']
    generalize ((start source).after n).supply = s at ih
    rw [Nat.succ_mul]
    by_cases room : s.taken + p.labelled ≤ 17576
    · rw [Program.generate_of_room h room]
      show s.taken + p.labelled = _
      omega
    · obtain ⟨f, -, generated⟩ := Program.generate_of_no_room h (Nat.lt_of_not_le room)
      rw [generated]
      show 17576 = _
      omega

end Session

/-- A program that is compiled with some labels is compiled wherever as many are left. Two of its
listings differ in the label numbers only, and these go up one by one from the first label that is
left. -/
theorem Program.generate_shifted {p : Program} {s s' : Label.Supply} {lines : Listing} {c : Nat}
    (h : p.generate s = (.ok lines, s')) (taken : s'.taken = s.taken + c) {s₁ s₂ : Label.Supply}
    (room₁ : s₁.taken + c ≤ 17576) (room₂ : s₂.taken + c ≤ 17576) :
    p.generate s₁ = (.ok (p.listing s₁.taken), ⟨s₁.taken + c, room₁⟩) ∧
      p.generate s₂ = (.ok (p.listing s₂.taken), ⟨s₂.taken + c, room₂⟩) ∧
      Listing.Shifted s₁.taken s₂.taken c (p.listing s₁.taken) (p.listing s₂.taken) := by
  obtain ⟨⟨acceptable, -⟩, labelled⟩ := generate_eq_ok_iff.mp ⟨lines, h⟩
  have labels := taken_of_admission (generate_eq_ok h).1
  obtain rfl : c = p.labelled := by omega
  have same : p.labels = p.labelled := by omega
  have shifted := p.shifted_listing s₁.taken s₂.taken
  rw [same] at shifted
  exact ⟨generate_of_room acceptable room₁, generate_of_room acceptable room₂, shifted⟩

/-- What becomes of a source in a session in which its first compilation succeeds. -/
theorem Session.compile_after {source : String} {lines : Listing} {session : Session}
    (h : (start source).compile = (.ok lines, session)) (k : Nat) :
    ((k + 1) * session.supply.taken ≤ 17576 →
        ((start source).after k).compile.1 =
          .ok (lines.map (Line.renumber (· + k * session.supply.taken)))) ∧
      (17576 < (k + 1) * session.supply.taken → ∃ p, Program.ofSource source = .ok p ∧ ∃ f ∈ p,
        ((start source).after k).compile.1 = .error (Fault.report .labelsExhausted f.loc)) := by
  have compiled : compileWith source .full = (.ok lines, session.supply) := by
    obtain ⟨result, rest⟩ := Prod.mk.inj h
    rw [← result, ← rest]
    rfl
  obtain ⟨p, read, generated⟩ := exists_program_of_compileWith compiled
  obtain ⟨⟨acceptable, -⟩, taken⟩ := Program.generate_eq_ok_iff.mp ⟨lines, generated⟩
  have used : session.supply.taken = p.labelled := taken.trans (Nat.zero_add _)
  have read' : Program.ofSource ((start source).after k).source = .ok p := by
    rw [source_after]
    exact read
  have before := taken_after read acceptable k
  rw [compile_eq read', used]
  generalize ((start source).after k).supply = s at before
  constructor
  · intro room
    rw [Nat.succ_mul] at room
    have here : s.taken = k * p.labelled := by omega
    have left : s.taken + p.labelled ≤ 17576 := by omega
    have none_taken : Label.Supply.full.taken + p.labelled ≤ 17576 := by
      rw [show Label.Supply.full.taken = 0 from rfl]
      omega
    obtain ⟨-, again, shifted⟩ := Program.generate_shifted generated taken none_taken left
    have moved : p.listing s.taken = lines.map (Line.renumber (· + s.taken)) := by
      rw [(Program.generate_eq_ok generated).2]
      exact shifted.eq_map
    rw [again, ← here]
    exact congrArg Except.ok moved
  · intro full
    have some_label : 0 < p.labelled := Nat.pos_of_mul_pos_left (Nat.zero_lt_of_lt full)
    rw [Nat.succ_mul] at full
    obtain ⟨f, hf, refused⟩ := Program.generate_of_no_room acceptable (s := s) (by omega)
    refine ⟨p, read, f, hf, ?_⟩
    rw [refused]
    rfl

/-- The labels that are taken before a program is compiled change nothing in its listing but the
numbers of its labels.

* Wherever there are as many labels left as the program needs, it is compiled, and with them. Two
  of its listings have the same lines, except that where the first one has the label number
  `s₁.taken + i` the second one has `s₂.taken + i`. So their texts are equally long.
* The compilation in a session that comes after `k` others succeeds exactly if there are labels for
  `k + 1` of them. Then its listing is that of the first one, with greater label numbers. Otherwise
  a label is missing in one of the functions, and so it is in all compilations that follow. -/
theorem compile_renumbered :
    (∀ (p : Program) (s s' : Label.Supply) (lines : Listing) (c : Nat),
      p.generate s = (.ok lines, s') → s'.taken = s.taken + c →
      ∀ s₁ s₂ : Label.Supply, s₁.taken + c ≤ 17576 → s₂.taken + c ≤ 17576 →
        ∃ xs ys s₁' s₂', p.generate s₁ = (.ok xs, s₁') ∧ p.generate s₂ = (.ok ys, s₂') ∧
          s₁'.taken = s₁.taken + c ∧ s₂'.taken = s₂.taken + c ∧
          Listing.Shifted s₁.taken s₂.taken c xs ys ∧
          ys.text.utf8ByteSize = xs.text.utf8ByteSize) ∧
    ∀ (source : String) (lines : Listing) (session : Session) (c : Nat),
      (Session.start source).compile = (.ok lines, session) → session.supply.taken = c → ∀ k,
        ((∃ ys, ((Session.start source).after k).compile.1 = .ok ys) ↔ (k + 1) * c ≤ 17576) ∧
        ((k + 1) * c ≤ 17576 → ((Session.start source).after k).compile.1 =
          .ok (lines.map (Line.renumber (· + k * c)))) ∧
        (17576 < (k + 1) * c → ∀ j, k ≤ j → ∃ p, Program.ofSource source = .ok p ∧ ∃ f ∈ p,
          ((Session.start source).after j).compile.1 =
            .error (Fault.report .labelsExhausted f.loc)) := by
  constructor
  · intro p s s' lines c generated taken s₁ s₂ room₁ room₂
    obtain ⟨first, second, shifted⟩ := Program.generate_shifted generated taken room₁ room₂
    exact ⟨_, _, _, _, first, second, rfl, rfl, shifted, shifted.utf8ByteSize_text⟩
  · rintro source lines session c compiled rfl k
    have here := Session.compile_after compiled k
    refine ⟨⟨?_, fun room => ⟨_, here.1 room⟩⟩, here.1, fun full j le => ?_⟩
    · rintro ⟨ys, succeeds⟩
      refine Nat.le_of_not_lt fun full => ?_
      obtain ⟨_, _, _, _, fails⟩ := here.2 full
      rw [fails] at succeeds
      cases succeeds
    · refine (Session.compile_after compiled j).2 (full.trans_le ?_)
      exact Nat.mul_le_mul_right _ (Nat.succ_le_succ le)

/-- The program `f(){f();}`. -/
def Program.repeating : Program :=
  [⟨"f", 0, [], [.expr (.call "f" [] 4)], .empty, 0⟩]

/-- A program with one label is compiled with any label, the last one included. The third listing of
a session has the label number 2 where the first one has 0, and from the compilation behind the last
label on all of them fail. -/
theorem third_renumbered :
    (∃ s', Program.repeating.generate .full = (.ok (Program.repeating.listing 0), s') ∧
        s'.taken = 1) ∧
      (∃ xs ys s₁' s₂', Program.repeating.generate ⟨5, by decide⟩ = (.ok xs, s₁') ∧
        Program.repeating.generate ⟨17575, by decide⟩ = (.ok ys, s₂') ∧ s₁'.taken = 5 + 1 ∧
        s₂'.taken = 17575 + 1 ∧ Listing.Shifted 5 17575 1 xs ys ∧
        ys.text.utf8ByteSize = xs.text.utf8ByteSize) ∧
      ∃ session, (Session.start "f(){f();}").compile =
          (.ok (Program.repeating.listing 0), session) ∧
        session.supply.taken = 1 ∧
        ((Session.start "f(){f();}").after 2).compile.1 =
          .ok ((Program.repeating.listing 0).map (Line.renumber (· + 2 * 1))) ∧
        ∀ j, 17576 ≤ j → ∃ p, Program.ofSource "f(){f();}" = .ok p ∧ ∃ f ∈ p,
          ((Session.start "f(){f();}").after j).compile.1 =
            .error (Fault.report .labelsExhausted f.loc) := by
  have read : Program.ofSource "f(){f();}" = .ok .repeating := by cbv
  have generated : Program.repeating.generate .full =
      (.ok (Program.repeating.listing 0), ⟨1, by decide⟩) := by rfl
  have compiled : (Session.start "f(){f();}").compile =
      (.ok (Program.repeating.listing 0), ⟨"f(){f();}", ⟨1, by decide⟩⟩) := by
    rw [Session.compile_eq read]
    rfl
  obtain ⟨shifted, again⟩ := compile_renumbered
  obtain ⟨-, listing, -⟩ := again _ _ _ 1 compiled rfl 2
  obtain ⟨-, -, fails⟩ := again _ _ _ 1 compiled rfl 17576
  exact ⟨⟨_, generated, rfl⟩,
    shifted _ _ _ _ 1 generated rfl ⟨5, by decide⟩ ⟨17575, by decide⟩ (by decide) (by decide),
    _, compiled, rfl, listing (by decide), fails (by decide)⟩

end StackCompiler
