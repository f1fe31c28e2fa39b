import Mathlib
import StackCompiler.Proofs.Assembly
import StackCompiler.Proofs.Depth
import StackCompiler.Proofs.Parts

/-!
# Depths in listings

The code of every expression and of every statement stands somewhere in the code of its function. A
site is such a place, together with the label its code starts with. The sites of a function list all
its expressions and statements, at any depth of nesting, so what holds at every site holds of every
part of the program where its code stands.

The main statements are these.
* The code of a part is found at its site, and a statement starts at depth zero (`Stmt.holds`).
* No part is left out (`Stmt.exprs_sites`, `Stmt.stmts_sites`).
* In the listing that the text of every program is read as, each function keeps its stack in order
  (`Program.balanced_of_generate`).
-/

namespace StackCompiler

/-! ## 1. Sites -/

/-- What code is laid out for. -/
inductive Piece where
  | stmt (s : Stmt)
  | expr (e : Expr)
  /-- The target of an assignment, of which the address is computed. -/
  | address (e : Expr)

/-- A place in the body of a function where the code of a piece begins: its first label, and the
lines of the body before it. -/
structure Site where
  piece : Piece
  number : Nat
  before : Listing

namespace Site

/-- The code at a site in `function`. -/
def code (function : String) (site : Site) : Listing :=
  match site.piece with
  | .stmt s => s.code function site.number
  | .expr e => e.code site.number
  | .address e => instrs e.addressCode

/-- The expression at a site, if there is one. -/
def expr? (site : Site) : Option Expr :=
  match site.piece with
  | .stmt _ => none
  | .expr e | .address e => some e

/-- The statement at a site, if there is one. -/
def stmt? (site : Site) : Option Stmt :=
  match site.piece with
  | .stmt s => some s
  | .expr _ | .address _ => none

/-- The number of the line of the body at which the code of a site begins. -/
def start (site : Site) : Nat :=
  site.before.length

/-- The number of the line behind the code of a site. -/
def stop (function : String) (site : Site) : Nat :=
  site.start + (site.code function).length

/-- Code can be generated for the piece, and a statement starts at depth zero. -/
def Fits (site : Site) : Prop :=
  match site.piece with
  | .stmt s => s.Allowed ∧ site.before.rise = 0
  | .expr e => e.Allowed
  | .address e => e.isVariable = true

end Site

mutual

/-- The sites of an expression and of all expressions inside it. -/
def Expr.sites (number : Nat) (before : Listing) : Expr → List Site
  | .num value => [⟨.expr (.num value), number, before⟩]
  | .var name offset loc => [⟨.expr (.var name offset loc), number, before⟩]
  | .binary op lhs rhs =>
    ⟨.expr (.binary op lhs rhs), number, before⟩ ::
      (lhs.sites number before ++ rhs.sites (number + lhs.labels) (before ++ lhs.code number))
  | .assign target value loc =>
    ⟨.expr (.assign target value loc), number, before⟩ :: ⟨.address target, number, before⟩ ::
      value.sites number (before ++ instrs target.addressCode)
  | .call name args loc =>
    ⟨.expr (.call name args loc), number, before⟩ :: sitesOfArgs number before args

/-- The sites of arguments and of all expressions inside them. -/
def sitesOfArgs (number : Nat) (before : Listing) : List Expr → List Site
  | [] => []
  | arg :: args =>
    arg.sites number before ++ sitesOfArgs (number + arg.labels) (before ++ arg.code number) args

end

/-- The sites of a clause that may be absent. -/
def sitesOfClause (number : Nat) (before : Listing) (clause : Option Expr) : List Site :=
  clause.elim [] (Expr.sites number before)

mutual

/-- The sites of a statement and of all statements and expressions inside it. -/
def Stmt.sites (function : String) (number : Nat) (before : Listing) : Stmt → List Site
  | .ret value => ⟨.stmt (.ret value), number, before⟩ :: value.sites number before
  | .expr e => ⟨.stmt (.expr e), number, before⟩ :: e.sites number before
  | .block body =>
    ⟨.stmt (.block body), number, before⟩ :: sitesOfBlock function number before body
  | .cond test yes none =>
    ⟨.stmt (.cond test yes none), number, before⟩ :: (test.sites (number + 1) before
      ++ yes.sites function (number + 1 + test.labels)
        (before ++ test.branchCode (number + 1) (.numbered .done number)))
  | .cond test yes (some no) =>
    let tested := before ++ test.branchCode (number + 1) (.numbered .otherwise number)
    let ran := tested ++ yes.code function (number + 1 + test.labels)
      ++ instrs [.jump (.numbered .done number)]
    ⟨.stmt (.cond test yes (some no)), number, before⟩ :: (test.sites (number + 1) before
      ++ yes.sites function (number + 1 + test.labels) tested
      ++ no.sites function (number + 1 + test.labels + yes.labels)
        (ran ++ [.label (.numbered .otherwise number)]))
  | .loop start test next body =>
    let second := number + 1 + labelsOfClause start
    let third := second + labelsOfClause test
    let started := before ++ start.elim [] (Expr.effectCode (number + 1))
      ++ [.label (.numbered .again number)]
    let tested := started
      ++ test.elim [] (fun e => e.branchCode second (.numbered .done number))
    ⟨.stmt (.loop start test next body), number, before⟩ ::
      (sitesOfClause (number + 1) before start ++ sitesOfClause second started test
        ++ sitesOfClause (third + body.labels) (tested ++ body.code function third) next
        ++ body.sites function third tested)

/-- The sites of the statements of a block. -/
def sitesOfBlock (function : String) (number : Nat) (before : Listing) : List Stmt → List Site
  | [] => []
  | s :: rest =>
    s.sites function number before
      ++ sitesOfBlock function (number + s.labels) (before ++ s.code function number) rest

end

/-- The lines hold the sites, if they stand in the body of `function` behind the lines `before`. -/
def Listing.Holds (function : String) (before lines : Listing) (sites : List Site) : Prop :=
  ∀ site ∈ sites, site.Fits ∧ ∃ inner rest, site.before = before ++ inner ∧
    lines = inner ++ (site.code function ++ rest)

namespace Listing.Holds

variable {function : String} {before lines xs ys : Listing} {sites others : List Site}

theorem nil : Holds function before lines [] :=
  fun _ h => nomatch h

theorem cons {site : Site} (fits : site.Fits) (starts : site.before = before)
    (code : site.code function = lines) (h : Holds function before lines sites) :
    Holds function before lines (site :: sites) := by
  intro other ho
  rcases List.mem_cons.mp ho with rfl | ho
  · exact ⟨fits, [], [], by simp [starts], by simp [code]⟩
  · exact h other ho

theorem of_subset (h : Holds function before lines sites) (subset : others ⊆ sites) :
    Holds function before lines others :=
  fun site hs => h site (subset hs)

theorem union (h : Holds function before lines sites) (h' : Holds function before lines others) :
    Holds function before lines (sites ++ others) := by
  intro site hs
  rcases List.mem_append.mp hs with hs | hs
  · exact h site hs
  · exact h' site hs

theorem front (h : Holds function before xs sites) (ys : Listing) :
    Holds function before (xs ++ ys) sites := by
  intro site hs
  obtain ⟨fits, inner, rest, starts, code⟩ := h site hs
  exact ⟨fits, inner, rest ++ ys, starts, by simp [code]⟩

theorem back (h : Holds function (before ++ xs) ys sites) :
    Holds function before (xs ++ ys) sites := by
  intro site hs
  obtain ⟨fits, inner, rest, starts, code⟩ := h site hs
  exact ⟨fits, xs ++ inner, rest, by simp [starts], by simp [code]⟩

theorem append (hx : Holds function before xs sites)
    (hy : Holds function (before ++ xs) ys others) :
    Holds function before (xs ++ ys) (sites ++ others) :=
  (hx.front ys).union hy.back

end Listing.Holds

open Listing (Holds)

mutual

theorem Expr.holds (e : Expr) (allowed : e.Allowed) (function : String) (number : Nat)
    (before : Listing) : Holds function before (e.code number) (e.sites number before) := by
  cases e with
  | num value => exact .cons trivial rfl rfl .nil
  | var name offset loc => exact .cons trivial rfl rfl .nil
  | binary op lhs rhs =>
    have left := lhs.holds allowed.1 function number before
    have right := rhs.holds allowed.2 function (number + lhs.labels) (before ++ lhs.code number)
    exact .cons allowed rfl rfl ((left.append right).front _)
  | assign target value loc =>
    have address : Holds function before (instrs target.addressCode)
        [⟨.address target, number, before⟩] := .cons allowed.1 rfl rfl .nil
    have operand := value.holds allowed.2 function number (before ++ instrs target.addressCode)
    exact .cons allowed rfl rfl ((address.append operand).front _)
  | call name args loc =>
    exact .cons allowed rfl rfl ((holdsArgs args allowed.2.2 function number before).front _)

theorem holdsArgs (args : List Expr) (allowed : AllowedArgs args) (function : String)
    (number : Nat) (before : Listing) :
    Holds function before (codeOfArgs number args) (sitesOfArgs number before args) := by
  cases args with
  | nil => exact .nil
  | cons arg args =>
    exact (arg.holds allowed.1 function number before).append
      (holdsArgs args allowed.2 function (number + arg.labels) (before ++ arg.code number))

end

theorem Expr.holds_effectCode (e : Expr) (allowed : e.Allowed) (function : String) (number : Nat)
    (before : Listing) : Holds function before (e.effectCode number) (e.sites number before) :=
  (e.holds allowed function number before).front _

theorem Expr.holds_branchCode (e : Expr) (allowed : e.Allowed) (function : String) (number : Nat)
    (target : Target) (before : Listing) :
    Holds function before (e.branchCode number target) (e.sites number before) :=
  (e.holds allowed function number before).front _

theorem holdsClause {clause : Option Expr} {code : Expr → Listing} {function : String}
    {number : Nat} {before : Listing}
    (h : ∀ e, clause = some e → Holds function before (code e) (e.sites number before)) :
    Holds function before (clause.elim [] code) (sitesOfClause number before clause) := by
  cases clause with
  | none => exact .nil
  | some e => exact h e rfl

open Listing (rise_append_eq_zero)

mutual

/-- The code at every site of a statement is found there. -/
theorem Stmt.holds (s : Stmt) (allowed : s.Allowed) (function : String) (number : Nat)
    {before : Listing} (level : before.rise = 0) :
    Holds function before (s.code function number) (s.sites function number before) := by
  match s with
  | .ret value =>
    exact .cons ⟨allowed, level⟩ rfl rfl ((value.holds allowed function number before).front _)
  | .expr e =>
    exact .cons ⟨allowed, level⟩ rfl rfl ((e.holds allowed function number before).front _)
  | .block body =>
    exact .cons ⟨allowed, level⟩ rfl rfl (holdsBlock body allowed function number level)
  | .cond test yes none =>
    have tested := rise_append_eq_zero level
      (test.rise_branchCode allowed.1 (number + 1) (.numbered .done number))
    have first := test.holds_branchCode allowed.1 function (number + 1) (.numbered .done number)
      before
    have second := yes.holds allowed.2 function (number + 1 + test.labels) tested
    exact .cons ⟨allowed, level⟩ rfl rfl ((first.append second).front _)
  | .cond test yes (some no) =>
    have tested := rise_append_eq_zero level
      (test.rise_branchCode allowed.1 (number + 1) (.numbered .otherwise number))
    have ran := rise_append_eq_zero tested
      (yes.rise_code allowed.2.1 function (number + 1 + test.labels))
    have skipped := rise_append_eq_zero ran
      (show Listing.rise (instrs [.jump (.numbered .done number)]) = 0 from rfl)
    have labelled := rise_append_eq_zero skipped
      (show Listing.rise [.label (.numbered .otherwise number)] = 0 from rfl)
    have first := test.holds_branchCode allowed.1 function (number + 1)
      (.numbered .otherwise number) before
    have second := yes.holds allowed.2.1 function (number + 1 + test.labels) tested
    have third := no.holds allowed.2.2 function (number + 1 + test.labels + yes.labels) labelled
    have parts := first.append (second.append
      (third.front [.label (.numbered .done number)]).back.back)
    refine .cons ⟨allowed, level⟩ rfl rfl ?_
    simpa only [Stmt.code, List.append_assoc, List.cons_append, List.nil_append] using parts
  | .loop start test next body =>
    let second := number + 1 + labelsOfClause start
    let third := second + labelsOfClause test
    let entered := before ++ start.elim [] (Expr.effectCode (number + 1))
      ++ [.label (.numbered .again number)]
    have started := rise_append_eq_zero (rise_append_eq_zero level
      (rise_clause fun e he => e.rise_effectCode (allowed.1 e he) (number + 1)))
      (show Listing.rise [.label (.numbered .again number)] = 0 from rfl)
    have tested := rise_append_eq_zero started
      (rise_clause fun e he => e.rise_branchCode (allowed.2.1 e he) second (.numbered .done number))
    have starts := holdsClause fun e he =>
      e.holds_effectCode (allowed.1 e he) function (number + 1) before
    have tests := holdsClause fun e he =>
      e.holds_branchCode (allowed.2.1 e he) function second (.numbered .done number) entered
    have runs := body.holds allowed.2.2.2 function third tested
    have steps := holdsClause fun e he =>
      e.holds_effectCode (allowed.2.2.1 e he) function (third + body.labels)
        (entered ++ test.elim [] (fun e => e.branchCode second (.numbered .done number))
          ++ body.code function third)
    have parts := starts.append (tests.append (runs.append (steps.front
      (instrs [.jump (.numbered .again number)] ++ [.label (.numbered .done number)])))).back
    have code : (Stmt.loop start test next body).code function number =
        start.elim [] (Expr.effectCode (number + 1)) ++ ([.label (.numbered .again number)] ++
          (test.elim [] (fun e => e.branchCode second (.numbered .done number)) ++
            (body.code function third ++ (next.elim [] (Expr.effectCode (third + body.labels)) ++
              (instrs [.jump (.numbered .again number)] ++
                [.label (.numbered .done number)]))))) := by
      simp only [Stmt.code, List.append_assoc, List.cons_append, List.nil_append, second, third]
    rw [code]
    refine .cons ⟨allowed, level⟩ rfl code (parts.of_subset ?_)
    -- the third clause comes behind the body, but is listed before it
    intro site hs
    simp only [List.mem_append] at hs ⊢
    tauto

theorem holdsBlock (body : List Stmt) (allowed : AllowedBlock body) (function : String)
    (number : Nat) {before : Listing} (level : before.rise = 0) :
    Holds function before (codeOfBlock function number body)
      (sitesOfBlock function number before body) := by
  match body with
  | [] => exact .nil
  | s :: rest =>
    have ran := rise_append_eq_zero level (s.rise_code allowed.1 function number)
    exact (s.holds allowed.1 function number level).append
      (holdsBlock rest allowed.2 function (number + s.labels) ran)

end

/-! ## 2. All expressions and statements have sites -/

theorem Expr.parts_of_isVariable {e : Expr} (h : e.isVariable = true) : e.parts = [e] := by
  cases e with
  | var name offset loc => rfl
  | num | binary | assign | call => cases h

mutual

/-- The expressions at the sites of an expression are those inside it. -/
theorem Expr.exprs_sites (e : Expr) (allowed : e.Allowed) (number : Nat) (before : Listing) :
    (e.sites number before).filterMap Site.expr? = e.parts := by
  cases e with
  | num value => rfl
  | var name offset loc => rfl
  | binary op lhs rhs =>
    rw [Expr.sites, List.filterMap_cons_some (f := Site.expr?) rfl, List.filterMap_append,
      lhs.exprs_sites allowed.1, rhs.exprs_sites allowed.2, Expr.parts]
  | assign target value loc =>
    rw [Expr.sites, List.filterMap_cons_some (f := Site.expr?) rfl,
      List.filterMap_cons_some (f := Site.expr?) rfl,
      value.exprs_sites allowed.2, Expr.parts, Expr.parts_of_isVariable allowed.1]
    rfl
  | call name args loc =>
    rw [Expr.sites, List.filterMap_cons_some (f := Site.expr?) rfl,
      exprs_sitesOfArgs args allowed.2.2, Expr.parts]

theorem exprs_sitesOfArgs (args : List Expr) (allowed : AllowedArgs args) (number : Nat)
    (before : Listing) :
    (sitesOfArgs number before args).filterMap Site.expr? = partsOfArgs args := by
  cases args with
  | nil => rfl
  | cons arg args =>
    rw [sitesOfArgs, List.filterMap_append, arg.exprs_sites allowed.1,
      exprs_sitesOfArgs args allowed.2, partsOfArgs]

end

mutual

theorem Expr.stmts_sites (e : Expr) (number : Nat) (before : Listing) :
    (e.sites number before).filterMap Site.stmt? = [] := by
  cases e with
  | num value => rfl
  | var name offset loc => rfl
  | binary op lhs rhs =>
    rw [Expr.sites, List.filterMap_cons_none rfl, List.filterMap_append, lhs.stmts_sites,
      rhs.stmts_sites, List.append_nil]
  | assign target value loc =>
    rw [Expr.sites, List.filterMap_cons_none rfl, List.filterMap_cons_none rfl, value.stmts_sites]
  | call name args loc => rw [Expr.sites, List.filterMap_cons_none rfl, stmts_sitesOfArgs]

theorem stmts_sitesOfArgs (args : List Expr) (number : Nat) (before : Listing) :
    (sitesOfArgs number before args).filterMap Site.stmt? = [] := by
  cases args with
  | nil => rfl
  | cons arg args =>
    rw [sitesOfArgs, List.filterMap_append, arg.stmts_sites, stmts_sitesOfArgs, List.append_nil]

end

theorem exprs_sitesOfClause {clause : Option Expr} (allowed : AllowedClause clause) (number : Nat)
    (before : Listing) :
    (sitesOfClause number before clause).filterMap Site.expr? = partsOfClause clause := by
  cases clause with
  | none => rfl
  | some e => exact e.exprs_sites (allowed e rfl) number before

theorem stmts_sitesOfClause (clause : Option Expr) (number : Nat) (before : Listing) :
    (sitesOfClause number before clause).filterMap Site.stmt? = [] := by
  cases clause with
  | none => rfl
  | some e => exact e.stmts_sites number before

mutual

/-- The expressions at the sites of a statement are those inside it. -/
theorem Stmt.exprs_sites (s : Stmt) (allowed : s.Allowed) (function : String) (number : Nat)
    (before : Listing) :
    (s.sites function number before).filterMap Site.expr? = s.exprs := by
  match s with
  | .ret value =>
    rw [Stmt.sites, List.filterMap_cons_none rfl, value.exprs_sites allowed, Stmt.exprs]
  | .expr e => rw [Stmt.sites, List.filterMap_cons_none rfl, e.exprs_sites allowed, Stmt.exprs]
  | .block body =>
    rw [Stmt.sites, List.filterMap_cons_none rfl, exprs_sitesOfBlock body allowed, Stmt.exprs]
  | .cond test yes none =>
    rw [Stmt.sites, List.filterMap_cons_none rfl, List.filterMap_append,
      test.exprs_sites allowed.1, yes.exprs_sites allowed.2, Stmt.exprs]
  | .cond test yes (some no) =>
    rw [Stmt.sites, List.filterMap_cons_none rfl, List.filterMap_append, List.filterMap_append,
      test.exprs_sites allowed.1, yes.exprs_sites allowed.2.1, no.exprs_sites allowed.2.2,
      Stmt.exprs]
  | .loop start test next body =>
    rw [Stmt.sites, List.filterMap_cons_none rfl, List.filterMap_append, List.filterMap_append,
      List.filterMap_append, exprs_sitesOfClause allowed.1, exprs_sitesOfClause allowed.2.1,
      exprs_sitesOfClause allowed.2.2.1, body.exprs_sites allowed.2.2.2, Stmt.exprs]

theorem exprs_sitesOfBlock (body : List Stmt) (allowed : AllowedBlock body) (function : String)
    (number : Nat) (before : Listing) :
    (sitesOfBlock function number before body).filterMap Site.expr? = exprsOfBlock body := by
  match body with
  | [] => rfl
  | s :: rest =>
    rw [sitesOfBlock, List.filterMap_append, s.exprs_sites allowed.1,
      exprs_sitesOfBlock rest allowed.2, exprsOfBlock]

end

mutual

/-- The statements at the sites of a statement are those inside it. -/
theorem Stmt.stmts_sites (s : Stmt) (function : String) (number : Nat) (before : Listing) :
    (s.sites function number before).filterMap Site.stmt? = s.parts := by
  match s with
  | .ret value =>
    rw [Stmt.sites, List.filterMap_cons_some (f := Site.stmt?) rfl, value.stmts_sites, Stmt.parts]
  | .expr e =>
    rw [Stmt.sites, List.filterMap_cons_some (f := Site.stmt?) rfl, e.stmts_sites, Stmt.parts]
  | .block body =>
    rw [Stmt.sites, List.filterMap_cons_some (f := Site.stmt?) rfl, stmts_sitesOfBlock body,
      Stmt.parts]
  | .cond test yes none =>
    rw [Stmt.sites, List.filterMap_cons_some (f := Site.stmt?) rfl, List.filterMap_append,
      test.stmts_sites,
      yes.stmts_sites, Stmt.parts, List.nil_append]
  | .cond test yes (some no) =>
    rw [Stmt.sites, List.filterMap_cons_some (f := Site.stmt?) rfl, List.filterMap_append,
      List.filterMap_append,
      test.stmts_sites, yes.stmts_sites, no.stmts_sites, Stmt.parts, List.nil_append]
  | .loop start test next body =>
    rw [Stmt.sites, List.filterMap_cons_some (f := Site.stmt?) rfl, List.filterMap_append,
      List.filterMap_append,
      List.filterMap_append, stmts_sitesOfClause, stmts_sitesOfClause, stmts_sitesOfClause,
      body.stmts_sites, Stmt.parts]
    rfl

theorem stmts_sitesOfBlock (body : List Stmt) (function : String) (number : Nat)
    (before : Listing) :
    (sitesOfBlock function number before body).filterMap Site.stmt? = partsOfBlock body := by
  match body with
  | [] => rfl
  | s :: rest =>
    rw [sitesOfBlock, List.filterMap_append, s.stmts_sites, stmts_sitesOfBlock rest, partsOfBlock]

end

/-! ## 3. Functions and programs -/

namespace Function

/-- The sites of a function whose first label is `number`. -/
def sites (f : Function) (number : Nat) : List Site :=
  sitesOfBlock f.name number [] f.body

/-- The lines of a function between setting up its frame and restoring `rbp`. -/
def workLines (f : Function) (number : Nat) : Listing :=
  codeOfBlock f.name number f.body ++ .label (.exit f.name) :: instrs [.mov .rsp .rbp]

/-- The section of a function whose first label is `number` keeps its stack in order. At the work
line `i` there are `depth i` words on the stack above the frame. -/
structure Balanced (f : Function) (number : Nat) (part : FunctionSection) (depth : Nat → Int) :
    Prop where
  /-- Work begins when the frame is set up. What is popped behind it is the saved `rbp`. -/
  lines : part.lines = [.exported f.name, .entry f.name] ++ instrs f.enterCode
    ++ f.workLines number ++ instrs [.pop .rbp, .ret]
  /-- The frame is set up without jumps. -/
  enters : ∀ i ∈ f.enterCode, i.target? = none
  /-- Nothing is on the stack when work begins. -/
  begins : depth 0 = 0
  /-- The next line finds the words that a line finds, and those that it pushes. -/
  falls : ∀ (i : Nat) (line : Line), (f.workLines number)[i]? = some line →
    depth (i + 1) = depth i + line.rise
  /-- The depth is never negative. -/
  nonneg : ∀ i ≤ (f.workLines number).length, 0 ≤ depth i
  /-- A jump leads to a label of the same function, and finds there the depth it leaves. -/
  jumps : ∀ (i : Nat) (instr : Instr) (target : Target),
    (f.workLines number)[i]? = some (.instr instr) → instr.target? = some target →
      .label target ∈ f.workLines number ∧
        ∀ (j : Nat) (line : Line), (f.workLines number)[j]? = some line →
          line.text = (Line.label target).text → depth j = depth i
  /-- The depth is zero where the function returns. -/
  leaves : ∀ j, (f.workLines number)[j]? = some (.label (.exit f.name)) → depth j = 0
  /-- Every expression of the function has its site. -/
  exprs : (f.sites number).filterMap Site.expr? = f.exprs
  /-- Every statement of the function has its site. -/
  stmts : (f.sites number).filterMap Site.stmt? = f.stmts
  /-- The code at a site is found there. -/
  found : ∀ site ∈ f.sites number, site.before ++ site.code f.name <+: f.workLines number
  /-- The depth is zero before and behind the code of a statement. -/
  level : ∀ site ∈ f.sites number, site.stmt?.isSome →
    depth site.start = 0 ∧ depth (site.stop f.name) = 0
  /-- The code of an expression raises the depth by one and never goes below where it started. -/
  raises : ∀ site ∈ f.sites number, site.expr?.isSome →
    depth (site.stop f.name) = depth site.start + 1 ∧
      ∀ i, site.start ≤ i → i ≤ site.stop f.name → depth site.start ≤ depth i

/-- Depths at the labels of a function are known under which its work is followed. -/
theorem exists_depths (f : Function) (allowed : f.Allowed) (number : Nat) :
    ∃ depths : Depths, (depths.map (·.1)).Nodup ∧ Keeps depths 0 (f.workLines number) 0 := by
  have body := settlesBlock f.body allowed.body f.name number (List.mem_singleton_self _)
  have leave : Settles [(.exit f.name, 0)] 0 (instrs [.mov .rsp .rbp]) 0 :=
    .instrs (.step (Int.le_refl 0) rfl rfl (.nil (Int.le_refl 0)))
  obtain ⟨depths, keys, keeps⟩ := body.join leave
  refine ⟨depths, ?_, by rwa [List.append_nil] at keeps⟩
  have distinct := Listing.nodup_labels (f.nodup_marks_code number)
  have same : Listing.labels (f.code number) = Listing.labels (f.workLines number) := by
    simp [code, workLines]
  rw [keys]
  exact same ▸ distinct

theorem lines_sectionAt (f : Function) (number : Nat) :
    (f.sectionAt number).lines = [.exported f.name, .entry f.name] ++ instrs f.enterCode
      ++ f.workLines number ++ instrs [.pop .rbp, .ret] := by
  simp [sectionAt, FunctionSection.lines, workLines, instrs]

theorem holds_sites (f : Function) (allowed : f.Allowed) (number : Nat) :
    Holds f.name [] (codeOfBlock f.name number f.body) (f.sites number) :=
  holdsBlock f.body allowed.body f.name number rfl

end Function

namespace Site

variable {site : Site}

theorem rise_code_of_stmt (fits : site.Fits) (h : site.stmt?.isSome) (function : String) :
    site.before.rise = 0 ∧ (site.code function).rise = 0 := by
  obtain ⟨piece, number, before⟩ := site
  cases piece with
  | stmt s => exact ⟨fits.2, s.rise_code fits.1 function number⟩
  | expr e => cases h
  | address e => cases h

theorem settles_code_of_expr (fits : site.Fits) (h : site.expr?.isSome) (function : String) :
    Settles [] 0 (site.code function) 1 := by
  obtain ⟨piece, number, before⟩ := site
  cases piece with
  | stmt s => cases h
  | expr e => exact e.settles fits number (Int.le_refl 0) []
  | address e => exact Expr.settles_addressCode fits (Int.le_refl 0) []

end Site

namespace Function

variable {f : Function} {number : Nat}

/-- The depth at a line is the rise of the work lines before it. -/
def depthAt (f : Function) (number i : Nat) : Int :=
  Listing.rise ((f.workLines number).take i)

theorem depthAt_length {before : Listing} (h : before <+: f.workLines number) :
    f.depthAt number before.length = before.rise := by
  rw [depthAt, ← List.prefix_iff_eq_take.mp h]

/-- Inside of the code at a site the depth is that at the site and the rise of the code so far. -/
theorem depthAt_inside {before code : Listing} (h : before ++ code <+: f.workLines number) {i : Nat}
    (le : before.length ≤ i) (le' : i ≤ before.length + code.length) :
    f.depthAt number i = before.rise + Listing.rise (code.take (i - before.length)) := by
  obtain ⟨rest, split⟩ := h
  rw [depthAt, ← split, List.append_assoc, List.take_append, List.take_of_length_le le,
    List.take_append_of_le_length (Nat.sub_le_iff_le_add'.mpr le'), Listing.rise_append]

theorem balanced_sectionAt (allowed : f.Allowed)
    (spelled : ∀ line ∈ (f.sectionAt number).lines, line.Spelled) :
    f.Balanced number (f.sectionAt number) (f.depthAt number) := by
  obtain ⟨depths, distinct, keeps⟩ := f.exists_depths allowed number
  have lines := f.lines_sectionAt number
  have inside : f.workLines number ⊆ (f.sectionAt number).lines := by
    rw [lines]
    intro line hl
    simp [hl]
  have holds := f.holds_sites allowed number
  have found : ∀ site ∈ f.sites number, site.before ++ site.code f.name <+: f.workLines number := by
    intro site hs
    obtain ⟨-, inner, rest, starts, code⟩ := holds site hs
    refine ⟨rest ++ .label (.exit f.name) :: instrs [.mov .rsp .rbp], ?_⟩
    rw [workLines, code, starts]
    simp
  constructor
  · exact lines
  · exact f.target?_enterCode
  · rfl
  · exact fun i line here => Listing.rise_take_succ here
  · intro i _
    have := keeps.nonneg_of_prefix (List.take_prefix i _)
    rwa [Int.zero_add] at this
  · intro i instr target here jumps
    have mem : .label target ∈ f.workLines number := by
      have := label_of_jump (inside (List.mem_of_getElem? here)) jumps
      rw [lines] at this
      simpa [instrs] using this
    refine ⟨mem, fun j line there text => ?_⟩
    obtain rfl := Line.text_inj rfl (spelled _ (inside mem))
      (spelled _ (inside (List.mem_of_getElem? there))) text.symm
    exact keeps.rise_take_eq distinct there rfl here jumps
  · intro j here
    have exit : (f.workLines number)[(codeOfBlock f.name number f.body).length]? =
        some (.label (.exit f.name)) := by
      simp [workLines]
    have body : codeOfBlock f.name number f.body <+: f.workLines number := List.prefix_append _ _
    have level :=
      (settlesBlock f.body allowed.body f.name number (List.mem_singleton_self _)).last_eq
    calc f.depthAt number j
        = f.depthAt number (codeOfBlock f.name number f.body).length :=
          keeps.rise_take_eq distinct here rfl exit rfl
      _ = Listing.rise (codeOfBlock f.name number f.body) := depthAt_length body
      _ = 0 := by omega
  · exact exprs_sitesOfBlock f.body allowed.body f.name number []
  · exact stmts_sitesOfBlock f.body f.name number []
  · exact found
  · intro site hs h
    obtain ⟨before, code⟩ := Site.rise_code_of_stmt (holds site hs).1 h f.name
    have first := depthAt_length ((List.prefix_append _ _).trans (found site hs))
    have last := depthAt_length (found site hs)
    rw [List.length_append] at last
    exact ⟨first.trans before, last.trans (Listing.rise_append_eq_zero before code)⟩
  · intro site hs h
    obtain ⟨own, -, raises⟩ := Site.settles_code_of_expr (holds site hs).1 h f.name
    have first := depthAt_length ((List.prefix_append _ _).trans (found site hs))
    have last := depthAt_length (found site hs)
    rw [List.length_append, Listing.rise_append] at last
    have raised := raises.last_eq
    refine ⟨?_, fun i le le' => ?_⟩
    · show f.depthAt number (site.before.length + (site.code f.name).length) =
        f.depthAt number site.before.length + 1
      omega
    · have here := depthAt_inside (found site hs) le le'
      have nonneg := raises.nonneg_of_prefix (List.take_prefix (i - site.before.length) _)
      show f.depthAt number site.before.length ≤ f.depthAt number i
      omega

end Function

namespace Program

theorem forall₂_sectionsAt {p : Program} {number : Nat} {r : Function → FunctionSection → Prop}
    (h : ∀ f ∈ p, ∀ n, f.sectionAt n ∈ p.sectionsAt number → r f (f.sectionAt n)) :
    List.Forall₂ r p (p.sectionsAt number) := by
  induction p generalizing number with
  | nil => exact .nil
  | cons f rest ih =>
    refine .cons (h f (List.mem_cons_self ..) number (List.mem_cons_self ..)) (ih ?_)
    exact fun g hg n hn => h g (List.mem_cons_of_mem _ hg) n (List.mem_cons_of_mem _ hn)

/-- In the text of the listing of a program, the section of every function keeps its stack in order,
if the functions and those that they call have identifiers as names. Offsets, frame sizes and
literals may be anything. -/
theorem balanced_of_generate {p : Program} {s s' : Label.Supply} {lines : Listing}
    (functions : ∀ f ∈ p, IsIdentifier f.name)
    (calls : ∀ name args loc, .call name args loc ∈ p.exprs → IsIdentifier name)
    (h : p.generate s = (.ok lines, s')) :
    ∃ asm, Listing.ofText? lines.text = some asm ∧
      asm = .dialect :: asm.split.flatMap FunctionSection.lines ∧
      List.Forall₂ (fun f part => ∃ number depth, f.Balanced number part depth) p asm.split := by
  have spelled := spelled_of_generate functions h
  have sections := (wellLabelled_of_generate functions h).sections
  refine ⟨lines, ofText?_of_generate functions calls h, sections, ?_⟩
  obtain ⟨admitted, rfl⟩ := generate_eq_ok h
  rw [p.split_listing]
  refine forall₂_sectionsAt fun f hf n hn => ⟨n, f.depthAt n, ?_⟩
  refine f.balanced_sectionAt (allowed_of_admission admitted f hf) fun line hl => ?_
  refine spelled line ?_
  rw [sections, p.split_listing]
  exact List.mem_cons_of_mem _ (List.mem_flatMap.mpr ⟨_, hn, hl⟩)

/-- A program built by hand, with a loop, a call and a branch. No source is read as it: the slot
does not lie on a word, and the frame has no place for it. -/
def skewed : Program :=
  [{ name := "f"
     loc := 0
     params := []
     body := [.loop none (some (.call "g" [.assign (.var "x" 3 0) (.num 1) 0] 0)) none
       (.cond (.num 0) (.ret (.num 1)) (some (.expr (.num 2))))]
     frame := .empty
     frameSize := 8 }]

theorem skewed_balanced :
    (∀ f ∈ skewed, IsIdentifier f.name) ∧
      (∀ name args loc, .call name args loc ∈ skewed.exprs → IsIdentifier name) ∧
      skewed.generate .full = (.ok (skewed.listing 0), ⟨3, by decide⟩) ∧
      ∃ asm, Listing.ofText? (skewed.listing 0).text = some asm ∧
        asm = .dialect :: asm.split.flatMap FunctionSection.lines ∧
        List.Forall₂ (fun f part => ∃ number depth, f.Balanced number part depth) skewed
          asm.split := by
  have functions : ∀ f ∈ skewed, IsIdentifier f.name := by
    refine List.forall_mem_singleton.mpr ?_
    exact .word rfl (List.forall_mem_nil _) (Token.notFirst_nil _) (by decide)
  have calls : ∀ name args loc, .call name args loc ∈ skewed.exprs → IsIdentifier name := by
    intro name args loc mem
    have called : name ∈ callees skewed.exprs := mem_callees.mpr ⟨args, loc, mem⟩
    obtain rfl := List.mem_singleton.mp called
    exact .word rfl (List.forall_mem_nil _) (Token.notFirst_nil _) (by decide)
  have generated : skewed.generate .full = (.ok (skewed.listing 0), ⟨3, by decide⟩) := by rfl
  exact ⟨functions, calls, generated, balanced_of_generate functions calls generated⟩

end Program

end StackCompiler
