import Mathlib
import StackCompiler.Proofs.Blame
import StackCompiler.Proofs.Prefixes

/-!
# Programs at other places

Places in the source are copied from the tokens into the trees and from the trees into the faults.
Nothing depends on them. So tokens at other places are read as the same trees at these places, and
these have the same code, or the same fault.

The main statements are these.
* What is derivable from tokens is derivable, relocated, from the relocated tokens
  (`Grammar.Program.relocate`), and it is what they are read as (`Program.ofTokens_relocate`).
* A relocated program has the same listing, or the same fault at the new place
  (`Program.generate_relocate`).
* Two sources whose tokens have the same kinds and texts are compiled to the same listing, or
  refused with the same message at tokens with the same index (`compile_of_alike`).
-/

namespace StackCompiler

/-! ## 1. Trees at other places -/

mutual

/-- The expression with its parts at other places. -/
def Expr.relocate (g : Nat → Nat) : Expr → Expr
  | .num value => .num value
  | .var name offset loc => .var name offset (g loc)
  | .binary op lhs rhs => .binary op (lhs.relocate g) (rhs.relocate g)
  | .assign target value loc => .assign (target.relocate g) (value.relocate g) (g loc)
  | .call name args loc => .call name (relocateArgs g args) (g loc)

/-- The arguments of a call at other places. -/
def relocateArgs (g : Nat → Nat) : List Expr → List Expr
  | [] => []
  | arg :: args => arg.relocate g :: relocateArgs g args

end

mutual

/-- The statement with its parts at other places. -/
def Stmt.relocate (g : Nat → Nat) : Stmt → Stmt
  | .ret value => .ret (value.relocate g)
  | .expr e => .expr (e.relocate g)
  | .block body => .block (relocateBlock g body)
  | .cond test yes none => .cond (test.relocate g) (yes.relocate g) none
  | .cond test yes (some no) => .cond (test.relocate g) (yes.relocate g) (some (no.relocate g))
  | .loop start test next body =>
    .loop (start.map (Expr.relocate g)) (test.map (Expr.relocate g)) (next.map (Expr.relocate g))
      (body.relocate g)

/-- The statements of a block at other places. -/
def relocateBlock (g : Nat → Nat) : List Stmt → List Stmt
  | [] => []
  | s :: rest => s.relocate g :: relocateBlock g rest

end

/-- The function at another place. Its name, its parameters and its frame stay as they are. -/
def Function.relocate (g : Nat → Nat) (f : Function) : Function :=
  { f with loc := g f.loc, body := relocateBlock g f.body }

/-- The program with its functions at other places. -/
def Program.relocate (g : Nat → Nat) (p : Program) : Program :=
  p.map (Function.relocate g)

variable (g : Nat → Nat)

@[simp] theorem Token.loc_relocate (t : Token) : (t.relocate g).loc = g t.loc := rfl

@[simp] theorem Token.size_relocate (t : Token) : (t.relocate g).size = t.size := rfl

/-! ## 2. Derivations -/

namespace Grammar

variable {slot : String → Nat}

theorem leads_relocate {s : String} {ts : List Token} :
    Leads s (ts.map (Token.relocate g)) ↔ Leads s ts := by
  cases ts with
  | nil => rfl
  | cons t ts =>
    rw [List.map_cons, leads_cons, leads_cons]
    rfl

theorem variableNames_relocate (ts : List Token) :
    variableNames (ts.map (Token.relocate g)) = variableNames ts := by
  induction ts with
  | nil => rfl
  | cons t ts ih =>
    rw [List.map_cons, variableNames, variableNames, ih]
    simp only [leads_relocate]
    rfl

theorem Infix.relocate {n : Nat} {s : String} {a b e : Expr} (h : Infix n s a b e) :
    Infix n s (a.relocate g) (b.relocate g) (e.relocate g) := by
  cases h with
  | mul => exact .mul _ _
  | div => exact .div _ _
  | add => exact .add _ _
  | sub => exact .sub _ _
  | lt => exact .lt _ _
  | le => exact .le _ _
  | gt => exact .gt _ _
  | ge => exact .ge _ _
  | eq => exact .eq _ _
  | ne => exact .ne _ _

mutual

theorem Assignment.relocate {ts : List Token} {e : Expr} :
    Assignment slot ts e → Assignment slot (ts.map (Token.relocate g)) (e.relocate g)
  | .plain h => .plain h.relocate
  | .store ha heq hb => by
    rw [List.map_append]
    exact .store ha.relocate heq hb.relocate

theorem Level.relocate {n : Nat} {ts : List Token} {e : Expr} :
    Level slot n ts e → Level slot n (ts.map (Token.relocate g)) (e.relocate g)
  | .primary h => .primary h.relocate
  | .plus ht h => .plus ht h.relocate
  | .minus ht h => .minus ht h.relocate
  | .tighter h => .tighter h.relocate
  | .operator ha ht hb hop => by
    rw [List.map_append]
    exact .operator ha.relocate ht hb.relocate (hop.relocate g)

theorem Primary.relocate {ts : List Token} {e : Expr} :
    Primary slot ts e → Primary slot (ts.map (Token.relocate g)) (e.relocate g)
  | .parens hl h hr => by
    rw [List.map_cons, List.map_append]
    exact .parens hl h.relocate hr
  | .num hk => .num hk
  | .var hk ht => .var hk ht
  | .call hk ht hl h hr => by
    rw [List.map_cons, List.map_cons, List.map_append]
    exact .call hk ht hl h.relocate hr
  | .callBare hk ht hl hr => .callBare hk ht hl hr

theorem Arguments.relocate {ts : List Token} {es : List Expr} :
    Arguments slot ts es → Arguments slot (ts.map (Token.relocate g)) (relocateArgs g es)
  | .last h => .last h.relocate
  | .more h hc hs => by
    rw [List.map_append]
    exact .more h.relocate hc hs.relocate

end

theorem Clause.relocate {ts : List Token} {clause : Option Expr} :
    Clause slot ts clause →
      Clause slot (ts.map (Token.relocate g)) (clause.map (Expr.relocate g))
  | .absent => .absent
  | .present h => .present (h.relocate g)

mutual

theorem Statement.relocate {ts : List Token} {s : Stmt} :
    Statement slot ts s → Statement slot (ts.map (Token.relocate g)) (s.relocate g)
  | .ret hk h hz => by
    rw [List.map_cons, List.map_append]
    exact .ret hk (h.relocate g) hz
  | .cond hk hl htest hr hyes => by
    rw [List.map_cons, List.map_cons, List.map_append]
    exact .cond hk hl (htest.relocate g) hr hyes.relocate
  | .condElse hk hl htest hr hyes ho hno => by
    rw [List.map_cons, List.map_cons, List.map_append, List.map_cons, List.map_append]
    exact .condElse hk hl (htest.relocate g) hr hyes.relocate ho hno.relocate
  | .loop hk hl hstart hy htest hz hnext hr hbody => by
    rw [List.map_cons, List.map_cons, List.map_append, List.map_cons, List.map_append,
      List.map_cons, List.map_append]
    exact .loop hk hl (hstart.relocate g) hy (htest.relocate g) hz (hnext.relocate g) hr
      hbody.relocate
  | .block hl h hr => by
    rw [List.map_cons, List.map_append]
    exact .block hl h.relocate hr
  | .expr h hz => by
    rw [List.map_append]
    exact .expr (h.relocate g) hz

theorem Statements.relocate {ts : List Token} {body : List Stmt} :
    Statements slot ts body → Statements slot (ts.map (Token.relocate g)) (relocateBlock g body)
  | .nil => .nil
  | .cons h hs => by
    rw [List.map_append]
    exact .cons h.relocate hs.relocate

end

theorem Parameters.relocate {ts : List Token} {names : List String} (h : Parameters ts names) :
    Parameters (ts.map (Token.relocate g)) names := by
  induction h with
  | last hk ht => exact .last hk ht
  | more hk ht hc _ ih => exact .more hk ht hc ih

theorem OptParameters.relocate {ts : List Token} {names : List String}
    (h : OptParameters ts names) : OptParameters (ts.map (Token.relocate g)) names := by
  cases h with
  | absent => exact .absent
  | present h => exact .present (h.relocate g)

theorem Definition.relocate {ts : List Token} {f : Function} (h : Definition ts f) :
    Definition (ts.map (Token.relocate g)) (f.relocate g) := by
  cases h with
  | intro hk ht hl hparams hr ho hbody hc hframe =>
    rw [← variableNames_relocate g] at hframe
    rw [List.map_cons, List.map_cons, List.map_append, List.map_cons, List.map_cons,
      List.map_append]
    exact .intro hk ht hl (hparams.relocate g) hr ho (hbody.relocate g) hc hframe

/-- What tokens denote at other places. -/
theorem Program.relocate {ts : List Token} {p : StackCompiler.Program} (h : Program ts p) :
    Program (ts.map (Token.relocate g)) (p.relocate g) := by
  induction h with
  | nil => exact .nil
  | cons hf _ ih =>
    rw [List.map_append]
    exact .cons (hf.relocate g) ih

end Grammar

theorem Stmt.endsOpen_relocate (s : Stmt) : (s.relocate g).EndsOpen ↔ s.EndsOpen := by
  cases s with
  | ret | expr | block => rfl
  | cond test yes no =>
    cases no with
    | none => rfl
    | some no => exact no.endsOpen_relocate
  | loop start test next body => exact body.endsOpen_relocate

mutual

theorem Stmt.elsesNearest_relocate (s : Stmt) : (s.relocate g).ElsesNearest ↔ s.ElsesNearest := by
  match s with
  | .ret value => rfl
  | .expr e => rfl
  | .block body => exact elsesNearestIn_relocateBlock body
  | .cond test yes none => exact yes.elsesNearest_relocate
  | .cond test yes (some no) =>
    exact and_congr (not_congr (yes.endsOpen_relocate g))
      (and_congr yes.elsesNearest_relocate no.elsesNearest_relocate)
  | .loop start test next body => exact body.elsesNearest_relocate

theorem elsesNearestIn_relocateBlock (body : List Stmt) :
    ElsesNearestIn (relocateBlock g body) ↔ ElsesNearestIn body := by
  match body with
  | [] => rfl
  | s :: rest => exact and_congr s.elsesNearest_relocate (elsesNearestIn_relocateBlock rest)

end

theorem Token.beforeEnd_relocate (tokens : List Token) :
    beforeEnd (tokens.map (relocate g)) = (beforeEnd tokens).map (relocate g) := by
  induction tokens with
  | nil => rfl
  | cons t tokens ih =>
    rw [List.map_cons, beforeEnd, beforeEnd, ih, apply_ite (List.map _)]
    rfl

/-- Tokens at other places are read as the same program at these places. -/
theorem Program.ofTokens_relocate {tokens : List Token} {size size' : Nat} {p : Program}
    (h : Program.ofTokens tokens size = .ok p) :
    Program.ofTokens (tokens.map (Token.relocate g)) size' = .ok (p.relocate g) := by
  obtain ⟨derivable, distinct, nearest⟩ := ofTokens_eq_ok.mp h
  refine ofTokens_eq_ok.mpr ⟨?_, List.forall_mem_map.mpr distinct, ?_⟩
  · rw [Token.beforeEnd_relocate]
    exact derivable.relocate g
  · exact List.forall_mem_map.mpr fun f hf =>
      (elsesNearestIn_relocateBlock g f.body).mpr (nearest f hf)

/-! ## 3. Code -/

mutual

theorem Expr.labels_relocate (e : Expr) : (e.relocate g).labels = e.labels := by
  cases e with
  | num | var => rfl
  | binary op lhs rhs =>
    rw [Expr.relocate, Expr.labels, Expr.labels, lhs.labels_relocate, rhs.labels_relocate]
  | assign target value loc => exact value.labels_relocate
  | call name args loc => exact congrArg (· + 1) (labels_relocateArgs args)

theorem labels_relocateArgs (args : List Expr) :
    labelsOfArgs (relocateArgs g args) = labelsOfArgs args := by
  cases args with
  | nil => rfl
  | cons arg args =>
    rw [relocateArgs, labelsOfArgs, labelsOfArgs, arg.labels_relocate, labels_relocateArgs args]

end

theorem length_relocateArgs (args : List Expr) : (relocateArgs g args).length = args.length := by
  induction args with
  | nil => rfl
  | cons arg args ih => exact congrArg (· + 1) ih

theorem Expr.isVariable_relocate (e : Expr) : (e.relocate g).isVariable = e.isVariable := by
  cases e <;> rfl

theorem Expr.addressCode_relocate (e : Expr) : (e.relocate g).addressCode = e.addressCode := by
  cases e <;> rfl

mutual

theorem Expr.code_relocate (e : Expr) (number : Nat) :
    (e.relocate g).code number = e.code number := by
  cases e with
  | num | var => rfl
  | binary op lhs rhs =>
    rw [Expr.relocate, Expr.code, Expr.code, lhs.code_relocate, rhs.code_relocate,
      lhs.labels_relocate]
  | assign target value loc =>
    rw [Expr.relocate, Expr.code, Expr.code, target.addressCode_relocate, value.code_relocate]
  | call name args loc =>
    rw [Expr.relocate, Expr.code, Expr.code, code_relocateArgs args, length_relocateArgs,
      labels_relocateArgs]

theorem code_relocateArgs (args : List Expr) (number : Nat) :
    codeOfArgs number (relocateArgs g args) = codeOfArgs number args := by
  cases args with
  | nil => rfl
  | cons arg args =>
    rw [relocateArgs, codeOfArgs, codeOfArgs, arg.code_relocate, code_relocateArgs args,
      arg.labels_relocate]

end

theorem labels_relocateClause (clause : Option Expr) :
    labelsOfClause (clause.map (Expr.relocate g)) = labelsOfClause clause := by
  cases clause with
  | none => rfl
  | some e => exact e.labels_relocate g

mutual

theorem Stmt.labels_relocate (s : Stmt) : (s.relocate g).labels = s.labels := by
  match s with
  | .ret value => exact value.labels_relocate g
  | .expr e => exact e.labels_relocate g
  | .block body => exact labels_relocateBlock body
  | .cond test yes none =>
    rw [Stmt.relocate, Stmt.labels, Stmt.labels, test.labels_relocate, yes.labels_relocate]
  | .cond test yes (some no) =>
    rw [Stmt.relocate, Stmt.labels, Stmt.labels, test.labels_relocate, yes.labels_relocate,
      no.labels_relocate]
  | .loop start test next body =>
    rw [Stmt.relocate, Stmt.labels, Stmt.labels, labels_relocateClause, labels_relocateClause,
      labels_relocateClause, body.labels_relocate]

theorem labels_relocateBlock (body : List Stmt) :
    labelsOfBlock (relocateBlock g body) = labelsOfBlock body := by
  match body with
  | [] => rfl
  | s :: rest =>
    rw [relocateBlock, labelsOfBlock, labelsOfBlock, s.labels_relocate, labels_relocateBlock rest]

end

theorem Expr.effectCode_relocate (e : Expr) (number : Nat) :
    (e.relocate g).effectCode number = e.effectCode number := by
  rw [Expr.effectCode, Expr.effectCode, e.code_relocate]

theorem Expr.branchCode_relocate (e : Expr) (number : Nat) (target : Target) :
    (e.relocate g).branchCode number target = e.branchCode number target := by
  rw [Expr.branchCode, Expr.branchCode, e.code_relocate]

mutual

theorem Stmt.code_relocate (s : Stmt) (function : String) (number : Nat) :
    (s.relocate g).code function number = s.code function number := by
  match s with
  | .ret value => rw [Stmt.relocate, Stmt.code, Stmt.code, value.code_relocate]
  | .expr e => exact e.effectCode_relocate g number
  | .block body => exact code_relocateBlock body function number
  | .cond test yes none =>
    rw [Stmt.relocate, Stmt.code, Stmt.code, test.branchCode_relocate, test.labels_relocate,
      yes.code_relocate]
  | .cond test yes (some no) =>
    rw [Stmt.relocate, Stmt.code, Stmt.code, test.branchCode_relocate, test.labels_relocate,
      yes.code_relocate, yes.labels_relocate, no.code_relocate]
  | .loop start test next body =>
    rw [Stmt.relocate, Stmt.code, Stmt.code, labels_relocateClause, labels_relocateClause,
      body.code_relocate, body.labels_relocate]
    simp only [Option.elim_map, Function.comp_def, Expr.effectCode_relocate,
      Expr.branchCode_relocate]

theorem code_relocateBlock (body : List Stmt) (function : String) (number : Nat) :
    codeOfBlock function number (relocateBlock g body) = codeOfBlock function number body := by
  match body with
  | [] => rfl
  | s :: rest =>
    rw [relocateBlock, codeOfBlock, codeOfBlock, s.code_relocate, code_relocateBlock rest,
      s.labels_relocate]

end

theorem Function.code_relocate (f : Function) (number : Nat) :
    (f.relocate g).code number = f.code number := by
  unfold Function.code
  rw [show (f.relocate g).body = relocateBlock g f.body from rfl, code_relocateBlock]
  rfl

namespace Program

theorem sections_relocate (p : Program) (number : Nat) :
    (p.relocate g).sections number = p.sections number := by
  induction p generalizing number with
  | nil => rfl
  | cons f rest ih =>
    show (f.relocate g).code number ++ sections _ (relocate g rest) = _
    rw [f.code_relocate, ih, Function.labels, Function.relocate, labels_relocateBlock]
    rfl

/-- A listing holds no places. -/
theorem listing_relocate (p : Program) (number : Nat) :
    (p.relocate g).listing number = p.listing number :=
  congrArg (Line.dialect :: ·) (p.sections_relocate g number)

end Program

/-! ## 4. Faults -/

/-- The fault at another place. -/
def Located.relocate (g : Nat → Nat) (l : Located) : Located :=
  { l with loc := g l.loc }

/-- The violation at another place. -/
def Refusal.relocate (g : Nat → Nat) (r : Refusal) : Refusal :=
  { r with loc := g r.loc }

/-- The demand at another place. -/
def Demand.relocate (g : Nat → Nat) : Demand → Demand
  | .label owner => .label (g owner)
  | .condition holds fault loc => .condition holds fault (g loc)

mutual

theorem Expr.demands_relocate (owner : Nat) (e : Expr) :
    (e.relocate g).demands (g owner) = (e.demands owner).map (Demand.relocate g) := by
  cases e with
  | num | var => rfl
  | binary op lhs rhs =>
    rw [Expr.relocate, Expr.demands, Expr.demands, lhs.demands_relocate, rhs.demands_relocate,
      List.map_append]
  | assign target value loc =>
    rw [Expr.relocate, Expr.demands, Expr.demands, value.demands_relocate,
      target.isVariable_relocate]
    rfl
  | call name args loc =>
    rw [Expr.relocate, Expr.demands, Expr.demands, demands_relocateArgs owner args,
      length_relocateArgs, List.map_cons, List.map_cons, List.map_append]
    rfl

theorem demands_relocateArgs (owner : Nat) (args : List Expr) :
    demandsOfArgs (g owner) (relocateArgs g args) =
      (demandsOfArgs owner args).map (Demand.relocate g) := by
  cases args with
  | nil => rfl
  | cons arg args =>
    rw [relocateArgs, demandsOfArgs, demandsOfArgs, arg.demands_relocate,
      demands_relocateArgs owner args, List.map_append]

end

theorem demands_relocateClause (owner : Nat) (clause : Option Expr) :
    demandsOfClause (g owner) (clause.map (Expr.relocate g)) =
      (demandsOfClause owner clause).map (Demand.relocate g) := by
  cases clause with
  | none => rfl
  | some e => exact e.demands_relocate g owner

mutual

theorem Stmt.demands_relocate (owner : Nat) (s : Stmt) :
    (s.relocate g).demands (g owner) = (s.demands owner).map (Demand.relocate g) := by
  match s with
  | .ret value => exact value.demands_relocate g owner
  | .expr e => exact e.demands_relocate g owner
  | .block body => exact demands_relocateBlock owner body
  | .cond test yes none =>
    rw [Stmt.relocate, Stmt.demands, Stmt.demands, test.demands_relocate, yes.demands_relocate,
      List.map_cons, List.map_append]
    rfl
  | .cond test yes (some no) =>
    rw [Stmt.relocate, Stmt.demands, Stmt.demands, test.demands_relocate, yes.demands_relocate,
      no.demands_relocate, List.map_cons, List.map_append, List.map_append]
    rfl
  | .loop start test next body =>
    rw [Stmt.relocate, Stmt.demands, Stmt.demands, demands_relocateClause, demands_relocateClause,
      demands_relocateClause, body.demands_relocate, List.map_cons, List.map_append,
      List.map_append, List.map_append]
    rfl

theorem demands_relocateBlock (owner : Nat) (body : List Stmt) :
    demandsOfBlock (g owner) (relocateBlock g body) =
      (demandsOfBlock owner body).map (Demand.relocate g) := by
  match body with
  | [] => rfl
  | s :: rest =>
    rw [relocateBlock, demandsOfBlock, demandsOfBlock, s.demands_relocate,
      demands_relocateBlock owner rest, List.map_append]

end

theorem Function.demands_relocate (earlier : List String) (f : Function) :
    (f.relocate g).demands earlier = (f.demands earlier).map (Demand.relocate g) := by
  rw [Function.demands, Function.demands, Function.relocate, demands_relocateBlock]
  rfl

theorem Program.demandsAfter_relocate (earlier : List String) (p : Program) :
    (p.relocate g).demandsAfter earlier = (p.demandsAfter earlier).map (Demand.relocate g) := by
  induction p generalizing earlier with
  | nil => rfl
  | cons f rest ih =>
    show (f.relocate g).demands earlier ++ demandsAfter _ (relocate g rest) = _
    rw [f.demands_relocate, ih, demandsAfter, List.map_append]
    rfl

/-- Relocated demands are met alike. -/
theorem Demand.meet_relocate (ds : List Demand) (s : Label.Supply) :
    meet (ds.map (relocate g)) s = (meet ds s).mapError (Refusal.relocate g) := by
  induction ds generalizing s with
  | nil => rfl
  | cons d ds ih =>
    cases d with
    | label owner =>
      rw [List.map_cons, relocate, meet_label, meet_label, Admission.takeLabel,
        Admission.takeLabel, nextLabel, nextLabel]
      cases s.take? with
      | none => rfl
      | some taken => exact ih taken.2
    | condition holds fault loc =>
      rw [List.map_cons, relocate, meet_condition, meet_condition]
      cases holds with
      | true => exact ih s
      | false => rfl

/-- A program at other places has the same listing, or the same fault at the new place, and takes
the same labels. -/
theorem Program.generate_relocate (p : Program) (s : Label.Supply) :
    (p.relocate g).generate s =
      ((p.generate s).1.mapError (Located.relocate g), (p.generate s).2) := by
  have same : (p.relocate g).admission s = (p.admission s).mapError (Refusal.relocate g) := by
    rw [admission_eq, admission_eq, demands, demandsAfter_relocate, Demand.meet_relocate]
    rfl
  rw [generate_eq, generate_eq, same, p.listing_relocate]
  cases p.admission s <;> rfl

/-! ## 5. Sources whose tokens are alike -/

/-- A source whose tokens are those of another one at other places has the same program, at these
places. -/
theorem Program.ofSource_relocate {source source' : String} {tokens : List Token} {p : Program}
    (scanned : Token.scan source = .ok tokens)
    (scanned' : Token.scan source' = .ok (tokens.map (Token.relocate g)))
    (read : Program.ofSource source = .ok p) : Program.ofSource source' = .ok (p.relocate g) := by
  unfold Program.ofSource at read ⊢
  rw [scanned] at read
  rw [scanned']
  exact ofTokens_relocate g read

theorem Token.alike_relocate (ts : List Token) : Alike ts (ts.map (relocate g)) := by
  unfold Alike
  rw [List.map_map]
  rfl

/-- A source whose tokens are those of another one at other places is compiled to the same listing,
or refused for the same fault at the new place of one of the tokens. In both cases the same labels
are taken. -/
theorem compileWith_relocate {source source' : String} {tokens : List Token}
    (scanned : Token.scan source = .ok tokens)
    (scanned' : Token.scan source' = .ok (tokens.map (Token.relocate g))) (s : Label.Supply) :
    (∃ lines rest, compileWith source s = (.ok lines, rest) ∧
        compileWith source' s = (.ok lines, rest)) ∨
      ∃ fault, ∃ t ∈ tokens, ∃ rest,
        compileWith source s = (.error (Fault.report fault t.loc), rest) ∧
          compileWith source' s = (.error (fault.report (g t.loc)), rest) := by
  cases read : Program.ofSource source with
  | error l =>
    right
    obtain ⟨before, t, after, start, more, rfl, here, halt, -⟩ :=
      Program.exists_refused_token scanned read
    refine ⟨l.fault, t, List.mem_append_right _ List.mem_cons_self, s, ?_, ?_⟩
    · rw [compileWith_of_not_read read, ← here]
      rfl
    · have alike := Token.alike_relocate g (before ++ [t])
      rw [List.map_append, List.map_singleton] at alike
      rw [List.map_append, List.map_cons] at scanned'
      exact compileWith_of_not_read (Program.ofSource_of_alike scanned scanned' halt alike) s
  | ok p =>
    rw [compileWith_of_read read,
      compileWith_of_read (Program.ofSource_relocate g scanned scanned' read),
      p.generate_relocate]
    rcases generated : p.generate s with ⟨l | lines, rest⟩
    · obtain ⟨t, ht, here, -⟩ := Program.exists_token_of_ofSource scanned read generated
      refine .inr ⟨l.fault, t, ht, rest, ?_, ?_⟩ <;>
      · rw [here]
        rfl
    · exact .inl ⟨lines, rest, rfl, rfl⟩

/-- The result depends on the kinds and the texts of the tokens only, and not on their places. Of
two sources whose tokens have the same kinds and texts, one by one, either both are compiled to the
same listing, or both are refused at the same stage with the same message, at tokens with the same
index. -/
theorem compile_of_alike {source source' : String} {tokens tokens' : List Token}
    (scanned : Token.scan source = .ok tokens) (scanned' : Token.scan source' = .ok tokens')
    (alike : Token.Alike tokens tokens') :
    (∃ lines, compile source = .ok lines ∧ compile source' = .ok lines) ∨
      ∃ d d', compile source = .error d ∧ compile source' = .error d' ∧ d.stage = d'.stage ∧
        d.message = d'.message ∧ ∃ (i : Nat) (t t' : Token), tokens[i]? = some t ∧
          tokens'[i]? = some t' ∧ d.loc = t.loc ∧ d'.loc = t'.loc := by
  have contents := alike.contents (Token.isGenuine_of_scan scanned)
    (Token.isGenuine_of_scan scanned')
  obtain ⟨g, rfl⟩ := Token.exists_relocate (Token.pairwise_ne_of_scan scanned) contents
  unfold compile
  rcases compileWith_relocate g scanned scanned' .full with
    ⟨lines, rest, compiled, compiled'⟩ | ⟨fault, t, ht, rest, refused, refused'⟩
  · left
    rw [compiled, compiled']
    exact ⟨lines, rfl, rfl⟩
  · right
    obtain ⟨i, found⟩ := List.mem_iff_getElem?.mp ht
    have found' : (tokens.map (Token.relocate g))[i]? = some (t.relocate g) := by
      rw [List.getElem?_map, found]
      rfl
    rw [refused, refused']
    exact ⟨_, _, rfl, rfl, rfl, rfl, i, t, _, found, found', rfl, rfl⟩

/-- The tokens of `f(){1=2;}`, where each is moved from its place `n` to `g n`. -/
def Token.misassigning (g : Nat → Nat) : List Token :=
  [⟨.ident, g 0, some "f"⟩, ⟨.punctuator, g 1, some "("⟩, ⟨.punctuator, g 2, some ")"⟩,
    ⟨.punctuator, g 3, some "\x7b"⟩, ⟨.num (some 1), g 4, some "1"⟩, ⟨.punctuator, g 5, some "="⟩,
    ⟨.num (some 2), g 6, some "2"⟩, ⟨.punctuator, g 7, some ";"⟩, ⟨.punctuator, g 8, some "\x7d"⟩,
    ⟨.eof, g 9, some ""⟩]

/-- Blanks around all tokens leave the message and the token that is blamed as they are. -/
theorem compile_of_blanks :
    Token.scan "f(){1=2;}" = .ok (Token.misassigning id) ∧
      Token.scan " f ( ) { 1 = 2 ; } " = .ok (Token.misassigning (2 * · + 1)) ∧
      Token.Alike (Token.misassigning id) (Token.misassigning (2 * · + 1)) ∧
      ∃ d d', compile "f(){1=2;}" = .error d ∧ compile " f ( ) { 1 = 2 ; } " = .error d' ∧
        d.stage = d'.stage ∧ d.message = d'.message ∧ ∃ (i : Nat) (t t' : Token),
          (Token.misassigning id)[i]? = some t ∧ (Token.misassigning (2 * · + 1))[i]? = some t' ∧
            d.loc = t.loc ∧ d'.loc = t'.loc := by
  have scanned : Token.scan "f(){1=2;}" = .ok (Token.misassigning id) := by cbv
  have scanned' : Token.scan " f ( ) { 1 = 2 ; } " = .ok (Token.misassigning (2 * · + 1)) := by cbv
  have read : Program.ofSource "f(){1=2;}" =
      .ok [⟨"f", 0, [], [.expr (.assign (.num 1) (.num 2) 4)], .empty, 0⟩] := by cbv
  have refused : compile "f(){1=2;}" = .error ⟨.semantic, 4, "not an lvalue"⟩ := by
    unfold compile
    rw [compileWith_of_read read]
    rfl
  refine ⟨scanned, scanned', rfl, ?_⟩
  rcases compile_of_alike scanned scanned' rfl with ⟨lines, compiled, -⟩ | refusals
  · rw [refused] at compiled
    cases compiled
  · exact refusals

end StackCompiler
