import Mathlib
import StackCompiler.Proofs.Acceptance
import StackCompiler.Proofs.Grammar.Complaints
import StackCompiler.Proofs.Parsing

/-!
# What a rejected program is blamed for

Whatever is found wrong with a program is found wrong with one of its functions, or with a call or
an assignment in one of them (`Program.concerns_demands`). Each of these bears the place of a token
in the source, and its name is the text of that token (`Grammar.Program.written`). So a fault is
reported at a token of the source, and what it quotes is that token
(`Program.exists_token_of_ofSource`).
-/

namespace StackCompiler

/-! ## 1. What demands are about -/

/-- `Demand.Concerns f d`: the demand `d` is made for the function `f`, and its fault names what it
is about, at the place where that stands.

* `label`: for a branch, a loop or a call of the function.
* `name`, `first`, `params`: for the function itself.
* `target`, `args`, `callee`: for an assignment or a call in its body. -/
inductive Demand.Concerns (f : Function) : Demand → Prop
  | label : Concerns f (.label f.loc)
  | name {holds : Bool} : Concerns f (.condition holds (.reservedName f.name) f.loc)
  | first {holds : Bool} : Concerns f (.condition holds (.redefinition f.name) f.loc)
  | params {holds : Bool} : Concerns f (.condition holds (.tooManyParameters 6) f.loc)
  | target {holds : Bool} {target value : Expr} {loc : Nat} :
      .assign target value loc ∈ f.exprs → Concerns f (.condition holds .notAssignable loc)
  | args {holds : Bool} {name : String} {args : List Expr} {loc : Nat} :
      .call name args loc ∈ f.exprs → Concerns f (.condition holds (.tooManyArguments 6) loc)
  | callee {holds : Bool} {name : String} {args : List Expr} {loc : Nat} :
      .call name args loc ∈ f.exprs → Concerns f (.condition holds (.reservedName name) loc)

section Concerns

variable {f : Function}

mutual

theorem Expr.concerns_demands {e : Expr} (inside : e.parts ⊆ f.exprs) :
    ∀ d ∈ e.demands f.loc, d.Concerns f := by
  cases e with
  | num value => exact List.forall_mem_nil _
  | var name offset loc => exact List.forall_mem_nil _
  | binary op lhs rhs =>
    obtain ⟨-, sides⟩ := List.cons_subset.mp inside
    obtain ⟨left, right⟩ := List.append_subset.mp sides
    exact List.forall_mem_append.mpr ⟨lhs.concerns_demands left, rhs.concerns_demands right⟩
  | assign target value loc =>
    obtain ⟨here, sides⟩ := List.cons_subset.mp inside
    obtain ⟨-, right⟩ := List.append_subset.mp sides
    exact List.forall_mem_cons.mpr ⟨.target here, value.concerns_demands right⟩
  | call name args loc =>
    obtain ⟨here, others⟩ := List.cons_subset.mp inside
    have inside := List.forall_mem_append.mpr
      ⟨concerns_demandsOfArgs others, List.forall_mem_singleton.mpr (.label (f := f))⟩
    exact List.forall_mem_cons.mpr ⟨.args here, List.forall_mem_cons.mpr ⟨.callee here, inside⟩⟩

theorem concerns_demandsOfArgs {args : List Expr} (inside : partsOfArgs args ⊆ f.exprs) :
    ∀ d ∈ demandsOfArgs f.loc args, d.Concerns f := by
  cases args with
  | nil => exact List.forall_mem_nil _
  | cons arg args =>
    obtain ⟨first, others⟩ := List.append_subset.mp inside
    exact List.forall_mem_append.mpr ⟨arg.concerns_demands first, concerns_demandsOfArgs others⟩

end

theorem concerns_demandsOfClause {clause : Option Expr} (inside : partsOfClause clause ⊆ f.exprs) :
    ∀ d ∈ demandsOfClause f.loc clause, d.Concerns f := by
  cases clause with
  | none => exact List.forall_mem_nil _
  | some e => exact e.concerns_demands inside

mutual

theorem Stmt.concerns_demands {s : Stmt} (inside : s.exprs ⊆ f.exprs) :
    ∀ d ∈ s.demands f.loc, d.Concerns f := by
  match s with
  | .ret value => exact value.concerns_demands inside
  | .expr e => exact e.concerns_demands inside
  | .block body => exact concerns_demandsOfBlock inside
  | .cond test yes none =>
    obtain ⟨first, second⟩ := List.append_subset.mp inside
    exact List.forall_mem_cons.mpr ⟨.label, List.forall_mem_append.mpr
      ⟨test.concerns_demands first, yes.concerns_demands second⟩⟩
  | .cond test yes (some no) =>
    obtain ⟨first, third⟩ := List.append_subset.mp inside
    obtain ⟨first, second⟩ := List.append_subset.mp first
    exact List.forall_mem_cons.mpr ⟨.label, List.forall_mem_append.mpr ⟨List.forall_mem_append.mpr
      ⟨test.concerns_demands first, yes.concerns_demands second⟩, no.concerns_demands third⟩⟩
  | .loop start test next body =>
    obtain ⟨clauses, last⟩ := List.append_subset.mp inside
    obtain ⟨clauses, third⟩ := List.append_subset.mp clauses
    obtain ⟨first, second⟩ := List.append_subset.mp clauses
    exact List.forall_mem_cons.mpr ⟨.label, List.forall_mem_append.mpr ⟨List.forall_mem_append.mpr
      ⟨List.forall_mem_append.mpr ⟨concerns_demandsOfClause first, concerns_demandsOfClause second⟩,
        body.concerns_demands last⟩, concerns_demandsOfClause third⟩⟩

theorem concerns_demandsOfBlock {body : List Stmt} (inside : exprsOfBlock body ⊆ f.exprs) :
    ∀ d ∈ demandsOfBlock f.loc body, d.Concerns f := by
  match body with
  | [] => exact List.forall_mem_nil _
  | s :: rest =>
    obtain ⟨first, others⟩ := List.append_subset.mp inside
    exact List.forall_mem_append.mpr ⟨s.concerns_demands first, concerns_demandsOfBlock others⟩

end

theorem Function.concerns_demands (f : Function) (earlier : List String) :
    ∀ d ∈ f.demands earlier, d.Concerns f :=
  List.forall_mem_cons.mpr ⟨.name, List.forall_mem_cons.mpr ⟨.first, List.forall_mem_cons.mpr
    ⟨.params, concerns_demandsOfBlock (List.Subset.refl _)⟩⟩⟩

end Concerns

namespace Program

theorem concerns_demandsAfter {earlier : List String} {p : Program} {d : Demand}
    (hd : d ∈ p.demandsAfter earlier) : ∃ f ∈ p, d.Concerns f := by
  induction p generalizing earlier with
  | nil => cases hd
  | cons f rest ih =>
    rcases List.mem_append.mp hd with here | later
    · exact ⟨f, List.mem_cons_self, f.concerns_demands earlier d here⟩
    · obtain ⟨g, hg, concerns⟩ := ih later
      exact ⟨g, List.mem_cons_of_mem _ hg, concerns⟩

/-- Every demand of a program is made for one of its functions. -/
theorem concerns_demands {p : Program} {d : Demand} (hd : d ∈ p.demands) :
    ∃ f ∈ p, d.Concerns f :=
  concerns_demandsAfter hd

end Program

/-! ## 2. Places and names of trees -/

/-- The name in an expression is the text of one of the tokens, and the expression bears the place
of that token. An assignment bears the place of a token too. -/
def Expr.Written (ts : List Token) : Expr → Prop
  | .var name _ loc | .call name _ loc =>
    ∃ t ∈ ts, t.kind = .ident ∧ t.text = some name ∧ t.loc = loc
  | .assign _ _ loc => ∃ t ∈ ts, t.loc = loc
  | .num _ | .binary .. => True

namespace Grammar

variable {slot : String → Nat} {us : List Token}

theorem Infix.written {n : Nat} {s : String} {a b e : Expr} (h : Infix n s a b e)
    (ha : ∀ x ∈ a.parts, x.Written us) (hb : ∀ x ∈ b.parts, x.Written us) :
    ∀ x ∈ e.parts, x.Written us := by
  cases h with
  | mul | div | add | sub | lt | le | eq | ne =>
    exact List.forall_mem_cons.mpr ⟨trivial, List.forall_mem_append.mpr ⟨ha, hb⟩⟩
  | gt | ge => exact List.forall_mem_cons.mpr ⟨trivial, List.forall_mem_append.mpr ⟨hb, ha⟩⟩

mutual

theorem Assignment.written {ts : List Token} {e : Expr} (sub : ts ⊆ us) :
    Assignment slot ts e → ∀ x ∈ e.parts, x.Written us
  | .plain h => h.written sub
  | .store ha _ hb => by
    obtain ⟨left, right⟩ := List.append_subset.mp sub
    exact List.forall_mem_cons.mpr ⟨⟨_, (List.cons_subset.mp left).1, rfl⟩,
      List.forall_mem_append.mpr ⟨ha.written left, hb.written (List.cons_subset.mp right).2⟩⟩

theorem Level.written {ts : List Token} {n : Nat} {e : Expr} (sub : ts ⊆ us) :
    Level slot n ts e → ∀ x ∈ e.parts, x.Written us
  | .primary h => h.written sub
  | .plus _ h => h.written (List.cons_subset.mp sub).2
  | .minus _ h => List.forall_mem_cons.mpr ⟨trivial, List.forall_mem_append.mpr
      ⟨List.forall_mem_singleton.mpr trivial, h.written (List.cons_subset.mp sub).2⟩⟩
  | .tighter h => h.written sub
  | .operator ha _ hb hop => by
    obtain ⟨left, right⟩ := List.append_subset.mp sub
    exact hop.written (ha.written left) (hb.written (List.cons_subset.mp right).2)

theorem Primary.written {ts : List Token} {e : Expr} (sub : ts ⊆ us) :
    Primary slot ts e → ∀ x ∈ e.parts, x.Written us
  | .parens _ h _ => h.written (List.append_subset.mp (List.cons_subset.mp sub).2).1
  | .num _ => List.forall_mem_singleton.mpr trivial
  | .var hk ht => List.forall_mem_singleton.mpr
      ⟨_, sub List.mem_cons_self, hk, ht, rfl⟩
  | .call hk ht _ h _ => by
    obtain ⟨here, others⟩ := List.cons_subset.mp sub
    obtain ⟨args, -⟩ := List.append_subset.mp (List.cons_subset.mp others).2
    exact List.forall_mem_cons.mpr ⟨⟨_, here, hk, ht, rfl⟩, h.written args⟩
  | .callBare hk ht _ _ => List.forall_mem_singleton.mpr
      ⟨_, sub List.mem_cons_self, hk, ht, rfl⟩

theorem Arguments.written {ts : List Token} {es : List Expr} (sub : ts ⊆ us) :
    Arguments slot ts es → ∀ x ∈ partsOfArgs es, x.Written us
  | .last h => List.forall_mem_append.mpr ⟨h.written sub, List.forall_mem_nil _⟩
  | .more h _ hs => by
    obtain ⟨first, others⟩ := List.append_subset.mp sub
    exact List.forall_mem_append.mpr
      ⟨h.written first, hs.written (List.cons_subset.mp others).2⟩

end

theorem Clause.written {ts : List Token} {clause : Option Expr} (sub : ts ⊆ us) :
    Clause slot ts clause → ∀ x ∈ partsOfClause clause, x.Written us
  | .absent => List.forall_mem_nil _
  | .present h => h.written sub

mutual

theorem Statement.written {ts : List Token} {s : Stmt} (sub : ts ⊆ us) :
    Statement slot ts s → ∀ x ∈ s.exprs, x.Written us
  | .ret _ h _ => h.written (List.append_subset.mp (List.cons_subset.mp sub).2).1
  | .cond _ _ htest _ hyes => by
    have inside := (List.cons_subset.mp (List.cons_subset.mp sub).2).2
    obtain ⟨test, yes⟩ := List.append_subset.mp inside
    exact List.forall_mem_append.mpr
      ⟨htest.written test, hyes.written (List.cons_subset.mp yes).2⟩
  | .condElse _ _ htest _ hyes _ hno => by
    have inside := (List.cons_subset.mp (List.cons_subset.mp sub).2).2
    obtain ⟨test, branches⟩ := List.append_subset.mp inside
    obtain ⟨yes, no⟩ := List.append_subset.mp (List.cons_subset.mp branches).2
    exact List.forall_mem_append.mpr ⟨List.forall_mem_append.mpr
      ⟨htest.written test, hyes.written yes⟩, hno.written (List.cons_subset.mp no).2⟩
  | .loop _ _ hstart _ htest _ hnext _ hbody => by
    have inside := (List.cons_subset.mp (List.cons_subset.mp sub).2).2
    obtain ⟨start, inside⟩ := List.append_subset.mp inside
    obtain ⟨test, inside⟩ := List.append_subset.mp (List.cons_subset.mp inside).2
    obtain ⟨next, body⟩ := List.append_subset.mp (List.cons_subset.mp inside).2
    exact List.forall_mem_append.mpr ⟨List.forall_mem_append.mpr ⟨List.forall_mem_append.mpr
      ⟨hstart.written start, htest.written test⟩, hnext.written next⟩,
      hbody.written (List.cons_subset.mp body).2⟩
  | .block _ h _ => h.written (List.append_subset.mp (List.cons_subset.mp sub).2).1
  | .expr h _ => h.written (List.append_subset.mp sub).1

theorem Statements.written {ts : List Token} {body : List Stmt} (sub : ts ⊆ us) :
    Statements slot ts body → ∀ x ∈ exprsOfBlock body, x.Written us
  | .nil => List.forall_mem_nil _
  | .cons h hs => by
    obtain ⟨first, others⟩ := List.append_subset.mp sub
    exact List.forall_mem_append.mpr ⟨h.written first, hs.written others⟩

end

/-- A function bears the place of its name, and what it consists of is written behind that. -/
theorem Definition.written {ts : List Token} {f : Function} (h : Definition ts f) (sub : ts ⊆ us) :
    (∃ t ∈ us, t.kind = .ident ∧ t.text = some f.name ∧ t.loc = f.loc) ∧
      ∀ x ∈ f.exprs, x.Written us := by
  cases h with
  | intro hk ht _ _ _ _ hbody _ _ =>
    obtain ⟨here, inside⟩ := List.cons_subset.mp sub
    obtain ⟨-, inside⟩ := List.append_subset.mp (List.cons_subset.mp inside).2
    have inside := (List.cons_subset.mp (List.cons_subset.mp inside).2).2
    obtain ⟨body, -⟩ := List.append_subset.mp inside
    exact ⟨⟨_, here, hk, ht, rfl⟩, hbody.written body⟩

theorem Program.written {ts : List Token} {p : StackCompiler.Program} (h : Program ts p)
    (sub : ts ⊆ us) : ∀ f ∈ p, (∃ t ∈ us, t.kind = .ident ∧ t.text = some f.name ∧ t.loc = f.loc) ∧
      ∀ x ∈ f.exprs, x.Written us := by
  induction h with
  | nil => exact List.forall_mem_nil _
  | cons hf _ ih =>
    obtain ⟨first, others⟩ := List.append_subset.mp sub
    exact List.forall_mem_cons.mpr ⟨hf.written first, ih others⟩

end Grammar

/-! ## 3. Faults -/

/-- A demand for a function that is written in the tokens `us` is reported at one of them. -/
theorem Demand.Concerns.exists_token {f : Function} {d : Demand} {us : List Token}
    (h : d.Concerns f) (name : ∃ t ∈ us, t.kind = .ident ∧ t.text = some f.name ∧ t.loc = f.loc)
    (exprs : ∀ x ∈ f.exprs, x.Written us) :
    ∃ t ∈ us, t.loc = d.located.loc ∧ d.located.fault.Quotes t := by
  cases h with
  | label | params =>
    obtain ⟨t, ht, -, -, loc⟩ := name
    exact ⟨t, ht, loc, trivial⟩
  | name | first =>
    obtain ⟨t, ht, -, text, loc⟩ := name
    exact ⟨t, ht, loc, text⟩
  | target mem =>
    obtain ⟨t, ht, loc⟩ := exprs _ mem
    exact ⟨t, ht, loc, trivial⟩
  | args mem =>
    obtain ⟨t, ht, -, -, loc⟩ := exprs _ mem
    exact ⟨t, ht, loc, trivial⟩
  | callee mem =>
    obtain ⟨t, ht, -, text, loc⟩ := exprs _ mem
    exact ⟨t, ht, loc, text⟩

/-- What is wrong with a program that is written in the tokens `us` is reported at one of them. -/
theorem Program.exists_token_of_generate {p : Program} {us : List Token} {s s' : Label.Supply}
    {l : Located} (derivable : Grammar.Program us p) (h : p.generate s = (.error l, s')) :
    ∃ t ∈ us, t.loc = l.loc ∧ l.fault.Quotes t := by
  obtain ⟨before, d, ⟨⟨after, split⟩, -, -⟩, rfl, -⟩ := generate_eq_error_iff.mp h
  have mem : d ∈ p.demands := by
    rw [split]
    exact List.mem_append_right _ List.mem_cons_self
  obtain ⟨f, hf, concerns⟩ := concerns_demands mem
  obtain ⟨name, exprs⟩ := derivable.written (List.Subset.refl _) f hf
  exact concerns.exists_token name exprs

/-- What is wrong with the program of a source is reported at one of the tokens of the source. -/
theorem Program.exists_token_of_ofSource {source : String} {tokens : List Token} {p : Program}
    {s s' : Label.Supply} {l : Located} (scanned : Token.scan source = .ok tokens)
    (read : Program.ofSource source = .ok p) (h : p.generate s = (.error l, s')) :
    ∃ t ∈ tokens, t.loc = l.loc ∧ l.fault.Quotes t := by
  obtain ⟨body, lexes, derivable, -⟩ := exists_derivation read
  obtain rfl := Except.ok.inj (scanned.symm.trans (Token.scan_eq_ok.mpr ⟨body, rfl, lexes⟩))
  obtain ⟨t, ht, loc, quotes⟩ := exists_token_of_generate derivable h
  exact ⟨t, List.mem_append_left _ ht, loc, quotes⟩

end StackCompiler
