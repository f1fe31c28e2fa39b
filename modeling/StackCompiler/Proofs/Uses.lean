import StackCompiler.Program.Emission
import StackCompiler.Proofs.Grammar.Completeness
import StackCompiler.Proofs.Parts

/-!
# Variables in tokens and in trees

Every use of a variable among the tokens is one variable of the tree that they denote, and the tree
has no other variables (`Definition.uses_body`). The order may differ, because "greater than" turns
its sides around.
-/

namespace StackCompiler

/-! ## 1. Uses -/

/-- A use of a variable: its name, and where the name stands. -/
structure Use where
  name : String
  loc : Nat

/-- The variable that a use denotes. -/
def Use.expr (slot : String → Nat) (u : Use) : Expr :=
  .var u.name (slot u.name) u.loc

namespace Grammar

/-- The uses of variables in a list of tokens, in their order: every identifier that no opening
parenthesis follows. -/
def uses : List Token → List Use
  | [] => []
  | t :: ts =>
    if t.kind = .ident ∧ ¬ Leads "(" ts then
      t.text.toList.map (fun name => ⟨name, t.loc⟩) ++ uses ts
    else uses ts

theorem variableNames_eq (ts : List Token) : variableNames ts = (uses ts).map Use.name := by
  induction ts with
  | nil => rfl
  | cons t ts ih =>
    rw [variableNames, uses, ih]
    split
    · rw [List.map_append, List.map_map]
      exact congrArg (· ++ _) (List.map_id' _).symm
    · rfl

theorem uses_of_not_ident {t : Token} {ts : List Token} (h : t.kind ≠ .ident) :
    uses (t :: ts) = uses ts := by
  rw [uses, if_neg fun h' => h h'.1]

theorem uses_called {t : Token} {ts : List Token} (h : Leads "(" ts) :
    uses (t :: ts) = uses ts := by
  rw [uses, if_neg fun h' => h'.2 h]

theorem uses_variable {t : Token} {name : String} {ts : List Token} (hk : t.kind = .ident)
    (ht : t.text = some name) (h : ¬ Leads "(" ts) :
    uses (t :: ts) = ⟨name, t.loc⟩ :: uses ts := by
  rw [uses, if_pos ⟨hk, h⟩, ht]
  rfl

/-- The places of the uses are places of tokens, in the same order. -/
theorem locs_uses_sublist (ts : List Token) :
    ((uses ts).map Use.loc).Sublist (ts.map Token.loc) := by
  induction ts with
  | nil => exact .slnil
  | cons t ts ih =>
    rw [uses]
    split
    · cases t.text with
      | none => exact ih.cons _
      | some name => exact ih.cons_cons _
    · exact ih.cons _

/-- A use is a token that spells a name. -/
theorem exists_token_of_mem_uses {ts : List Token} {u : Use} (h : u ∈ uses ts) :
    ∃ t ∈ ts, t.text = some u.name ∧ t.loc = u.loc := by
  induction ts with
  | nil => cases h
  | cons t ts ih =>
    rw [uses] at h
    split at h
    · rcases List.mem_append.mp h with here | later
      · obtain ⟨name, text, rfl⟩ := List.mem_map.mp here
        exact ⟨t, List.mem_cons_self, Option.mem_toList.mp text, rfl⟩
      · obtain ⟨t', ht', spelled⟩ := ih later
        exact ⟨t', List.mem_cons_of_mem _ ht', spelled⟩
    · obtain ⟨t', ht', spelled⟩ := ih h
      exact ⟨t', List.mem_cons_of_mem _ ht', spelled⟩

/-! ## 2. Phrases -/

variable {slot : String → Nat} {es fs : List Expr} {ts us rest : List Token}

/-- The variables among `es` are the uses in the tokens `ts` where the tokens `rest` follow. -/
def Uses (slot : String → Nat) (es : List Expr) (ts rest : List Token) : Prop :=
  ((uses (ts ++ rest)).map (Use.expr slot)).Perm
    (es.filter Expr.isVariable ++ (uses rest).map (Use.expr slot))

namespace Uses

theorem nil (slot : String → Nat) (rest : List Token) : Uses slot [] [] rest :=
  .refl _

theorem append (h : Uses slot es ts (us ++ rest)) (h' : Uses slot fs us rest) :
    Uses slot (es ++ fs) (ts ++ us) rest := by
  unfold Uses at *
  rw [List.append_assoc, List.filter_append, List.append_assoc]
  exact h.trans (h'.append_left _)

theorem perm (h : Uses slot es ts rest) (p : es.Perm fs) : Uses slot fs ts rest := by
  unfold Uses at *
  exact h.trans ((p.filter _).append_right _)

/-- A node that is no variable is no use. -/
theorem node {e : Expr} (h : Uses slot es ts rest) (other : e.isVariable = false) :
    Uses slot (e :: es) ts rest := by
  unfold Uses at *
  rwa [List.filter_cons_of_neg (by rw [other]; exact Bool.false_ne_true)]

theorem skip {t : Token} (ht : t.kind ≠ .ident) (h : Uses slot es ts rest) :
    Uses slot es (t :: ts) rest := by
  unfold Uses at *
  rwa [List.cons_append, uses_of_not_ident ht]

theorem punctuator {t : Token} {s : String} (ht : t.isPunctuator s) (h : Uses slot es ts rest) :
    Uses slot es (t :: ts) rest :=
  h.skip fun hk => by
    rw [(Token.isPunctuator_iff.mp ht).1] at hk
    cases hk

theorem keyword {t : Token} {s : String} (ht : t.isKeyword s) (h : Uses slot es ts rest) :
    Uses slot es (t :: ts) rest :=
  h.skip fun hk => by
    rw [(Token.isKeyword_iff.mp ht).1] at hk
    cases hk

/-- A phrase with the punctuator that closes it. -/
theorem closing {r : Token} {s : String} (hr : r.isPunctuator s) (h : Uses slot es ts (r :: rest)) :
    Uses slot es (ts ++ [r]) rest := by
  have both := h.append ((nil slot rest).punctuator hr)
  rwa [List.append_nil] at both

theorem called {t l : Token} (hl : l.isPunctuator "(") (h : Uses slot es (l :: ts) rest) :
    Uses slot es (t :: l :: ts) rest := by
  unfold Uses at *
  have leads : Leads "(" (l :: ts ++ rest) := leads_cons.mpr hl
  rwa [List.cons_append, uses_called leads]

theorem single {t : Token} {name : String} (hk : t.kind = .ident) (ht : t.text = some name)
    (h : ¬ Leads "(" rest) : Uses slot [.var name (slot name) t.loc] [t] rest := by
  unfold Uses
  rw [List.singleton_append, uses_variable hk ht h]
  exact .refl _

end Uses

/-- An operator keeps the variables of its sides. -/
theorem Infix.perm_parts {n : Nat} {s : String} {a b e : Expr} (h : Infix n s a b e) :
    ∃ node, node.isVariable = false ∧ (node :: (a.parts ++ b.parts)).Perm e.parts := by
  cases h with
  | mul | div | add | sub | lt | le | eq | ne => exact ⟨_, rfl, .refl _⟩
  | gt | ge => exact ⟨_, rfl, .cons _ List.perm_append_comm⟩

theorem Infix.not_leads {n : Nat} {s : String} {a b e : Expr} {t : Token} {ts : List Token}
    (h : Infix n s a b e) (ht : t.isPunctuator s) : ¬ Leads "(" (t :: ts) := by
  cases h <;> exact not_leads_cons ht (by decide)

mutual

theorem Assignment.uses {ts rest : List Token} {e : Expr} (hrest : ¬ Leads "(" rest) :
    Assignment slot ts e → Uses slot e.parts ts rest
  | .plain h => h.uses hrest
  | .store ha heq hb => by
    rw [Expr.parts]
    exact ((ha.uses (not_leads_cons heq (by decide))).append
      (.punctuator heq (hb.uses hrest))).node rfl

theorem Level.uses {n : Nat} {ts rest : List Token} {e : Expr} (hrest : ¬ Leads "(" rest) :
    Level slot n ts e → Uses slot e.parts ts rest
  | .primary h => h.uses hrest
  | .plus ht h => .punctuator ht (h.uses hrest)
  | .minus ht h => .punctuator ht (((h.uses hrest).node rfl).node rfl)
  | .tighter h => h.uses hrest
  | .operator ha ht hb hop => by
    obtain ⟨node, other, same⟩ := hop.perm_parts
    have sides := (ha.uses (hop.not_leads ht)).append (.punctuator ht (hb.uses hrest))
    exact (sides.node other).perm same

theorem Primary.uses {ts rest : List Token} {e : Expr} (hrest : ¬ Leads "(" rest) :
    Primary slot ts e → Uses slot e.parts ts rest
  | .parens hl h hr => .punctuator hl (.closing hr (h.uses (not_leads_cons hr (by decide))))
  | .num hk => by
    have none : Uses slot [] [_] rest := (Uses.nil slot rest).skip (by rw [hk]; simp)
    exact none.node rfl
  | .var hk ht => .single hk ht hrest
  | .call _ _ hl h hr => by
    have inside : Uses slot (partsOfArgs _) (_ ++ [_]) rest :=
      .closing hr (h.uses (not_leads_cons hr (by decide)))
    exact (Uses.called hl (inside.punctuator hl)).node rfl
  | .callBare _ _ hl hr => by
    have none := ((Uses.nil slot rest).punctuator hr).punctuator hl
    exact (none.called hl).node rfl

theorem Arguments.uses {ts rest : List Token} {args : List Expr} (hrest : ¬ Leads "(" rest) :
    Arguments slot ts args → Uses slot (partsOfArgs args) ts rest
  | .last h => by
    rw [partsOfArgs, partsOfArgs, List.append_nil]
    exact h.uses hrest
  | .more h hc hs => by
    rw [partsOfArgs]
    exact (h.uses (not_leads_cons hc (by decide))).append (.punctuator hc (hs.uses hrest))

end

theorem Clause.uses {ts rest : List Token} {clause : Option Expr} (hrest : ¬ Leads "(" rest) :
    Clause slot ts clause → Uses slot (partsOfClause clause) ts rest
  | .absent => .nil slot rest
  | .present h => h.uses hrest

mutual

theorem Statement.uses {ts : List Token} {s : Stmt} (rest : List Token) :
    Statement slot ts s → Uses slot s.exprs ts rest
  | .ret hk h hz => .keyword hk (.closing hz (h.uses (not_leads_cons hz (by decide))))
  | .cond hk hl htest hr hyes => by
    rw [Stmt.exprs]
    exact .keyword hk (.punctuator hl ((htest.uses (not_leads_cons hr (by decide))).append
      (.punctuator hr (hyes.uses rest))))
  | .condElse hk hl htest hr hyes ho hno => by
    rw [Stmt.exprs, List.append_assoc]
    have branches := (hyes.uses _).append (.keyword ho (hno.uses rest))
    exact .keyword hk (.punctuator hl ((htest.uses (not_leads_cons hr (by decide))).append
      (.punctuator hr branches)))
  | .loop hk hl hstart hy htest hz hnext hr hbody => by
    rw [Stmt.exprs, List.append_assoc, List.append_assoc]
    have third := (hnext.uses (not_leads_cons hr (by decide))).append
      (.punctuator hr (hbody.uses rest))
    have second := (htest.uses (not_leads_cons hz (by decide))).append (.punctuator hz third)
    have first := (hstart.uses (not_leads_cons hy (by decide))).append (.punctuator hy second)
    exact .keyword hk (.punctuator hl first)
  | .block hl h hr => .punctuator hl (.closing hr (h.uses _))
  | .expr h hz => .closing hz (h.uses (not_leads_cons hz (by decide)))

theorem Statements.uses {ts : List Token} {body : List Stmt} (rest : List Token) :
    Statements slot ts body → Uses slot (exprsOfBlock body) ts rest
  | .nil => .nil slot rest
  | .cons h hs => by
    rw [exprsOfBlock]
    exact (h.uses _).append (hs.uses rest)

end

/-! ## 3. Functions -/

/-- The variables of a function are the uses among the tokens of its body, and these make up its
frame, after its parameters. -/
theorem Definition.uses_body {ts : List Token} {f : Function} (h : Definition ts f) :
    ∃ body, body.Sublist ts ∧
      ((uses body).map (Use.expr f.frame.offset)).Perm (f.exprs.filter Expr.isVariable) ∧
      f.frame = Frame.ofNames (f.params.map Slot.name ++ (uses body).map Use.name) := by
  cases h with
  | @intro _ _ _ _ _ _ ps ts _ _ _ hk ht hl hps hr ho hbody hc hframe =>
    have all := hbody.uses []
    unfold Uses at all
    rw [List.append_nil] at all
    refine ⟨ts, ?_, by simpa [Grammar.uses, Function.exprs] using all, ?_⟩
    · refine .cons _ (.cons _ (.trans ?_ (List.sublist_append_right ps _)))
      exact .cons _ (.cons _ (List.sublist_append_left ts _))
    · rw [map_name_slots, ← variableNames_eq]
      exact hframe

end Grammar

end StackCompiler
