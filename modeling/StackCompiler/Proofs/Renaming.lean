import Mathlib
import StackCompiler.Proofs.Grammar.Completeness

/-!
# Renaming variables

A variable is an identifier that is not called, and a slot that is found under its name. If the
names of variables are exchanged for others, then the tokens denote the same tree with other names
in it, and with the slots that these names have.

The main statements are these.
* Two lists of tokens are respelled one by one, unless the first ends in an identifier that the
  second calls (`respell_append`).
* What is derivable from tokens is derivable, with the variables renamed, from the respelled tokens
  (`Grammar.Statements.rename`, `Grammar.Definition.rename`).
-/

namespace StackCompiler

/-! ## 1. Trees with other variables -/

mutual

/-- The expression with its variables renamed by `τ` and bound to the slots of the new names. -/
def Expr.rename (τ : String → String) (slot : String → Nat) : Expr → Expr
  | .num value => .num value
  | .var name _ loc => .var (τ name) (slot (τ name)) loc
  | .binary op lhs rhs => .binary op (lhs.rename τ slot) (rhs.rename τ slot)
  | .assign target value loc => .assign (target.rename τ slot) (value.rename τ slot) loc
  | .call name args loc => .call name (renameArgs τ slot args) loc

/-- The arguments of a call with their variables renamed and bound anew. -/
def renameArgs (τ : String → String) (slot : String → Nat) : List Expr → List Expr
  | [] => []
  | arg :: args => arg.rename τ slot :: renameArgs τ slot args

end

mutual

/-- The statement with its variables renamed and bound anew. -/
def Stmt.rename (τ : String → String) (slot : String → Nat) : Stmt → Stmt
  | .ret value => .ret (value.rename τ slot)
  | .expr e => .expr (e.rename τ slot)
  | .block body => .block (renameBlock τ slot body)
  | .cond test yes none => .cond (test.rename τ slot) (yes.rename τ slot) none
  | .cond test yes (some no) =>
    .cond (test.rename τ slot) (yes.rename τ slot) (some (no.rename τ slot))
  | .loop start test next body =>
    .loop (start.map (Expr.rename τ slot)) (test.map (Expr.rename τ slot))
      (next.map (Expr.rename τ slot)) (body.rename τ slot)

/-- The statements of a block with their variables renamed and bound anew. -/
def renameBlock (τ : String → String) (slot : String → Nat) : List Stmt → List Stmt
  | [] => []
  | s :: rest => s.rename τ slot :: renameBlock τ slot rest

end

/-- The function with its variables renamed and bound to `frame`. Its name stays as it is. -/
def Function.rename (τ : String → String) (frame : Frame) (f : Function) : Function where
  name := f.name
  loc := f.loc
  params := f.params.map fun param => ⟨τ param.name, frame.offset (τ param.name)⟩
  body := renameBlock τ frame.offset f.body
  frame := frame
  frameSize := frame.size

/-! ## 2. Tokens with other variables -/

namespace Grammar

/-- An identifier at the end of `ts` is not called if `us` follow. -/
def Apart (ts us : List Token) : Prop :=
  Leads "(" us → ∀ t ∈ ts.getLast?, t.kind ≠ .ident

/-- The token before `rest`, respelled if it is a variable. -/
def respellBefore (τ : Nat → String → String) (t : Token) (rest : List Token) : Token :=
  if t.kind = .ident ∧ ¬ Leads "(" rest then { t with text := t.text.map (τ t.loc) } else t

/-- The tokens with every variable respelled. How depends on its name and on its place. -/
def respell (τ : Nat → String → String) : List Token → List Token
  | [] => []
  | t :: ts => respellBefore τ t ts :: respell τ ts

variable {τ : Nat → String → String} {t : Token} {ts us : List Token}

theorem respellBefore_of_ne (h : t.kind ≠ .ident) (rest : List Token) :
    respellBefore τ t rest = t :=
  if_neg fun variable_ => h variable_.1

@[simp] theorem kind_respellBefore (rest : List Token) :
    (respellBefore τ t rest).kind = t.kind := by
  unfold respellBefore
  split <;> rfl

@[simp] theorem loc_respellBefore (rest : List Token) :
    (respellBefore τ t rest).loc = t.loc := by
  unfold respellBefore
  split <;> rfl

theorem isPunctuator_respellBefore {s : String} (rest : List Token) :
    (respellBefore τ t rest).isPunctuator s ↔ t.isPunctuator s := by
  by_cases h : t.kind = .ident
  · rw [Token.isPunctuator_iff, Token.isPunctuator_iff, kind_respellBefore, h]
    simp
  · rw [respellBefore_of_ne h]

theorem respell_of_ne (h : t.kind ≠ .ident) : respell τ (t :: ts) = t :: respell τ ts := by
  rw [respell, respellBefore_of_ne h]

theorem respell_punctuator {s : String} (h : t.isPunctuator s) :
    respell τ (t :: ts) = t :: respell τ ts :=
  respell_of_ne fun hk => by
    rw [(Token.isPunctuator_iff.mp h).1] at hk
    cases hk

theorem respell_keyword {s : String} (h : t.isKeyword s) :
    respell τ (t :: ts) = t :: respell τ ts :=
  respell_of_ne fun hk => by
    rw [(Token.isKeyword_iff.mp h).1] at hk
    cases hk

theorem respell_called (h : Leads "(" ts) : respell τ (t :: ts) = t :: respell τ ts := by
  rw [respell, respellBefore, if_neg fun variable_ => variable_.2 h]

theorem leads_respell {s : String} : Leads s (respell τ ts) ↔ Leads s ts := by
  cases ts with
  | nil => rfl
  | cons t ts => rw [respell, leads_cons, leads_cons, isPunctuator_respellBefore]

/-- An identifier that was not called before more tokens followed is not called by them. -/
theorem Apart.leads_iff (h : Apart (t :: ts) us) (hk : t.kind = .ident) :
    Leads "(" (ts ++ us) ↔ Leads "(" ts := by
  cases ts with
  | nil => exact iff_of_false (fun leads => h leads t rfl hk) not_leads_nil
  | cons t' ts => rw [List.cons_append, leads_cons, leads_cons]

theorem Apart.tail (h : Apart (t :: ts) us) : Apart ts us := by
  intro leads u hu
  cases ts with
  | nil => cases hu
  | cons t' ts => exact h leads u (by rwa [List.getLast?_cons_cons])

theorem apart_of_not_leads (h : ¬ Leads "(" us) : Apart ts us :=
  fun leads => absurd leads h

theorem apart_concat {r : Token} (hr : r.kind ≠ .ident) : Apart (ts ++ [r]) us := by
  intro _ t ht
  rw [List.getLast?_concat] at ht
  cases ht
  exact hr

theorem respell_append (h : Apart ts us) : respell τ (ts ++ us) = respell τ ts ++ respell τ us := by
  induction ts with
  | nil => rfl
  | cons t ts ih =>
    rw [List.cons_append, respell, respell, ih h.tail, List.cons_append]
    by_cases hk : t.kind = .ident
    · rw [respellBefore, respellBefore]
      simp only [h.leads_iff hk]
    · rw [respellBefore_of_ne hk, respellBefore_of_ne hk]

theorem variableNames_append_of_apart (h : Apart ts us) :
    variableNames (ts ++ us) = variableNames ts ++ variableNames us := by
  induction ts with
  | nil => rfl
  | cons t ts ih =>
    rw [List.cons_append, variableNames, variableNames, ih h.tail]
    by_cases hk : t.kind = .ident
    · simp only [h.leads_iff hk]
      split
      · rw [List.append_assoc]
      · rfl
    · rw [if_neg fun h' => hk h'.1, if_neg fun h' => hk h'.1]

theorem variableNames_respell (τ : String → String) (ts : List Token) :
    variableNames (respell (fun _ => τ) ts) = (variableNames ts).map τ := by
  induction ts with
  | nil => rfl
  | cons t ts ih =>
    rw [respell, variableNames, variableNames, ih]
    simp only [kind_respellBefore, leads_respell]
    split
    · next h =>
      rw [respellBefore, if_pos h, List.map_append]
      cases t.text <;> rfl
    · rfl

theorem locs_respell (τ : Nat → String → String) (ts : List Token) :
    (respell τ ts).map Token.loc = ts.map Token.loc := by
  induction ts with
  | nil => rfl
  | cons t ts ih => rw [respell, List.map_cons, List.map_cons, ih, loc_respellBefore]

theorem respell_congr {τ τ' : Nat → String → String} (h : ∀ t ∈ ts, τ t.loc = τ' t.loc) :
    respell τ ts = respell τ' ts := by
  induction ts with
  | nil => rfl
  | cons t ts ih =>
    obtain ⟨here, others⟩ := List.forall_mem_cons.mp h
    rw [respell, respell, ih others, respellBefore, respellBefore, here]

/-- Tokens whose variables keep their names are not respelled. -/
theorem respell_id (ts : List Token) : respell (fun _ => id) ts = ts := by
  induction ts with
  | nil => rfl
  | cons t ts ih =>
    rw [respell, ih, respellBefore, Option.map_id_fun, id_eq, ite_self]

theorem Apart.append (h : Apart ts us) (ne : ts ≠ []) (vs : List Token) : Apart (vs ++ ts) us := by
  intro leads t ht
  rw [List.getLast?_append_of_ne_nil vs ne] at ht
  exact h leads t ht

theorem Apart.cons (h : Apart ts us) (ne : ts ≠ []) (t : Token) : Apart (t :: ts) us :=
  h.append ne [t]

theorem Apart.behind (h : Apart ts us) (ne : ts ≠ []) (vs : List Token) (t : Token) :
    Apart (vs ++ t :: ts) us :=
  (h.cons ne t).append (List.cons_ne_nil t ts) vs

/-! ## 3. Derivations -/

section Derivations

variable (τ : String → String) {slot : String → Nat} (slot' : String → Nat)

theorem Infix.rename {n : Nat} {s : String} {a b e : Expr} (h : Infix n s a b e) :
    Infix n s (a.rename τ slot') (b.rename τ slot') (e.rename τ slot') := by
  cases h with
  | mul => exact .mul _ _
  | div => exact .div _ _
  | add => exact .add _ _
  | sub => exact .sub _ _
  | lt => exact .lt _ _
  | le => exact .le _ _
  | gt => exact .gt _ _
  | ge => exact .ge _ _
  | eq => exact .eq _ _
  | ne => exact .ne _ _

/-- A phrase and the punctuator behind it. -/
theorem respell_append_punctuator {r : Token} {s : String} (hr : r.isPunctuator s) (ne : s ≠ "(")
    (ts us : List Token) :
    respell (fun _ => τ) (ts ++ r :: us) =
      respell (fun _ => τ) ts ++ r :: respell (fun _ => τ) us := by
  rw [respell_append (apart_of_not_leads (not_leads_cons hr ne)), respell_punctuator hr]

theorem Infix.ne_paren {n : Nat} {s : String} {a b e : Expr} (h : Infix n s a b e) : s ≠ "(" := by
  cases h <;> decide

mutual

theorem Assignment.rename {ts : List Token} {e : Expr} : Assignment slot ts e →
    Assignment slot' (respell (fun _ => τ) ts) (e.rename τ slot')
  | .plain h => .plain h.rename
  | @Assignment.store _ first eq ts us a b ha heq hb => by
    rw [respell_append_punctuator τ heq (by decide)]
    have target := ha.rename
    rw [respell] at target ⊢
    have whole := Assignment.store target heq hb.rename
    rwa [loc_respellBefore] at whole

theorem Level.rename {n : Nat} {ts : List Token} {e : Expr} : Level slot n ts e →
    Level slot' n (respell (fun _ => τ) ts) (e.rename τ slot')
  | .primary h => .primary h.rename
  | .plus ht h => by
    rw [respell_punctuator ht]
    exact .plus ht h.rename
  | .minus ht h => by
    rw [respell_punctuator ht]
    exact .minus ht h.rename
  | .tighter h => .tighter h.rename
  | .operator ha ht hb hop => by
    rw [respell_append_punctuator τ ht hop.ne_paren]
    exact .operator ha.rename ht hb.rename (hop.rename τ slot')

theorem Primary.rename {ts : List Token} {e : Expr} : Primary slot ts e →
    Primary slot' (respell (fun _ => τ) ts) (e.rename τ slot')
  | .parens hl h hr => by
    rw [respell_punctuator hl, respell_append_punctuator τ hr (by decide)]
    exact .parens hl h.rename hr
  | @Primary.num _ t value hk => by
    rw [respell_of_ne (by rw [hk]; simp)]
    exact .num hk
  | @Primary.var _ t name hk ht => by
    have here : respellBefore (fun _ => τ) t [] = { t with text := some (τ name) } := by
      rw [respellBefore, if_pos ⟨hk, not_leads_nil⟩, ht]
      rfl
    rw [respell, here]
    exact .var hk rfl
  | .call hk ht hl h hr => by
    rw [respell_called (leads_cons.mpr hl), respell_punctuator hl,
      respell_append_punctuator τ hr (by decide)]
    exact .call hk ht hl h.rename hr
  | .callBare hk ht hl hr => by
    rw [respell_called (leads_cons.mpr hl), respell_punctuator hl, respell_punctuator hr]
    exact .callBare hk ht hl hr

theorem Arguments.rename {ts : List Token} {es : List Expr} : Arguments slot ts es →
    Arguments slot' (respell (fun _ => τ) ts) (renameArgs τ slot' es)
  | .last h => .last h.rename
  | .more h hc hs => by
    rw [respell_append_punctuator τ hc (by decide)]
    exact .more h.rename hc hs.rename

end

theorem Clause.rename {ts : List Token} {clause : Option Expr} : Clause slot ts clause →
    Clause slot' (respell (fun _ => τ) ts) (clause.map (Expr.rename τ slot'))
  | .absent => .absent
  | .present h => .present (h.rename τ slot')

theorem Statement.ne_nil {ts : List Token} {s : Stmt} (h : Statement slot ts s) : ts ≠ [] := by
  obtain ⟨t, rest, rfl, -⟩ := h.starts
  exact List.cons_ne_nil t rest

theorem ne_ident_of_isPunctuator {t : Token} {s : String} (h : t.isPunctuator s) :
    t.kind ≠ .ident := by
  rw [(Token.isPunctuator_iff.mp h).1]
  exact nofun

/-- No statement ends in an identifier. -/
theorem Statement.apart (us : List Token) {ts : List Token} {s : Stmt} (h : Statement slot ts s) :
    Apart ts us := by
  cases h with
  | ret _ _ hz => exact (apart_concat (ne_ident_of_isPunctuator hz)).cons (by simp) _
  | cond _ _ _ _ hyes =>
    have last := hyes.apart us
    exact ((last.behind hyes.ne_nil _ _).cons (by simp) _).cons (by simp) _
  | condElse _ _ _ _ _ _ hno =>
    have last := hno.apart us
    exact (((last.behind hno.ne_nil _ _).behind (by simp) _ _).cons (by simp) _).cons (by simp) _
  | loop _ _ _ _ _ _ _ _ hbody =>
    have last := hbody.apart us
    exact ((((last.behind hbody.ne_nil _ _).behind (by simp) _ _).behind (by simp) _ _).cons
      (by simp) _).cons (by simp) _
  | block _ _ hr => exact (apart_concat (ne_ident_of_isPunctuator hr)).cons (by simp) _
  | expr _ hz => exact apart_concat (ne_ident_of_isPunctuator hz)

mutual

theorem Statement.rename {ts : List Token} {s : Stmt} : Statement slot ts s →
    Statement slot' (respell (fun _ => τ) ts) (s.rename τ slot')
  | .ret hk h hz => by
    rw [respell_keyword hk, respell_append_punctuator τ hz (by decide)]
    exact .ret hk (h.rename τ slot') hz
  | .cond hk hl htest hr hyes => by
    rw [respell_keyword hk, respell_punctuator hl, respell_append_punctuator τ hr (by decide)]
    exact .cond hk hl (htest.rename τ slot') hr hyes.rename
  | .condElse hk hl htest hr hyes ho hno => by
    rw [respell_keyword hk, respell_punctuator hl, respell_append_punctuator τ hr (by decide),
      respell_append (hyes.apart _), respell_keyword ho]
    exact .condElse hk hl (htest.rename τ slot') hr hyes.rename ho hno.rename
  | .loop hk hl hstart hy htest hz hnext hr hbody => by
    rw [respell_keyword hk, respell_punctuator hl, respell_append_punctuator τ hy (by decide),
      respell_append_punctuator τ hz (by decide), respell_append_punctuator τ hr (by decide)]
    exact .loop hk hl (hstart.rename τ slot') hy (htest.rename τ slot') hz
      (hnext.rename τ slot') hr hbody.rename
  | .block hl h hr => by
    rw [respell_punctuator hl, respell_append_punctuator τ hr (by decide)]
    exact .block hl h.rename hr
  | .expr h hz => by
    rw [respell_append_punctuator τ hz (by decide)]
    exact .expr (h.rename τ slot') hz

theorem Statements.rename {ts : List Token} {body : List Stmt} : Statements slot ts body →
    Statements slot' (respell (fun _ => τ) ts) (renameBlock τ slot' body)
  | .nil => .nil
  | .cons h hs => by
    rw [respell_append (h.apart _)]
    exact .cons h.rename hs.rename

end

theorem Parameters.rename {ts : List Token} {names : List String} (h : Parameters ts names) :
    Parameters (respell (fun _ => τ) ts) (names.map τ) := by
  induction h with
  | @last t name hk ht =>
    have here : respellBefore (fun _ => τ) t [] = { t with text := some (τ name) } := by
      rw [respellBefore, if_pos ⟨hk, not_leads_nil⟩, ht]
      rfl
    rw [respell, here]
    exact .last hk rfl
  | @more t c name ts names hk ht hc _ ih =>
    have here : respellBefore (fun _ => τ) t (c :: ts) = { t with text := some (τ name) } := by
      rw [respellBefore, if_pos ⟨hk, not_leads_cons hc (by decide)⟩, ht]
      rfl
    rw [respell, here, respell_punctuator hc]
    exact .more hk rfl hc ih

theorem OptParameters.rename {ts : List Token} {names : List String} (h : OptParameters ts names) :
    OptParameters (respell (fun _ => τ) ts) (names.map τ) := by
  cases h with
  | absent => exact .absent
  | present h => exact .present (h.rename τ)

/-- What the respelled tokens of a function denote: the function with its variables renamed. -/
theorem Definition.rename {ts : List Token} {f : Function} (h : Definition ts f) {frame : Frame}
    (renamed : ∀ names, f.frame = Frame.ofNames names → frame = Frame.ofNames (names.map τ)) :
    Definition (respell (fun _ => τ) ts) (f.rename τ frame) := by
  cases h with
  | @intro t l r o c name ps ts names frame' body hk ht hl hparams hr ho hbody hc hframe =>
    have same : frame = Frame.ofNames (names.map τ ++
        variableNames (respell (fun _ => τ) ts)) := by
      rw [variableNames_respell, ← List.map_append]
      exact renamed _ hframe
    rw [respell_called (leads_cons.mpr hl), respell_punctuator hl,
      respell_append_punctuator τ hr (by decide), respell_punctuator ho,
      respell_append_punctuator τ hc (by decide)]
    have definition := Definition.intro hk ht hl (hparams.rename τ) hr ho
      (hbody.rename τ frame.offset) hc same
    rw [List.map_map] at definition
    rw [Function.rename, List.map_map]
    exact definition

end Derivations

end Grammar

end StackCompiler
