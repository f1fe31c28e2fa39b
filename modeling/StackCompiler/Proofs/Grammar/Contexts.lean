import StackCompiler.Proofs.Relocation
import StackCompiler.Proofs.Renaming

/-!
# Phrases inside phrases

A phrase of the grammar is made up of others. Where one of them stands in it is said by the tokens
before it and by those behind it. If other tokens of the same kind are put there, then the whole is
still a phrase. What it denotes differs in no other place, but variables may have other slots, and
an assignment is located where its left side now starts.

The main statements are these.
* What takes the place of a part leaves the whole derivable (`Within.rederives`).
* No identifier stands directly before an expression inside a phrase, and no parenthesis is opened
  directly behind one (`Within.apart`, `Within.not_leads`).
-/

namespace StackCompiler

/-- The place that every part of a tree gets if places are to be left out of account. -/
def nowhere (_ : Nat) : Nat := 0

namespace Grammar

/-! ## 1. Phrases and their parts -/

/-- The phrases that a body is made up of, by the trees that they denote. -/
inductive Phrase where
  | assignment (e : Expr)
  | level (n : Nat) (e : Expr)
  | primary (e : Expr)
  | arguments (es : List Expr)
  | clause (e : Option Expr)
  | statement (s : Stmt)
  | statements (body : List Stmt)

/-- Whether a phrase is part of an expression, and not made up of statements. -/
def Phrase.IsExpr : Phrase → Prop
  | .statement _ | .statements _ => False
  | _ => True

/-- `Part slot q' q vs ws`: the tokens `vs`, then a phrase `q'`, then the tokens `ws` make up a
phrase `q`. There is one rule for every phrase on the right side of every rule of the grammar.

An assignment may be located anywhere if it is its left side that is left open. -/
inductive Part (slot : String → Nat) : Phrase → Phrase → List Token → List Token → Prop
  | plain {e : Expr} : Part slot (.level 4 e) (.assignment e) [] []
  | target {eq : Token} {us : List Token} {a b : Expr} {loc : Nat} :
      eq.isPunctuator "=" → Level slot 4 us b →
      Part slot (.level 4 a) (.assignment (.assign a b loc)) [] (eq :: us)
  | value {first eq : Token} {ts : List Token} {a b : Expr} :
      Level slot 4 (first :: ts) a → eq.isPunctuator "=" →
      Part slot (.level 4 b) (.assignment (.assign a b first.loc)) (first :: ts ++ [eq]) []
  | primary {e : Expr} : Part slot (.primary e) (.level 0 e) [] []
  | plus {t : Token} {e : Expr} :
      t.isPunctuator "+" → Part slot (.level 0 e) (.level 0 e) [t] []
  | minus {t : Token} {e : Expr} :
      t.isPunctuator "-" → Part slot (.level 0 e) (.level 0 (.binary .sub (.num 0) e)) [t] []
  | tighter {n : Nat} {e : Expr} : Part slot (.level n e) (.level (n + 1) e) [] []
  | left {n : Nat} {s : String} {t : Token} {us : List Token} {a b e : Expr} :
      t.isPunctuator s → Level slot n us b → Infix (n + 1) s a b e →
      Part slot (.level (n + 1) a) (.level (n + 1) e) [] (t :: us)
  | right {n : Nat} {s : String} {t : Token} {ts : List Token} {a b e : Expr} :
      Level slot (n + 1) ts a → t.isPunctuator s → Infix (n + 1) s a b e →
      Part slot (.level n b) (.level (n + 1) e) (ts ++ [t]) []
  | parens {l r : Token} {e : Expr} :
      l.isPunctuator "(" → r.isPunctuator ")" → Part slot (.assignment e) (.primary e) [l] [r]
  | call {t l r : Token} {name : String} {args : List Expr} :
      t.kind = .ident → t.text = some name → l.isPunctuator "(" → r.isPunctuator ")" →
      Part slot (.arguments args) (.primary (.call name args t.loc)) [t, l] [r]
  | lastArg {e : Expr} : Part slot (.assignment e) (.arguments [e]) [] []
  | firstArg {c : Token} {us : List Token} {e : Expr} {es : List Expr} :
      c.isPunctuator "," → Arguments slot us es →
      Part slot (.assignment e) (.arguments (e :: es)) [] (c :: us)
  | otherArgs {c : Token} {ts : List Token} {e : Expr} {es : List Expr} :
      Assignment slot ts e → c.isPunctuator "," →
      Part slot (.arguments es) (.arguments (e :: es)) (ts ++ [c]) []
  | present {e : Expr} : Part slot (.assignment e) (.clause (some e)) [] []
  | ret {k z : Token} {e : Expr} :
      k.isKeyword "return" → z.isPunctuator ";" →
      Part slot (.assignment e) (.statement (.ret e)) [k] [z]
  | condTest {k l r : Token} {us : List Token} {test : Expr} {yes : Stmt} :
      k.isKeyword "if" → l.isPunctuator "(" → r.isPunctuator ")" → Statement slot us yes →
      Part slot (.assignment test) (.statement (.cond test yes none)) [k, l] (r :: us)
  | condYes {k l r : Token} {ts : List Token} {test : Expr} {yes : Stmt} :
      k.isKeyword "if" → l.isPunctuator "(" → Assignment slot ts test → r.isPunctuator ")" →
      Part slot (.statement yes) (.statement (.cond test yes none)) (k :: l :: (ts ++ [r])) []
  | condElseTest {k l r o : Token} {us vs : List Token} {test : Expr} {yes no : Stmt} :
      k.isKeyword "if" → l.isPunctuator "(" → r.isPunctuator ")" → Statement slot us yes →
      o.isKeyword "else" → Statement slot vs no →
      Part slot (.assignment test) (.statement (.cond test yes (some no))) [k, l]
        (r :: (us ++ o :: vs))
  | condElseYes {k l r o : Token} {ts vs : List Token} {test : Expr} {yes no : Stmt} :
      k.isKeyword "if" → l.isPunctuator "(" → Assignment slot ts test → r.isPunctuator ")" →
      o.isKeyword "else" → Statement slot vs no →
      Part slot (.statement yes) (.statement (.cond test yes (some no))) (k :: l :: (ts ++ [r]))
        (o :: vs)
  | condElseNo {k l r o : Token} {ts us : List Token} {test : Expr} {yes no : Stmt} :
      k.isKeyword "if" → l.isPunctuator "(" → Assignment slot ts test → r.isPunctuator ")" →
      Statement slot us yes → o.isKeyword "else" →
      Part slot (.statement no) (.statement (.cond test yes (some no)))
        (k :: l :: (ts ++ r :: (us ++ [o]))) []
  | loopStart {k l y z r : Token} {us vs ws : List Token} {start test next : Option Expr}
      {body : Stmt} :
      k.isKeyword "for" → l.isPunctuator "(" → y.isPunctuator ";" → Clause slot us test →
      z.isPunctuator ";" → Clause slot vs next → r.isPunctuator ")" → Statement slot ws body →
      Part slot (.clause start) (.statement (.loop start test next body)) [k, l]
        (y :: (us ++ z :: (vs ++ r :: ws)))
  | loopTest {k l y z r : Token} {ts vs ws : List Token} {start test next : Option Expr}
      {body : Stmt} :
      k.isKeyword "for" → l.isPunctuator "(" → Clause slot ts start → y.isPunctuator ";" →
      z.isPunctuator ";" → Clause slot vs next → r.isPunctuator ")" → Statement slot ws body →
      Part slot (.clause test) (.statement (.loop start test next body)) (k :: l :: (ts ++ [y]))
        (z :: (vs ++ r :: ws))
  | loopNext {k l y z r : Token} {ts us ws : List Token} {start test next : Option Expr}
      {body : Stmt} :
      k.isKeyword "for" → l.isPunctuator "(" → Clause slot ts start → y.isPunctuator ";" →
      Clause slot us test → z.isPunctuator ";" → r.isPunctuator ")" → Statement slot ws body →
      Part slot (.clause next) (.statement (.loop start test next body))
        (k :: l :: (ts ++ y :: (us ++ [z]))) (r :: ws)
  | loopBody {k l y z r : Token} {ts us vs : List Token} {start test next : Option Expr}
      {body : Stmt} :
      k.isKeyword "for" → l.isPunctuator "(" → Clause slot ts start → y.isPunctuator ";" →
      Clause slot us test → z.isPunctuator ";" → Clause slot vs next → r.isPunctuator ")" →
      Part slot (.statement body) (.statement (.loop start test next body))
        (k :: l :: (ts ++ y :: (us ++ z :: (vs ++ [r])))) []
  | block {l r : Token} {body : List Stmt} :
      l.isPunctuator "\x7b" → r.isPunctuator "\x7d" →
      Part slot (.statements body) (.statement (.block body)) [l] [r]
  | expr {z : Token} {e : Expr} :
      z.isPunctuator ";" → Part slot (.assignment e) (.statement (.expr e)) [] [z]
  | first {us : List Token} {s : Stmt} {body : List Stmt} :
      Statements slot us body → Part slot (.statement s) (.statements (s :: body)) [] us
  | others {ts : List Token} {s : Stmt} {body : List Stmt} :
      Statement slot ts s → Part slot (.statements body) (.statements (s :: body)) ts []

/-- `Within slot x q bs as`: the phrase `x` stands in the phrase `q`, at any depth, between the
tokens `bs` and the tokens `as`. -/
inductive Within (slot : String → Nat) (x : Phrase) : Phrase → List Token → List Token → Prop
  | here : Within slot x x [] []
  | inside {q' q : Phrase} {vs ws bs as : List Token} :
      Within slot x q' bs as → Part slot q' q vs ws → Within slot x q (vs ++ bs) (as ++ ws)

/-! ## 2. Around a part -/

section Around

variable {slot : String → Nat} {x q q' : Phrase} {vs ws bs as : List Token}

/-- The tokens before a part do not end in an identifier. -/
theorem Part.apart (h : Part slot q' q vs ws) (us : List Token) : Apart vs us := by
  have none : Apart [] us := fun _ t ht => by cases ht
  have punctuator {ts : List Token} {t : Token} {s : String} (ht : t.isPunctuator s) :
      Apart (ts ++ [t]) us := apart_concat (ne_ident_of_isPunctuator ht)
  have single {t : Token} {s : String} (ht : t.isPunctuator s) : Apart [t] us :=
    @punctuator [] t s ht
  have keyword {ts : List Token} {t : Token} {s : String} (ht : t.isKeyword s) :
      Apart (ts ++ [t]) us := apart_concat fun hk => by
    rw [(Token.isKeyword_iff.mp ht).1] at hk
    cases hk
  cases h with
  | plain | target | primary | tighter | left | lastArg | firstArg | present | expr | first =>
    exact none
  | value _ heq => exact punctuator heq
  | plus ht | minus ht => exact single ht
  | right _ ht _ => exact punctuator ht
  | parens hl _ | block hl _ => exact single hl
  | call _ _ hl _ => exact (single hl).cons (by simp) _
  | otherArgs _ hc => exact punctuator hc
  | ret hk _ => exact @keyword [] _ _ hk
  | condTest _ hl _ _ => exact (single hl).cons (by simp) _
  | condYes _ _ _ hr => exact ((punctuator hr).cons (by simp) _).cons (by simp) _
  | condElseTest _ hl _ _ _ _ => exact (single hl).cons (by simp) _
  | condElseYes _ _ _ hr _ _ => exact ((punctuator hr).cons (by simp) _).cons (by simp) _
  | condElseNo _ _ _ _ _ ho =>
    exact (((keyword ho).behind (by simp) _ _).cons (by simp) _).cons (by simp) _
  | loopStart _ hl _ _ _ _ _ _ => exact (single hl).cons (by simp) _
  | loopTest _ _ _ hy _ _ _ _ => exact ((punctuator hy).cons (by simp) _).cons (by simp) _
  | loopNext _ _ _ _ _ hz _ _ =>
    exact (((punctuator hz).behind (by simp) _ _).cons (by simp) _).cons (by simp) _
  | loopBody _ _ _ _ _ _ _ hr =>
    exact ((((punctuator hr).behind (by simp) _ _).behind (by simp) _ _).cons (by simp) _).cons
      (by simp) _
  | others hs => exact hs.apart us

/-- Behind a part of an expression there is no opening parenthesis. -/
theorem Part.not_leads (h : Part slot q' q vs ws) (expr : q'.IsExpr) : ¬ Leads "(" ws := by
  cases h with
  | plain | primary | plus | minus | tighter | lastArg | present | value | right | otherArgs =>
    exact not_leads_nil
  | target heq _ => exact not_leads_cons heq (by decide)
  | left ht _ hop => exact not_leads_cons ht hop.ne_paren
  | parens _ hr => exact not_leads_cons hr (by decide)
  | call _ _ _ hr => exact not_leads_cons hr (by decide)
  | firstArg hc _ => exact not_leads_cons hc (by decide)
  | ret _ hz => exact not_leads_cons hz (by decide)
  | condTest _ _ hr _ => exact not_leads_cons hr (by decide)
  | condElseTest _ _ hr _ _ _ => exact not_leads_cons hr (by decide)
  | loopStart _ _ hy _ _ _ _ _ => exact not_leads_cons hy (by decide)
  | loopTest _ _ _ _ hz _ _ _ => exact not_leads_cons hz (by decide)
  | loopNext _ _ _ _ _ _ hr _ => exact not_leads_cons hr (by decide)
  | expr hz => exact not_leads_cons hz (by decide)
  | condYes | condElseYes | condElseNo | loopBody | block | first | others => exact expr.elim

/-- A statement does not end with an expression. -/
theorem Part.ne_nil (h : Part slot q' q vs ws) (expr : q'.IsExpr) (stmt : ¬ q.IsExpr) :
    ws ≠ [] := by
  cases h with
  | ret | condTest | condElseTest | loopStart | loopTest | loopNext | expr =>
    exact List.cons_ne_nil _ _
  | condYes | condElseYes | condElseNo | loopBody | block | first | others => exact expr.elim
  | plain | target | value | primary | plus | minus | tighter | left | right | parens | call
  | lastArg | firstArg | otherArgs | present => exact absurd trivial stmt

theorem Within.apart (h : Within slot x q bs as) (us : List Token) : Apart bs us := by
  induction h with
  | here => exact fun _ t ht => by cases ht
  | @inside _ _ vs _ bs _ _ part ih =>
    cases bs with
    | nil =>
      rw [List.append_nil]
      exact part.apart us
    | cons t bs => exact ih.append (List.cons_ne_nil t bs) vs

theorem Within.not_leads_and_ne_nil (h : Within slot x q bs as) (expr : x.IsExpr) :
    ¬ Leads "(" as ∧ (¬ q.IsExpr → as ≠ []) := by
  induction h with
  | here => exact ⟨not_leads_nil, fun stmt => absurd expr stmt⟩
  | @inside q' q _ ws _ as _ part ih =>
    obtain ⟨clear, ends⟩ := ih
    cases as with
    | nil =>
      have expr' : q'.IsExpr := by_contra fun stmt => ends stmt rfl
      exact ⟨part.not_leads expr', part.ne_nil expr'⟩
    | cons t as =>
      rw [leads_cons] at clear
      rw [List.cons_append, leads_cons]
      exact ⟨clear, fun _ => List.cons_ne_nil _ _⟩

theorem Within.not_leads (h : Within slot x q bs as) (expr : x.IsExpr) : ¬ Leads "(" as :=
  (h.not_leads_and_ne_nil expr).1

end Around

/-! ## 3. Other tokens in the place of a part -/

section Rebind

variable {slot : String → Nat} (slot' : String → Nat)

/-! The same tokens denote the same tree for other slots, bound to these. -/

theorem Assignment.rebind {ts : List Token} {e : Expr} (h : Assignment slot ts e) :
    Assignment slot' ts (e.rename id slot') :=
  respell_id ts ▸ h.rename id slot'

theorem Level.rebind {n : Nat} {ts : List Token} {e : Expr} (h : Level slot n ts e) :
    Level slot' n ts (e.rename id slot') :=
  respell_id ts ▸ h.rename id slot'

theorem Arguments.rebind {ts : List Token} {es : List Expr} (h : Arguments slot ts es) :
    Arguments slot' ts (renameArgs id slot' es) :=
  respell_id ts ▸ h.rename id slot'

theorem Clause.rebind {ts : List Token} {e : Option Expr} (h : Clause slot ts e) :
    Clause slot' ts (e.map (Expr.rename id slot')) :=
  respell_id ts ▸ h.rename id slot'

theorem Statement.rebind {ts : List Token} {s : Stmt} (h : Statement slot ts s) :
    Statement slot' ts (s.rename id slot') :=
  respell_id ts ▸ h.rename id slot'

theorem Statements.rebind {ts : List Token} {body : List Stmt} (h : Statements slot ts body) :
    Statements slot' ts (renameBlock id slot' body) :=
  respell_id ts ▸ h.rename id slot'

end Rebind

/-- The phrase can be made up of the tokens `ts`, with its variables bound to the slots `slot'` and
its parts anywhere. -/
def Phrase.Rederives (slot' : String → Nat) (ts : List Token) : Phrase → Prop
  | .assignment e => ∃ e', Assignment slot' ts e' ∧
      e'.relocate nowhere = (e.rename id slot').relocate nowhere
  | .level n e => ∃ e', Level slot' n ts e' ∧
      e'.relocate nowhere = (e.rename id slot').relocate nowhere
  | .primary e => ∃ e', Primary slot' ts e' ∧
      e'.relocate nowhere = (e.rename id slot').relocate nowhere
  | .arguments es => ∃ es', Arguments slot' ts es' ∧
      relocateArgs nowhere es' = relocateArgs nowhere (renameArgs id slot' es)
  | .clause e => ∃ e', Clause slot' ts e' ∧
      e'.map (Expr.relocate nowhere) = (e.map (Expr.rename id slot')).map (Expr.relocate nowhere)
  | .statement s => ∃ s', Statement slot' ts s' ∧
      s'.relocate nowhere = (s.rename id slot').relocate nowhere
  | .statements body => ∃ body', Statements slot' ts body' ∧
      relocateBlock nowhere body' = relocateBlock nowhere (renameBlock id slot' body)

section Exchange

variable {slot slot' : String → Nat} {q q' x : Phrase} {vs ws bs as ts us : List Token}

/-- Operators make trees of the same shape of any sides. -/
theorem Infix.exists_like {n : Nat} {s : String} {a b e a' b' : Expr} (h : Infix n s a b e)
    (ha : a'.relocate nowhere = (a.rename id slot').relocate nowhere)
    (hb : b'.relocate nowhere = (b.rename id slot').relocate nowhere) :
    ∃ e', Infix n s a' b' e' ∧ e'.relocate nowhere = (e.rename id slot').relocate nowhere := by
  have same (op : Op) : (Expr.binary op a' b').relocate nowhere =
      ((Expr.binary op a b).rename id slot').relocate nowhere := by
    rw [Expr.rename, Expr.relocate, Expr.relocate, ha, hb]
  have turned (op : Op) : (Expr.binary op b' a').relocate nowhere =
      ((Expr.binary op b a).rename id slot').relocate nowhere := by
    rw [Expr.rename, Expr.relocate, Expr.relocate, ha, hb]
  cases h with
  | mul => exact ⟨_, .mul _ _, same _⟩
  | div => exact ⟨_, .div _ _, same _⟩
  | add => exact ⟨_, .add _ _, same _⟩
  | sub => exact ⟨_, .sub _ _, same _⟩
  | lt => exact ⟨_, .lt _ _, same _⟩
  | le => exact ⟨_, .le _ _, same _⟩
  | gt => exact ⟨_, .gt _ _, turned _⟩
  | ge => exact ⟨_, .ge _ _, turned _⟩
  | eq => exact ⟨_, .eq _ _, same _⟩
  | ne => exact ⟨_, .ne _ _, same _⟩

theorem Level.exists_first {n : Nat} {e : Expr} (h : Level slot n ts e) :
    ∃ t rest, ts = t :: rest := by
  obtain ⟨t, rest, same, -⟩ := h.starts
  exact ⟨t, rest, same⟩

/-- Other tokens in the place of one part make up the same phrase. -/
theorem Part.rederives (h : Part slot q' q vs ws) (inner : q'.Rederives slot' ts) :
    q.Rederives slot' (vs ++ (ts ++ ws)) := by
  cases h with
  | plain =>
    obtain ⟨e', derived, same⟩ := inner
    rw [List.nil_append, List.append_nil]
    exact ⟨e', .plain derived, same⟩
  | target heq hb =>
    obtain ⟨a', derived, same⟩ := inner
    obtain ⟨first, ts, rfl⟩ := derived.exists_first
    refine ⟨_, .store derived heq (hb.rebind slot'), ?_⟩
    rw [Expr.rename, Expr.relocate, Expr.relocate, same]
    rfl
  | value ha heq =>
    obtain ⟨b', derived, same⟩ := inner
    rw [List.append_nil, List.append_assoc]
    refine ⟨_, .store (ha.rebind slot') heq derived, ?_⟩
    rw [Expr.rename, Expr.relocate, Expr.relocate, same]
  | primary =>
    obtain ⟨e', derived, same⟩ := inner
    rw [List.nil_append, List.append_nil]
    exact ⟨e', .primary derived, same⟩
  | plus ht =>
    obtain ⟨e', derived, same⟩ := inner
    rw [List.append_nil]
    exact ⟨e', .plus ht derived, same⟩
  | minus ht =>
    obtain ⟨e', derived, same⟩ := inner
    rw [List.append_nil]
    refine ⟨_, .minus ht derived, ?_⟩
    rw [Expr.rename, Expr.relocate, Expr.relocate, same]
    rfl
  | tighter =>
    obtain ⟨e', derived, same⟩ := inner
    rw [List.nil_append, List.append_nil]
    exact ⟨e', .tighter derived, same⟩
  | left ht hb hop =>
    obtain ⟨a', derived, same⟩ := inner
    obtain ⟨e', hop', whole⟩ := hop.exists_like same rfl
    exact ⟨e', .operator derived ht (hb.rebind slot') hop', whole⟩
  | right ha ht hop =>
    obtain ⟨b', derived, same⟩ := inner
    obtain ⟨e', hop', whole⟩ := hop.exists_like rfl same
    rw [List.append_nil, List.append_assoc]
    exact ⟨e', .operator (ha.rebind slot') ht derived hop', whole⟩
  | parens hl hr =>
    obtain ⟨e', derived, same⟩ := inner
    exact ⟨e', .parens hl derived hr, same⟩
  | call hk ht hl hr =>
    obtain ⟨args', derived, same⟩ := inner
    refine ⟨_, .call hk ht hl derived hr, ?_⟩
    rw [Expr.rename, Expr.relocate, Expr.relocate, same]
  | lastArg =>
    obtain ⟨e', derived, same⟩ := inner
    rw [List.nil_append, List.append_nil]
    refine ⟨_, .last derived, ?_⟩
    rw [renameArgs, relocateArgs, relocateArgs, same]
    rfl
  | firstArg hc hs =>
    obtain ⟨e', derived, same⟩ := inner
    refine ⟨_, .more derived hc (hs.rebind slot'), ?_⟩
    rw [renameArgs, relocateArgs, relocateArgs, same]
  | otherArgs h hc =>
    obtain ⟨es', derived, same⟩ := inner
    rw [List.append_nil, List.append_assoc]
    refine ⟨_, .more (h.rebind slot') hc derived, ?_⟩
    rw [renameArgs, relocateArgs, relocateArgs, same]
  | present =>
    obtain ⟨e', derived, same⟩ := inner
    rw [List.nil_append, List.append_nil]
    exact ⟨_, .present derived, congrArg some same⟩
  | ret hk hz =>
    obtain ⟨e', derived, same⟩ := inner
    refine ⟨_, .ret hk derived hz, ?_⟩
    rw [Stmt.rename, Stmt.relocate, Stmt.relocate, same]
  | condTest hk hl hr hyes =>
    obtain ⟨test', derived, same⟩ := inner
    refine ⟨_, .cond hk hl derived hr (hyes.rebind slot'), ?_⟩
    rw [Stmt.rename, Stmt.relocate, Stmt.relocate, same]
  | condYes hk hl htest hr =>
    obtain ⟨yes', derived, same⟩ := inner
    have whole := Statement.cond hk hl (htest.rebind slot') hr derived
    refine ⟨_, by simpa using whole, ?_⟩
    rw [Stmt.rename, Stmt.relocate, Stmt.relocate, same]
  | condElseTest hk hl hr hyes ho hno =>
    obtain ⟨test', derived, same⟩ := inner
    refine ⟨_, .condElse hk hl derived hr (hyes.rebind slot') ho (hno.rebind slot'), ?_⟩
    rw [Stmt.rename, Stmt.relocate, Stmt.relocate, same]
  | condElseYes hk hl htest hr ho hno =>
    obtain ⟨yes', derived, same⟩ := inner
    have whole := Statement.condElse hk hl (htest.rebind slot') hr derived ho (hno.rebind slot')
    refine ⟨_, by simpa using whole, ?_⟩
    rw [Stmt.rename, Stmt.relocate, Stmt.relocate, same]
  | condElseNo hk hl htest hr hyes ho =>
    obtain ⟨no', derived, same⟩ := inner
    have whole := Statement.condElse hk hl (htest.rebind slot') hr (hyes.rebind slot') ho derived
    refine ⟨_, by simpa using whole, ?_⟩
    rw [Stmt.rename, Stmt.relocate, Stmt.relocate, same]
  | loopStart hk hl hy htest hz hnext hr hbody =>
    obtain ⟨start', derived, same⟩ := inner
    refine ⟨_, .loop hk hl derived hy (htest.rebind slot') hz (hnext.rebind slot') hr
      (hbody.rebind slot'), ?_⟩
    rw [Stmt.rename, Stmt.relocate, Stmt.relocate, same]
  | loopTest hk hl hstart hy hz hnext hr hbody =>
    obtain ⟨test', derived, same⟩ := inner
    have whole := Statement.loop hk hl (hstart.rebind slot') hy derived hz (hnext.rebind slot') hr
      (hbody.rebind slot')
    refine ⟨_, by simpa using whole, ?_⟩
    rw [Stmt.rename, Stmt.relocate, Stmt.relocate, same]
  | loopNext hk hl hstart hy htest hz hr hbody =>
    obtain ⟨next', derived, same⟩ := inner
    have whole := Statement.loop hk hl (hstart.rebind slot') hy (htest.rebind slot') hz derived hr
      (hbody.rebind slot')
    refine ⟨_, by simpa using whole, ?_⟩
    rw [Stmt.rename, Stmt.relocate, Stmt.relocate, same]
  | loopBody hk hl hstart hy htest hz hnext hr =>
    obtain ⟨body', derived, same⟩ := inner
    have whole := Statement.loop hk hl (hstart.rebind slot') hy (htest.rebind slot') hz
      (hnext.rebind slot') hr derived
    refine ⟨_, by simpa using whole, ?_⟩
    rw [Stmt.rename, Stmt.relocate, Stmt.relocate, same]
  | block hl hr =>
    obtain ⟨body', derived, same⟩ := inner
    refine ⟨_, .block hl derived hr, ?_⟩
    rw [Stmt.rename, Stmt.relocate, Stmt.relocate, same]
  | expr hz =>
    obtain ⟨e', derived, same⟩ := inner
    refine ⟨_, .expr derived hz, ?_⟩
    rw [Stmt.rename, Stmt.relocate, Stmt.relocate, same]
  | first hs =>
    obtain ⟨s', derived, same⟩ := inner
    rw [List.nil_append]
    refine ⟨_, .cons derived (hs.rebind slot'), ?_⟩
    rw [renameBlock, relocateBlock, relocateBlock, same]
  | others h =>
    obtain ⟨body', derived, same⟩ := inner
    rw [List.append_nil]
    refine ⟨_, .cons (h.rebind slot') derived, ?_⟩
    rw [renameBlock, relocateBlock, relocateBlock, same]

/-- Other tokens in the place of a part, at any depth, make up the same phrase. -/
theorem Within.rederives (h : Within slot x q bs as) (inner : x.Rederives slot' us) :
    q.Rederives slot' (bs ++ (us ++ as)) := by
  induction h with
  | here => rwa [List.nil_append, List.append_nil]
  | inside _ part ih =>
    have whole := part.rederives ih
    simpa using whole

end Exchange

end Grammar

end StackCompiler
