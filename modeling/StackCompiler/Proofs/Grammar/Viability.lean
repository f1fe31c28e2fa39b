import StackCompiler.Proofs.Grammar.Failing
import StackCompiler.Proofs.Grammar.Phrases
import StackCompiler.Proofs.Grammar.Soundness
import StackCompiler.Proofs.Printing

/-!
# Completions

Where a reader stops, the tokens that it has used up can be completed: some lexemes behind them
make a phrase of the grammar (`readExpr_viable`, `readStmt_viable`). So what stands before the
place at which reading a program stops is the beginning of a program (`readFunctions_viable`).

The completions are short: a name where an expression is wanted, and a pair of braces where a
statement is.
-/

namespace StackCompiler

open Token (sign word Spelled)

theorem Token.isPunctuator_sign (s : String) : (sign s).isPunctuator s :=
  isPunctuator_iff.mpr ⟨rfl, rfl⟩

namespace Grammar

/-! ## 1. Slots do not matter -/

section Slots

variable {slot : String → Nat} (slot' : String → Nat)

theorem Infix.exists_tree {n : Nat} {s : String} {a b e : Expr} (h : Infix n s a b e)
    (a' b' : Expr) : ∃ e', Infix n s a' b' e' := by
  cases h with
  | mul => exact ⟨_, .mul a' b'⟩
  | div => exact ⟨_, .div a' b'⟩
  | add => exact ⟨_, .add a' b'⟩
  | sub => exact ⟨_, .sub a' b'⟩
  | lt => exact ⟨_, .lt a' b'⟩
  | le => exact ⟨_, .le a' b'⟩
  | gt => exact ⟨_, .gt a' b'⟩
  | ge => exact ⟨_, .ge a' b'⟩
  | eq => exact ⟨_, .eq a' b'⟩
  | ne => exact ⟨_, .ne a' b'⟩

mutual

theorem Assignment.exists_slot {ts : List Token} {e : Expr} :
    Assignment slot ts e → ∃ e', Assignment slot' ts e'
  | .plain h => by
    obtain ⟨e', h'⟩ := h.exists_slot
    exact ⟨e', .plain h'⟩
  | .store ha heq hb => by
    obtain ⟨a', ha'⟩ := ha.exists_slot
    obtain ⟨b', hb'⟩ := hb.exists_slot
    exact ⟨_, .store ha' heq hb'⟩

theorem Level.exists_slot {n : Nat} {ts : List Token} {e : Expr} :
    Level slot n ts e → ∃ e', Level slot' n ts e'
  | .primary h => by
    obtain ⟨e', h'⟩ := h.exists_slot
    exact ⟨e', .primary h'⟩
  | .plus ht h => by
    obtain ⟨e', h'⟩ := h.exists_slot
    exact ⟨e', .plus ht h'⟩
  | .minus ht h => by
    obtain ⟨e', h'⟩ := h.exists_slot
    exact ⟨_, .minus ht h'⟩
  | .tighter h => by
    obtain ⟨e', h'⟩ := h.exists_slot
    exact ⟨e', .tighter h'⟩
  | .operator ha ht hb hop => by
    obtain ⟨a', ha'⟩ := ha.exists_slot
    obtain ⟨b', hb'⟩ := hb.exists_slot
    obtain ⟨e', hop'⟩ := hop.exists_tree a' b'
    exact ⟨e', .operator ha' ht hb' hop'⟩

theorem Primary.exists_slot {ts : List Token} {e : Expr} :
    Primary slot ts e → ∃ e', Primary slot' ts e'
  | .parens hl h hr => by
    obtain ⟨e', h'⟩ := h.exists_slot
    exact ⟨e', .parens hl h' hr⟩
  | .num hk => ⟨_, .num hk⟩
  | .var hk ht => ⟨_, .var hk ht⟩
  | .call hk ht hl h hr => by
    obtain ⟨args', h'⟩ := h.exists_slot
    exact ⟨_, .call hk ht hl h' hr⟩
  | .callBare hk ht hl hr => ⟨_, .callBare hk ht hl hr⟩

theorem Arguments.exists_slot {ts : List Token} {es : List Expr} :
    Arguments slot ts es → ∃ es', Arguments slot' ts es'
  | .last h => by
    obtain ⟨e', h'⟩ := h.exists_slot
    exact ⟨_, .last h'⟩
  | .more h hc hs => by
    obtain ⟨e', h'⟩ := h.exists_slot
    obtain ⟨es', hs'⟩ := hs.exists_slot
    exact ⟨_, .more h' hc hs'⟩

end

theorem Clause.exists_slot {ts : List Token} {clause : Option Expr} :
    Clause slot ts clause → ∃ clause', Clause slot' ts clause'
  | .absent => ⟨_, .absent⟩
  | .present h => by
    obtain ⟨e', h'⟩ := h.exists_slot slot'
    exact ⟨_, .present h'⟩

mutual

theorem Statement.exists_slot {ts : List Token} {s : Stmt} :
    Statement slot ts s → ∃ s', Statement slot' ts s'
  | .ret hk h hz => by
    obtain ⟨e', h'⟩ := h.exists_slot slot'
    exact ⟨_, .ret hk h' hz⟩
  | .cond hk hl htest hr hyes => by
    obtain ⟨test', htest'⟩ := htest.exists_slot slot'
    obtain ⟨yes', hyes'⟩ := hyes.exists_slot
    exact ⟨_, .cond hk hl htest' hr hyes'⟩
  | .condElse hk hl htest hr hyes ho hno => by
    obtain ⟨test', htest'⟩ := htest.exists_slot slot'
    obtain ⟨yes', hyes'⟩ := hyes.exists_slot
    obtain ⟨no', hno'⟩ := hno.exists_slot
    exact ⟨_, .condElse hk hl htest' hr hyes' ho hno'⟩
  | .loop hk hl hstart hy htest hz hnext hr hbody => by
    obtain ⟨start', hstart'⟩ := hstart.exists_slot slot'
    obtain ⟨test', htest'⟩ := htest.exists_slot slot'
    obtain ⟨next', hnext'⟩ := hnext.exists_slot slot'
    obtain ⟨body', hbody'⟩ := hbody.exists_slot
    exact ⟨_, .loop hk hl hstart' hy htest' hz hnext' hr hbody'⟩
  | .block hl h hr => by
    obtain ⟨body', h'⟩ := h.exists_slot
    exact ⟨_, .block hl h' hr⟩
  | .expr h hz => by
    obtain ⟨e', h'⟩ := h.exists_slot slot'
    exact ⟨_, .expr h' hz⟩

/-- Whether tokens are statements does not depend on the slots that their variables have. -/
theorem Statements.exists_slot {ts : List Token} {body : List Stmt} :
    Statements slot ts body → ∃ body', Statements slot' ts body'
  | .nil => ⟨_, .nil⟩
  | .cons h hs => by
    obtain ⟨s', h'⟩ := h.exists_slot
    obtain ⟨body', hs'⟩ := hs.exists_slot
    exact ⟨_, .cons h' hs'⟩

end

end Slots

end Grammar

namespace Surface

open Grammar

/-! ## 2. Viable beginnings -/

/-- What was used up of `ts` before reading stopped can be completed with lexemes, so that the
whole has the property `P`. -/
def Viable (P : List Token → Prop) (ts : List Token) (stuck : Stuck) : Prop :=
  ∃ used more, ts = used ++ stuck.rest ∧ (∀ t ∈ more, t.Spelled) ∧ P (used ++ more)

/-- Tokens with the property `P`, and the punctuator that closes them. -/
def Closed (ending : String) (P : List Token → Prop) (ts : List Token) : Prop :=
  ∃ inner z, ts = inner ++ [z] ∧ z.isPunctuator ending ∧ P inner

/-- All of the tokens are punctuators around parts of a program. -/
theorem spelled_signs {ss : List String} (h : ss ⊆ Token.brackets) :
    ∀ t ∈ ss.map sign, t.Spelled := by
  intro t ht
  obtain ⟨s, hs, rfl⟩ := List.mem_map.mp ht
  exact Token.spelled_sign (h hs)

namespace Viable

variable {P Q : List Token → Prop} {ts us : List Token} {stuck : Stuck} {ending : String}

/-- A phrase of which an inner phrase is not complete. -/
theorem wrap (h : Viable P us stuck) (before : List Token) (after : List String)
    (hts : ts = before ++ us) (hafter : after ⊆ Token.brackets)
    (imp : ∀ xs, P xs → ∃ ys, ys = before ++ (xs ++ after.map sign) ∧ Q ys) :
    Viable Q ts stuck := by
  obtain ⟨used, more, rfl, hmore, hP⟩ := h
  obtain ⟨ys, hys, hQ⟩ := imp _ hP
  refine ⟨before ++ used, more ++ after.map sign, ?_,
    List.forall_mem_append.mpr ⟨hmore, spelled_signs hafter⟩, ?_⟩
  · rw [hts, List.append_assoc]
  · rw [hys] at hQ
    simpa using hQ

theorem mono (h : Viable P ts stuck) (imp : ∀ xs, P xs → Q xs) : Viable Q ts stuck := by
  obtain ⟨used, more, hts, hmore, hP⟩ := h
  exact ⟨used, more, hts, hmore, imp _ hP⟩

/-- Reading does not stop before where it started. -/
theorem length_le (h : Viable P ts stuck) : stuck.rest.length ≤ ts.length := by
  obtain ⟨used, more, rfl, -, -⟩ := h
  rw [List.length_append]
  exact Nat.le_add_left _ _

theorem closing (h : Viable P ts stuck) (hs : ending ∈ Token.brackets) :
    Viable (Closed ending P) ts stuck :=
  h.wrap [] [ending] rfl (by simpa using hs)
    fun xs hP => ⟨_, rfl, xs, _, rfl, Token.isPunctuator_sign ending, hP⟩

end Viable

namespace Misses

variable {P : List Token → Prop} {s : String} {used ts : List Token} {stuck : Stuck}

/-- The tokens `more` are missing behind `used`, of which a punctuator is the first. -/
theorem viable (h : Misses s ts stuck) (more : List Token) (spelled : ∀ t ∈ more, t.Spelled)
    (hP : P (used ++ more)) : Viable P (used ++ ts) stuck :=
  ⟨used, more, by rw [h.rest], spelled, hP⟩

/-- Nothing but the punctuator that closes a phrase is missing. -/
theorem closing (h : Misses s ts stuck) (hs : s ∈ Token.brackets) (hP : P used) :
    Viable (Closed s P) (used ++ ts) stuck :=
  h.viable [sign s] (List.forall_mem_singleton.mpr (Token.spelled_sign hs))
    ⟨used, _, rfl, Token.isPunctuator_sign s, hP⟩

end Misses

/-! ## 3. Expressions -/

section Expressions

variable (frame : Frame)

/-- The tokens are an expression. -/
def IsExpr (ts : List Token) : Prop :=
  ∃ e, Assignment frame.offset ts e

/-- The tokens are an expression of the level `n`. -/
def IsLevel (n : Nat) (ts : List Token) : Prop :=
  ∃ e, Level frame.offset n ts e

/-- The tokens are arguments. -/
def IsArguments (ts : List Token) : Prop :=
  ∃ es, Arguments frame.offset ts es

mutual

theorem readExpr_viable {ts : List Token} {stuck : Stuck} (h : (readExpr ts).Fails stuck) :
    Viable (IsExpr frame) ts stuck := by
  rcases readExpr_fails.mp h with h | ⟨a, mid, ha, eq, us, rfl, heq, hb⟩
  · exact (readLevel_viable h).mono fun xs ⟨e, he⟩ => ⟨e, .plain he⟩
  · have hlt := ha.shorter
    obtain ⟨used, hts, hlevel, -⟩ := readLevel_sound frame ha
    obtain ⟨first, used, rfl, -⟩ := hlevel.starts
    refine (readLevel_viable hb).wrap (first :: used ++ [eq]) [] (by simp [hts]) (by simp) ?_
    rintro xs ⟨b, hb⟩
    exact ⟨_, by simp, _, .store hlevel heq hb⟩
termination_by (ts.length, maxLevel + 2)
decreasing_by
  · exact Prod.Lex.right _ (Nat.lt_succ_self _)
  · exact Prod.Lex.left _ _ (by subst_vars; simp only [List.length_cons] at hlt; omega)

theorem readLevel_viable {n : Nat} {ts : List Token} {stuck : Stuck}
    (h : (readLevel n ts).Fails stuck) : Viable (IsLevel frame n) ts stuck := by
  match n with
  | 0 =>
    rcases readLevel_zero_fails.mp h with
      ⟨-, ⟨-, h⟩ | ⟨t, us, rfl, ht, h⟩⟩ | ⟨t, us, rfl, ht, h⟩
    · exact (readPrimary_viable h).mono fun xs ⟨e, he⟩ => ⟨e, .primary he⟩
    · refine (readLevel_viable h).wrap [t] [] rfl (by simp) ?_
      rintro xs ⟨e, he⟩
      exact ⟨_, by simp, _, .minus ht he⟩
    · refine (readLevel_viable h).wrap [t] [] rfl (by simp) ?_
      rintro xs ⟨e, he⟩
      exact ⟨_, by simp, _, .plus ht he⟩
  | n + 1 =>
    rcases readLevel_succ_fails.mp h with h | ⟨a, mid, ha, hlt, hchain⟩
    · exact (readLevel_viable h).mono fun xs ⟨e, he⟩ => ⟨e, .tighter he⟩
    · obtain ⟨used, hts, hlevel, -⟩ := readLevel_sound frame ha
      refine (readChain_viable hchain (.tighter hlevel)).wrap used [] hts (by simp) ?_
      intro xs hxs
      exact ⟨_, by simp, hxs⟩
termination_by (ts.length, n + 1)
decreasing_by
  · exact Prod.Lex.right _ (Nat.lt_succ_self _)
  · exact Prod.Lex.left _ _ (by subst_vars; simp only [List.length_cons]; omega)
  · exact Prod.Lex.left _ _ (by subst_vars; simp only [List.length_cons]; omega)
  · exact Prod.Lex.right _ (Nat.lt_succ_self _)
  · exact Prod.Lex.left _ _ (by omega)

/-- The tokens before a chain stay its first operand. -/
theorem readChain_viable {n bound : Nat} {a : Expr} {ts before : List Token} {stuck : Stuck}
    {h : ts.length < bound} (hchain : (readChain n a ts h).Fails stuck)
    (hbefore : Level frame.offset (n + 1) before (a.resolve frame)) :
    Viable (fun xs => IsLevel frame (n + 1) (before ++ xs)) ts stuck := by
  obtain ⟨op, t, us, rfl, ht, hlevel, hb | ⟨b, mid, hb, _, hmore⟩⟩ := readChain_fails.mp hchain
  · refine (readLevel_viable hb).wrap [t] [] rfl (by simp) ?_
    rintro xs ⟨b, hb⟩
    have hop := hlevel ▸ op.infix_apply (a.resolve frame) b
    exact ⟨_, by simp, _, .operator hbefore ht hb hop⟩
  · have hlt := hb.shorter
    obtain ⟨used, rfl, hright, -⟩ := readLevel_sound frame hb
    have hop := hlevel ▸ op.infix_apply (a.resolve frame) (b.resolve frame)
    have hboth := Level.operator hbefore ht hright hop
    refine (readChain_viable hmore hboth).wrap (t :: used) [] rfl (by simp) ?_
    intro xs hxs
    refine ⟨t :: used ++ xs, by simp, ?_⟩
    rwa [List.append_assoc] at hxs
termination_by (ts.length, 0)
decreasing_by
  · exact Prod.Lex.left _ _ (by subst_vars; simp only [List.length_cons]; omega)
  · exact Prod.Lex.left _ _ (by subst_vars; simp only [List.length_cons]; omega)

theorem readPrimary_viable {ts : List Token} {stuck : Stuck} (h : (readPrimary ts).Fails stuck) :
    Viable (fun xs => ∃ e, Primary frame.offset xs e) ts stuck := by
  rcases readPrimary_fails.mp h with
    ⟨-, ⟨-, rfl⟩ | ⟨t, us, rfl, name, hk, ht, l, vs, rfl, hl, hargs⟩⟩ |
    ⟨l, us, rfl, hl, h⟩
  · refine ⟨[], [word (Token.longName 0)], by rw [Stuck.rest_atPrimary]; rfl,
      List.forall_mem_singleton.mpr (Token.spelled_longName 0), ?_⟩
    exact ⟨_, .var rfl rfl⟩
  · refine (readArgs_viable hargs).wrap [t, l] [] rfl (by simp) ?_
    rintro xs ⟨inner, r, rfl, hr, es, hes⟩
    exact ⟨_, by simp, _, .call hk ht hl hes hr⟩
  · have inside : Viable (Closed ")" (IsExpr frame)) us stuck := by
      rcases h with h | ⟨a, mid, ha, hr⟩
      · exact (readExpr_viable h).closing (by decide)
      · obtain ⟨used, rfl, hphrase, -⟩ := readExpr_sound frame ha
        exact hr.closing (by decide) ⟨_, hphrase⟩
    refine inside.wrap [l] [] rfl (by simp) ?_
    rintro xs ⟨inner, r, rfl, hr, e, he⟩
    exact ⟨_, by simp, e, .parens hl he hr⟩
termination_by (ts.length, 0)
decreasing_by
  · exact Prod.Lex.left _ _ (by subst_vars; simp only [List.length_cons]; omega)
  · exact Prod.Lex.left _ _ (by subst_vars; simp only [List.length_cons]; omega)

theorem readArgs_viable {ts : List Token} {stuck : Stuck} (h : (readArgs ts).Fails stuck) :
    Viable (Closed ")" (IsArguments frame)) ts stuck :=
  readMoreArgs_viable (readArgs_fails.mp h).2
termination_by (ts.length, maxLevel + 4)
decreasing_by
  · exact Prod.Lex.right _ (Nat.lt_succ_self _)

theorem readMoreArgs_viable {bound : Nat} {done : List Expr} {ts : List Token} {stuck : Stuck}
    {hle : ts.length ≤ bound} (h : (readMoreArgs done ts hle).Fails stuck) :
    Viable (Closed ")" (IsArguments frame)) ts stuck := by
  rcases readMoreArgs_fails.mp h with h | ⟨a, mid, ha, ⟨-, hr⟩ | ⟨c, us, rfl, hc, _, hmore⟩⟩
  · have first : Viable (IsArguments frame) ts stuck :=
      (readExpr_viable h).mono fun xs ⟨e, he⟩ => ⟨_, .last he⟩
    exact first.closing (by decide)
  · obtain ⟨used, rfl, hphrase, -⟩ := readExpr_sound frame ha
    exact hr.closing (by decide) ⟨_, .last hphrase⟩
  · have hlt := ha.shorter
    obtain ⟨used, hts, hphrase, -⟩ := readExpr_sound frame ha
    refine (readMoreArgs_viable hmore).wrap (used ++ [c]) [] (by simp [hts]) (by simp) ?_
    rintro xs ⟨inner, r, rfl, hr, es, hes⟩
    exact ⟨used ++ c :: inner ++ [r], by simp, _, r, rfl, hr, _, .more hphrase hc hes⟩
termination_by (ts.length, maxLevel + 3)
decreasing_by
  · exact Prod.Lex.right _ (Nat.lt_succ_self _)
  · exact Prod.Lex.left _ _ (by subst_vars; simp only [List.length_cons] at hlt; omega)

end

/-- An expression with the punctuator that closes it, of which either part is missing. -/
theorem readExpr_viable_closing {ending : String} {ts : List Token} {stuck : Stuck}
    (hs : ending ∈ Token.brackets) (h : StopsClosed ending ts stuck) :
    Viable (Closed ending (IsExpr frame)) ts stuck := by
  rcases h with h | ⟨a, mid, ha, hz⟩
  · exact (readExpr_viable frame h).closing hs
  · obtain ⟨used, rfl, hphrase, -⟩ := readExpr_sound frame ha
    exact hz.closing hs ⟨_, hphrase⟩

end Expressions

/-! ## 4. Statements -/

section Statements

variable (frame : Frame)

/-- The tokens are a clause of a loop. -/
def IsClause (ts : List Token) : Prop :=
  ∃ clause, Clause frame.offset ts clause

/-- The tokens are a statement. -/
def IsStmt (ts : List Token) : Prop :=
  ∃ s, Statement frame.offset ts s

/-- The tokens are statements. -/
def IsBlock (ts : List Token) : Prop :=
  ∃ body, Statements frame.offset ts body

/-- A name by itself is an expression. -/
theorem assignment_word (name : String) :
    Assignment frame.offset [word name] (.var name (frame.offset name) 0) :=
  .plain (.tighter (.tighter (.tighter (.tighter (.primary (.var rfl rfl))))))

/-- A block without statements. -/
theorem braces {l r : Token} (hl : l.isPunctuator "\x7b") (hr : r.isPunctuator "\x7d") :
    Statement frame.offset [l, r] (.block []) :=
  .block hl .nil hr

theorem readClause_viable {ending : String} {ts : List Token} {stuck : Stuck}
    (hs : ending ∈ Token.brackets) (h : (readClause ending ts).Fails stuck) :
    Viable (Closed ending (IsClause frame)) ts stuck :=
  (readExpr_viable_closing frame hs (readClause_fails.mp h).2).mono
    fun _ ⟨inner, z, hxs, hz, e, he⟩ => ⟨inner, z, hxs, hz, some e, .present he⟩

/-- What is missing of a loop can be added. -/
theorem loop_viable {k : Token} {us : List Token} {stuck : Stuck} (hk : k.isKeyword "for")
    (body : ∀ ws : List Token, ws.length < us.length → (readStmt ws).Fails stuck →
      Viable (IsStmt frame) ws stuck)
    (stop : StopsInLoop us stuck) : Viable (IsStmt frame) (k :: us) stuck := by
  have hsemi := Token.isPunctuator_sign ";"
  have hclose := Token.isPunctuator_sign ")"
  have hempty := braces frame (Token.isPunctuator_sign "\x7b") (Token.isPunctuator_sign "\x7d")
  rcases stop with hmiss | ⟨l, vs, rfl, hl, hstart | ⟨start, mid, hstart, htest |
    ⟨test, mid', htest, hnext | ⟨next, mid'', hnext, hbody⟩⟩⟩⟩
  · have whole : IsStmt frame ([k] ++ ["(", ";", ";", ")", "\x7b", "\x7d"].map sign) :=
      ⟨_, .loop hk (Token.isPunctuator_sign "(") .absent hsemi .absent hsemi .absent hclose hempty⟩
    exact hmiss.viable _ (spelled_signs (by decide)) whole
  · refine (readClause_viable frame (by decide) hstart).wrap [k, l] [";", ")", "\x7b", "\x7d"] rfl
      (by decide) ?_
    rintro xs ⟨inner, y, rfl, hy, start, hstart⟩
    exact ⟨_, by simp, _, .loop hk hl hstart hy .absent hsemi .absent hclose hempty⟩
  · obtain ⟨used, y, rfl, hy, hphrase, -⟩ := readClause_sound frame hstart
    refine (readClause_viable frame (by decide) htest).wrap (k :: l :: (used ++ [y]))
      [")", "\x7b", "\x7d"] (by simp) (by decide) ?_
    rintro xs ⟨inner, z, rfl, hz, test, htest⟩
    exact ⟨_, by simp, _, .loop hk hl hphrase hy htest hz .absent hclose hempty⟩
  · obtain ⟨used, y, rfl, hy, hphrase, -⟩ := readClause_sound frame hstart
    obtain ⟨used', z, rfl, hz, hphrase', -⟩ := readClause_sound frame htest
    refine (readClause_viable frame (by decide) hnext).wrap
      (k :: l :: (used ++ y :: (used' ++ [z]))) ["\x7b", "\x7d"] (by simp) (by decide) ?_
    rintro xs ⟨inner, r, rfl, hr, next, hnext⟩
    exact ⟨_, by simp, _, .loop hk hl hphrase hy hphrase' hz hnext hr hempty⟩
  · have hlt := hnext.shorter.trans (htest.shorter.trans hstart.shorter)
    have inner := body mid'' (Nat.lt_succ_of_lt hlt) hbody
    obtain ⟨used, y, rfl, hy, hphrase, -⟩ := readClause_sound frame hstart
    obtain ⟨used', z, rfl, hz, hphrase', -⟩ := readClause_sound frame htest
    obtain ⟨used'', r, rfl, hr, hphrase'', -⟩ := readClause_sound frame hnext
    refine inner.wrap (k :: l :: (used ++ y :: (used' ++ z :: (used'' ++ [r])))) [] (by simp)
      (by simp) ?_
    rintro xs ⟨s, hs⟩
    exact ⟨_, by simp, _, .loop hk hl hphrase hy hphrase' hz hphrase'' hr hs⟩

/-- What is missing of a conditional can be added. -/
theorem cond_viable {k : Token} {us : List Token} {stuck : Stuck} (hk : k.isKeyword "if")
    (branch : ∀ ws : List Token, ws.length < us.length → (readStmt ws).Fails stuck →
      Viable (IsStmt frame) ws stuck)
    (stop : StopsInCond us stuck) : Viable (IsStmt frame) (k :: us) stuck := by
  have hempty := braces frame (Token.isPunctuator_sign "\x7b") (Token.isPunctuator_sign "\x7d")
  have test {l : Token} {vs : List Token} (hl : l.isPunctuator "(")
      (h : StopsClosed ")" vs stuck) : Viable (IsStmt frame) (k :: l :: vs) stuck := by
    have closed : Viable (Closed ")" (IsExpr frame)) vs stuck :=
      readExpr_viable_closing frame (by decide) h
    refine closed.wrap [k, l] ["\x7b", "\x7d"] rfl (by decide) ?_
    rintro xs ⟨inner, r, rfl, hr, e, he⟩
    exact ⟨_, by simp, _, .cond hk hl he hr hempty⟩
  rcases stop with hmiss | ⟨l, vs, rfl, hl, htest | ⟨e, mid, htest, hmiss |
    ⟨r, ws, rfl, hr, hyes | ⟨yes, mid', hyes, o, xs, rfl, ho, hno⟩⟩⟩⟩
  · have hopen := Token.isPunctuator_sign "("
    have hclose := Token.isPunctuator_sign ")"
    have whole : IsStmt frame ([k] ++ sign "(" :: word (Token.longName 0) ::
        [")", "\x7b", "\x7d"].map sign) :=
      ⟨_, .cond hk hopen (assignment_word frame _) hclose hempty⟩
    have spelled : (sign "(").Spelled := Token.spelled_sign (by decide)
    exact hmiss.viable _ (List.forall_mem_cons.mpr ⟨spelled, List.forall_mem_cons.mpr
      ⟨Token.spelled_longName 0, spelled_signs (by decide)⟩⟩) whole
  · exact test hl (.inl htest)
  · exact test hl (.inr ⟨_, _, htest, hmiss⟩)
  · have hlt := Nat.lt_of_succ_lt htest.shorter
    have inner := branch ws (Nat.lt_succ_of_lt hlt) hyes
    obtain ⟨used, rfl, hphrase, -⟩ := readExpr_sound frame htest
    refine inner.wrap (k :: l :: (used ++ [r])) [] (by simp) (by simp) ?_
    rintro xs ⟨yes, hyes⟩
    exact ⟨_, by simp, _, .cond hk hl hphrase hr hyes⟩
  · have hlt := (Nat.lt_of_succ_lt hyes.shorter).trans (Nat.lt_of_succ_lt htest.shorter)
    have inner := branch xs (Nat.lt_succ_of_lt hlt) hno
    obtain ⟨used, rfl, hphrase, -⟩ := readExpr_sound frame htest
    obtain ⟨⟨used', rfl, hphrase', -⟩, -, -⟩ := readStmt_sound frame hyes
    refine inner.wrap (k :: l :: (used ++ r :: (used' ++ [o]))) [] (by simp) (by simp) ?_
    rintro xs ⟨no, hno⟩
    exact ⟨_, by simp, _, .condElse hk hl hphrase hr hphrase' ho hno⟩

mutual

theorem readStmt_viable {ts : List Token} {stuck : Stuck} (h : (readStmt ts).Fails stuck) :
    Viable (IsStmt frame) ts stuck := by
  rcases readStmt_fails.mp h with
    ⟨-, ⟨-, ⟨-, ⟨-, stop⟩ | ⟨l, us, rfl, hl, hbody⟩⟩ | ⟨k, us, rfl, hk, stop⟩⟩ |
      ⟨k, us, rfl, hk, stop⟩⟩ | ⟨k, us, rfl, hk, stop⟩
  -- An expression.
  · refine (readExpr_viable_closing frame (by decide) stop).mono ?_
    rintro xs ⟨inner, z, rfl, hz, e, he⟩
    exact ⟨_, .expr he hz⟩
  -- A block.
  · refine (readBlock_viable hbody).wrap [l] [] rfl (by simp) ?_
    rintro xs ⟨inner, r, rfl, hr, body, hbody⟩
    exact ⟨_, by simp, _, .block hl hbody hr⟩
  -- A loop.
  · exact loop_viable frame hk (fun ws hlt hs => readStmt_viable hs) stop
  -- A conditional.
  · exact cond_viable frame hk (fun ws hlt hs => readStmt_viable hs) stop
  -- A return.
  · refine (readExpr_viable_closing frame (by decide) stop).wrap [k] [] rfl (by simp) ?_
    rintro xs ⟨inner, z, rfl, hz, e, he⟩
    exact ⟨_, by simp, _, .ret hk he hz⟩
termination_by (ts.length, 0)
decreasing_by
  · exact Prod.Lex.left _ _ (by subst_vars; simp only [List.length_cons]; omega)
  · exact Prod.Lex.left _ _ (by subst_vars; simp only [List.length_cons]; omega)
  · exact Prod.Lex.left _ _ (by subst_vars; simp only [List.length_cons]; omega)

theorem readBlock_viable {bound : Nat} {done : List Stmt} {ts : List Token} {stuck : Stuck}
    {hle : ts.length ≤ bound} (h : (readBlock done ts hle).Fails stuck) :
    Viable (Closed "\x7d" (IsBlock frame)) ts stuck := by
  obtain ⟨hnot, ⟨-, hend⟩ | ⟨-, hs | ⟨s, mid, hs, _, hmore⟩⟩⟩ := readBlock_fails.mp h
  · have missing : Misses "\x7d" ts stuck := ⟨hnot, hend⟩
    have nothing : IsBlock frame [] := ⟨_, .nil⟩
    exact missing.closing (by decide) nothing
  · have first : Viable (IsBlock frame) ts stuck := (readStmt_viable hs).mono fun xs ⟨s, hs⟩ => by
      have block := Statements.cons hs .nil
      rw [List.append_nil] at block
      exact ⟨_, block⟩
    exact first.closing (by decide)
  · have hlt := hs.shorter
    obtain ⟨⟨used, hts, hphrase, -⟩, -, -⟩ := readStmt_sound frame hs
    refine (readBlock_viable hmore).wrap used [] hts (by simp) ?_
    rintro xs ⟨inner, r, rfl, hr, body, hbody⟩
    exact ⟨used ++ inner ++ [r], by simp, _, r, rfl, hr, _, .cons hphrase hbody⟩
termination_by (ts.length, 1)
decreasing_by
  · exact Prod.Lex.right _ (Nat.lt_succ_self _)
  · exact Prod.Lex.left _ _ (by omega)

end

end Statements

/-! ## 5. Functions and programs -/

/-- The tokens are parameters with different names that are not in `done`. -/
def IsParameters (done : List String) (ts : List Token) : Prop :=
  ∃ names, Parameters ts names ∧ names.Nodup ∧ ∀ name ∈ names, name ∉ done

/-- The tokens are a function. -/
def IsFunction (ts : List Token) : Prop :=
  ∃ f, Definition ts f ∧ f.ParamsDistinct

/-- The tokens are a program. -/
def IsProgram (ts : List Token) : Prop :=
  ∃ p, Grammar.Program ts p ∧ ∀ f ∈ p, f.ParamsDistinct

/-- Where a parameter is missing, one with a name of its own can be added. -/
theorem viable_parameter (done : List String) {ts : List Token} {stuck : Stuck}
    (h : stuck.rest = ts) : Viable (Closed ")" (IsParameters done)) ts stuck := by
  obtain ⟨name, fresh, spelled⟩ := Token.exists_fresh done
  refine ⟨[], [word name, sign ")"], h.symm, ?_, [word name], sign ")", rfl,
    Token.isPunctuator_sign ")", [name], .last rfl rfl, List.nodup_singleton name, ?_⟩
  · exact List.forall_mem_cons.mpr ⟨spelled, List.forall_mem_singleton.mpr
      (Token.spelled_sign (by decide))⟩
  · exact List.forall_mem_singleton.mpr fresh

theorem readMoreParams_viable {bound : Nat} {done : List String} {ts : List Token} {stuck : Stuck}
    {hle : ts.length ≤ bound} (h : (readMoreParams done ts hle).Fails stuck) :
    Viable (Closed ")" (IsParameters done)) ts stuck := by
  rcases readMoreParams_fails.mp h with hname | ⟨name, mid, hname, ⟨-, rfl⟩ |
    ⟨hnew, ⟨-, hmiss⟩ | ⟨c, us, rfl, hc, _, hmore⟩⟩⟩
  · exact viable_parameter done (readIdentifier_rest hname)
  · exact viable_parameter done rfl
  · obtain ⟨t, rfl, hk, ht⟩ := readIdentifier_yields.mp hname
    have single : IsParameters done [t] :=
      ⟨[name], .last hk ht, List.nodup_singleton name, List.forall_mem_singleton.mpr hnew⟩
    exact hmiss.closing (by decide) single
  · obtain ⟨t, rfl, hk, ht⟩ := readIdentifier_yields.mp hname
    refine (readMoreParams_viable hmore).wrap [t, c] [] rfl (by simp) ?_
    rintro xs ⟨inner, r, rfl, hr, names, hnames, hnodup, hnot⟩
    refine ⟨t :: c :: inner ++ [r], by simp, _, r, rfl, hr, name :: names,
      .more hk ht hc hnames, ?_, ?_⟩
    · exact List.nodup_cons.mpr ⟨fun hmem => hnot name hmem List.mem_cons_self, hnodup⟩
    · exact List.forall_mem_cons.mpr
        ⟨hnew, fun x hx hmem => hnot x hx (List.mem_cons_of_mem _ hmem)⟩
termination_by ts.length
decreasing_by
  subst_vars
  simp only [List.length_cons]
  omega

/-- The parts of a function make up a function, with whatever frame its names demand. -/
theorem isFunction {t l r o c : Token} {name : String} {ps ts : List Token} {names : List String}
    (frame : Frame) (hk : t.kind = .ident) (ht : t.text = some name) (hl : l.isPunctuator "(")
    (hps : OptParameters ps names) (hnodup : names.Nodup) (hr : r.isPunctuator ")")
    (ho : o.isPunctuator "\x7b") (hbody : IsBlock frame ts) (hc : c.isPunctuator "\x7d") :
    IsFunction (t :: l :: (ps ++ r :: o :: (ts ++ [c]))) := by
  let whole := Frame.ofNames (names ++ variableNames ts)
  obtain ⟨_, hbody⟩ := hbody
  obtain ⟨body, hbody⟩ := hbody.exists_slot whole.offset
  refine ⟨_, .intro hk ht hl hps hr ho hbody hc rfl, ?_⟩
  rw [Function.ParamsDistinct, map_name_slots]
  exact hnodup

theorem readFunction_viable {ts : List Token} {stuck : Stuck} (h : (readFunction ts).Fails stuck) :
    Viable IsFunction ts stuck := by
  have hopen := Token.isPunctuator_sign "("
  have hclose := Token.isPunctuator_sign ")"
  have hleft := Token.isPunctuator_sign "\x7b"
  have hright := Token.isPunctuator_sign "\x7d"
  have hempty : IsBlock .empty [] := ⟨[], .nil⟩
  rcases readFunction_fails.mp h with hname | ⟨name, us, hname, hmiss | ⟨l, vs, rfl, hl, hparams |
    ⟨params, mid, hparams, hmiss | ⟨o, ws, rfl, ho, hbody⟩⟩⟩⟩
  · refine ⟨[], word (Token.longName 0) :: ["(", ")", "\x7b", "\x7d"].map sign,
      (readIdentifier_rest hname).symm, List.forall_mem_cons.mpr
        ⟨Token.spelled_longName 0, spelled_signs (by decide)⟩, ?_⟩
    exact isFunction .empty rfl rfl hopen .absent List.nodup_nil hclose hleft hempty hright
  · obtain ⟨t, rfl, hk, ht⟩ := readIdentifier_yields.mp hname
    have whole : IsFunction ([t] ++ ["(", ")", "\x7b", "\x7d"].map sign) :=
      isFunction .empty hk ht hopen .absent List.nodup_nil hclose hleft hempty hright
    exact hmiss.viable _ (spelled_signs (by decide)) whole
  · obtain ⟨t, rfl, hk, ht⟩ := readIdentifier_yields.mp hname
    refine (readMoreParams_viable (readParams_fails.mp hparams).2).wrap [t, l] ["\x7b", "\x7d"] rfl
      (by decide) ?_
    rintro xs ⟨ps, r, rfl, hr, names, hnames, hnodup, -⟩
    exact ⟨_, by simp, isFunction .empty hk ht hl (.present hnames) hnodup hr hleft hempty hright⟩
  · obtain ⟨t, rfl, hk, ht⟩ := readIdentifier_yields.mp hname
    obtain ⟨ps, r, rfl, hr, hps, hnodup⟩ := readParams_sound hparams
    have whole : IsFunction (t :: l :: (ps ++ [r]) ++ ["\x7b", "\x7d"].map sign) := by
      have f := isFunction .empty hk ht hl hps hnodup hr hleft hempty hright
      simpa using f
    have viable := hmiss.viable _ (spelled_signs (by decide)) whole
    simpa using viable
  · obtain ⟨t, rfl, hk, ht⟩ := readIdentifier_yields.mp hname
    obtain ⟨ps, r, rfl, hr, hps, hnodup⟩ := readParams_sound hparams
    refine (readBlock_viable .empty hbody).wrap (t :: l :: (ps ++ [r, o])) [] (by simp) (by simp) ?_
    rintro xs ⟨inner, c, rfl, hc, hblock⟩
    exact ⟨_, by simp, isFunction .empty hk ht hl hps hnodup hr ho hblock hc⟩

/-- What stands before the place at which reading stops is the beginning of a program. -/
theorem readFunctions_viable {done : List Function} {ts start : List Token} {stuck : Stuck}
    (h : (readFunctions done ts).halt = some (start, stuck)) : Viable IsProgram ts stuck := by
  rw [readFunctions] at h
  split at h
  · cases h
  · split at h
    · next heq =>
      cases h
      refine (readFunction_viable heq).mono fun xs ⟨f, hf, hdistinct⟩ => ?_
      have program := Grammar.Program.cons hf .nil
      rw [List.append_nil] at program
      exact ⟨_, program, List.forall_mem_singleton.mpr hdistinct⟩
    · next f rest hlt heq =>
      have hshorter : rest.length < ts.length := hlt
      obtain ⟨used, hts, hphrase, -, hdistinct⟩ := readFunction_sound ⟨hlt, heq⟩
      refine (readFunctions_viable h).wrap used [] hts (by simp) ?_
      rintro xs ⟨p, hp, hdistincts⟩
      exact ⟨_, by simp, _, .cons hphrase hp, List.forall_mem_cons.mpr ⟨hdistinct, hdistincts⟩⟩
termination_by ts.length
decreasing_by
  exact hshorter

end Surface

end StackCompiler
