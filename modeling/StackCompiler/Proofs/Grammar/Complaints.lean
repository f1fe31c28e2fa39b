import StackCompiler.Proofs.Grammar.Failing
import StackCompiler.Proofs.Printing

/-!
# What the readers complain about

Wherever a reader stops, it complains of one of three things: a bracket, a semicolon, a number or an
identifier was wanted where something else stands, a number has no value, or the parameter that
stands there repeats another one (`readFunctions_complaint`). What it says then, it says of the
token at which it stops (`Complaint.quotes`).
-/

namespace StackCompiler

/-- What the grammar can want: a bracket or a semicolon, a number, or an identifier. -/
inductive Wanted.Usual : Wanted → Prop
  | punctuator {s : String} : s ∈ Token.brackets → Usual (.punctuator s)
  | number : Usual .number
  | identifier : Usual .identifier

/-- What the fault says of the source, it says of this token: its text is the name that is
complained about, or what was found in place of something else. A lexical fault is about no
token. -/
def Fault.Quotes (t : Token) : Fault → Prop
  | .reservedName name | .redefinition name | .duplicateParameter name => t.text = some name
  | .unexpected wanted found => wanted.Usual ∧ Token.describe (some t) = some found
  | .tornToken | .numberWithoutValue | .tooManyParameters _ | .tooManyArguments _ | .notAssignable
  | .labelsExhausted => True
  | .numberTooLarge | .strayCharacter _ => False

namespace Surface

/-- What a reader can complain about where it stops. -/
inductive Complaint : Stuck → Prop
  | wanting {wanted : Wanted} {ts : List Token} : wanted.Usual → Complaint (.wanting wanted ts)
  | valueless {ts : List Token} : Complaint ⟨.numberWithoutValue, ts⟩
  | repeated {name : String} {t : Token} {ts : List Token} :
      t.text = some name → Complaint ⟨.duplicateParameter name, t :: ts⟩

variable {ts : List Token} {stuck : Stuck} {ending : String} {bound : Nat}

theorem Misses.complaint (h : Misses ending ts stuck)
    (usual : ending ∈ Token.brackets) : Complaint stuck := by
  rw [← h.2]
  exact .wanting (.punctuator usual)

theorem readIdentifier_complaint (h : (readIdentifier ts).Fails stuck) : Complaint stuck := by
  rw [← (readIdentifier_fails.mp h).2]
  exact .wanting .identifier

theorem complaint_atPrimary (ts : List Token) : Complaint (.atPrimary ts) := by
  unfold Stuck.atPrimary
  split
  · exact .wanting .number
  · split
    · exact .valueless
    · exact .wanting .number

/-! ## 1. Expressions and statements -/

mutual

theorem readExpr_complaint {ts : List Token} (h : (readExpr ts).Fails stuck) :
    Complaint stuck := by
  rcases readExpr_fails.mp h with h | ⟨a, mid, ha, eq, us, rfl, -, hb⟩
  · exact readLevel_complaint h
  · have hlt := ha.shorter
    exact readLevel_complaint hb
termination_by (ts.length, maxLevel + 2)
decreasing_by
  · exact Prod.Lex.right _ (Nat.lt_succ_self _)
  · exact Prod.Lex.left _ _ (Nat.lt_of_succ_lt hlt)

theorem readLevel_complaint {n : Nat} {ts : List Token} (h : (readLevel n ts).Fails stuck) :
    Complaint stuck := by
  match n with
  | 0 =>
    rcases readLevel_zero_fails.mp h with
      ⟨-, ⟨-, h⟩ | ⟨t, us, rfl, -, h⟩⟩ | ⟨t, us, rfl, -, h⟩
    · exact readPrimary_complaint h
    · exact readLevel_complaint h
    · exact readLevel_complaint h
  | n + 1 =>
    rcases readLevel_succ_fails.mp h with h | ⟨a, mid, ha, hlt, hchain⟩
    · exact readLevel_complaint h
    · exact readChain_complaint hchain
termination_by (ts.length, n + 1)
decreasing_by
  · exact Prod.Lex.right _ (Nat.lt_succ_self _)
  · exact Prod.Lex.left _ _ (by subst_vars; exact Nat.lt_succ_self _)
  · exact Prod.Lex.left _ _ (by subst_vars; exact Nat.lt_succ_self _)
  · exact Prod.Lex.right _ (Nat.lt_succ_self _)
  · exact Prod.Lex.left _ _ hlt

theorem readChain_complaint {n bound : Nat} {a : Expr} {ts : List Token} {hlt : ts.length < bound}
    (h : (readChain n a ts hlt).Fails stuck) : Complaint stuck := by
  obtain ⟨op, t, us, rfl, -, -, hb | ⟨b, mid, hb, _, hmore⟩⟩ := readChain_fails.mp h
  · exact readLevel_complaint hb
  · have hshorter := hb.shorter
    exact readChain_complaint hmore
termination_by (ts.length, 0)
decreasing_by
  · exact Prod.Lex.left _ _ (by subst_vars; exact Nat.lt_succ_self _)
  · exact Prod.Lex.left _ _ (by subst_vars; exact Nat.lt_succ_of_lt hshorter)

theorem readPrimary_complaint {ts : List Token} (h : (readPrimary ts).Fails stuck) :
    Complaint stuck := by
  rcases readPrimary_fails.mp h with
    ⟨-, ⟨-, rfl⟩ | ⟨t, us, rfl, name, -, -, l, vs, rfl, -, hargs⟩⟩ | ⟨l, us, rfl, -, h⟩
  · exact complaint_atPrimary ts
  · exact readArgs_complaint hargs
  · rcases h with h | ⟨a, mid, -, hmiss⟩
    · exact readExpr_complaint h
    · exact hmiss.complaint (by decide)
termination_by (ts.length, 0)
decreasing_by
  · exact Prod.Lex.left _ _ (by subst_vars; exact Nat.lt_succ_of_lt (Nat.lt_succ_self _))
  · exact Prod.Lex.left _ _ (by subst_vars; exact Nat.lt_succ_self _)

theorem readArgs_complaint {ts : List Token} (h : (readArgs ts).Fails stuck) : Complaint stuck :=
  readMoreArgs_complaint (readArgs_fails.mp h).2
termination_by (ts.length, maxLevel + 4)
decreasing_by
  exact Prod.Lex.right _ (Nat.lt_succ_self _)

theorem readMoreArgs_complaint {bound : Nat} {done : List Expr} {ts : List Token}
    {hle : ts.length ≤ bound} (h : (readMoreArgs done ts hle).Fails stuck) : Complaint stuck := by
  rcases readMoreArgs_fails.mp h with h | ⟨a, mid, ha, ⟨-, hmiss⟩ | ⟨c, us, rfl, -, _, hmore⟩⟩
  · exact readExpr_complaint h
  · exact hmiss.complaint (by decide)
  · have hlt := ha.shorter
    exact readMoreArgs_complaint hmore
termination_by (ts.length, maxLevel + 3)
decreasing_by
  · exact Prod.Lex.right _ (Nat.lt_succ_self _)
  · exact Prod.Lex.left _ _ (Nat.lt_of_succ_lt hlt)

end

theorem StopsClosed.complaint (h : StopsClosed ending ts stuck)
    (usual : ending ∈ Token.brackets) : Complaint stuck := by
  rcases h with h | ⟨a, mid, -, hmiss⟩
  · exact readExpr_complaint h
  · exact hmiss.complaint usual

theorem readClause_complaint (h : (readClause ending ts).Fails stuck)
    (usual : ending ∈ Token.brackets) : Complaint stuck :=
  (readClause_fails.mp h).2.complaint usual

mutual

theorem readStmt_complaint {ts : List Token} (h : (readStmt ts).Fails stuck) :
    Complaint stuck := by
  rcases readStmt_fails.mp h with
    ⟨-, ⟨-, ⟨-, ⟨-, stop⟩ | ⟨l, us, rfl, -, hbody⟩⟩ | ⟨k, us, rfl, -, stop⟩⟩ |
      ⟨k, us, rfl, -, stop⟩⟩ | ⟨k, us, rfl, -, stop⟩
  -- An expression.
  · exact stop.complaint (by decide)
  -- A block.
  · exact readBlock_complaint hbody
  -- A loop.
  · rcases stop with hmiss | ⟨l, vs, rfl, -, hstart | ⟨start, mid, hstart, htest |
      ⟨test, mid', htest, hnext | ⟨next, mid'', hnext, hbody⟩⟩⟩⟩
    · exact hmiss.complaint (by decide)
    · exact readClause_complaint hstart (by decide)
    · exact readClause_complaint htest (by decide)
    · exact readClause_complaint hnext (by decide)
    · have hlt := hnext.shorter.trans (htest.shorter.trans hstart.shorter)
      exact readStmt_complaint hbody
  -- A conditional.
  · rcases stop with hmiss | ⟨l, vs, rfl, -, htest | ⟨e, mid, htest, hmiss |
      ⟨r, ws, rfl, -, hyes | ⟨yes, mid', hyes, o, xs, rfl, -, hno⟩⟩⟩⟩
    · exact hmiss.complaint (by decide)
    · exact readExpr_complaint htest
    · exact hmiss.complaint (by decide)
    · have hlt := Nat.lt_of_succ_lt htest.shorter
      exact readStmt_complaint hyes
    · have hlt := (Nat.lt_of_succ_lt hyes.shorter).trans (Nat.lt_of_succ_lt htest.shorter)
      exact readStmt_complaint hno
  -- A return.
  · exact stop.complaint (by decide)
termination_by (ts.length, 0)
decreasing_by
  all_goals
    refine Prod.Lex.left _ _ ?_
    subst_vars
    simp only [List.length_cons] at *
    omega

theorem readBlock_complaint {bound : Nat} {done : List Stmt} {ts : List Token}
    {hle : ts.length ≤ bound} (h : (readBlock done ts hle).Fails stuck) : Complaint stuck := by
  obtain ⟨hnot, ⟨-, rfl⟩ | ⟨-, hs | ⟨s, mid, hs, _, hmore⟩⟩⟩ := readBlock_fails.mp h
  · exact .wanting (.punctuator (by decide))
  · exact readStmt_complaint hs
  · have hlt := hs.shorter
    exact readBlock_complaint hmore
termination_by (ts.length, 1)
decreasing_by
  · exact Prod.Lex.right _ (Nat.lt_succ_self _)
  · exact Prod.Lex.left _ _ hlt

end

/-! ## 2. Functions and programs -/

theorem readMoreParams_complaint {bound : Nat} {done : List String} {ts : List Token}
    {hle : ts.length ≤ bound} (h : (readMoreParams done ts hle).Fails stuck) :
    Complaint stuck := by
  rcases readMoreParams_fails.mp h with hname | ⟨name, mid, hname, ⟨-, rfl⟩ |
    ⟨-, ⟨-, hmiss⟩ | ⟨c, us, rfl, -, _, hmore⟩⟩⟩
  · exact readIdentifier_complaint hname
  · obtain ⟨t, rfl, -, text⟩ := readIdentifier_yields.mp hname
    exact .repeated text
  · exact hmiss.complaint (by decide)
  · have hlt := hname.shorter
    exact readMoreParams_complaint hmore
termination_by ts.length
decreasing_by
  exact Nat.lt_of_succ_lt hlt

theorem readFunction_complaint (h : (readFunction ts).Fails stuck) : Complaint stuck := by
  rcases readFunction_fails.mp h with hname | ⟨name, us, -, hmiss | ⟨l, vs, rfl, -, hparams |
    ⟨params, mid, -, hmiss | ⟨o, ws, rfl, -, hbody⟩⟩⟩⟩
  · exact readIdentifier_complaint hname
  · exact hmiss.complaint (by decide)
  · exact readMoreParams_complaint (readParams_fails.mp hparams).2
  · exact hmiss.complaint (by decide)
  · exact readBlock_complaint hbody

/-- What reading a program stops for. -/
theorem readFunctions_complaint {done : List Function} {ts start : List Token}
    (h : (readFunctions done ts).halt = some (start, stuck)) : Complaint stuck := by
  rw [readFunctions] at h
  split at h
  · cases h
  · split at h
    · next heq =>
      cases h
      exact readFunction_complaint heq
    · next f rest hlt heq =>
      have hshorter : rest.length < ts.length := hlt
      exact readFunctions_complaint h
termination_by ts.length
decreasing_by
  exact hshorter

/-- A reader that stops at a token complains of that token. -/
theorem Complaint.quotes {t : Token} (h : Complaint stuck) (rest : stuck.rest = t :: ts) :
    stuck.fault.Quotes t := by
  cases h with
  | @wanting wanted us usual =>
    rw [wanting_rest] at rest
    subst rest
    unfold Stuck.wanting
    split
    · next found named => exact ⟨usual, named⟩
    · trivial
  | valueless => trivial
  | repeated text =>
    cases rest
    exact text

end Surface

end StackCompiler
