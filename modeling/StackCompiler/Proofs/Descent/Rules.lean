import Mathlib
import StackCompiler.Proofs.Descent

/-!
# Calls follow the readers

One lemma for each rule says that a call of it does what its reader does, provided that the calls
which it makes in turn do so (`CallsFollow`). The budget that a call needs is told by the tokens
that are left and by the rank of its rule: a call that is made before any token was passed is one of
a rule of lower rank, and every token that was passed makes up for all ranks.

Main statement: within a budget calls follow the readers (`run_follows`).
-/

namespace StackCompiler

namespace Surface

open Grammar (Leads)

/-! ## 1. Readers of rules -/

/-- An expression with a semicolon behind it. -/
def readExprStmt (ts : List Token) : Outcome Stmt ts.length := do
  let e ← readExpr ts
  let ending ← readPunctuator ";" e.rest
  return ⟨.expr e.value, ending.rest, ending.shorter.trans e.shorter⟩

/-- The functions up to the end, behind the functions `done`, with the tokens from there on. -/
def readOn {bound : Nat} (done : List Function) (ts : List Token) (shorter : ts.length < bound) :
    Outcome (List Function) bound :=
  if atEnd ts then .ok ⟨done.reverse, ts, shorter⟩
  else do
    let ⟨f, rest, _⟩ ← readFunction ts
    readOn (f :: done) rest (by omega)
termination_by ts.length

/-- `rule.Reads ts o`: the outcome of reading by the rule from the tokens `ts` is `o`, behind any
trees that were read before. -/
inductive Rule.Reads : Rule → List Token → {α : Type} → {bound : Nat} → Outcome α bound → Prop
  | program {done : List Function} {ts : List Token} {bound : Nat} {h : ts.length < bound} :
      Reads .program ts (readOn done ts h)
  | function {ts : List Token} : Reads .function ts (readFunction ts)
  | params {done : List String} {ts : List Token} {bound : Nat} {h : ts.length ≤ bound} :
      Reads (.params done) ts (readMoreParams done ts h)
  | block {done : List Stmt} {ts : List Token} {bound : Nat} {h : ts.length ≤ bound} :
      Reads .block ts (readBlock done ts h)
  | stmt {ts : List Token} : Reads .stmt ts (readStmt ts)
  | clause {ending : String} {ts : List Token} : Reads (.clause ending) ts (readClause ending ts)
  | exprStmt {ts : List Token} : Reads .exprStmt ts (readExprStmt ts)
  | expr {ts : List Token} : Reads .expr ts (readExpr ts)
  | assignment {ts : List Token} : Reads .assignment ts (readExpr ts)
  | level {n : Fin (maxLevel + 1)} {ts : List Token} : Reads (.level n) ts (readLevel n ts)
  | chain {n : Fin maxLevel} {e : Expr} {ts : List Token} {bound : Nat} {h : ts.length < bound} :
      Reads (.chain n) ts (readChain n e ts h)
  | primary {ts : List Token} : Reads .primary ts (readPrimary ts)
  | args {ts : List Token} : Reads .args ts (readArgs ts)
  | moreArgs {done : List Expr} {ts : List Token} {bound : Nat} {h : ts.length ≤ bound} :
      Reads .moreArgs ts (readMoreArgs done ts h)

/-- How many calls of the rule and of those under it there can be before a token is passed. -/
def Rule.rank : Rule → Nat
  | .function | .params _ | .chain _ | .primary => 1
  | .program => 2
  | .level n => n + 2
  | .assignment => 7
  | .expr | .moreArgs => 8
  | .clause _ | .exprStmt | .args => 9
  | .stmt => 10
  | .block => 11

/-- How many calls a rule at least saves of the twelve that each token is good for. Only the loops
that may pass no token at all need one more. -/
def Rule.spare : Rule → Int
  | .params _ | .block | .clause _ | .expr | .args => 0
  | .function | .stmt | .assignment | .moreArgs => 1
  | .exprStmt => 2
  | .level n => 10 - 2 * n
  | .primary => 11
  | .chain _ | .program => -1

/-- A budget suffices for the calls of a rule of this rank at a position. -/
def Suffices (tokens : List Token) (budget rank pos : Nat) : Prop :=
  rank + 12 * (tokens.length - pos) ≤ budget

/-- Wherever the budget suffices, calls follow the readers. -/
def CallsFollow (tokens : List Token) (budget : Nat) (call : Rule → Nat → Descent Nat) : Prop :=
  ∀ {rule : Rule} {pos : Nat}, pos ≤ tokens.length → Suffices tokens budget rule.rank pos →
    ∀ {α : Type} {bound : Nat} {o : Outcome α bound}, rule.Reads (tokens.drop pos) o →
      Follows tokens pos rule.spare rule.rank (call rule pos) o

section Calls

variable {tokens : List Token} {budget rank pos q : Nat} {call : Rule → Nat → Descent Nat}
  {rule : Rule} {s : Int} {r : Nat} {α : Type} {bound : Nat} {o : Outcome α bound}

/-- A rule calls rules of lower rank at its own position. -/
theorem CallsFollow.under (calls : CallsFollow tokens budget call)
    (reads : rule.Reads (tokens.drop pos) o) (inside : pos ≤ tokens.length)
    (enough : Suffices tokens (budget + 1) rank pos) (lower : r < rank) (spare : rule.spare = s)
    (ranked : rule.rank = r) : Follows tokens pos s r (call rule pos) o := by
  subst spare ranked
  refine calls inside ?_ reads
  unfold Suffices at *
  omega

theorem Rule.rank_lt (rule : Rule) : rule.rank < 12 := by
  cases rule with
  | level n => exact Nat.add_lt_add_right (n.isLt.trans (by decide)) 2
  | _ => simp [rank]

theorem Rule.rank_pos (rule : Rule) : 0 < rule.rank := by
  cases rule <;> simp [rank]

/-- A rule calls any rules further on. -/
theorem CallsFollow.later (calls : CallsFollow tokens budget call)
    (reads : rule.Reads (tokens.drop q) o) (inside : q ≤ tokens.length)
    (enough : Suffices tokens (budget + 1) rank pos) (lt : pos < q) (spare : rule.spare = s)
    (ranked : rule.rank = r) : Follows tokens q s r (call rule q) o := by
  subst spare ranked
  refine calls inside ?_ reads
  have := rule.rank_lt
  unfold Suffices at *
  omega

end Calls

/-! ## 2. Tokens at a position -/

section Tokens

variable {tokens : List Token} {pos q : Nat} {s : Int} {r : Nat}

theorem stuck_wanting (wanted : Wanted) (pos : Nat) :
    (Stop.wanting wanted pos tokens[pos]?).stuck tokens = .wanting wanted (tokens.drop pos) := by
  unfold Stop.wanting Stuck.wanting
  rw [List.head?_drop]
  cases Token.describe tokens[pos]? <;> rfl

theorem pos_wanting (wanted : Wanted) (pos : Nat) (t : Option Token) :
    (Stop.wanting wanted pos t).pos = pos := by
  unfold Stop.wanting
  split <;> rfl

/-- Where all tokens are whole, that which was found in place of another token can be named. -/
theorem told_wanting (whole : ∀ t ∈ tokens, t.text ≠ none) (wanted : Wanted) (pos : Nat) :
    (Stop.wanting wanted pos tokens[pos]?).Told tokens := by
  cases described : Token.describe tokens[pos]? with
  | some found =>
    unfold Stop.wanting
    rw [described]
    exact .unexpected described
  | none =>
    cases at_pos : tokens[pos]? with
    | none =>
      rw [at_pos] at described
      cases described
    | some t =>
      rw [at_pos, Token.describe] at described
      split at described
      · cases described
      · exact absurd described (whole t (List.mem_of_getElem? at_pos))

theorem Follows.wanted {α : Type} {bound : Nat} {o : Outcome α bound} {wanted : Wanted}
    (whole : ∀ t ∈ tokens, t.text ≠ none) (inside : pos ≤ tokens.length)
    (fails : o.Fails (.wanting wanted (tokens.drop pos))) :
    Follows tokens pos s r (refuse (look tokens) wanted pos) o := by
  refine .looked (.stop ?_ ?_ (told_wanting whole wanted pos))
  · rwa [stuck_wanting]
  · rw [pos_wanting]
    exact .refl inside

theorem stands_iff {p : Token → Bool} :
    stands p tokens[pos]? = true ↔ ∃ t, tokens[pos]? = some t ∧ p t := by
  unfold stands
  cases tokens[pos]? <;> simp

theorem after?_drop {p : Token → Bool} (h : stands p tokens[pos]?) :
    ∃ lt, after? p (tokens.drop pos) = some ⟨tokens.drop (pos + 1), lt⟩ := by
  obtain ⟨t, at_pos, hp⟩ := stands_iff.mp h
  rw [drop_eq_cons at_pos]
  exact ⟨_, after?_cons hp⟩

theorem after?_drop_eq_none {p : Token → Bool} (h : ¬ stands p tokens[pos]?) :
    after? p (tokens.drop pos) = none := by
  refine after?_eq_none fun t us split hp => h (stands_iff.mpr ⟨t, ?_, hp⟩)
  rw [← List.head?_drop, split]
  rfl

/-- A token with a property that no end marker has is found and passed where it stands, and is
missed elsewhere. -/
theorem after_cases {p : Token → Bool} (other : ∀ t, p t → t.kind ≠ .eof) (pos : Nat) :
    (stands p tokens[pos]? ∧ Passes tokens pos (pos + 1) ∧
        ∃ lt, after? p (tokens.drop pos) = some ⟨tokens.drop (pos + 1), lt⟩) ∨
      ¬ stands p tokens[pos]? ∧ after? p (tokens.drop pos) = none := by
  by_cases here : stands p tokens[pos]?
  · obtain ⟨t, at_pos, hp⟩ := stands_iff.mp here
    exact .inl ⟨here, .next at_pos (other t hp), after?_drop here⟩
  · exact .inr ⟨here, after?_drop_eq_none here⟩

theorem punctuator_cases (s : String) (pos : Nat) :
    (stands (·.isPunctuator s) tokens[pos]? ∧ Passes tokens pos (pos + 1) ∧
        ∃ lt, punctuator? s (tokens.drop pos) = some ⟨tokens.drop (pos + 1), lt⟩) ∨
      ¬ stands (·.isPunctuator s) tokens[pos]? ∧ punctuator? s (tokens.drop pos) = none := by
  refine after_cases (fun t ht => ?_) pos
  rw [(Token.isPunctuator_iff.mp ht).1]
  decide

theorem keyword_cases (s : String) (pos : Nat) :
    (stands (·.isKeyword s) tokens[pos]? ∧ Passes tokens pos (pos + 1) ∧
        ∃ lt, keyword? s (tokens.drop pos) = some ⟨tokens.drop (pos + 1), lt⟩) ∨
      ¬ stands (·.isKeyword s) tokens[pos]? ∧ keyword? s (tokens.drop pos) = none := by
  refine after_cases (fun t ht => ?_) pos
  rw [(Token.isKeyword_iff.mp ht).1]
  decide

/-- An operator that stands at a position is found and passed, and is missed elsewhere. -/
theorem operator_cases (level : Nat) (pos : Nat) :
    (standsOperator level tokens[pos]? ∧ Passes tokens pos (pos + 1) ∧
        ∃ op lt, operator? level (tokens.drop pos) = some (op, ⟨tokens.drop (pos + 1), lt⟩)) ∨
      ¬ standsOperator level tokens[pos]? ∧ operator? level (tokens.drop pos) = none := by
  by_cases here : standsOperator level tokens[pos]?
  · obtain ⟨t, at_pos, hp⟩ := stands_iff.mp here
    obtain ⟨kind, known⟩ := Bool.and_eq_true_iff.mp hp
    have kind : t.kind = .punctuator := beq_iff_eq.mp kind
    have other : t.kind ≠ .eof := by rw [kind]; decide
    obtain ⟨op, known⟩ := Option.isSome_iff_exists.mp known
    refine .inl ⟨here, .next at_pos other, op, ?_⟩
    rw [drop_eq_cons at_pos, operator?, if_pos kind, known]
    exact ⟨_, rfl⟩
  · refine .inr ⟨here, ?_⟩
    cases found : operator? level (tokens.drop pos) with
    | none => rfl
    | some result =>
      obtain ⟨op, us, lt⟩ := result
      obtain ⟨t, split, hp, rfl⟩ := operator?_eq_some.mp found
      obtain ⟨kind, text⟩ := Token.isPunctuator_iff.mp hp
      refine absurd (stands_iff.mpr ⟨t, ?_, ?_⟩) here
      · rw [← List.head?_drop, split]
        rfl
      · rw [kind, text, Option.bind_some, Op.ofSpelling?_eq_some.mpr ⟨rfl, rfl⟩]
        rfl

/-- A name that stands at a position is read and passed, and is wanted elsewhere. -/
theorem name_cases (tokens : List Token) (pos : Nat) :
    (∃ t name, named? tokens[pos]? = some name ∧ Passes tokens pos (pos + 1) ∧
        tokens[pos]? = some t ∧ t.kind = .ident ∧ t.text = some name) ∨
      named? tokens[pos]? = none ∧
        ¬ ∃ t us name, tokens.drop pos = t :: us ∧ t.kind = .ident ∧ t.text = some name := by
  cases at_pos : named? tokens[pos]? with
  | some name =>
    obtain ⟨t, at_pos, named⟩ := Option.bind_eq_some_iff.mp at_pos
    split at named
    · next kind =>
      have other : t.kind ≠ .eof := by rw [kind]; decide
      exact .inl ⟨t, name, rfl, .next at_pos other, at_pos, kind, named⟩
    · cases named
  | none =>
    refine .inr ⟨rfl, ?_⟩
    rintro ⟨t, us, name, split, kind, text⟩
    have here : tokens[pos]? = some t := by rw [← List.head?_drop, split]; rfl
    rw [named?, here, Option.bind_some, if_pos kind, text] at at_pos
    cases at_pos

theorem fails_identifier {ts : List Token}
    (other : ¬ ∃ t us name, ts = t :: us ∧ t.kind = .ident ∧ t.text = some name) :
    (readIdentifier ts).Fails (.wanting .identifier ts) :=
  readIdentifier_fails.mpr ⟨other, rfl⟩

theorem isEnd_eq (pos : Nat) : isEnd tokens[pos]? = atEnd (tokens.drop pos) := by
  unfold isEnd
  rw [← List.head?_drop]
  cases tokens.drop pos <;> rfl

theorem follows_skip (whole : ∀ t ∈ tokens, t.text ≠ none) (inside : pos ≤ tokens.length)
    (s : String) :
    Follows tokens pos 12 0 (skip (look tokens) s pos) (readPunctuator s (tokens.drop pos)) := by
  unfold skip
  rw [readPunctuator]
  refine .looked ?_
  rcases punctuator_cases s pos with ⟨here, passes, lt, found⟩ | ⟨missing, none⟩
  · rw [if_pos here, found]
    exact .pass ⟨lt, rfl⟩ passes (by decide)
  · rw [if_neg missing, none]
    exact .wanted whole inside rfl

/-- A number is read, and is wanted in place of anything else that is no primary expression. -/
theorem follows_number (whole : ∀ t ∈ tokens, t.text ≠ none) (inside : pos ≤ tokens.length)
    (missing : ¬ Leads "(" (tokens.drop pos))
    (other : ¬ ∃ t us name, tokens.drop pos = t :: us ∧ t.kind = .ident ∧ t.text = some name) :
    Follows tokens pos 12 0
      (match tokens[pos]?.map Token.kind with
        | some (.num (some _)) => pure (pos + 1)
        | some (.num none) => throw ⟨.numberWithoutValue, pos⟩
        | some .ident | some .punctuator | some .keyword | some .eof | none =>
          refuse (look tokens) .number pos)
      (readPrimary (tokens.drop pos)) := by
  have fails (noValue : ¬ ∃ t us value, tokens.drop pos = t :: us ∧ t.kind = .num (some value)) :
      (readPrimary (tokens.drop pos)).Fails (.atPrimary (tokens.drop pos)) := by
    refine readPrimary_fails.mpr (.inl ⟨missing, .inl ⟨?_, rfl⟩⟩)
    rintro ⟨t, us, split, ⟨name, kind, text⟩ | ⟨value, kind⟩⟩
    · exact other ⟨t, us, name, split, kind, text⟩
    · exact noValue ⟨t, us, value, split, kind⟩
  cases at_pos : tokens[pos]? with
  | none =>
    have split : tokens.drop pos = [] :=
      List.drop_eq_nil_of_le (List.getElem?_eq_none_iff.mp at_pos)
    rw [split] at fails
    refine .wanted whole inside ?_
    rw [split]
    exact fails (by rintro ⟨_, _, _, h, -⟩; cases h)
  | some t =>
    have split := drop_eq_cons at_pos
    have only {u : Token} {us : List Token} (h : tokens.drop pos = u :: us) : t = u :=
      (List.cons.inj (split.symm.trans h)).1
    obtain ⟨kind, loc, text⟩ := t
    cases kind with
    | num value =>
      cases value with
      | some value =>
        have yields : (readPrimary (tokens.drop pos)).Yields (.num value) (tokens.drop (pos + 1)) :=
          readPrimary_yields.mpr (.inl ⟨missing, _, _, split, .inr ⟨value, rfl, rfl, rfl⟩⟩)
        exact .pass yields (.next at_pos nofun) (by decide)
      | none =>
        refine .stop ?_ (.refl inside) (.valueless at_pos rfl)
        have stuck := fails (by rintro ⟨u, us, value, h, kind⟩; cases only h; cases kind)
        rw [Stop.stuck, split]
        rwa [split] at stuck
    | ident | punctuator | keyword | eof =>
      refine .wanted whole inside ?_
      have stuck := fails (by rintro ⟨u, us, value, h, kind⟩; cases only h; cases kind)
      rwa [split] at stuck ⊢

end Tokens

/-! ## 3. Rules of expressions -/

section Calls

variable {tokens : List Token} {budget : Nat} {call : Rule → Nat → Descent Nat} {pos : Nat}
  (whole : ∀ t ∈ tokens, t.text ≠ none) (calls : CallsFollow tokens budget call)
  (inside : pos ≤ tokens.length)

include calls inside

theorem follows_assignment (enough : Suffices tokens (budget + 1) 7 pos) :
    Follows tokens pos 2 6 (step (look tokens) call .assignment pos)
      (readExpr (tokens.drop pos)) := by
  rw [step, readExpr]
  refine .looked ?_
  have left : Follows tokens pos 2 6 (call (.level (Fin.last maxLevel)) pos)
      (readLevel maxLevel (tokens.drop pos)) :=
    calls.under .level inside enough (by decide) rfl rfl
  refine left.bind (c := 0) (d := 0) (fun q v lt le inside => ?_) (by decide)
  dsimp only
  refine .looked ?_
  rcases punctuator_cases "=" q with ⟨here, passed, _, found⟩ | ⟨missing, none⟩
  · rw [if_pos here, found]
    have right : Follows tokens (q + 1) 2 6 (call (.level (Fin.last maxLevel)) (q + 1))
        (readLevel maxLevel (tokens.drop (q + 1))) :=
      calls.later .level passed.inside enough (Nat.lt_succ_of_le le) rfl rfl
    exact (right.next passed (by decide)).wrap fun _ _ _ => ⟨_, _, rfl⟩
  · rw [if_neg missing, none]
    exact .stay ⟨_, rfl⟩ inside (by decide)

theorem follows_expr (enough : Suffices tokens (budget + 1) 8 pos) :
    Follows tokens pos 1 7 (step (look tokens) call .expr pos) (readExpr (tokens.drop pos)) :=
  calls.under .assignment inside enough (by decide) rfl rfl

theorem follows_level_zero (h : 0 < maxLevel + 1) (enough : Suffices tokens (budget + 1) 2 pos) :
    Follows tokens pos 11 1 (step (look tokens) call (.level ⟨0, h⟩) pos)
      (readLevel 0 (tokens.drop pos)) := by
  rw [step, readLevel]
  have signed {pos' : Nat} (inside : pos' ≤ tokens.length) (lt : pos < pos') :
      Follows tokens pos' 10 2 (call (.level ⟨0, h⟩) pos') (readLevel 0 (tokens.drop pos')) :=
    calls.later .level inside enough lt rfl rfl
  refine .looked ?_
  rcases punctuator_cases "+" pos with ⟨here, passed, _, found⟩ | ⟨missing, none⟩
  · rw [if_pos here, found]
    exact ((signed passed.inside (Nat.lt_succ_self _)).next passed (by decide)).wrap
      fun _ _ _ => ⟨_, _, rfl⟩
  rw [if_neg missing, none]
  dsimp only
  refine .looked ?_
  rcases punctuator_cases "-" pos with ⟨here, passed, _, found⟩ | ⟨missing, none⟩
  · rw [if_pos here, found]
    exact ((signed passed.inside (Nat.lt_succ_self _)).next passed (by decide)).wrap
      fun _ _ _ => ⟨_, _, rfl⟩
  · rw [if_neg missing, none]
    exact calls.under .primary inside enough (by decide) rfl rfl

theorem follows_level_succ {n : Nat} (h : n + 1 < maxLevel + 1)
    (enough : Suffices tokens (budget + 1) (n + 1 + 2) pos) :
    Follows tokens pos (10 - 2 * (n + 1 : Nat) + 1) (n + 2)
      (step (look tokens) call (.level ⟨n + 1, h⟩) pos) (readLevel (n + 1) (tokens.drop pos)) := by
  rw [step, readLevel]
  have first : Follows tokens pos (10 - 2 * n) (n + 2)
      (call (.level ⟨n, Nat.lt_of_succ_lt h⟩) pos) (readLevel n (tokens.drop pos)) :=
    calls.under .level inside enough (Nat.lt_succ_self _) rfl rfl
  have small : n < 4 := Nat.lt_of_succ_lt_succ h
  refine first.bind (c := -1) (d := 1) (fun q v lt le inside => ?_) (by omega)
  exact calls.later .chain inside enough (lt_of_length_drop lt) rfl rfl

theorem follows_chain {n : Fin maxLevel} {e : Expr} {bound : Nat}
    {lt : (tokens.drop pos).length < bound} (enough : Suffices tokens (budget + 1) 1 pos) :
    Follows tokens pos 0 0 (step (look tokens) call (.chain n) pos)
      (readChain n e (tokens.drop pos) lt) := by
  rw [step, readChain]
  refine .looked ?_
  rcases operator_cases (n + 1) pos with ⟨here, passed, op, _, found⟩ | ⟨missing, none⟩
  · rw [if_pos here, found]
    have right : Follows tokens (pos + 1) (10 - 2 * n) (n + 2) (call (.level n.castSucc) (pos + 1))
        (readLevel n (tokens.drop (pos + 1))) :=
      calls.later (.level (n := n.castSucc)) passed.inside enough (Nat.lt_succ_self _) rfl rfl
    have small : (n : Nat) < 4 := n.isLt
    refine Follows.next (a := 0) (b := 6) ?_ passed (by decide)
    refine right.bind (c := -1) (d := 1) (fun q v lt le inside => ?_) (by omega)
    exact calls.later .chain inside enough (Nat.lt_of_succ_le le) rfl rfl
  · rw [if_neg missing, none]
    exact .stay ⟨_, rfl⟩ inside (by decide)

theorem follows_args (enough : Suffices tokens (budget + 1) 9 pos) :
    Follows tokens pos 1 8 (step (look tokens) call .args pos) (readArgs (tokens.drop pos)) := by
  rw [step, readArgs]
  refine .looked ?_
  rcases punctuator_cases ")" pos with ⟨here, passed, _, found⟩ | ⟨missing, none⟩
  · rw [if_pos here, found]
    exact .pass ⟨_, rfl⟩ passed (by decide)
  · rw [if_neg missing, none]
    exact calls.under .moreArgs inside enough (by decide) rfl rfl

include whole

theorem follows_primary (enough : Suffices tokens (budget + 1) 1 pos) :
    Follows tokens pos 12 0 (step (look tokens) call .primary pos)
      (readPrimary (tokens.drop pos)) := by
  rw [step]
  refine .looked ?_
  rcases punctuator_cases "(" pos with ⟨here, passed, _, found⟩ | ⟨missing, none⟩
  · rw [if_pos here, readPrimary.eq_def, found]
    have inner : Follows tokens (pos + 1) 0 8 (call .expr (pos + 1))
        (readExpr (tokens.drop (pos + 1))) :=
      calls.later .expr passed.inside enough (Nat.lt_succ_self _) rfl rfl
    refine Follows.next (a := 12) (b := 8) ?_ passed (by decide)
    refine inner.bind (c := 12) (d := 0) (fun q v lt le inside => ?_) (by decide)
    exact (follows_skip whole inside ")").wrap fun _ _ _ => ⟨_, _, rfl⟩
  rw [if_neg missing]
  refine .looked ?_
  rcases name_cases tokens pos with ⟨t, name, named, passed, at_pos, kind, text⟩ | ⟨unnamed, other⟩
  · obtain ⟨_, loc, _⟩ := t
    cases kind
    cases text
    rw [named, readPrimary.eq_def, none, drop_eq_cons at_pos]
    dsimp only
    refine Follows.next (a := 0) (b := 0) ?_ passed (by decide)
    refine .looked ?_
    rcases punctuator_cases "(" (pos + 1) with ⟨here, opened, _, found⟩ | ⟨missing, none⟩
    · rw [if_pos here, found]
      have arguments : Follows tokens (pos + 2) 0 9 (call .args (pos + 2))
          (readArgs (tokens.drop (pos + 2))) :=
        calls.later .args opened.inside enough (Nat.lt_succ_of_lt (Nat.lt_succ_self _)) rfl rfl
      exact (arguments.next opened (by decide)).wrap fun _ _ _ => ⟨_, _, rfl⟩
    · rw [if_neg missing, none]
      exact .stay ⟨_, rfl⟩ passed.inside (by decide)
  · rw [unnamed]
    dsimp only
    exact .looked (follows_number whole inside (punctuator?_eq_none.mp none) other)

theorem follows_moreArgs {done : List Expr} {bound : Nat} {le : (tokens.drop pos).length ≤ bound}
    (enough : Suffices tokens (budget + 1) 8 pos) :
    Follows tokens pos 2 7 (step (look tokens) call .moreArgs pos)
      (readMoreArgs done (tokens.drop pos) le) := by
  rw [step, readMoreArgs]
  have first : Follows tokens pos 1 7 (call .assignment pos) (readExpr (tokens.drop pos)) :=
    calls.under .assignment inside enough (by decide) rfl rfl
  refine first.bind (c := 12) (d := 0) (fun q v lt le inside => ?_) (by decide)
  dsimp only
  refine .looked ?_
  rcases punctuator_cases "," q with ⟨here, passed, _, found⟩ | ⟨missing, none⟩
  · rw [if_pos here, found]
    refine Follows.next (a := 1) (b := 8) ?_ passed (by decide)
    exact calls.later .moreArgs passed.inside enough (Nat.lt_succ_of_le le) rfl rfl
  · rw [if_neg missing, none]
    exact (follows_skip whole inside ")").wrap fun _ _ _ => ⟨_, _, rfl⟩

/-! ## 4. Rules of statements -/

theorem follows_clause {ending : String} (enough : Suffices tokens (budget + 1) 9 pos) :
    Follows tokens pos 1 8 (step (look tokens) call (.clause ending) pos)
      (readClause ending (tokens.drop pos)) := by
  rw [step, readClause]
  refine .looked ?_
  rcases punctuator_cases ending pos with ⟨here, passed, _, found⟩ | ⟨missing, none⟩
  · rw [if_pos here, found]
    exact .pass ⟨_, rfl⟩ passed (by decide)
  · rw [if_neg missing, none]
    have inner : Follows tokens pos 0 8 (call .expr pos) (readExpr (tokens.drop pos)) :=
      calls.under .expr inside enough (by decide) rfl rfl
    refine inner.bind (c := 12) (d := 0) (fun q v lt le inside => ?_) (by decide)
    exact (follows_skip whole inside ending).wrap fun _ _ _ => ⟨_, _, rfl⟩

theorem follows_exprStmt (enough : Suffices tokens (budget + 1) 9 pos) :
    Follows tokens pos 3 8 (step (look tokens) call .exprStmt pos)
      (readExprStmt (tokens.drop pos)) := by
  rw [step, readExprStmt]
  have inner : Follows tokens pos 0 8 (call .expr pos) (readExpr (tokens.drop pos)) :=
    calls.under .expr inside enough (by decide) rfl rfl
  refine inner.bind (c := 12) (d := 0) (fun q v lt le inside => ?_) (by decide)
  exact (follows_skip whole inside ";").wrap fun _ _ _ => ⟨_, _, rfl⟩

theorem follows_stmt (enough : Suffices tokens (budget + 1) 10 pos) :
    Follows tokens pos 2 9 (step (look tokens) call .stmt pos) (readStmt (tokens.drop pos)) := by
  rw [step, readStmt]
  -- a return
  refine .looked ?_
  rcases keyword_cases "return" pos with ⟨here, passed, _, found⟩ | ⟨missing, none⟩
  · rw [if_pos here, found]
    have value : Follows tokens (pos + 1) 0 8 (call .expr (pos + 1))
        (readExpr (tokens.drop (pos + 1))) :=
      calls.later .expr passed.inside enough (Nat.lt_succ_self _) rfl rfl
    refine Follows.next (a := 12) (b := 8) ?_ passed (by decide)
    refine value.bind (c := 12) (d := 0) (fun q v lt le inside => ?_) (by decide)
    exact (follows_skip whole inside ";").wrap fun _ _ _ => ⟨_, _, rfl⟩
  rw [if_neg missing, none]
  dsimp only
  -- a conditional, with or without an alternative
  refine .looked ?_
  rcases keyword_cases "if" pos with ⟨here, passed, _, found⟩ | ⟨missing, none⟩
  · rw [if_pos here, found]
    refine Follows.next (a := 12) (b := 8) ?_ passed (by decide)
    refine (follows_skip whole passed.inside "(").bind (c := 0) (d := 8)
      (fun q _ _ opened inside => ?_) (by decide)
    have test : Follows tokens q 0 8 (call .expr q) (readExpr (tokens.drop q)) :=
      calls.later .expr inside enough opened rfl rfl
    refine test.bind (c := 0) (d := 0) (fun q _ _ tested inside => ?_) (by decide)
    refine (follows_skip whole inside ")").bind (c := 1) (d := 10)
      (fun q _ _ closed inside => ?_) (by decide)
    have far : pos < q := opened.trans (tested.trans closed)
    have yes : Follows tokens q 1 10 (call .stmt q) (readStmt (tokens.drop q)) :=
      calls.later .stmt inside enough far rfl rfl
    refine yes.bind (c := 0) (d := 0) (fun q _ _ chosen inside => ?_) (by decide)
    dsimp only
    refine .looked ?_
    rcases keyword_cases "else" q with ⟨here, passed, _, found⟩ | ⟨missing, none⟩
    · rw [if_pos here, found]
      have no : Follows tokens (q + 1) 1 10 (call .stmt (q + 1)) (readStmt (tokens.drop (q + 1))) :=
        calls.later .stmt passed.inside enough (Nat.lt_succ_of_le (far.le.trans chosen)) rfl rfl
      exact (no.next passed (by decide)).wrap fun _ _ _ => ⟨_, _, rfl⟩
    · rw [if_neg missing, none]
      exact .stay ⟨_, rfl⟩ inside (by decide)
  rw [if_neg missing, none]
  dsimp only
  -- a loop
  refine .looked ?_
  rcases keyword_cases "for" pos with ⟨here, passed, _, found⟩ | ⟨missing, none⟩
  · rw [if_pos here, found]
    have clause (ending : String) {q : Nat} (inside : q ≤ tokens.length) (far : pos < q) :
        Follows tokens q 0 9 (call (.clause ending) q) (readClause ending (tokens.drop q)) :=
      calls.later .clause inside enough far rfl rfl
    refine Follows.next (a := 12) (b := 10) ?_ passed (by decide)
    refine (follows_skip whole passed.inside "(").bind (c := 0) (d := 10)
      (fun q _ _ far inside => ?_) (by decide)
    refine (clause ";" inside far).bind (c := 0) (d := 10) (fun q _ _ le inside => ?_) (by decide)
    have far : pos < q := Nat.lt_of_lt_of_le far le
    refine (clause ";" inside far).bind (c := 0) (d := 10) (fun q _ _ le inside => ?_) (by decide)
    have far : pos < q := Nat.lt_of_lt_of_le far le
    refine (clause ")" inside far).bind (c := 1) (d := 10) (fun q _ _ le inside => ?_) (by decide)
    have body : Follows tokens q 1 10 (call .stmt q) (readStmt (tokens.drop q)) :=
      calls.later .stmt inside enough (Nat.lt_of_lt_of_le far le) rfl rfl
    exact body.wrap fun _ _ _ => ⟨_, _, rfl⟩
  rw [if_neg missing, none]
  dsimp only
  -- a block or an expression
  refine .looked ?_
  rcases punctuator_cases "\x7b" pos with ⟨here, passed, _, found⟩ | ⟨missing, none⟩
  · rw [if_pos here, found]
    have body : Follows tokens (pos + 1) 0 11 (call .block (pos + 1))
        (readBlock [] (tokens.drop (pos + 1)) (Nat.le_refl _)) :=
      calls.later .block passed.inside enough (Nat.lt_succ_self _) rfl rfl
    exact (body.next passed (by decide)).wrap fun _ _ _ => ⟨_, _, rfl⟩
  · rw [if_neg missing, none]
    show Follows tokens pos 2 9 (call .exprStmt pos) (readExprStmt (tokens.drop pos))
    exact calls.under .exprStmt inside enough (by decide) rfl rfl

theorem follows_block {done : List Stmt} {bound : Nat} {le : (tokens.drop pos).length ≤ bound}
    (enough : Suffices tokens (budget + 1) 11 pos) :
    Follows tokens pos 1 10 (step (look tokens) call .block pos)
      (readBlock done (tokens.drop pos) le) := by
  rw [step, readBlock]
  refine .looked ?_
  rcases punctuator_cases "\x7d" pos with ⟨here, passed, _, found⟩ | ⟨missing, none⟩
  · rw [if_pos here, found]
    exact .pass ⟨_, rfl⟩ passed (by decide)
  rw [if_neg missing, none]
  dsimp only
  refine .looked ?_
  rw [isEnd_eq]
  by_cases ends : atEnd (tokens.drop pos)
  · -- the brace that has to come at the end cannot be there
    rw [if_pos ends, if_pos ends]
    have stops : (readPunctuator "\x7d" (tokens.drop pos)).Fails
        (.wanting (.punctuator "\x7d") (tokens.drop pos)) := by
      rw [readPunctuator, none]
      rfl
    exact (follows_skip whole inside "\x7d").halt stops rfl (Nat.zero_le _)
  · rw [if_neg ends, if_neg ends]
    have first : Follows tokens pos 1 10 (call .stmt pos) (readStmt (tokens.drop pos)) :=
      calls.under .stmt inside enough (by decide) rfl rfl
    refine first.bind (c := 0) (d := 11) (fun q v lt le inside => ?_) (by decide)
    exact calls.later .block inside enough (lt_of_length_drop lt) rfl rfl

/-! ## 5. Functions and programs -/

theorem follows_params {done : List String} {bound : Nat} {le : (tokens.drop pos).length ≤ bound}
    (enough : Suffices tokens (budget + 1) 1 pos) :
    Follows tokens pos 1 0 (step (look tokens) call (.params done) pos)
      (readMoreParams done (tokens.drop pos) le) := by
  rw [step, readMoreParams]
  refine .looked ?_
  rcases name_cases tokens pos with ⟨t, name, named, passed, at_pos, kind, text⟩ | ⟨unnamed, other⟩
  · rw [named]
    have read : (readIdentifier (tokens.drop pos)).Yields name (tokens.drop (pos + 1)) :=
      readIdentifier_yields.mpr ⟨t, drop_eq_cons at_pos, kind, text⟩
    refine Follows.behind read fun lt => ?_
    dsimp only
    by_cases known : done.contains name
    · rw [if_pos known, if_pos known]
      exact .stop rfl (.refl inside) (.duplicate at_pos kind text)
    rw [if_neg known, if_neg known]
    refine Follows.next (s := 1) (r := 0) (a := 0) (b := 1) ?_ passed (by decide)
    refine .looked ?_
    rcases punctuator_cases "," (pos + 1) with ⟨here, parted, _, found⟩ | ⟨missing, none⟩
    · rw [if_pos here, found]
      refine Follows.next (a := 0) (b := 1) ?_ parted (by decide)
      have far : pos < pos + 2 := Nat.lt_succ_of_lt (Nat.lt_succ_self _)
      exact calls.later .params parted.inside enough far rfl rfl
    · rw [if_neg missing, none]
      have closed : Follows tokens (pos + 1) 0 1 (skip (look tokens) ")" (pos + 1))
          (readPunctuator ")" (tokens.drop (pos + 1))) :=
        (follows_skip whole passed.inside ")").weaken (by decide)
      exact closed.wrap fun _ _ _ => ⟨_, _, rfl⟩
  · rw [unnamed]
    exact .wanted whole inside (fails_bind.mpr (.inl (fails_identifier other)))

theorem follows_function (enough : Suffices tokens (budget + 1) 1 pos) :
    Follows tokens pos 2 0 (step (look tokens) call .function pos)
      (readFunction (tokens.drop pos)) := by
  rw [step, readFunction]
  refine .looked ?_
  rcases name_cases tokens pos with ⟨t, name, named, passed, at_pos, kind, text⟩ | ⟨unnamed, other⟩
  · rw [named]
    have read : (readIdentifier (tokens.drop pos)).Yields name (tokens.drop (pos + 1)) :=
      readIdentifier_yields.mpr ⟨t, drop_eq_cons at_pos, kind, text⟩
    refine Follows.behind read fun lt => ?_
    refine Follows.next (a := 12) (b := 1) ?_ passed (by decide)
    refine (follows_skip whole passed.inside "(").bind (c := 0) (d := 1)
      (fun q _ _ opened inside => ?_) (by decide)
    have params : Follows tokens q 0 1
        (if stands (·.isPunctuator ")") tokens[q]? then pure (q + 1) else call (.params []) q)
        (readParams (tokens.drop q)) := by
      rw [readParams]
      rcases punctuator_cases ")" q with ⟨here, passed, _, found⟩ | ⟨missing, none⟩
      · rw [if_pos here, found]
        exact .pass ⟨_, rfl⟩ passed (by decide)
      · rw [if_neg missing, none]
        exact calls.later .params inside enough opened rfl rfl
    dsimp only
    refine .looked ?_
    refine params.bind (c := 12) (d := 0) (fun q _ _ closed inside => ?_) (by decide)
    refine (follows_skip whole inside "\x7b").bind (c := 0) (d := 11)
      (fun q _ _ braced inside => ?_) (by decide)
    have body : Follows tokens q 0 11 (call .block q)
        (readBlock [] (tokens.drop q) (Nat.le_refl _)) :=
      calls.later .block inside enough (opened.trans (closed.trans braced)) rfl rfl
    exact body.wrap fun _ _ _ => ⟨_, _, rfl⟩
  · rw [unnamed]
    exact .wanted whole inside (fails_bind.mpr (.inl (fails_identifier other)))

omit whole in
theorem follows_program {done : List Function} {bound : Nat}
    {lt : (tokens.drop pos).length < bound} (enough : Suffices tokens (budget + 1) 2 pos) :
    Follows tokens pos 0 1 (step (look tokens) call .program pos)
      (readOn done (tokens.drop pos) lt) := by
  rw [step, readOn]
  refine .looked ?_
  rw [isEnd_eq]
  by_cases ends : atEnd (tokens.drop pos)
  · rw [if_pos ends, if_pos ends]
    exact .stay ⟨_, rfl⟩ inside (by decide)
  · rw [if_neg ends, if_neg ends]
    have first : Follows tokens pos 1 1 (call .function pos) (readFunction (tokens.drop pos)) :=
      calls.under .function inside enough (by decide) rfl rfl
    refine first.bind (c := -1) (d := 2) (fun q v lt le inside => ?_) (by decide)
    exact calls.later .program inside enough (lt_of_length_drop lt) rfl rfl

end Calls

/-! ## 6. All calls -/

/-- Within a budget calls follow the readers. -/
theorem run_follows {tokens : List Token} (whole : ∀ t ∈ tokens, t.text ≠ none) (budget : Nat) :
    CallsFollow tokens budget (run tokens budget) := by
  induction budget with
  | zero =>
    intro rule pos _ enough
    have := rule.rank_pos
    unfold Suffices at enough
    omega
  | succ budget ih =>
    intro rule pos inside enough α bound o reads
    cases reads with
    | program => exact (follows_program ih inside enough).counted
    | function => exact (follows_function whole ih inside enough).counted
    | params => exact (follows_params whole ih inside enough).counted
    | block => exact (follows_block whole ih inside enough).counted
    | stmt => exact (follows_stmt whole ih inside enough).counted
    | clause => exact (follows_clause whole ih inside enough).counted
    | exprStmt => exact (follows_exprStmt whole ih inside enough).counted
    | expr => exact (follows_expr ih inside enough).counted
    | assignment => exact (follows_assignment ih inside enough).counted
    | @level n =>
      obtain ⟨_ | n, h⟩ := n
      · exact (follows_level_zero ih inside h enough).counted
      · exact (follows_level_succ ih inside h enough).counted
    | chain => exact (follows_chain ih inside enough).counted
    | primary => exact (follows_primary whole ih inside enough).counted
    | args => exact (follows_args ih inside enough).counted
    | moreArgs => exact (follows_moreArgs whole ih inside enough).counted

end Surface

end StackCompiler
