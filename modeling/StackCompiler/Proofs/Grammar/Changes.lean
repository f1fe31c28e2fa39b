import StackCompiler.Proofs.Grammar.Failing

/-!
# Changes that readers do not notice

A reader compares the kinds and the texts of tokens. Where a token stands it only copies into the
trees, and the tokens behind the one at which its reading ends it does not look at. A change of a
list of tokens touches these two things only (`Change`), and as long as a reader looks at tokens
that are not hidden, its tests come out alike (`Change.Sees`).
-/

namespace StackCompiler

/-! ## 1. Other places -/

/-- The token at another place. -/
def Token.relocate (g : Nat → Nat) (t : Token) : Token :=
  { t with loc := g t.loc }

namespace Surface

open Grammar (Leads)

mutual

/-- The expression with its names at other places. -/
def Expr.relocate (g : Nat → Nat) : Expr → Expr
  | .num value => .num value
  | .var name loc => .var name (g loc)
  | .neg operand => .neg (operand.relocate g)
  | .binary op lhs rhs => .binary op (lhs.relocate g) (rhs.relocate g)
  | .assign target value loc => .assign (target.relocate g) (value.relocate g) (g loc)
  | .call name args loc => .call name (relocateArgs g args) (g loc)

/-- The arguments of a call with their names at other places. -/
def relocateArgs (g : Nat → Nat) : List Expr → List Expr
  | [] => []
  | arg :: args => arg.relocate g :: relocateArgs g args

end

mutual

/-- The statement with its names at other places. -/
def Stmt.relocate (g : Nat → Nat) : Stmt → Stmt
  | .ret value => .ret (value.relocate g)
  | .expr e => .expr (e.relocate g)
  | .block body => .block (relocateBlock g body)
  | .cond test yes none => .cond (test.relocate g) (yes.relocate g) none
  | .cond test yes (some no) => .cond (test.relocate g) (yes.relocate g) (some (no.relocate g))
  | .loop start test next body =>
    .loop (start.map (Expr.relocate g)) (test.map (Expr.relocate g)) (next.map (Expr.relocate g))
      (body.relocate g)

/-- The statements of a block with their names at other places. -/
def relocateBlock (g : Nat → Nat) : List Stmt → List Stmt
  | [] => []
  | s :: rest => s.relocate g :: relocateBlock g rest

end

/-- The function at another place. -/
def Function.relocate (g : Nat → Nat) (f : Function) : Function :=
  { f with loc := g f.loc, body := relocateBlock g f.body }

theorem relocateArgs_eq (g : Nat → Nat) (es : List Expr) :
    relocateArgs g es = es.map (Expr.relocate g) := by
  induction es with
  | nil => rfl
  | cons e es ih => rw [relocateArgs, List.map_cons, ih]

theorem relocateBlock_eq (g : Nat → Nat) (body : List Stmt) :
    relocateBlock g body = body.map (Stmt.relocate g) := by
  induction body with
  | nil => rfl
  | cons s body ih => rw [relocateBlock, List.map_cons, ih]

/-! ## 2. Changes -/

/-- A change of a list of tokens: the tokens are at other places, and other tokens stand instead of
the last ones. -/
structure Change where
  /-- Where a token stands now. -/
  move : Nat → Nat
  /-- How many of the last tokens are not looked at. -/
  hidden : Nat
  /-- The tokens that stand instead of those. -/
  tail : List Token

namespace Change

variable (c : Change) {t : Token} {ts us rest : List Token}

/-- The tokens after the change. -/
def apply (ts : List Token) : List Token :=
  (ts.take (ts.length - c.hidden)).map (Token.relocate c.move) ++ c.tail

/-- The place at which reading stops after the change. -/
def stuck (s : Stuck) : Stuck :=
  ⟨s.fault, c.apply s.rest⟩

/-- The first token stays first. If no token is hidden then the end may be looked at too, where an
end marker may come in. -/
def Sees (ts : List Token) : Prop :=
  c.hidden < ts.length ∨ c.hidden = 0 ∧ atEnd c.tail

variable {c}

theorem Sees.mono (h : c.Sees rest) (hle : rest.length ≤ ts.length) : c.Sees ts :=
  h.imp_left fun hlt => Nat.lt_of_lt_of_le hlt hle

/-- What a reader started at is seen if what it left is. -/
theorem Sees.before {α : Type} {o : Outcome α ts.length} {v : α} (h : c.Sees rest)
    (read : o.Yields v rest) : c.Sees ts :=
  h.mono (Nat.le_of_lt read.shorter)

theorem Sees.cons (h : c.Sees ts) (t : Token) : c.Sees (t :: ts) :=
  h.mono (Nat.le_succ _)

theorem Sees.apply_cons (h : c.Sees (t :: ts)) :
    c.apply (t :: ts) = t.relocate c.move :: c.apply ts := by
  have hle : c.hidden ≤ ts.length := by
    rcases h with h | ⟨h, -⟩
    · exact Nat.le_of_lt_succ h
    · rw [h]
      exact Nat.zero_le _
  unfold apply
  rw [List.length_cons, Nat.succ_sub hle, List.take_succ_cons, List.map_cons, List.cons_append]

/-- Behind the first token, where something else is looked at. -/
theorem Sees.apply_front (h : c.Sees ts) (t : Token) :
    c.apply (t :: ts) = t.relocate c.move :: c.apply ts :=
  (h.cons t).apply_cons

theorem Sees.atEnd_nil (h : c.Sees []) : atEnd (c.apply []) := by
  rcases h with h | ⟨-, h⟩
  · exact absurd h (Nat.not_lt_zero _)
  · unfold apply
    rwa [List.take_nil, List.map_nil, List.nil_append]

/-- A test that no end marker passes has the same result for the tokens in front. -/
theorem Sees.front (h : c.Sees ts) {p : Token → Prop}
    (move : ∀ t : Token, p (t.relocate c.move) ↔ p t) (noEnd : ∀ t : Token, t.kind = .eof → ¬ p t) :
    (∃ t us, c.apply ts = t :: us ∧ p t) ↔ ∃ t us, ts = t :: us ∧ p t := by
  cases ts with
  | nil =>
    refine iff_of_false ?_ ?_
    · rintro ⟨t, us, heq, hp⟩
      have hend := h.atEnd_nil
      rw [heq] at hend
      exact noEnd t (beq_iff_eq.mp hend) hp
    · rintro ⟨t, us, heq, -⟩
      cases heq
  | cons t ts =>
    rw [h.apply_cons, exists_front, exists_front]
    exact move t

theorem Sees.leads (h : c.Sees ts) (s : String) : Leads s (c.apply ts) ↔ Leads s ts := by
  refine h.front (fun t => Iff.rfl) fun t hend hp => ?_
  rw [(Token.isPunctuator_iff.mp hp).1] at hend
  cases hend

theorem Sees.leadsKeyword (h : c.Sees ts) (s : String) :
    LeadsKeyword s (c.apply ts) ↔ LeadsKeyword s ts := by
  refine h.front (fun t => Iff.rfl) fun t hend hp => ?_
  rw [(Token.isKeyword_iff.mp hp).1] at hend
  cases hend

theorem Sees.leadsAtom (h : c.Sees ts) : LeadsAtom (c.apply ts) ↔ LeadsAtom ts := by
  refine h.front (fun t => Iff.rfl) fun t hend hp => ?_
  rcases hp with ⟨_, hk, -⟩ | ⟨_, hk⟩ <;>
  · rw [hk] at hend
    cases hend

theorem Sees.atEnd_apply (h : c.Sees ts) : atEnd (c.apply ts) = atEnd ts := by
  cases ts with
  | nil => exact h.atEnd_nil
  | cons t ts =>
    rw [h.apply_cons]
    rfl

/-- What stands in front has the same name. -/
theorem Sees.describe (h : c.Sees ts) :
    Token.describe (c.apply ts).head? = Token.describe ts.head? := by
  cases ts with
  | nil =>
    have hend := h.atEnd_nil
    cases heq : c.apply [] with
    | nil => rfl
    | cons t us =>
      rw [heq] at hend
      exact if_pos (beq_iff_eq.mp hend)
  | cons t ts =>
    rw [h.apply_cons]
    rfl

theorem Sees.wanting (h : c.Sees ts) (wanted : Wanted) :
    Stuck.wanting wanted (c.apply ts) = c.stuck (Stuck.wanting wanted ts) := by
  unfold Stuck.wanting
  rw [h.describe]
  split <;> rfl

theorem Sees.atPrimary (h : c.Sees ts) :
    Stuck.atPrimary (c.apply ts) = c.stuck (Stuck.atPrimary ts) := by
  have wanted := h.wanting .number
  cases ts with
  | nil =>
    have hend := h.atEnd_nil
    rw [Stuck.atPrimary, ← wanted]
    cases heq : c.apply [] with
    | nil => rfl
    | cons t us =>
      rw [heq] at hend
      rw [Stuck.atPrimary, beq_iff_eq.mp hend]
      exact if_neg (by decide)
  | cons t ts =>
    rw [h.apply_cons] at wanted ⊢
    rw [Stuck.atPrimary, Stuck.atPrimary]
    by_cases hk : t.kind = .num none
    · have hk' : (t.relocate c.move).kind = .num none := hk
      rw [if_pos hk, if_pos hk', stuck, h.apply_cons]
    · have hk' : (t.relocate c.move).kind ≠ .num none := hk
      rw [if_neg hk, if_neg hk', wanted]

theorem Sees.misses {s : String} {stuck : Stuck} (h : Misses s ts stuck)
    (sees : c.Sees stuck.rest) : Misses s (c.apply ts) (c.stuck stuck) := by
  rw [h.rest] at sees
  refine ⟨fun hleads => h.1 ((sees.leads s).mp hleads), ?_⟩
  rw [sees.wanting, h.2]

/-- What is kept is moved, and the tokens behind it are exchanged. -/
theorem apply_append (g : Nat → Nat) (kept ts tail : List Token) :
    (⟨g, ts.length, tail⟩ : Change).apply (kept ++ ts) = kept.map (Token.relocate g) ++ tail := by
  unfold apply
  rw [List.length_append, Nat.add_sub_cancel, List.take_left]

/-- The change that moves all tokens and hides none. -/
def moving (g : Nat → Nat) : Change :=
  ⟨g, 0, []⟩

theorem apply_moving (g : Nat → Nat) (ts : List Token) :
    (moving g).apply ts = ts.map (Token.relocate g) := by
  unfold apply moving
  rw [Nat.sub_zero, List.take_length, List.append_nil]

theorem sees_moving (g : Nat → Nat) (ts : List Token) : (moving g).Sees ts :=
  .inr ⟨rfl, rfl⟩

/-- The first token, where there is one, is at its new place. -/
theorem Sees.startOf (h : c.Sees ts) (hne : 0 < ts.length) :
    startOf 0 (c.apply ts) = c.move (startOf 0 ts) := by
  cases ts with
  | nil => exact absurd hne (Nat.not_lt_zero _)
  | cons t ts =>
    rw [h.apply_cons]
    rfl

end Change

end Surface

end StackCompiler
