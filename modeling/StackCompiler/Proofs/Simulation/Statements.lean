import StackCompiler.Proofs.Simulation.Expressions
import StackCompiler.Proofs.Simulation.Calls

/-!
# Code of statements follows their evaluation

A statement ends in one of two ways, and its code follows both: what comes next leads to the end of
its code, and a return leads to the end of the function, from any depth (`Ends`). The labels of a
statement are found because no other code has them.

With that, every kind of node has its step of the induction, and runs follow all evaluations
(`simulation`).
-/

namespace StackCompiler

open Machine

variable {p : Program} {lines : Listing} {image : Image lines} {frame : Frame} {base : Nat}
  {σ σ' : Store} {rounds fuel number : Nat} {function : String} {leave rest : Listing} {s : State}
  {exit : Exit}

namespace Simulation

/-! ## 1. Blocks and branches -/

theorem stmt_ret (ih : Simulation p image rounds fuel) {e : Expr}
    (eval : Stmt.eval p rounds (fuel + 1) σ (.ret e) = .done exit) (bound : e.Bound frame)
    (allowed : e.Allowed) (leaves : lines.startingAt? (.label (.exit function)) = some leave)
    (start : Start lines frame base σ (p.room fuel) ((Stmt.ret e).code function number) rest s) :
    Ends image frame base leave rest s exit := by
  obtain ⟨⟨v, σ₁⟩, computed, eval⟩ := Outcome.bind_eq_done.mp eval
  cases eval
  obtain ⟨s₁, c₁⟩ := ih.expr computed bound allowed start.left
  obtain ⟨popped, rax⟩ := c₁.pushed.pop (r := .rax) (by decide) (by decide)
  have taken : Comes image frame base σ₁ [] (.instr (.jump (.exit function)) :: rest) s _ :=
    c₁.straight (c := [.pop .rax]) rfl popped
  exact ⟨σ₁, _, taken.jump leaves, rax⟩

theorem block_step (ih : Simulation p image rounds fuel) {body : List Stmt}
    (eval : evalBlock p rounds (fuel + 1) σ body = .done exit) (bound : BoundBlock frame body)
    (allowed : AllowedBlock body)
    (leaves : lines.startingAt? (.label (.exit function)) = some leave)
    (start : Start lines frame base σ (p.room fuel) (codeOfBlock function number body) rest s) :
    Ends image frame base leave rest s exit := by
  cases body with
  | nil =>
    cases eval
    exact ⟨s, start.comes image⟩
  | cons first others =>
    obtain ⟨e, computed, eval⟩ := Outcome.bind_eq_done.mp eval
    have ends := ih.stmt computed bound.1 allowed.1 leaves start.left
    cases e with
    | returned v =>
      cases eval
      exact ends
    | next σ₁ =>
      obtain ⟨s₁, c₁⟩ := ends
      exact (ih.block eval bound.2 allowed.2 leaves (start.right c₁ (Nat.le_refl _))).after c₁

/-- A branch without an alternative skips to its end. -/
theorem stmt_cond_none (ih : Simulation p image rounds fuel) (distinct : lines.marks.Nodup)
    {test : Expr} {yes : Stmt}
    (eval : Stmt.eval p rounds (fuel + 1) σ (.cond test yes none) = .done exit)
    (bound : (Stmt.cond test yes none).Bound frame) (allowed : (Stmt.cond test yes none).Allowed)
    (leaves : lines.startingAt? (.label (.exit function)) = some leave)
    (start : Start lines frame base σ (p.room fuel)
      ((Stmt.cond test yes none).code function number) rest s) :
    Ends image frame base leave rest s exit := by
  obtain ⟨⟨v, σ₁⟩, computed, eval⟩ := Outcome.bind_eq_done.mp eval
  have ended := start.landing distinct
  obtain ⟨s₁, c₁⟩ := ih.branch_comes computed bound.1 allowed.1 ended start.left.left
  by_cases zero : v = 0
  · rw [if_pos zero] at c₁
    simp only [zero, ne_eq, not_true_eq_false, if_false] at eval
    cases eval
    exact ⟨_, c₁.mark rfl⟩
  · rw [if_neg zero] at c₁
    simp only [zero, ne_eq, not_false_eq_true, if_true] at eval
    have ends := ih.stmt eval bound.2 allowed.2 leaves (start.left.right c₁ (Nat.le_refl _))
    exact (ends.after c₁).before fun c => ⟨_, c.mark rfl⟩

/-- A branch with an alternative runs one of the two. -/
theorem stmt_cond_some (ih : Simulation p image rounds fuel) (distinct : lines.marks.Nodup)
    {test : Expr} {yes no : Stmt}
    (eval : Stmt.eval p rounds (fuel + 1) σ (.cond test yes (some no)) = .done exit)
    (bound : (Stmt.cond test yes (some no)).Bound frame)
    (allowed : (Stmt.cond test yes (some no)).Allowed)
    (leaves : lines.startingAt? (.label (.exit function)) = some leave)
    (start : Start lines frame base σ (p.room fuel)
      ((Stmt.cond test yes (some no)).code function number) rest s) :
    Ends image frame base leave rest s exit := by
  obtain ⟨⟨v, σ₁⟩, computed, eval⟩ := Outcome.bind_eq_done.mp eval
  have ended := start.landing distinct
  have otherwise := start.left.landing distinct
  obtain ⟨s₁, c₁⟩ := ih.branch_comes computed bound.1 allowed.1 otherwise
    start.left.left.left.left
  by_cases zero : v = 0
  · rw [if_pos zero] at c₁
    simp only [zero, ne_eq, not_true_eq_false, if_false] at eval
    have c₂ := c₁.mark rfl
    have ends := ih.stmt eval bound.2.2 allowed.2.2 leaves (start.left.past c₂)
    exact (ends.after c₂).before fun c => ⟨_, c.mark rfl⟩
  · rw [if_neg zero] at c₁
    simp only [zero, ne_eq, not_false_eq_true, if_true] at eval
    have ends := ih.stmt eval bound.2.1 allowed.2.1 leaves
      (start.left.left.left.right c₁ (Nat.le_refl _))
    exact (ends.after c₁).before fun c => ⟨_, (c.jump ended).mark rfl⟩

/-! ## 2. Loops -/

theorem code_loop (start test next : Option Expr) (body : Stmt) :
    (Stmt.loop start test next body).code function number =
      start.elim [] (Expr.effectCode (number + 1)) ++ roundsCode function number
        (number + 1 + labelsOfClause start)
        (number + 1 + labelsOfClause start + labelsOfClause test)
        (number + 1 + labelsOfClause start + labelsOfClause test + body.labels) test next body := by
  simp only [Stmt.code, roundsCode, List.append_assoc, List.cons_append]

/-- The rounds of a loop are followed one after another. After each of them the loop starts over,
with the stack as it was. -/
theorem rounds_comes (ih : Simulation p image rounds fuel) (distinct : lines.marks.Nodup)
    {test next : Option Expr} {body : Stmt} {own second third fourth left : Nat}
    (eval : evalRounds (evalClause p rounds fuel · test) (evalClause p rounds fuel · next)
      (Stmt.eval p rounds fuel · body) left σ = .done exit)
    (boundTest : BoundClause frame test) (boundNext : BoundClause frame next)
    (bound : body.Bound frame) (allowedTest : AllowedClause test)
    (allowedNext : AllowedClause next) (allowed : body.Allowed)
    (leaves : lines.startingAt? (.label (.exit function)) = some leave)
    (start : Start lines frame base σ (p.room fuel)
      (roundsCode function own second third fourth test next body) rest s) :
    Ends image frame base leave rest s exit := by
  induction left generalizing σ s with
  | zero => exact nomatch eval
  | succ left later =>
    obtain ⟨⟨v, σ₁⟩, computed, eval⟩ := Outcome.bind_eq_done.mp eval
    have ended := start.landing distinct
    have opened : Start lines frame base σ (p.room fuel) ([] ++ .label (.numbered .again own) ::
        test.elim [] (fun e => e.branchCode second (.numbered .done own))) _ s :=
      start.left.left.left.left
    have again := opened.landing distinct
    have c₁ := (opened.comes image).mark rfl
    obtain ⟨s₂, c₂⟩ := ih.test computed boundTest allowedTest ended (opened.past c₁)
    have c₂ := c₁.trans c₂
    dsimp only at eval
    by_cases zero : v = some 0
    · rw [if_pos zero] at c₂
      rw [if_pos zero] at eval
      cases eval
      exact ⟨_, c₂.mark rfl⟩
    · rw [if_neg zero] at c₂
      rw [if_neg zero] at eval
      obtain ⟨e, computed, eval⟩ := Outcome.bind_eq_done.mp eval
      have ends :=
        ih.stmt computed bound allowed leaves (start.left.left.left.right c₂ (Nat.le_refl _))
      have ends := ends.after c₂
      -- a round that returns leaves the loop for the end of the function
      cases e with
      | returned w =>
        cases eval
        exact ends
      | next σ₂ =>
        obtain ⟨s₃, c₃⟩ := ends
        obtain ⟨⟨w, σ₃⟩, computed, eval⟩ := Outcome.bind_eq_done.mp eval
        obtain ⟨s₄, c₄⟩ := ih.effect computed boundNext allowedNext
          (start.left.left.right c₃ (Nat.le_refl _))
        -- the label of the rounds is the one that was come from, so the loop starts over there
        have c₅ := (c₃.trans c₄).jump again
        have restart : Start lines frame base σ₃ (p.room fuel)
            (roundsCode function own second third fourth test next body) rest _ :=
          start.anew (by simpa [roundsCode] using c₅)
        exact (later eval restart).after c₅

theorem stmt_loop (ih : Simulation p image rounds fuel) (distinct : lines.marks.Nodup)
    {first test next : Option Expr} {body : Stmt}
    (eval : Stmt.eval p rounds (fuel + 1) σ (.loop first test next body) = .done exit)
    (bound : (Stmt.loop first test next body).Bound frame)
    (allowed : (Stmt.loop first test next body).Allowed)
    (leaves : lines.startingAt? (.label (.exit function)) = some leave)
    (start : Start lines frame base σ (p.room fuel)
      ((Stmt.loop first test next body).code function number) rest s) :
    Ends image frame base leave rest s exit := by
  obtain ⟨⟨v, σ₁⟩, computed, eval⟩ := Outcome.bind_eq_done.mp eval
  rw [code_loop] at start
  obtain ⟨s₁, c₁⟩ := ih.effect computed bound.1 allowed.1 start.left
  have ends := ih.rounds_comes distinct eval bound.2.1 bound.2.2.1 bound.2.2.2 allowed.2.1
    allowed.2.2.1 allowed.2.2.2 leaves (start.right c₁ (Nat.le_refl _))
  exact ends.after c₁

/-! ## 3. The whole induction -/

theorem expr_step (ih : Simulation p image rounds fuel) (loaded : p.Loaded lines) {e : Expr}
    {value : Int64} (eval : Expr.eval p rounds (fuel + 1) σ e = .done (value, σ'))
    (bound : e.Bound frame) (allowed : e.Allowed)
    (start : Start lines frame base σ (p.room (fuel + 1)) (e.code number) rest s) :
    ∃ s', Comes image frame base σ' [value.toBitVec] rest s s' := by
  cases e with
  | num =>
    cases eval
    exact expr_num start
  | var name =>
    rw [Expr.eval] at eval
    split at eval
    · next set =>
      cases eval
      exact expr_var set bound start
    · exact nomatch eval
  | binary => exact ih.expr_binary eval bound allowed start
  | assign => exact ih.expr_assign eval bound allowed start
  | call => exact ih.expr_call loaded eval bound allowed start

theorem stmt_step (ih : Simulation p image rounds fuel) (distinct : lines.marks.Nodup) {stmt : Stmt}
    (eval : Stmt.eval p rounds (fuel + 1) σ stmt = .done exit) (bound : stmt.Bound frame)
    (allowed : stmt.Allowed) (leaves : lines.startingAt? (.label (.exit function)) = some leave)
    (start : Start lines frame base σ (p.room fuel) (stmt.code function number) rest s) :
    Ends image frame base leave rest s exit := by
  match stmt with
  | .ret e => exact ih.stmt_ret eval bound allowed leaves start
  | .expr e =>
    obtain ⟨⟨v, σ₁⟩, computed, eval⟩ := Outcome.bind_eq_done.mp eval
    cases eval
    exact ih.effect_comes computed bound allowed start
  | .block body => exact ih.block eval bound allowed leaves start
  | .cond test yes none => exact ih.stmt_cond_none distinct eval bound allowed leaves start
  | .cond test yes (some no) => exact ih.stmt_cond_some distinct eval bound allowed leaves start
  | .loop first test next body => exact ih.stmt_loop distinct eval bound allowed leaves start

end Simulation

/-- Without fuel there is nothing to follow. -/
theorem simulation_zero (p : Program) (image : Image lines) (rounds : Nat) :
    Simulation p image rounds 0 where
  expr eval := nomatch eval
  args eval := nomatch eval
  effect eval := nomatch eval
  test eval := nomatch eval
  stmt eval := nomatch eval
  block eval := nomatch eval
  call eval := nomatch eval

/-- Runs follow all evaluations. -/
theorem simulation (loaded : p.Loaded lines) (image : Image lines) (rounds fuel : Nat) :
    Simulation p image rounds fuel := by
  induction fuel with
  | zero => exact simulation_zero p image rounds
  | succ fuel ih =>
    have less : p.room fuel ≤ p.room (fuel + 1) := by rw [p.room_succ]; omega
    exact
      { expr := ih.expr_step loaded
        args := ih.args_step
        effect := ih.effect_step
        test := ih.test_step
        stmt := fun eval bound allowed leaves start =>
          ih.stmt_step loaded.distinct eval bound allowed leaves (start.weaken less)
        block := fun eval bound allowed leaves start =>
          ih.block_step eval bound allowed leaves (start.weaken less)
        call := ih.call_step loaded }

end StackCompiler
