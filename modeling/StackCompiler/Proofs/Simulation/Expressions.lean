import StackCompiler.Proofs.Simulation

/-!
# Code of expressions follows their evaluation

One step of the induction for everything that pushes values: if runs follow the evaluations with
some fuel, they follow those of expressions, arguments and clauses with one unit more.

The two delicate places are assignments, where the address waits on the stack while the value is
computed, and calls, which come in two variants. Which variant runs is decided by the stack
pointer, and both leave the stack as they found it (`callCode_comes`).
-/

namespace StackCompiler

open Machine

variable {p : Program} {lines : Listing} {image : Image lines} {frame : Frame} {base : Nat}
  {σ σ' : Store} {rounds fuel number : Nat} {rest : Listing} {s : State}

namespace Simulation

/-! ## 1. Operands -/

theorem expr_num {value : Int64}
    (start : Start lines frame base σ (p.room (fuel + 1)) ((Expr.num value).code number) rest s) :
    ∃ s', Comes image frame base σ [value.toBitVec] rest s s' := by
  have room := start.room
  rw [p.room_succ] at room
  have begun : Comes image frame base σ [] (instrs ([.movImm .rax value] ++ [.push .rax]) ++ rest)
      s s := start.comes image
  refine begun.pushes (t := s.set .rax value.toBitVec) rfl (begun.pushed.same ⟨rfl, rfl, rfl⟩)
    rfl ?_
  show 8 ≤ s.top
  omega

theorem expr_var {name : String} {offset loc : Nat} {value : Int64}
    (set : σ name = some value) (bound : (Expr.var name offset loc).Bound frame)
    (start : Start lines frame base σ (p.room (fuel + 1)) ((Expr.var name offset loc).code number)
      rest s) :
    ∃ s', Comes image frame base σ [value.toBitVec] rest s s' := by
  have room := start.room
  rw [p.room_succ] at room
  obtain ⟨_, rfl⟩ : name ∈ frame.names ∧ offset = frame.offset name := bound
  have begun : Comes image frame base σ []
      (instrs ([.loadSlot .rax (frame.offset name)] ++ [.push .rax]) ++ rest) s s :=
    start.comes image
  refine begun.pushes (t := s.set .rax (s.mem.read (s.slot (frame.offset name)))) rfl
    (begun.pushed.same ⟨rfl, rfl, rfl⟩) ?_ ?_
  · exact start.inside.read_slot set
  · show 8 ≤ s.top
    omega

/-- An operation takes its operands from the stack. -/
theorem expr_binary (ih : Simulation p image rounds fuel) {op : Op} {lhs rhs : Expr} {value : Int64}
    (eval : Expr.eval p rounds (fuel + 1) σ (.binary op lhs rhs) = .done (value, σ'))
    (bound : (Expr.binary op lhs rhs).Bound frame) (allowed : (Expr.binary op lhs rhs).Allowed)
    (start : Start lines frame base σ (p.room (fuel + 1)) ((Expr.binary op lhs rhs).code number)
      rest s) :
    ∃ s', Comes image frame base σ' [value.toBitVec] rest s s' := by
  obtain ⟨⟨a, σ₁⟩, left, eval⟩ := Outcome.bind_eq_done.mp eval
  obtain ⟨⟨b, σ₂⟩, right, eval⟩ := Outcome.bind_eq_done.mp eval
  obtain ⟨v, computed, eval⟩ := Outcome.bind_eq_done.mp eval
  cases eval
  have room := start.room
  rw [p.room_succ] at room
  have grows := p.room_succ fuel
  obtain ⟨s₁, c₁⟩ := ih.expr left bound.1 allowed.1 (start.left.left.weaken (by omega))
  obtain ⟨s₂, c₂⟩ := ih.expr right bound.2 allowed.2
    (start.left.right c₁ (by simp only [List.length_singleton]; omega))
  have both := c₁.trans c₂
  -- the right operand is the uppermost word
  obtain ⟨popped, rdi⟩ := both.pushed.pop (r := .rdi) (by decide) (by decide)
  obtain ⟨popped, rax⟩ := popped.pop (r := .rax) (by decide) (by decide)
  obtain ⟨s₃, run, same, result⟩ :=
    Op.effects_code (s := (s₂.pop .rdi).pop .rax) computed rax rdi
  have top := (popped.same same).top
  refine both.pushes ?_ (popped.same same) result ?_
  · rw [Instr.effects_append]
    exact run
  · simp only [List.length_nil] at top
    omega

/-- The address of a variable stays on the stack while its value is computed. -/
theorem expr_assign (ih : Simulation p image rounds fuel) {target e : Expr} {loc : Nat}
    {value : Int64}
    (eval : Expr.eval p rounds (fuel + 1) σ (.assign target e loc) = .done (value, σ'))
    (bound : (Expr.assign target e loc).Bound frame) (allowed : (Expr.assign target e loc).Allowed)
    (start : Start lines frame base σ (p.room (fuel + 1)) ((Expr.assign target e loc).code number)
      rest s) :
    ∃ s', Comes image frame base σ' [value.toBitVec] rest s s' := by
  cases target with
  | num | binary | assign | call => exact nomatch eval
  | var name offset at_ =>
    obtain ⟨⟨v, σ₁⟩, computed, eval⟩ := Outcome.bind_eq_done.mp eval
    cases eval
    have room := start.room
    rw [p.room_succ] at room
    have grows := p.room_succ fuel
    obtain ⟨slot, bound⟩ := bound
    obtain ⟨listed, rfl⟩ : name ∈ frame.names ∧ offset = frame.offset name := slot
    have begun := start.left.left.comes image
    obtain ⟨s₁, c₁⟩ : ∃ s', Comes image frame base σ
        [s.slot (frame.offset name)] _ s s' :=
      begun.pushes (c := [.slotAddress .rax (frame.offset name)])
        (t := s.set .rax (s.slot (frame.offset name))) rfl
        (begun.pushed.same ⟨rfl, rfl, rfl⟩) rfl (by show 8 ≤ s.top; omega)
    obtain ⟨s₂, c₂⟩ := ih.expr computed bound allowed.2
      (start.left.right c₁ (by simp only [List.length_singleton]; omega))
    have both := c₁.trans c₂
    obtain ⟨popped, rdi⟩ := both.pushed.pop (r := .rdi) (by decide) (by decide)
    obtain ⟨popped, rax⟩ := popped.pop (r := .rax) (by decide) (by decide)
    -- the address was computed before the value, for the frame that is still in place
    have stored := popped.assign listed value
    have address := start.inside.slot_eq listed
    refine both.pushes (c := [.pop .rdi, .pop .rax, .store .rax .rdi]) ?_ stored ?_ ?_
    · show some (State.poke _ _ _) = _
      rw [← address, ← rax, ← rdi]
      rfl
    · exact rdi
    · have top := stored.top
      simp only [List.length_nil] at top
      omega

/-- Arguments are pushed one after another, so the last one is on top. -/
theorem args_step (ih : Simulation p image rounds fuel) {args : List Expr} {values : List Int64}
    (eval : evalArgs p rounds (fuel + 1) σ args = .done (values, σ')) (bound : BoundArgs frame args)
    (allowed : AllowedArgs args)
    (start : Start lines frame base σ (p.room (fuel + 1)) (codeOfArgs number args) rest s) :
    ∃ s', Comes image frame base σ' (values.map Int64.toBitVec).reverse rest s s' := by
  have grows := p.room_succ fuel
  cases args with
  | nil =>
    cases eval
    exact ⟨s, start.comes image⟩
  | cons arg args =>
    obtain ⟨⟨value, σ₁⟩, first, eval⟩ := Outcome.bind_eq_done.mp eval
    obtain ⟨⟨values, σ₂⟩, others, eval⟩ := Outcome.bind_eq_done.mp eval
    cases eval
    obtain ⟨s₁, c₁⟩ := ih.expr first bound.1 allowed.1 (start.left.weaken (by omega))
    obtain ⟨s₂, c₂⟩ := ih.args others bound.2 allowed.2
      (start.right c₁ (by simp only [List.length_singleton]; omega))
    refine ⟨s₂, ?_⟩
    rw [List.map_cons, List.reverse_cons]
    exact c₁.trans c₂

/-! ## 2. Clauses -/

/-- The value of an expression that is only there for its effects is dropped. -/
theorem effect_comes (ih : Simulation p image rounds fuel) {e : Expr} {value : Int64}
    (eval : Expr.eval p rounds fuel σ e = .done (value, σ')) (bound : e.Bound frame)
    (allowed : e.Allowed)
    (start : Start lines frame base σ (p.room fuel) (e.effectCode number) rest s) :
    ∃ s', Comes image frame base σ' [] rest s s' := by
  obtain ⟨s₁, c₁⟩ := ih.expr eval bound allowed start.left
  exact ⟨_, c₁.straight rfl (c₁.pushed.raise rfl rfl rfl)⟩

/-- A branch jumps if the value of its test is zero. -/
theorem branch_comes (ih : Simulation p image rounds fuel) {e : Expr} {value : Int64}
    {target : Target} {dest : Listing} (eval : Expr.eval p rounds fuel σ e = .done (value, σ'))
    (bound : e.Bound frame) (allowed : e.Allowed)
    (landing : lines.startingAt? (.label target) = some dest)
    (start : Start lines frame base σ (p.room fuel) (e.branchCode number target) rest s) :
    ∃ s', Comes image frame base σ' [] (if value = 0 then dest else rest) s s' := by
  obtain ⟨s₁, c₁⟩ := ih.expr eval bound allowed start.left
  obtain ⟨popped, rax⟩ := c₁.pushed.pop (r := .rax) (by decide) (by decide)
  have compared : Comes image frame base σ' [] (.instr (.jumpEqual target) :: rest) s _ :=
    c₁.straight (c := [.pop .rax, .compareImm .rax 0]) rfl (popped.same ⟨rfl, rfl, rfl⟩)
  have jumped := compared.jumpEqual rfl landing
  have zero : (Flags.ofDifference ((s₁.pop .rax).reg .rax) (BitVec.ofNat 64 0)).zero =
      (value == 0) := by
    rw [rax]
    exact zero_ofDifference value 0
  rw [zero] at jumped
  simp only [beq_iff_eq] at jumped
  exact ⟨_, jumped⟩

/-- A clause that is absent has no effect. -/
theorem effect_step (ih : Simulation p image rounds fuel) {clause : Option Expr}
    {value : Option Int64} (eval : evalClause p rounds (fuel + 1) σ clause = .done (value, σ'))
    (bound : BoundClause frame clause) (allowed : AllowedClause clause)
    (start : Start lines frame base σ (p.room (fuel + 1)) (clause.elim [] (Expr.effectCode number))
      rest s) :
    ∃ s', Comes image frame base σ' [] rest s s' := by
  cases clause with
  | none =>
    cases eval
    exact ⟨s, start.comes image⟩
  | some e =>
    obtain ⟨⟨v, σ₁⟩, computed, eval⟩ := Outcome.bind_eq_done.mp eval
    cases eval
    have grows := p.room_succ fuel
    exact ih.effect_comes computed (bound e rfl) (allowed e rfl) (start.weaken (by omega))

/-- A test that is absent never jumps. -/
theorem test_step (ih : Simulation p image rounds fuel) {clause : Option Expr}
    {value : Option Int64} {target : Target} {dest : Listing}
    (eval : evalClause p rounds (fuel + 1) σ clause = .done (value, σ'))
    (bound : BoundClause frame clause) (allowed : AllowedClause clause)
    (landing : lines.startingAt? (.label target) = some dest)
    (start : Start lines frame base σ (p.room (fuel + 1))
      (clause.elim [] (·.branchCode number target)) rest s) :
    ∃ s', Comes image frame base σ' [] (if value = some 0 then dest else rest) s s' := by
  cases clause with
  | none =>
    cases eval
    exact ⟨s, start.comes image⟩
  | some e =>
    obtain ⟨⟨v, σ₁⟩, computed, eval⟩ := Outcome.bind_eq_done.mp eval
    cases eval
    have grows := p.room_succ fuel
    simp only [Option.some.injEq]
    exact ih.branch_comes computed (bound e rfl) (allowed e rfl) landing (start.weaken (by omega))

end Simulation

end StackCompiler
