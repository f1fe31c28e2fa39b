import StackCompiler.Proofs.Evaluation
import StackCompiler.Proofs.Layout

/-!
# Layouts of code

All code is laid out: the code of an expression adds a word to whatever waits on the stack
(`Expr.laid`), the code of a statement leaves an empty stack empty (`Stmt.laid`), and the code of a
function sets up a frame and takes it down (`Function.exists_flow`). This holds of every function
whose variables are bound to its frame, whatever values they have.
-/

namespace StackCompiler

variable {frame : Frame} {size : Nat} {plan : Plan} {outer : Landings} {cells : List Cell}

/-! ## 1. Expressions -/

/-- Quiet instructions do not move the stack. -/
theorem Flow.quiet {is : List Instr} (h : ∀ i ∈ is, i.isQuiet) :
    Flow plan ⟨size, .body .nothing cells⟩ (instrs is) ⟨size, .body .nothing cells⟩ := by
  induction is with
  | nil => exact .nil
  | cons i is ih =>
    rw [List.forall_mem_cons] at h
    exact .instr (.quiet h.1) (ih h.2)

theorem Op.isQuiet_code (op : Op) : ∀ i ∈ op.code, i.isQuiet := by
  cases op <;> decide

/-- Arguments are popped from the stack, whatever comes next. -/
theorem Flow.pops {rs : List Reg} {rest : Listing} {last : Layout} (known : Known)
    (rsp : .rsp ∉ rs) (rbp : .rbp ∉ rs)
    (next : ∀ known, Flow plan ⟨size, .body known cells⟩ rest last) :
    Flow plan ⟨size, .body known (List.replicate rs.length .word ++ cells)⟩
      (instrs (rs.map .pop) ++ rest) last := by
  induction rs generalizing known with
  | nil => exact next known
  | cons r rs ih =>
    simp only [List.mem_cons, not_or] at rsp rbp
    exact .instr (.pop (Ne.symm rsp.1) (Ne.symm rbp.1)) (ih .nothing rsp.2 rbp.2)

theorem callCode_laid (name : String) {args : Nat} (few : args ≤ argRegs.length) (number : Nat)
    (known : Known) (outer : Landings) :
    Laid outer ⟨size, .body known (List.replicate args .word ++ cells)⟩ (callCode name args number)
      ⟨size, .body .nothing (.word :: cells)⟩ := by
  have listed : ∀ r, r ∉ argRegs → r ∉ (argRegs.take args).reverse := fun r hr h =>
    hr (List.mem_of_mem_take (List.mem_reverse.mp h))
  have length : (argRegs.take args).reverse.length = args := by simp [few]
  -- both variants end at the second label; only the test leads to the first one
  let behind : Landings := (.numbered .done number, ⟨size, .body .nothing cells⟩) :: outer
  let inside : Landings := (.numbered .padded number, ⟨size, .body .unaligned cells⟩) :: behind
  have chooses : Laid inside ⟨size, .body known (List.replicate args .word ++ cells)⟩
      (instrs ((argRegs.take args).reverse.map .pop) ++ instrs [.mov .rax .rsp, .andImm .rax 15,
        .jumpNonzero (.numbered .padded number), .movImm .rax 0, .call name,
        .jump (.numbered .done number)]) ⟨size, .body .gone cells⟩ := by
    refine ⟨[], by simp, fun plan follows => ?_⟩
    have padded := follows (.numbered .padded number, _) (List.mem_cons_self ..)
    have done :=
      follows (.numbered .done number, _) (List.mem_cons_of_mem _ (List.mem_cons_self ..))
    have branch : ∀ known, Flow plan ⟨size, .body known cells⟩ (instrs [.mov .rax .rsp,
        .andImm .rax 15, .jumpNonzero (.numbered .padded number), .movImm .rax 0, .call name,
        .jump (.numbered .done number)]) ⟨size, .body .gone cells⟩ := fun known =>
      .instr .copyTop <| .instr .test <| .instr (.jumpNonzero padded) <|
        .instr (.quietAligned rfl) <| .instr .call <| .instr (.jump done) .nil
    have popped := Flow.pops known (listed _ (by decide)) (listed _ (by decide)) branch
    rwa [length] at popped
  have padded : Laid inside ⟨size, .body .unaligned cells⟩
      (instrs [.subImm .rsp 8, .movImm .rax 0, .call name, .addImm .rsp 8])
      ⟨size, .body .nothing cells⟩ :=
    .instrs fun plan _ => .instr .pad <| .instr (.quietAligned rfl) <| .instr .call <|
      .instr .drop .nil
  have pushes : Laid behind ⟨size, .body .nothing cells⟩ (instrs [.push .rax])
      ⟨size, .body .nothing (.word :: cells)⟩ :=
    .instrs fun plan _ => .instr (.push (by decide)) .nil
  exact (chooses.join padded nofun (.inr rfl)).join pushes nofun (.inl rfl)

mutual

/-- The code of an expression adds a word to the stack. -/
theorem Expr.laid (e : Expr) (bound : e.Bound frame) (allowed : e.Allowed) (number : Nat)
    (known : Known) (cells : List Cell) (outer : Landings) :
    Laid outer ⟨frame.size, .body known cells⟩ (e.code number)
      ⟨frame.size, .body .nothing (.word :: cells)⟩ := by
  cases e with
  | num value =>
    exact .instrs fun plan _ => .instr (.quiet rfl) <| .instr (.push (by decide)) .nil
  | var name offset loc =>
    exact .instrs fun plan _ => .instr (.quiet rfl) <| .instr (.push (by decide)) .nil
  | binary op lhs rhs =>
    have left := lhs.laid bound.1 allowed.1 number known cells outer
    have right := rhs.laid bound.2 allowed.2 (number + lhs.labels) .nothing (.word :: cells) outer
    refine (left.append right).append (.instrs fun plan _ => ?_)
    rw [List.append_assoc]
    have operate : Flow plan ⟨frame.size, .body .nothing cells⟩ (instrs (op.code ++ [.push .rax]))
        ⟨frame.size, .body .nothing (.word :: cells)⟩ := by
      rw [instrs, List.map_append]
      exact (Flow.quiet op.isQuiet_code).append (.instr (.push (by decide)) .nil)
    exact .instr (.pop (by decide) (by decide)) <| .instr (.pop (by decide) (by decide)) operate
  | assign target value loc =>
    cases target with
    | num | binary | assign | call => exact nomatch allowed.1
    | var name offset at_ =>
      obtain ⟨listed, rfl⟩ : name ∈ frame.names ∧ offset = frame.offset name := bound.1
      have slot := IsOffset.of_mem listed
      have address : Laid outer ⟨frame.size, .body known cells⟩
          (instrs (Expr.addressCode (.var name (frame.offset name) at_)))
          ⟨frame.size, .body .nothing (.slot (frame.offset name) :: cells)⟩ :=
        .instrs fun plan _ => .instr (.address slot) <| .instr .pushAddress .nil
      have operand := value.laid bound.2 allowed.2 number .nothing
        (.slot (frame.offset name) :: cells) outer
      exact (address.append operand).append (.instrs fun plan _ =>
        .instr (.pop (by decide) (by decide)) <| .instr .popAddress <| .instr .store <|
          .instr (.push (by decide)) .nil)
  | call name args loc =>
    obtain ⟨known', operands⟩ := laidArgs args bound allowed.2.2 number known cells outer
    exact operands.append (callCode_laid name allowed.1 _ known' outer)

/-- The code of arguments adds a word for each of them. -/
theorem laidArgs (args : List Expr) (bound : BoundArgs frame args) (allowed : AllowedArgs args)
    (number : Nat) (known : Known) (cells : List Cell) (outer : Landings) :
    ∃ known', Laid outer ⟨frame.size, .body known cells⟩ (codeOfArgs number args)
      ⟨frame.size, .body known' (List.replicate args.length .word ++ cells)⟩ := by
  cases args with
  | nil => exact ⟨known, .nil⟩
  | cons arg args =>
    have first := arg.laid bound.1 allowed.1 number known cells outer
    obtain ⟨known', others⟩ := laidArgs args bound.2 allowed.2 (number + arg.labels) .nothing
      (.word :: cells) outer
    refine ⟨known', ?_⟩
    rw [List.length_cons, List.replicate_succ', List.append_assoc]
    exact first.append others

end

/-- The code of an expression of which only the effects matter leaves the stack as it was. -/
theorem Expr.laid_effectCode (e : Expr) (bound : e.Bound frame) (allowed : e.Allowed)
    (number : Nat) (known : Known) (cells : List Cell) (outer : Landings) :
    Laid outer ⟨frame.size, .body known cells⟩ (e.effectCode number)
      ⟨frame.size, .body .nothing cells⟩ :=
  (e.laid bound allowed number known cells outer).append (.instrs fun _ _ => .instr .drop .nil)

/-- A branch jumps and goes on with the stack as it was. -/
theorem Expr.laid_branchCode (e : Expr) (bound : e.Bound frame) (allowed : e.Allowed)
    (number : Nat) (known : Known) (cells : List Cell) {outer : Landings} {target : Target}
    (landing : (target, ⟨frame.size, .body .nothing cells⟩) ∈ outer) :
    Laid outer ⟨frame.size, .body known cells⟩ (e.branchCode number target)
      ⟨frame.size, .body .nothing cells⟩ :=
  (e.laid bound allowed number known cells outer).append (.instrs fun _ follows =>
    .instr (.pop (by decide) (by decide)) <| .instr (.quiet rfl) <|
      .instr (.jumpEqual (follows _ landing)) .nil)

/-! ## 2. Statements -/

/-- Nothing is known, or no run gets here. -/
def Known.IsCalm (known : Known) : Prop :=
  known = .nothing ∨ known = .gone

/-- A clause that may be absent leaves the stack as it was. -/
theorem laid_clause {clause : Option Expr} {code : Expr → List Line} {known : Known}
    (calm : known.IsCalm) (h : ∀ e, clause = some e →
      Laid outer ⟨size, .body known cells⟩ (code e) ⟨size, .body .nothing cells⟩) :
    ∃ known' : Known, known'.IsCalm ∧
      Laid outer ⟨size, .body known cells⟩ (clause.elim [] code) ⟨size, .body known' cells⟩ := by
  cases clause with
  | none => exact ⟨known, calm, .nil⟩
  | some e => exact ⟨.nothing, .inl rfl, h e rfl⟩

mutual

/-- The code of a statement leaves the stack as it was, with nothing on it. -/
theorem Stmt.laid (s : Stmt) (bound : s.Bound frame) (allowed : s.Allowed) (function : String)
    (number : Nat) {known : Known} (calm : known.IsCalm) (outer : Landings)
    (leave : (.exit function, ⟨frame.size, .body .nothing []⟩) ∈ outer) :
    ∃ known' : Known, known'.IsCalm ∧ Laid outer ⟨frame.size, .body known []⟩
      (s.code function number) ⟨frame.size, .body known' []⟩ := by
  match s with
  | .ret value =>
    refine ⟨.gone, .inr rfl, (value.laid bound allowed number known [] outer).append
      (.instrs fun plan follows => ?_)⟩
    exact .instr (.pop (by decide) (by decide)) <| .instr (.jump (follows _ leave)) .nil
  | .expr e => exact ⟨.nothing, .inl rfl, e.laid_effectCode bound allowed number known [] outer⟩
  | .block body => exact laidBlock body bound allowed function number calm outer leave
  | .cond test yes none =>
    let behind : Landings := (.numbered .done number, ⟨frame.size, .body .nothing []⟩) :: outer
    have first : Laid behind _ _ _ := test.laid_branchCode bound.1 allowed.1 (number + 1) known
      [] (List.mem_cons_self ..)
    obtain ⟨known', calm', second⟩ := yes.laid bound.2 allowed.2 function
      (number + 1 + test.labels) (.inl rfl) behind (List.mem_cons_of_mem _ leave)
    exact ⟨.nothing, .inl rfl, (first.append second).join .nil nofun calm'⟩
  | .cond test yes (some no) =>
    let behind : Landings := (.numbered .done number, ⟨frame.size, .body .nothing []⟩) :: outer
    let inside : Landings :=
      (.numbered .otherwise number, ⟨frame.size, .body .nothing []⟩) :: behind
    have leave_behind : (.exit function, ⟨frame.size, .body .nothing []⟩) ∈ behind :=
      List.mem_cons_of_mem _ leave
    have leave_inside : (.exit function, ⟨frame.size, .body .nothing []⟩) ∈ inside :=
      List.mem_cons_of_mem _ leave_behind
    have first : Laid inside _ _ _ := test.laid_branchCode bound.1 allowed.1 (number + 1) known
      [] (List.mem_cons_self ..)
    obtain ⟨known₁, _, second⟩ := yes.laid bound.2.1 allowed.2.1 function
      (number + 1 + test.labels) (.inl rfl) inside leave_inside
    have skip : Laid inside ⟨frame.size, .body known₁ []⟩ (instrs [.jump (.numbered .done number)])
        ⟨frame.size, .body .gone []⟩ :=
      .instrs fun plan follows =>
        .instr (.jump (follows _ (List.mem_cons_of_mem _ (List.mem_cons_self ..)))) .nil
    obtain ⟨known₂, calm₂, third⟩ := no.laid bound.2.2 allowed.2.2 function
      (number + 1 + test.labels + yes.labels) (.inl rfl) inside leave_inside
    -- the alternative is come to by the branch alone, its end by both
    have both := ((first.append second).append skip).join third nofun (.inr rfl)
    exact ⟨.nothing, .inl rfl, both.join .nil nofun calm₂⟩
  | .loop start test next body =>
    let behind : Landings := (.numbered .done number, ⟨frame.size, .body .nothing []⟩) :: outer
    let inside : Landings := (.numbered .again number, ⟨frame.size, .body .nothing []⟩) :: behind
    have leave_inside : (.exit function, ⟨frame.size, .body .nothing []⟩) ∈ inside :=
      List.mem_cons_of_mem _ (List.mem_cons_of_mem _ leave)
    have done_inside : (.numbered .done number, ⟨frame.size, .body .nothing []⟩) ∈ inside :=
      List.mem_cons_of_mem _ (List.mem_cons_self ..)
    obtain ⟨known₁, calm₁, first⟩ := laid_clause calm fun e he =>
      e.laid_effectCode (bound.1 e he) (allowed.1 e he) (number + 1) known [] inside
    let second := number + 1 + labelsOfClause start
    let third := second + labelsOfClause test
    obtain ⟨known₂, calm₂, tests⟩ := laid_clause (.inl rfl) fun e he =>
      e.laid_branchCode (bound.2.1 e he) (allowed.2.1 e he) second .nothing [] done_inside
    obtain ⟨known₃, calm₃, runs⟩ := body.laid bound.2.2.2 allowed.2.2.2 function third calm₂ inside
      leave_inside
    obtain ⟨known₄, calm₄, steps⟩ := laid_clause calm₃ fun e he =>
      e.laid_effectCode (bound.2.2.1 e he) (allowed.2.2.1 e he) (third + body.labels) known₃ []
        inside
    have repeats : Laid inside ⟨frame.size, .body known₄ []⟩
        (instrs [.jump (.numbered .again number)]) ⟨frame.size, .body .gone []⟩ :=
      .instrs fun plan follows => .instr (.jump (follows _ (List.mem_cons_self ..))) .nil
    -- the jump back finds at the label what was assumed there for the first round
    have rounds := first.join (((tests.append runs).append steps).append repeats) nofun calm₁
    refine ⟨.nothing, .inl rfl, ?_⟩
    have whole := rounds.join .nil nofun (.inr rfl)
    simpa only [Stmt.code, List.append_assoc, List.cons_append] using whole

/-- The code of a block leaves the stack as it was, with nothing on it. -/
theorem laidBlock (body : List Stmt) (bound : BoundBlock frame body) (allowed : AllowedBlock body)
    (function : String) (number : Nat) {known : Known} (calm : known.IsCalm) (outer : Landings)
    (leave : (.exit function, ⟨frame.size, .body .nothing []⟩) ∈ outer) :
    ∃ known' : Known, known'.IsCalm ∧ Laid outer ⟨frame.size, .body known []⟩
      (codeOfBlock function number body) ⟨frame.size, .body known' []⟩ := by
  match body with
  | [] => exact ⟨known, calm, .nil⟩
  | s :: rest =>
    obtain ⟨known₁, calm₁, first⟩ := s.laid bound.1 allowed.1 function number calm outer leave
    obtain ⟨known₂, calm₂, others⟩ := laidBlock rest bound.2 allowed.2 function
      (number + s.labels) calm₁ outer leave
    exact ⟨known₂, calm₂, first.append others⟩

end

/-! ## 3. Functions and programs -/

/-- Storing parameters does not move the stack. -/
theorem Flow.storeArgs {params : List Slot} (regs : List Reg)
    (bound : ∀ param ∈ params, param.Bound frame) :
    Flow plan ⟨frame.size, .body .nothing []⟩
      (instrs (List.zipWith (fun param reg => .storeSlot param.offset reg) params regs))
      ⟨frame.size, .body .nothing []⟩ := by
  induction params generalizing regs with
  | nil => exact .nil
  | cons param params ih =>
    cases regs with
    | nil => exact .nil
    | cons r regs =>
      obtain ⟨listed, offset⟩ := bound param (List.mem_cons_self ..)
      have slot := IsOffset.of_mem listed
      rw [← offset] at slot
      exact .instr (.storeSlot slot) (ih regs fun p hp => bound p (List.mem_cons_of_mem _ hp))

namespace Function

/-- Entering a function sets up its frame. -/
theorem flow_enterCode {f : Function} (bound : f.Bound) :
    Flow plan ⟨f.frameSize, .entered⟩ (instrs f.enterCode) ⟨f.frameSize, .body .nothing []⟩ := by
  have store : Flow plan _ _ _ := Flow.storeArgs argRegs bound.params
  rw [← bound.frameSize] at store
  rw [enterCode, instrs, List.map_append, List.map_append]
  refine Flow.append ?_ store
  by_cases empty : f.frameSize = 0
  · rw [reserveCode, if_pos empty]
    exact .instr .link <| .instr (.baseEmpty empty) .nil
  · rw [reserveCode, if_neg empty]
    exact .instr .link <| .instr .base <| .instr .reserve .nil

/-- The code of a function sets up a frame and takes it down. -/
theorem exists_flow {f : Function} (bound : f.Bound) (allowed : f.Allowed) (number : Nat) :
    ∃ own : Landings, own.map (·.1) = Listing.labels (f.code number) ∧
      ∀ plan : Plan, plan.Follows own → plan.size f.name = f.frameSize → ∀ size,
        Flow plan ⟨size, .outside⟩ (f.code number) ⟨f.frameSize, .outside⟩ := by
  let behind : Landings := [(.exit f.name, ⟨f.frameSize, .body .nothing []⟩)]
  have enter : Laid behind ⟨f.frameSize, .entered⟩ _ _ :=
    .instrs fun plan _ => flow_enterCode bound
  have inside := laidBlock f.body bound.body allowed.body f.name number (.inl rfl) behind
  rw [← bound.frameSize] at inside
  obtain ⟨known, calm, body⟩ := inside (List.mem_cons_self ..)
  have leave : Laid behind ⟨f.frameSize, .body .nothing []⟩
      (instrs [.mov .rsp .rbp, .pop .rbp, .ret]) ⟨f.frameSize, .outside⟩ :=
    .instrs fun plan _ => .instr .unreserve <| .instr .unlink <| .instr .ret .nil
  obtain ⟨own, keys, flow⟩ := (enter.append body).join leave nofun calm
  have code_eq : f.code number = .exported f.name :: .entry f.name :: (instrs f.enterCode
      ++ codeOfBlock f.name number f.body ++ .label (.exit f.name)
      :: instrs [.mov .rsp .rbp, .pop .rbp, .ret]) := by
    simp only [code, List.append_assoc, List.cons_append, List.nil_append]
  refine ⟨own, by rw [code_eq]; exact keys, fun plan follows sized size => ?_⟩
  have entered := flow plan (by rwa [List.append_nil])
  rw [← sized] at entered
  rw [code_eq, ← sized]
  exact .cons .exported <| .cons (.entry (.inl rfl)) entered

end Function

namespace Program

/-- Functions one after another. -/
theorem exists_flow_sections {p : Program} (bound : ∀ f ∈ p, f.Bound) (allowed : ∀ f ∈ p, f.Allowed)
    (number : Nat) :
    ∃ own : Landings, own.map (·.1) = Listing.labels (p.sections number) ∧
      ∀ plan : Plan, plan.Follows own → (∀ f ∈ p, plan.size f.name = f.frameSize) → ∀ size,
        ∃ last, Flow plan ⟨size, .outside⟩ (p.sections number) ⟨last, .outside⟩ := by
  induction p generalizing number with
  | nil => exact ⟨[], rfl, fun plan _ _ size => ⟨size, .nil⟩⟩
  | cons f rest ih =>
    rw [List.forall_mem_cons] at bound allowed
    obtain ⟨own, keys, flow⟩ := Function.exists_flow bound.1 allowed.1 number
    obtain ⟨others, keys', flows⟩ := ih bound.2 allowed.2 (number + f.labels)
    refine ⟨own ++ others, ?_, fun plan follows sized size => ?_⟩
    · rw [sections, List.map_append, Listing.labels_append, keys, keys']
    · rw [List.forall_mem_cons] at sized
      have first := flow plan (follows.of_subset (List.subset_append_left ..)) sized.1 size
      obtain ⟨last, second⟩ :=
        flows plan (follows.of_subset (List.subset_append_right ..)) sized.2 f.frameSize
      exact ⟨last, first.append second⟩

/-- The size of the frame of the function that a name stands for. -/
def frameSizeOf (p : Program) (name : String) : Nat :=
  (p.function? name).elim 0 (·.frameSize)

theorem frameSizeOf_eq {p : Program} (distinct : (p.map (·.name)).Nodup) {f : Function}
    (hf : f ∈ p) : p.frameSizeOf f.name = f.frameSize := by
  rw [frameSizeOf, function?_of_mem distinct hf]
  rfl

/-- The listing of a program flows from its first line to its last one. -/
theorem exists_flow {p : Program} (distinct : (p.map (·.name)).Nodup) (bound : ∀ f ∈ p, f.Bound)
    (allowed : ∀ f ∈ p, f.Allowed) (number : Nat) :
    ∃ (plan : Plan) (last : Nat), plan.size = p.frameSizeOf ∧
      Flow plan ⟨0, .outside⟩ (p.listing number) ⟨last, .outside⟩ := by
  obtain ⟨own, keys, flows⟩ := exists_flow_sections bound allowed number
  have labels : (own.map (·.1)).Nodup := by
    rw [keys]
    exact Listing.nodup_labels (p.nodup_marks_listing number distinct)
  obtain ⟨plan, follows, sized⟩ := Plan.exists_follows labels p.frameSizeOf
  obtain ⟨last, flow⟩ := flows plan follows
    (fun f hf => by rw [sized, frameSizeOf_eq distinct hf]) 0
  exact ⟨plan, last, sized, .cons .dialect flow⟩

end Program

end StackCompiler
