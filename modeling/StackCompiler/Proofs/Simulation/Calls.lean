import Mathlib.Data.List.Nodup
import StackCompiler.Proofs.Simulation

/-!
# Calls

A call pops its arguments into registers and enters the function, which sets up a frame, stores
the arguments in it and, at the end, takes it down again.

Every call comes in two variants, of which the second one pads the stack. Which one runs is
decided by the stack pointer, and both leave the stack as they found it (`callCode_comes`).
-/

namespace StackCompiler

open Machine

variable {p : Program} {lines : Listing} {image : Image lines} {frame : Frame} {base : Nat}
  {σ σ' : Store} {rounds fuel number : Nat} {rest : Listing} {s s₁ : State}

/-! ## 1. The code of a call -/

/-- What is left of a call when the function has returned. -/
def afterCall (number : Nat) (rest : Listing) : Listing :=
  .label (.numbered .done number) :: (instrs [.push .rax] ++ rest)

/-- The variant of a call that pads the stack, and what comes after it. -/
def paddedCall (name : String) (number : Nat) (rest : Listing) : Listing :=
  .label (.numbered .padded number) :: (instrs [.subImm .rsp 8]
    ++ (instrs [.movImm .rax 0, .call name] ++ .instr (.addImm .rsp 8) :: afterCall number rest))

theorem callCode_append (name : String) (args number : Nat) (rest : Listing) :
    callCode name args number ++ rest =
      instrs ((argRegs.take args).reverse.map .pop ++ [.mov .rax .rsp, .andImm .rax 15])
        ++ .instr (.jumpNonzero (.numbered .padded number))
        :: (instrs [.movImm .rax 0, .call name]
          ++ .instr (.jump (.numbered .done number)) :: paddedCall name number rest) := by
  simp [callCode, paddedCall, afterCall, instrs]

theorem paddedCall_suffix (name : String) (args number : Nat) (rest : Listing) :
    paddedCall name number rest <:+ callCode name args number ++ rest := by
  rw [callCode_append]
  exact ((List.suffix_cons ..).trans (List.suffix_append ..)).trans
    ((List.suffix_cons ..).trans (List.suffix_append ..))

theorem afterCall_suffix (name : String) (number : Nat) (rest : Listing) :
    afterCall number rest <:+ paddedCall name number rest :=
  ((List.suffix_cons ..).trans (List.suffix_append ..)).trans
    ((List.suffix_append ..).trans (List.suffix_cons ..))

theorem ne_of_mem_argRegs {r : Reg} (h : r ∈ argRegs) : r ≠ .rax ∧ r ≠ .rsp ∧ r ≠ .rbp := by
  revert r
  decide

/-- Words that are popped in reverse order are the arguments in their registers. -/
theorem holdsArgs_of_popped {values : List Int64} (few : values.length ≤ argRegs.length)
    (h : ∀ pair ∈ (argRegs.take values.length).reverse.zip (values.map Int64.toBitVec).reverse,
      s.reg pair.1 = pair.2) : HoldsArgs values s := by
  rintro ⟨r, value⟩ hp
  apply h (r, value.toBitVec)
  have reversed : (argRegs.take values.length).reverse.zip (values.map Int64.toBitVec).reverse
      = ((argRegs.take values.length).zip (values.map Int64.toBitVec)).reverse :=
    (List.reverse_zipWith (by simp [few])).symm
  rw [List.zip_eq_zip_take_min, Nat.min_eq_right few, List.take_length] at hp
  rw [reversed, List.mem_reverse, List.zip_map_right]
  exact List.mem_map_of_mem hp

/-- A function that returns leaves the stack as it was before the call. -/
theorem Returned.pushed {e : State} {w : Word} {ws : List Word} {value : Int64}
    (back : Returned image value e s₁) (h : Pushed frame base σ s e (w :: ws)) :
    Pushed frame base σ s s₁ ws :=
  (h.above (t := s₁.set .rsp (e.reg .rsp)) rfl back.rbp back.kept).raise back.rsp rfl rfl

/-- The arguments of a call get into their registers, and the stack pointer decides which variant
of the call is next. -/
theorem chooses {name : String} {values : List Int64} (few : values.length ≤ argRegs.length)
    (landing : lines.startingAt? (.label (.numbered .padded number)) =
      some (paddedCall name number rest))
    (h : Comes image frame base σ (values.map Int64.toBitVec).reverse
      (callCode name values.length number ++ rest) s s₁) :
    ∃ s₂, HoldsArgs values s₂ ∧
      (Comes image frame base σ [] (instrs [.movImm .rax 0, .call name]
          ++ .instr (.jump (.numbered .done number)) :: paddedCall name number rest) s s₂ ∨
        Comes image frame base σ [] (paddedCall name number rest) s s₂) := by
  rw [callCode_append] at h
  have pushed := h.pushed
  rw [← List.append_nil (List.reverse _)] at pushed
  have not_listed : ∀ r, r ∉ argRegs → r ∉ (argRegs.take values.length).reverse := fun r hr h =>
    hr (List.mem_of_mem_take (List.mem_reverse.mp h))
  obtain ⟨s₂, run, popped, held, -⟩ := pushed.pops (argRegs.take values.length).reverse
    (by simp [few]) (List.nodup_reverse.mpr ((List.take_sublist ..).nodup (by decide)))
    (not_listed _ (by decide)) (not_listed _ (by decide))
  have tested := h.straight (t := ((s₂.set .rax (s₂.reg .rsp)).set .rax
      (s₂.reg .rsp &&& 15)).flag (some (.ofBits (s₂.reg .rsp &&& 15))))
    (by rw [Instr.effects_append, run]; rfl) (popped.same ⟨rfl, rfl, rfl⟩)
  have branched := tested.jumpNonzero rfl landing
  have holds := holdsArgs_of_popped few held
  split at branched
  · exact ⟨_, holds.congr fun r hr => by simp [ne_of_mem_argRegs hr], .inl branched⟩
  · exact ⟨_, holds.congr fun r hr => by simp [ne_of_mem_argRegs hr], .inr branched⟩

namespace Simulation

/-- The call itself comes back behind it, with the value of the function. -/
theorem called (ih : Simulation p image rounds fuel) (loaded : p.Loaded lines) {name : String}
    {values : List Int64} {value : Int64} {i : Instr} {ws : List Word}
    (eval : p.call rounds fuel name values = .done value) (suffix : .instr i :: rest <:+ lines)
    (h : Comes image frame base σ ws (instrs [.movImm .rax 0, .call name] ++ .instr i :: rest) s s₁)
    (holds : HoldsArgs values s₁) (room : p.room fuel + 8 ≤ s₁.top) :
    ∃ s₂, Comes image frame base σ ws (.instr i :: rest) s s₂ ∧ s₂.reg .rax = value.toBitVec := by
  obtain ⟨_, f, -, hf, rfl, -, -⟩ := p.exists_of_call eval
  obtain ⟨number, after, -, landing, -⟩ := loaded.entry hf
  have ready : Comes image frame base σ ws (.instr (.call f.name) :: .instr i :: rest) s _ :=
    h.straight (c := [.movImm .rax 0]) rfl (h.pushed.same ⟨rfl, rfl, rfl⟩)
  have enough : 8 ≤ s₁.top := by omega
  have step : image.step _ = some _ := Image.step_call ready.control enough landing
  have pushed := (ready.pushed.push enough (image.addressOf (.instr i :: rest))).goto
    (.here (.entry f.name :: (instrs f.enterCode
      ++ (codeOfBlock f.name number f.body ++ f.leaving after))))
  have top := pushed.top
  rw [List.length_cons] at top
  obtain ⟨s₂, reaches, back⟩ := ih.call eval landing (s := _) rfl pushed.inside.top_mod
    (by have := h.pushed.top; omega)
    (holds.congr fun r hr => by simp [ne_of_mem_argRegs hr])
  refine ⟨s₂, ⟨ready.reaches.trans (.step step reaches), ?_, back.pushed pushed⟩, back.value⟩
  rw [back.control, pushed.read_top, Image.arrival_addressOf suffix]

/-- The variant of a call that pads the stack. -/
theorem padded_comes (ih : Simulation p image rounds fuel) (loaded : p.Loaded lines) {name : String}
    {values : List Int64} {value : Int64} (eval : p.call rounds fuel name values = .done value)
    (suffix : paddedCall name number rest <:+ lines)
    (h : Comes image frame base σ [] (paddedCall name number rest) s s₁)
    (holds : HoldsArgs values s₁) (room : p.room fuel + 16 ≤ s.top) :
    ∃ s₂, Comes image frame base σ [] (afterCall number rest) s s₂ ∧
      s₂.reg .rax = value.toBitVec := by
  have top := h.pushed.top
  rw [List.length_nil] at top
  have enough : ¬ (Reg.rsp = Reg.rsp ∧ s₁.top < 8) := by omega
  have lowered : Instr.effects [.subImm .rsp 8] (s₁.goto (.here (instrs [.subImm .rsp 8]
        ++ (instrs [.movImm .rax 0, .call name]
          ++ .instr (.addImm .rsp 8) :: afterCall number rest))))
      = some (((s₁.set .rsp (s₁.reg .rsp - 8)).flag none).goto _) :=
    congrArg (fun o : Option State => o.bind (Instr.effects [])) (if_neg enough)
  have padded := h.pushed.lower (t := (s₁.set .rsp (s₁.reg .rsp - 8)).flag none) (by omega) rfl
    rfl fun _ _ => rfl
  have c₂ := (h.mark rfl).straight lowered (padded.goto _)
  have top := c₂.pushed.top
  rw [List.length_cons, List.length_nil] at top
  have next := (List.suffix_append ..).trans ((List.suffix_append ..).trans
    ((List.suffix_cons ..).trans suffix))
  obtain ⟨s₃, c₃, rax⟩ := ih.called loaded eval next c₂
    (holds.congr fun r hr => by simp [ne_of_mem_argRegs hr]) (by omega)
  exact ⟨_, c₃.straight (c := [.addImm .rsp 8]) rfl (c₃.pushed.raise rfl rfl rfl), rax⟩

/-- A call of a function on pushed arguments replaces them by the value of the function. -/
theorem callCode_comes (ih : Simulation p image rounds fuel) (loaded : p.Loaded lines)
    {name : String} {values : List Int64} {value : Int64}
    (eval : p.call rounds fuel name values = .done value)
    (few : values.length ≤ argRegs.length)
    (suffix : callCode name values.length number ++ rest <:+ lines)
    (h : Comes image frame base σ (values.map Int64.toBitVec).reverse
      (callCode name values.length number ++ rest) s s₁)
    (room : p.room fuel + 16 ≤ s.top) :
    ∃ s₂, Comes image frame base σ [value.toBitVec] rest s s₂ := by
  have padded_suffix := (paddedCall_suffix name values.length number rest).trans suffix
  have after_suffix := (afterCall_suffix name number rest).trans padded_suffix
  have padded_landing : lines.startingAt? (.label (.numbered .padded number)) =
      some (paddedCall name number rest) :=
    Listing.startingAt?_of_suffix loaded.distinct rfl padded_suffix
  have after_landing : lines.startingAt? (.label (.numbered .done number)) =
      some (afterCall number rest) :=
    Listing.startingAt?_of_suffix loaded.distinct rfl after_suffix
  -- both variants leave the value of the function in `rax`
  suffices ∃ s₂, Comes image frame base σ [] (afterCall number rest) s s₂ ∧
      s₂.reg .rax = value.toBitVec by
    obtain ⟨s₂, c₂, rax⟩ := this
    have top := c₂.pushed.top
    rw [List.length_nil] at top
    exact (c₂.mark rfl).pushes (c := []) rfl (c₂.pushed.goto _) rax (by show 8 ≤ s₂.top; omega)
  obtain ⟨s₂, holds, aligned | padded⟩ := chooses few padded_landing h
  · rw [callCode_append] at suffix
    have next := (List.suffix_append ..).trans ((List.suffix_cons ..).trans
      ((List.suffix_append ..).trans suffix))
    have top := aligned.pushed.top
    rw [List.length_nil] at top
    obtain ⟨s₃, c₃, rax⟩ := ih.called loaded eval next aligned holds (by omega)
    exact ⟨_, c₃.jump after_landing, rax⟩
  · exact ih.padded_comes loaded eval padded_suffix padded holds room

theorem expr_call (ih : Simulation p image rounds fuel) (loaded : p.Loaded lines) {name : String}
    {args : List Expr} {loc : Nat} {value : Int64}
    (eval : Expr.eval p rounds (fuel + 1) σ (.call name args loc) = .done (value, σ'))
    (bound : (Expr.call name args loc).Bound frame) (allowed : (Expr.call name args loc).Allowed)
    (start : Start lines frame base σ (p.room (fuel + 1)) ((Expr.call name args loc).code number)
      rest s) :
    ∃ s', Comes image frame base σ' [value.toBitVec] rest s s' := by
  obtain ⟨⟨values, σ₁⟩, operands, eval⟩ := Outcome.bind_eq_done.mp eval
  obtain ⟨v, called, eval⟩ := Outcome.bind_eq_done.mp eval
  cases eval
  have room := start.room
  have grows := p.room_succ fuel
  have few : args.length ≤ argRegs.length := allowed.1
  have start := start.left
  obtain ⟨s₁, c₁⟩ := ih.args operands bound allowed.2.2 (start.weaken (by omega))
  have suffix := (List.suffix_append ..).trans start.suffix
  rw [← length_of_evalArgs operands] at c₁ suffix few
  exact ih.callCode_comes loaded called few suffix c₁ (by omega)

end Simulation

/-! ## 2. Entering and leaving a function -/

/-- Reserving a frame lowers the stack pointer. -/
theorem effects_reserveCode (s : State) {size : Nat} (room : size ≤ s.top) :
    ∃ s', Instr.effects (reserveCode size) s = some s' ∧ s'.mem = s.mem ∧
      s'.reg .rsp = s.reg .rsp - BitVec.ofNat 64 size ∧ ∀ q, q ≠ .rsp → s'.reg q = s.reg q := by
  unfold reserveCode
  split
  · next zero =>
    subst zero
    exact ⟨s, rfl, rfl, by simp, fun _ _ => rfl⟩
  · have enough : ¬ (Reg.rsp = Reg.rsp ∧ s.top < size) := by omega
    refine ⟨(s.set .rsp (s.reg .rsp - BitVec.ofNat 64 size)).flag none, ?_, rfl, rfl, ?_⟩
    · exact congrArg (fun o : Option State => o.bind (Instr.effects [])) (if_neg enough)
    · intro q ne
      simp [ne]

/-- Arguments are stored as the values of the parameters. -/
theorem effects_storeArgs {params : List Slot} {regs : List Reg} {args : List Int64}
    (h : Pushed frame base σ s s₁ []) (bound : ∀ param ∈ params, param.Bound frame)
    (few : params.length ≤ regs.length) (enough : params.length ≤ args.length)
    (holds : ∀ pair ∈ regs.zip args, s₁.reg pair.1 = pair.2.toBitVec) :
    ∃ s', Instr.effects (List.zipWith (fun param reg => .storeSlot param.offset reg) params regs)
      s₁ = some s' ∧ Pushed frame base (σ.setArgs params args) s s' [] := by
  induction params generalizing regs args σ s₁ with
  | nil => exact ⟨s₁, rfl, h⟩
  | cons param params ih =>
    match regs, args, few, enough with
    | r :: regs, arg :: args, few, enough =>
      obtain ⟨listed, offset⟩ := bound param (List.mem_cons_self ..)
      have value := holds (r, arg) (List.mem_cons_self ..)
      have stored := h.assign listed arg
      rw [← h.inside.slot_eq listed, ← offset, ← value] at stored
      obtain ⟨s', run, pushed⟩ := ih stored (fun p hp => bound p (List.mem_cons_of_mem _ hp))
        (Nat.le_of_succ_le_succ few) (Nat.le_of_succ_le_succ enough)
        (fun pair hp => holds pair (List.mem_cons_of_mem _ hp))
      exact ⟨s', run, pushed⟩

/-- A function that was entered has an empty frame of its own directly below the saved `rbp`, which
is all that was written. The registers with the arguments are as they were. -/
theorem effects_openCode {frame : Frame} (aligned : s.top % 8 = 0) (room : frame.size + 8 ≤ s.top) :
    ∃ s', Instr.effects ([.push .rbp, .mov .rbp .rsp] ++ reserveCode frame.size) s = some s' ∧
      Inside frame (s.top - 8) Store.empty s' ∧ s'.top + frame.size + 8 = s.top ∧
      s'.mem = s.mem.write (s.reg .rsp - 8) (s.reg .rbp) ∧
      ∀ q, q ≠ .rsp → q ≠ .rbp → s'.reg q = s.reg q := by
  have size_mod := frame.size_mod
  have some_room : 8 ≤ s.top := by omega
  have place := State.toNat_pushed some_room
  let linked := (s.push (s.reg .rbp)).set .rbp (s.reg .rsp - 8)
  have linked_top : linked.top + 8 = s.top := place
  have link : Instr.effects [.push .rbp, .mov .rbp .rsp] s = some linked := by
    simp only [Instr.effects, Instr.effect, if_pos some_room, Option.bind_some]
    rfl
  have enough : frame.size ≤ linked.top := by omega
  obtain ⟨s', reserve, mem, rsp, others⟩ := effects_reserveCode linked enough
  have rbp : s'.reg .rbp = s.reg .rsp - 8 := others .rbp (by decide)
  have top : s'.top + frame.size = linked.top := by
    rw [State.top, rsp]
    exact State.toNat_rsp_sub enough
  have base : (s'.reg .rbp).toNat = s.top - 8 := by
    rw [rbp]
    omega
  refine ⟨s', ?_, ⟨base, by omega, by omega, by omega, fun _ _ unset => by cases unset⟩, by omega,
    mem, fun q hq hq' => ?_⟩
  · rw [Instr.effects_append, link, Option.bind_some, reserve]
  · rw [others q hq]
    simp [linked, hq, hq']

/-- A function that was entered has its parameters in a frame of its own, directly below the saved
`rbp`. Nothing above that is touched. -/
theorem effects_enterCode {f : Function} {args : List Int64} (bound : f.Bound)
    (few : f.params.length ≤ argRegs.length) (enough : f.params.length ≤ args.length)
    (holds : HoldsArgs args s) (aligned : s.top % 8 = 0) (room : f.frameSize + 8 ≤ s.top) :
    ∃ s', Instr.effects f.enterCode s = some s' ∧
      Inside f.frame (s.top - 8) (Store.empty.setArgs f.params args) s' ∧
      s'.top + f.frameSize + 8 = s.top ∧ s'.reg .rbp = s.reg .rsp - 8 ∧
      s'.mem.read (s.reg .rsp - 8) = s.reg .rbp ∧
      ∀ x : Word, s.top ≤ x.toNat → s'.mem x = s.mem x := by
  have size := bound.frameSize
  rw [size] at room
  have place := State.toNat_pushed (show 8 ≤ s.top by omega)
  obtain ⟨s₂, opened, inside, top, mem, others⟩ := effects_openCode aligned room
  have values : ∀ pair ∈ argRegs.zip args, s₂.reg pair.1 = pair.2.toBitVec := by
    intro pair hp
    have ne := ne_of_mem_argRegs (List.of_mem_zip hp).1
    rw [others _ ne.2.1 ne.2.2]
    exact holds pair hp
  obtain ⟨s', store, pushed⟩ :=
    effects_storeArgs (Pushed.refl inside) bound.params few enough values
  have base := pushed.inside.rbp
  have top' := pushed.top
  rw [List.length_nil] at top'
  refine ⟨s', ?_, pushed.inside, by omega, ?_, ?_, ?_⟩
  · rw [Function.enterCode, size, Instr.effects_append, opened, Option.bind_some, store]
  · apply BitVec.eq_of_toNat_eq
    omega
  · rw [pushed.kept.read (by omega) (by omega) (by omega), mem]
    exact Memory.read_write_same ..
  · intro x hx
    rw [pushed.kept x (by omega) (by omega), mem]
    exact Memory.write_outside (by omega) (by omega)

/-- Where a function returns, with its frame still in place, it takes that down and goes back. -/
theorem exists_returned {f : Function} {value : Int64} (here : s₁.control = .here (f.leaving rest))
    (link : s₁.reg .rbp = s.reg .rsp - 8) (saved : s₁.mem.read (s.reg .rsp - 8) = s.reg .rbp)
    (rax : s₁.reg .rax = value.toBitVec) (aligned : s.top % 8 = 0)
    (above : ∀ x : Word, s.top ≤ x.toNat → s₁.mem x = s.mem x) :
    ∃ s', image.Reaches s₁ s' ∧ Returned image value s s' := by
  have return_to : s₁.mem.read (s.reg .rsp) = s.mem.read (s.reg .rsp) :=
    Memory.read_congr aligned fun x hx _ => above x hx
  have rsp : s₁.reg .rbp + 8 = s.reg .rsp := by
    rw [link]
    exact BitVec.sub_add_cancel ..
  have unlink : Instr.effects [.mov .rsp .rbp, .pop .rbp] s₁ =
      some ((s₁.set .rsp (s₁.reg .rbp)).pop .rbp) := rfl
  have reaches : image.Reaches s₁ _ := .step (Image.step_mark here rfl) <|
    (Image.reaches_goto (.instr .ret :: rest) unlink).trans (.step (Image.step_ret rfl) .refl)
  refine ⟨_, reaches, ?_, rax, ?_, ?_, above⟩
  · show image.arrival (s₁.mem.read (s₁.reg .rbp + 8)) = _
    rw [rsp, return_to]
  · show s₁.reg .rbp + 8 + 8 = _
    rw [rsp]
  · show s₁.mem.read (s₁.reg .rbp) = _
    rw [link, saved]

namespace Simulation

/-- A call of a function returns the value that its body returns. -/
theorem call_step (ih : Simulation p image rounds fuel) (loaded : p.Loaded lines) {name : String}
    {args : List Int64} {value : Int64} {dest : Listing}
    (eval : p.call rounds (fuel + 1) name args = .done value)
    (landing : lines.startingAt? (.entry name) = some dest) (here : s.control = .here dest)
    (aligned : s.top % 8 = 0) (room : p.room (fuel + 1) ≤ s.top) (holds : HoldsArgs args s) :
    ∃ s', image.Reaches s s' ∧ Returned image value s s' := by
  obtain ⟨_, f, same, hf, rfl, enough, body⟩ := p.exists_of_call eval
  cases same
  obtain ⟨number, rest, suffix, entry, exit⟩ := loaded.entry hf
  rw [entry] at landing
  cases landing
  have grows := p.room_succ fuel
  have size_le := p.frameSize_le_largestFrame hf
  obtain ⟨s₂, enter, inside, top, rbp, saved, above⟩ := effects_enterCode (loaded.bound f hf)
    (loaded.allowed f hf).params enough holds aligned (by omega)
  have entered : image.Reaches s (s₂.goto _) :=
    .step (Image.step_mark here rfl) (Image.reaches_goto _ enter)
  have start : Start lines f.frame (s.top - 8) (Store.empty.setArgs f.params args) (p.room fuel)
      (codeOfBlock f.name number f.body) (f.leaving rest) (s₂.goto (.here
        (codeOfBlock f.name number f.body ++ f.leaving rest))) :=
    ⟨suffix, rfl, (Pushed.refl inside).goto _ |>.inside, by show _ ≤ s₂.top; omega⟩
  obtain ⟨σ, s₃, c₃, rax⟩ := ih.block body (loaded.bound f hf).body (loaded.allowed f hf).body exit
    start
  -- the frame is still where it was, so the saved `rbp` and the return address are found
  have place := State.toNat_pushed (s := s) (by omega)
  have base := c₃.pushed.inside.rbp
  have link : s₃.reg .rbp = s.reg .rsp - 8 := by
    apply BitVec.eq_of_toNat_eq
    omega
  have restored : s₃.mem.read (s.reg .rsp - 8) = s.reg .rbp := by
    rw [c₃.pushed.kept.read (by omega) (by show s₂.top ≤ _; omega) (by omega)]
    exact saved
  obtain ⟨s', left, returned⟩ := exists_returned c₃.control link restored rax aligned fun x hx => by
    rw [c₃.pushed.kept x (by show s₂.top ≤ _; omega) (by omega)]
    exact above x hx
  exact ⟨s', entered.trans (c₃.reaches.trans left), returned⟩

end Simulation

end StackCompiler
