import StackCompiler.Proofs.Layout
import StackCompiler.Proofs.Machine.Activations
import StackCompiler.Proofs.Machine.Stack

/-!
# The discipline of the stack

A layout is a statement about the machine: it tells what the stack looks like in a state of an
activation, compared with the state in which that was entered (`Layout.Holds`). Instructions keep
these statements true (`Instr.Leads.holds_of_effect`), and they write only where the layout allows
it (`Instr.Leads.mayWrite`). Nothing is assumed about the values that the program computes.
-/

namespace StackCompiler

open Machine

/-! ## 1. What layouts say -/

/-- What is known of registers and flags. -/
def Known.Holds (size : Nat) (s : State) : Known → Prop
  | .nothing | .back => True
  | .address offset => IsOffset size offset ∧ (s.reg .rax).toNat + offset = (s.reg .rbp).toNat
  | .top => s.reg .rax = s.reg .rsp
  | .tested => ∃ f, s.flags = some f ∧ (f.zero = true ↔ s.top % 16 = 0)
  | .aligned => s.top % 16 = 0
  | .unaligned => s.top % 16 = 8
  | .gone => False

/-- The frame of an activation that was entered in the state `e` is set up, and `cells` wait on the
stack below it. -/
structure SetUp (size : Nat) (cells : List Cell) (e s : State) : Prop where
  rbp : (s.reg .rbp).toNat + 8 = e.top
  top : s.top + 8 * cells.length + size + 8 = e.top
  saved : s.mem.read (s.reg .rbp) = e.reg .rbp
  slots : ∀ (n offset : Nat), cells[n]? = some (.slot offset) → IsOffset size offset ∧
    (s.mem.read (BitVec.ofNat 64 (s.top + 8 * n))).toNat + offset = (s.reg .rbp).toNat

/-- What a phase says about a state `s` of an activation that was entered in the state `e`. -/
def Phase.Holds (size : Nat) (e s : State) : Phase → Prop
  | .outside => False
  | .entered | .unlinked => s.reg .rsp = e.reg .rsp ∧ s.reg .rbp = e.reg .rbp
  | .linked => s.top + 8 = e.top ∧ s.reg .rbp = e.reg .rbp ∧
    s.mem.read (s.reg .rsp) = e.reg .rbp
  | .based => s.top + 8 = e.top ∧ s.reg .rbp = s.reg .rsp ∧
    s.mem.read (s.reg .rsp) = e.reg .rbp
  | .body known cells => SetUp size cells e s ∧ known.Holds size s

/-- What a layout says about a state `s` of an activation that was entered in the state `e`. -/
structure Layout.Holds (layout : Layout) (e s : State) : Prop where
  size_mod : layout.size % 8 = 0
  entry_mod : e.top % 8 = 0
  kept : ∀ x : Word, e.top ≤ x.toNat → s.mem x = e.mem x
  phase : layout.phase.Holds layout.size e s

variable {size : Nat} {cells : List Cell} {e s s' : State}

namespace SetUp

theorem base_lt (h : SetUp size cells e s) : s.top + size < 18446744073709551616 := by
  have := (s.reg .rbp).isLt
  have := h.rbp
  have := h.top
  omega

theorem size_le (h : SetUp size cells e s) : s.top + size ≤ (s.reg .rbp).toNat := by
  have rbp := h.rbp
  have top := h.top
  omega

theorem top_mod (h : SetUp size cells e s) (size_mod : size % 8 = 0) (entry_mod : e.top % 8 = 0) :
    s.top % 8 = 0 := by
  have top := h.top
  omega

/-- The address that code computes for a slot. -/
theorem toNat_slot {offset : Nat} (h : SetUp size cells e s) (is_offset : IsOffset size offset) :
    (s.slot offset).toNat + offset = (s.reg .rbp).toNat := by
  have below := h.size_le
  have le := is_offset.le_size
  simp only [State.slot]
  bv_omega

/-- Words may be taken off the stack, and slots and what is below the stack do not matter. -/
theorem drop (h : SetUp size cells e s) {dropped cells' : List Cell} (size_mod : size % 8 = 0)
    (entry_mod : e.top % 8 = 0) (split : cells = dropped ++ cells')
    (rbp : s'.reg .rbp = s.reg .rbp) (top : s'.top = s.top + 8 * dropped.length)
    (kept : Kept s.top (s.reg .rbp).toNat size s.mem s'.mem) : SetUp size cells' e s' := by
  subst split
  have below := h.top
  have base := h.rbp
  rw [List.length_append] at below
  refine ⟨by rw [rbp, base], by omega, ?_, fun n offset slot => ?_⟩
  · rw [rbp, kept.read (by omega) (by omega) (by omega), h.saved]
  · have later : (dropped ++ cells')[dropped.length + n]? = some (.slot offset) := by
      rw [List.getElem?_append_right (by omega)]
      simpa using slot
    have length := (List.getElem?_eq_some_iff.mp later).1
    rw [List.length_append] at length
    obtain ⟨is_offset, points⟩ := h.slots _ _ later
    have place := toNat_ofNat_of_le (a := s.top + 8 * (dropped.length + n)) (w := s.reg .rbp)
      rfl (by omega)
    refine ⟨is_offset, ?_⟩
    rw [rbp, ← points, show s'.top + 8 * n = s.top + 8 * (dropped.length + n) by omega,
      kept.read (by omega) (by omega) (by omega)]

/-- A word may be put on the stack. -/
theorem cons (h : SetUp size cells e s) {cell : Cell} (size_mod : size % 8 = 0)
    (entry_mod : e.top % 8 = 0) (rbp : s'.reg .rbp = s.reg .rbp) (top : s'.top + 8 = s.top)
    (kept : Kept s.top (s.reg .rbp).toNat size s.mem s'.mem)
    (points : ∀ offset, cell = .slot offset → IsOffset size offset ∧
      (s'.mem.read (s'.reg .rsp)).toNat + offset = (s.reg .rbp).toNat) :
    SetUp size (cell :: cells) e s' := by
  have below := h.top
  have base := h.rbp
  refine ⟨by rw [rbp, base], by rw [List.length_cons]; omega, ?_, fun n offset slot => ?_⟩
  · rw [rbp, kept.read (by omega) (by omega) (by omega), h.saved]
  · cases n with
    | zero =>
      rw [Nat.mul_zero, Nat.add_zero, s'.ofNat_top, rbp]
      exact points offset (Option.some.inj slot)
    | succ n =>
      rw [List.getElem?_cons_succ] at slot
      have length := (List.getElem?_eq_some_iff.mp slot).1
      obtain ⟨is_offset, points⟩ := h.slots _ _ slot
      have place := toNat_ofNat_of_le (a := s.top + 8 * n) (w := s.reg .rbp) rfl (by omega)
      refine ⟨is_offset, ?_⟩
      rw [rbp, ← points, show s'.top + 8 * (n + 1) = s.top + 8 * n by omega,
        kept.read (by omega) (by omega) (by omega)]

end SetUp

/-! ## 2. Instructions -/

namespace Instr

variable {i : Instr}

theorem effect_push {r : Reg} (run : (Instr.push r).effect s = some s') :
    8 ≤ s.top ∧ s' = s.push (s.reg r) := by
  simp only [effect] at run
  split at run
  · next room =>
    cases run
    exact ⟨room, rfl⟩
  · cases run

theorem effect_subImm {n : Nat} (run : (Instr.subImm .rsp n).effect s = some s') :
    n ≤ s.top ∧ s' = (s.set .rsp (s.reg .rsp - BitVec.ofNat 64 n)).flag none := by
  simp only [effect, true_and] at run
  split at run
  · cases run
  · next room =>
    cases run
    exact ⟨Nat.not_lt.mp room, rfl⟩

/-- A quiet instruction touches neither the stack nor the registers that point to it. -/
theorem sameStack_of_quiet (quiet : i.isQuiet) (run : i.effect s = some s') : s.SameStack s' := by
  cases i with
  | mov dst | movImm dst | loadSlot dst | arith _ dst | addImm dst | andImm dst =>
    cases run
    simp only [isQuiet, Bool.and_eq_true, bne_iff_ne, ne_eq] at quiet
    exact ⟨by simp [Ne.symm quiet.1], by simp [Ne.symm quiet.2], rfl⟩
  | subImm dst n =>
    simp only [isQuiet, Bool.and_eq_true, bne_iff_ne, ne_eq] at quiet
    simp only [effect, quiet.1, false_and, if_false] at run
    cases run
    exact ⟨by simp [Ne.symm quiet.1], by simp [Ne.symm quiet.2], rfl⟩
  | signExtend | compare | compareImm | widenByte =>
    cases run
    exact ⟨rfl, rfl, rfl⟩
  | divide divisor =>
    simp only [effect, State.divide?] at run
    split at run
    · cases run
      exact ⟨rfl, rfl, rfl⟩
    · cases run
  | setByte test =>
    obtain ⟨f, _, rfl⟩ := Option.map_eq_some_iff.mp run
    exact ⟨rfl, rfl, rfl⟩
  | push | pop | storeSlot | slotAddress | store | jump | jumpEqual | jumpNonzero | call | ret =>
    cases quiet

theorem written?_of_quiet (quiet : i.isQuiet) : i.written? s = none := by
  cases i with
  | push | storeSlot | store | call => exact nomatch quiet
  | _ => rfl

/-- Memory changes only in the word that an instruction is said to write. -/
theorem mem_of_effect (run : i.effect s = some s') :
    (i.written? s = none ∧ s'.mem = s.mem) ∨
      ∃ w v, i.written? s = some w ∧ s'.mem = s.mem.write w v := by
  cases i with
  | push r =>
    obtain ⟨_, rfl⟩ := effect_push run
    exact .inr ⟨_, _, rfl, rfl⟩
  | storeSlot | store =>
    cases run
    exact .inr ⟨_, _, rfl, rfl⟩
  | pop | mov | movImm | loadSlot | slotAddress | arith | addImm | andImm | signExtend | compare
  | compareImm | widenByte =>
    cases run
    exact .inl ⟨rfl, rfl⟩
  | subImm =>
    simp only [effect] at run
    split at run
    · cases run
    · cases run
      exact .inl ⟨rfl, rfl⟩
  | divide =>
    simp only [effect, State.divide?] at run
    split at run
    · cases run
      exact .inl ⟨rfl, rfl⟩
    · cases run
  | setByte =>
    obtain ⟨f, _, rfl⟩ := Option.map_eq_some_iff.mp run
    exact .inl ⟨rfl, rfl⟩
  | jump | jumpEqual | jumpNonzero | call | ret => cases run

end Instr

/-! ## 3. Steps -/

variable {plan : Plan} {phase phase' : Phase} {i : Instr} {a : Activation} {w : Word}

theorem SetUp.framed (h : SetUp size cells a.entry s) : a.Framed size s :=
  ⟨h.rbp, h.size_le⟩

namespace Instr.Leads

/-- Instructions write only where they may. -/
theorem mayWrite (h : i.Leads plan size phase phase') (holds : Layout.Holds ⟨size, phase⟩ a.entry s)
    (pushes : ∀ r, i = .push r → 8 ≤ s.top) (calls : ∀ g, i = .call g → 8 ≤ s.top)
    (written : i.written? s = some w) : a.MayWrite size s i w := by
  have phase_holds : phase.Holds size a.entry s := holds.phase
  cases h with
  | link =>
    cases written
    obtain ⟨rsp, rbp⟩ := phase_holds
    have top : s.top = a.entry.top := congrArg BitVec.toNat rsp
    have place := State.toNat_pushed (pushes _ rfl)
    exact .link rsp (by omega)
  | push | pushAddress =>
    cases written
    exact .push phase_holds.1.framed (State.toNat_pushed (pushes _ rfl))
  | call =>
    cases written
    exact .call phase_holds.1.framed (State.toNat_pushed (calls _ rfl))
  | @store offset cells src =>
    cases written
    obtain ⟨set_up, is_offset, place⟩ := phase_holds
    have mod := is_offset.mod
    have ge := is_offset.word_le
    have le := is_offset.le_size
    exact .slot (offset / 8) set_up.framed (by omega) (by omega) (by omega)
  | @storeSlot known cells offset src is_offset =>
    cases written
    have mod := is_offset.mod
    have ge := is_offset.word_le
    have le := is_offset.le_size
    have place := phase_holds.1.toNat_slot is_offset
    exact .slot (offset / 8) phase_holds.1.framed (by omega) (by omega) (by omega)
  | quiet quiet | quietAligned quiet =>
    rw [written?_of_quiet quiet] at written
    cases written
  | base | baseEmpty | reserve | pop | popAddress | drop | address | copyTop | test | pad | jump
  | jumpEqual | jumpNonzero | unreserve | unlink | ret => cases written

/-- Instructions leave alone what lies above the activation. -/
theorem kept_of_effect (h : i.Leads plan size phase phase')
    (holds : Layout.Holds ⟨size, phase⟩ e s) (run : i.effect s = some s') :
    ∀ x : Word, e.top ≤ x.toNat → s'.mem x = e.mem x := by
  intro x hx
  rw [← holds.kept x hx]
  rcases Instr.mem_of_effect run with ⟨_, mem⟩ | ⟨w, v, written, mem⟩
  · rw [mem]
  · -- where a write may go depends on nothing but the state at the entry
    let a : Activation := ⟨"", e, .here []⟩
    have pushes : ∀ r, i = .push r → 8 ≤ s.top := by
      rintro r rfl
      exact (effect_push run).1
    have calls : ∀ g, i = .call g → 8 ≤ s.top := by
      rintro g rfl
      cases run
    have may : a.MayWrite size s i w := h.mayWrite holds pushes calls written
    have le := may.le
    rw [mem]
    exact Memory.write_above (Nat.le_trans le hx)

end Instr.Leads

/-- Nothing happens to the stack. -/
theorem SetUp.same (h : SetUp size cells e s) (size_mod : size % 8 = 0) (entry_mod : e.top % 8 = 0)
    (same : s.SameStack s') : SetUp size cells e s' :=
  h.drop size_mod entry_mod (List.nil_append _).symm same.rbp (congrArg BitVec.toNat same.rsp)
    fun x _ _ => congrFun same.mem x

/-- The uppermost word is taken off the stack. -/
theorem SetUp.raise {cell : Cell} (h : SetUp size (cell :: cells) e s) (size_mod : size % 8 = 0)
    (entry_mod : e.top % 8 = 0) (rsp : s'.reg .rsp = s.reg .rsp + 8)
    (rbp : s'.reg .rbp = s.reg .rbp) (mem : s'.mem = s.mem) : SetUp size cells e s' := by
  have below := h.top
  have lt := h.base_lt
  rw [List.length_cons] at below
  have top : s'.top = s.top + 8 * [cell].length := by
    simp only [State.top, rsp] at below lt ⊢
    have := (e.reg .rsp).isLt
    rw [List.length_singleton]
    bv_omega
  exact h.drop size_mod entry_mod List.singleton_append.symm rbp top fun x _ _ => congrFun mem x

/-- A slot of the frame is written. -/
theorem SetUp.poke {offset : Nat} (h : SetUp size cells e s) (size_mod : size % 8 = 0)
    (entry_mod : e.top % 8 = 0) (is_offset : IsOffset size offset)
    (place : w.toNat + offset = (s.reg .rbp).toNat) (v : Word) :
    SetUp size cells e (s.poke w v) := by
  have rbp := h.rbp
  have mod := is_offset.mod
  have ge := is_offset.word_le
  have le := is_offset.le_size
  exact h.drop size_mod entry_mod (List.nil_append _).symm rfl rfl
    ((Kept.refl _ _ _ _).write_slot (by omega) (by omega) (by omega))

/-- A word is pushed. -/
theorem SetUp.push {cell : Cell} (h : SetUp size cells e s) (size_mod : size % 8 = 0)
    (entry_mod : e.top % 8 = 0) (room : 8 ≤ s.top) {v : Word}
    (points : ∀ offset, cell = .slot offset → IsOffset size offset ∧
      v.toNat + offset = (s.reg .rbp).toNat) : SetUp size (cell :: cells) e (s.push v) := by
  have top := State.toNat_pushed room
  have mod := h.top_mod size_mod entry_mod
  have read : (s.push v).mem.read ((s.push v).reg .rsp) = v := Memory.read_write_same ..
  refine h.cons size_mod entry_mod rfl top
    ((Kept.refl _ _ _ _).write_below (by omega) (by omega)) ?_
  rw [read]
  exact points

/-- The caller's `rbp` is saved. -/
theorem Phase.Holds.link (h : Phase.entered.Holds size e s) (room : 8 ≤ s.top) :
    Phase.linked.Holds size e (s.push (s.reg .rbp)) := by
  obtain ⟨rsp, rbp⟩ := h
  have top : s.top = e.top := congrArg BitVec.toNat rsp
  refine ⟨?_, rbp, ?_⟩
  · rw [← top]
    exact State.toNat_pushed room
  · rw [← rbp]
    exact Memory.read_write_same ..

/-- The slots are reserved. -/
theorem Phase.Holds.reserve (h : Phase.based.Holds size e s) (room : size ≤ s.top) :
    SetUp size [] e ((s.set .rsp (s.reg .rsp - BitVec.ofNat 64 size)).flag none) := by
  obtain ⟨top, rbp, saved⟩ := h
  have lowered := State.toNat_rsp_sub room
  refine ⟨?_, ?_, ?_, fun _ _ slot => by cases slot⟩
  · show (s.reg .rbp).toNat + 8 = _
    rw [rbp]
    exact top
  · show (s.reg .rsp - BitVec.ofNat 64 size).toNat + 8 * 0 + size + 8 = _
    omega
  · show s.mem.read (s.reg .rbp) = _
    rw [rbp, saved]

/-- A frame without slots is set up as soon as it has its base. -/
theorem Phase.Holds.base_empty (h : Phase.linked.Holds 0 e s) :
    SetUp 0 [] e (s.set .rbp (s.reg .rsp)) := by
  obtain ⟨top, rbp, saved⟩ := h
  have height : s.top + 8 * 0 + 0 + 8 = e.top := by omega
  exact ⟨top, height, saved, fun _ _ slot => by cases slot⟩

/-- The caller's `rbp` is taken back. -/
theorem Phase.Holds.unlink (h : Phase.based.Holds size e s) :
    Phase.unlinked.Holds size e (s.pop .rbp) := by
  obtain ⟨top, rbp, saved⟩ := h
  refine ⟨?_, saved⟩
  apply BitVec.eq_of_toNat_eq
  show (s.reg .rsp + 8).toNat = _
  simp only [State.top] at top
  bv_omega

theorem zero_ofBits_mask (x : Word) : (Flags.ofBits (x &&& 15)).zero = true ↔ x.toNat % 16 = 0 := by
  have mask : (x &&& 15).toNat = x.toNat % 16 := by
    rw [BitVec.toNat_and]
    exact Nat.and_two_pow_sub_one_eq_mod x.toNat 4
  simp only [Flags.ofBits, beq_iff_eq]
  constructor
  · intro h
    rw [← mask, h]
    rfl
  · intro h
    apply BitVec.eq_of_toNat_eq
    rw [mask, h]
    rfl

namespace Instr.Leads

/-- What the phase after an instruction says holds after it. -/
theorem phase_of_effect (h : i.Leads plan size phase phase')
    (holds : Layout.Holds ⟨size, phase⟩ e s) (run : i.effect s = some s') :
    phase'.Holds size e s' := by
  have size_mod : size % 8 = 0 := holds.size_mod
  have entry_mod := holds.entry_mod
  have before : phase.Holds size e s := holds.phase
  cases h with
  | link =>
    obtain ⟨room, rfl⟩ := effect_push run
    exact before.link room
  | base =>
    cases run
    exact ⟨before.1, rfl, before.2.2⟩
  | baseEmpty empty =>
    cases run
    subst empty
    exact ⟨before.base_empty, trivial⟩
  | reserve =>
    obtain ⟨room, rfl⟩ := effect_subImm run
    exact ⟨before.reserve room, trivial⟩
  | push =>
    obtain ⟨room, rfl⟩ := effect_push run
    exact ⟨before.1.push size_mod entry_mod room (fun _ slot => by cases slot), trivial⟩
  | pushAddress =>
    obtain ⟨room, rfl⟩ := effect_push run
    obtain ⟨set_up, address⟩ := before
    refine ⟨set_up.push size_mod entry_mod room ?_, trivial⟩
    rintro _ ⟨⟩
    exact address
  | pop rsp rbp =>
    cases run
    exact ⟨before.1.raise size_mod entry_mod (by simp [Ne.symm rsp]) (by simp [Ne.symm rbp]) rfl,
      trivial⟩
  | popAddress =>
    cases run
    obtain ⟨is_offset, points⟩ := before.1.slots 0 _ rfl
    rw [Nat.mul_zero, Nat.add_zero, s.ofNat_top] at points
    exact ⟨before.1.raise size_mod entry_mod rfl rfl rfl, is_offset, points⟩
  | drop =>
    cases run
    exact ⟨before.1.raise size_mod entry_mod rfl rfl rfl, trivial⟩
  | address is_offset =>
    cases run
    have place := before.1.toNat_slot is_offset
    exact ⟨before.1.same size_mod entry_mod ⟨rfl, rfl, rfl⟩, is_offset, place⟩
  | store =>
    cases run
    exact ⟨before.1.poke size_mod entry_mod before.2.1 before.2.2 _, trivial⟩
  | storeSlot is_offset =>
    cases run
    have place := before.1.toNat_slot is_offset
    exact ⟨before.1.poke size_mod entry_mod is_offset place _, trivial⟩
  | quiet quiet =>
    exact ⟨before.1.same size_mod entry_mod (sameStack_of_quiet quiet run), trivial⟩
  | copyTop =>
    cases run
    exact ⟨before.1.same size_mod entry_mod ⟨rfl, rfl, rfl⟩, rfl⟩
  | test =>
    cases run
    refine ⟨before.1.same size_mod entry_mod ⟨rfl, rfl, rfl⟩, _, rfl, ?_⟩
    show (Flags.ofBits (s.reg .rax &&& 15)).zero = true ↔ s.top % 16 = 0
    have copied : s.reg .rax = s.reg .rsp := before.2
    rw [zero_ofBits_mask, copied]
    rfl
  | pad =>
    obtain ⟨room, rfl⟩ := effect_subImm run
    have top := State.toNat_pushed room
    refine ⟨before.1.cons size_mod entry_mod rfl top (Kept.refl _ _ _ _)
      (fun _ slot => by cases slot), ?_⟩
    have unaligned : s.top % 16 = 8 := before.2
    show (s.reg .rsp - 8).toNat % 16 = 0
    omega
  | quietAligned quiet =>
    have same := sameStack_of_quiet quiet run
    have top : s'.top = s.top := congrArg BitVec.toNat same.rsp
    refine ⟨before.1.same size_mod entry_mod same, ?_⟩
    show s'.top % 16 = 0
    rw [top]
    exact before.2
  | unreserve =>
    cases run
    have set_up := before.1
    exact ⟨set_up.rbp, rfl, set_up.saved⟩
  | unlink =>
    cases run
    exact before.unlink
  | call | jump | jumpEqual | jumpNonzero | ret => cases run

/-- Instructions keep what layouts say. -/
theorem holds_of_effect (h : i.Leads plan size phase phase')
    (holds : Layout.Holds ⟨size, phase⟩ e s) (run : i.effect s = some s') :
    Layout.Holds ⟨size, phase'⟩ e s' :=
  ⟨holds.size_mod, holds.entry_mod, h.kept_of_effect holds run, h.phase_of_effect holds run⟩

end Instr.Leads

namespace Layout.Holds

/-- Layouts say nothing about where a run stands. -/
theorem goto {layout : Layout} (h : layout.Holds e s) (c : Control) :
    layout.Holds e (s.goto c) := by
  refine ⟨h.size_mod, h.entry_mod, h.kept, ?_⟩
  have before := h.phase
  revert before
  cases layout.phase with
  | body known cells =>
    rintro ⟨set_up, holds⟩
    refine ⟨⟨set_up.rbp, set_up.top, set_up.saved, set_up.slots⟩, ?_⟩
    cases known <;> exact holds
  | _ => exact id

/-- Behind a call only the stack and the two registers that point to it matter. -/
theorem above (h : Layout.Holds ⟨size, .body .back cells⟩ e s) (rsp : s'.reg .rsp = s.reg .rsp)
    (rbp : s'.reg .rbp = s.reg .rbp) (mem : ∀ x : Word, s.top ≤ x.toNat → s'.mem x = s.mem x) :
    Layout.Holds ⟨size, .body .back cells⟩ e s' := by
  have set_up : SetUp size cells e s := h.phase.1
  have height := set_up.top
  refine ⟨h.size_mod, h.entry_mod, fun x hx => ?_, ?_, trivial⟩
  · rw [mem x (by omega), h.kept x hx]
  · exact set_up.drop h.size_mod h.entry_mod (List.nil_append _).symm rbp
      (congrArg BitVec.toNat rsp) fun x low _ => mem x low

/-- What is known may be forgotten. -/
theorem forget {known known' : Known} (h : Layout.Holds ⟨size, .body known cells⟩ e s)
    (holds : known'.Holds size s) : Layout.Holds ⟨size, .body known' cells⟩ e s :=
  ⟨h.size_mod, h.entry_mod, h.kept, h.phase.1, holds⟩

end Layout.Holds

end StackCompiler
