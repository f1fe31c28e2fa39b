import StackCompiler.Proofs.Evaluation
import StackCompiler.Proofs.Marks

/-!
# Execution of code

How a run gets through a piece of code. Instructions in a row take effect one after another
(`Image.reaches_instrs`), a jump comes out behind the mark it leads to, and a return comes back
behind the call (`Image.arrival_addressOf`).

The operations of the language are computed by their instructions: given the two operands in
`rax` and `rdi`, the code of an operation leaves its value in `rax` and touches nothing that
matters to the stack (`Op.effects_code`).
-/

namespace StackCompiler

namespace Machine

/-! ## 1. Parts of states -/

namespace State

variable (s : State) (r q : Reg) (a v : Word) (f : Option Flags) (c : Control)

@[simp] theorem reg_set : (s.set r v).reg q = if q = r then v else s.reg q := rfl
@[simp] theorem mem_set : (s.set r v).mem = s.mem := rfl
@[simp] theorem flags_set : (s.set r v).flags = s.flags := rfl
@[simp] theorem control_set : (s.set r v).control = s.control := rfl

@[simp] theorem reg_poke : (s.poke a v).reg = s.reg := rfl
@[simp] theorem mem_poke : (s.poke a v).mem = s.mem.write a v := rfl

@[simp] theorem reg_flag : (s.flag f).reg = s.reg := rfl
@[simp] theorem mem_flag : (s.flag f).mem = s.mem := rfl
@[simp] theorem flags_flag : (s.flag f).flags = f := rfl

@[simp] theorem reg_goto : (s.goto c).reg = s.reg := rfl
@[simp] theorem mem_goto : (s.goto c).mem = s.mem := rfl
@[simp] theorem flags_goto : (s.goto c).flags = s.flags := rfl
@[simp] theorem control_goto : (s.goto c).control = c := rfl
@[simp] theorem goto_goto (c' : Control) : (s.goto c).goto c' = s.goto c' := rfl

@[simp] theorem reg_push : (s.push v).reg q = if q = .rsp then s.reg .rsp - 8 else s.reg q := rfl
@[simp] theorem mem_push : (s.push v).mem = s.mem.write (s.reg .rsp - 8) v := rfl

@[simp] theorem reg_pop : (s.pop r).reg q =
    if q = r then s.mem.read (s.reg .rsp) else if q = .rsp then s.reg .rsp + 8 else s.reg q := rfl
@[simp] theorem mem_pop : (s.pop r).mem = s.mem := rfl

theorem goto_of_control {s : State} {c : Control} (h : s.control = c) : s.goto c = s := by
  subst h
  rfl

theorem ofNat_top : BitVec.ofNat 64 s.top = s.reg .rsp := by
  rw [top, BitVec.ofNat_toNat, BitVec.setWidth_eq]

/-- The stack pointer does not wrap around as long as there is room. -/
theorem toNat_rsp_sub {s : State} {n : Nat} (room : n ≤ s.top) :
    (s.reg .rsp - BitVec.ofNat 64 n).toNat + n = s.top := by
  simp only [State.top] at room ⊢
  bv_omega

/-- A word that is pushed lies directly below the top. -/
theorem toNat_pushed {s : State} (room : 8 ≤ s.top) : (s.reg .rsp - 8).toNat + 8 = s.top :=
  toNat_rsp_sub room

end State

/-! ## 2. Steps -/

/-- An instruction has the same effect wherever it stands. -/
theorem effect_goto (s : State) (c : Control) (i : Instr) :
    i.effect (s.goto c) = (i.effect s).map (·.goto c) := by
  cases i with
  | push | subImm | divide =>
    simp only [Instr.effect, State.divide?, apply_ite (Option.map _)]
    rfl
  | setByte test =>
    simp only [Instr.effect, Option.map_map]
    rfl
  | _ => rfl

end Machine

open Machine

/-- What instructions in a row do. -/
def Instr.effects : List Instr → State → Option State
  | [], s => some s
  | i :: is, s => (i.effect s).bind (effects is)

theorem Instr.effects_append (is js : List Instr) (s : State) :
    Instr.effects (is ++ js) s = (Instr.effects is s).bind (Instr.effects js) := by
  induction is generalizing s with
  | nil => rfl
  | cons i is ih =>
    simp only [List.cons_append, Instr.effects, Option.bind_assoc]
    congr 1
    funext s'
    exact ih s'

theorem Instr.effects_goto (is : List Instr) (s : State) (c : Control) :
    Instr.effects is (s.goto c) = (Instr.effects is s).map (·.goto c) := by
  induction is generalizing s with
  | nil => rfl
  | cons i is ih =>
    simp only [Instr.effects, effect_goto]
    cases i.effect s with
    | none => rfl
    | some s' => exact ih s'

namespace Machine.Image

variable {lines : Listing} {image : Image lines} {s s' : State} {rest dest : Listing}

theorem step_instr {i : Instr} (here : s.control = .here (.instr i :: rest))
    (h : i.effect s = some s') : image.step s = some (s'.goto (.here rest)) := by
  unfold step
  rw [here]
  cases i with
  | jump | jumpEqual | jumpNonzero | call | ret => exact nomatch h
  | _ => simp only [h, Option.map_some]

theorem step_mark {line : Line} (here : s.control = .here (line :: rest)) (marked : line.isMark) :
    image.step s = some (s.goto (.here rest)) := by
  unfold step
  rw [here]
  cases line with
  | instr i => exact nomatch marked
  | _ => rfl

theorem step_jump {target : Target} (here : s.control = .here (.instr (.jump target) :: rest))
    (landing : lines.startingAt? (.label target) = some dest) :
    image.step s = some (s.goto (.here dest)) := by
  unfold step
  rw [here]
  simp only [State.jump?, landing, Option.map_some]

theorem step_jumpEqual {target : Target} {f : Flags}
    (here : s.control = .here (.instr (.jumpEqual target) :: rest)) (flags : s.flags = some f)
    (landing : lines.startingAt? (.label target) = some dest) :
    image.step s = some (s.goto (.here (if f.zero then dest else rest))) := by
  unfold step
  rw [here]
  simp only [flags, Option.bind_some, State.jump?, landing, Option.map_some]
  split <;> rfl

theorem step_jumpNonzero {target : Target} {f : Flags}
    (here : s.control = .here (.instr (.jumpNonzero target) :: rest)) (flags : s.flags = some f)
    (landing : lines.startingAt? (.label target) = some dest) :
    image.step s = some (s.goto (.here (if f.zero then rest else dest))) := by
  unfold step
  rw [here]
  simp only [flags, Option.bind_some, State.jump?, landing, Option.map_some]
  split <;> rfl

theorem step_call {function : String} (here : s.control = .here (.instr (.call function) :: rest))
    (room : 8 ≤ s.top) (landing : lines.startingAt? (.entry function) = some dest) :
    image.step s = some ((s.push (image.addressOf rest)).goto (.here dest)) := by
  unfold step
  rw [here]
  simp only [room, if_true, State.jump?, landing, Option.map_some]

theorem step_ret (here : s.control = .here (.instr .ret :: rest)) :
    image.step s = some ((s.set .rsp (s.reg .rsp + 8)).goto
      (image.arrival (s.mem.read (s.reg .rsp)))) := by
  unfold step
  rw [here]

/-! ## 3. Runs through code -/

theorem Reaches.refl : image.Reaches s s :=
  Relation.ReflTransGen.refl

theorem Reaches.trans {t : State} (h : image.Reaches s s') (h' : image.Reaches s' t) :
    image.Reaches s t :=
  Relation.ReflTransGen.trans h h'

theorem Reaches.step {t : State} (h : image.step s = some s') (h' : image.Reaches s' t) :
    image.Reaches s t :=
  Relation.ReflTransGen.head h h'

/-- Instructions in a row take effect one after another. -/
theorem reaches_instrs {is : List Instr} (here : s.control = .here (instrs is ++ rest))
    (h : Instr.effects is s = some s') : image.Reaches s (s'.goto (.here rest)) := by
  induction is generalizing s s' with
  | nil =>
    cases h
    rw [show s.goto (.here rest) = s from State.goto_of_control here]
    exact .refl
  | cons i is ih =>
    obtain ⟨s₁, h₁, h₂⟩ := Option.bind_eq_some_iff.mp h
    refine .step (step_instr here h₁) ?_
    have moved : Instr.effects is (s₁.goto (.here (instrs is ++ rest))) =
        some (s'.goto (.here (instrs is ++ rest))) := by
      rw [Instr.effects_goto, h₂]
      rfl
    show image.Reaches _ ((s'.goto (.here (instrs is ++ rest))).goto (.here rest))
    exact ih rfl moved

/-- Instructions take effect wherever they stand. -/
theorem reaches_goto {is : List Instr} (rest : Listing) (h : Instr.effects is s = some s') :
    image.Reaches (s.goto (.here (instrs is ++ rest))) (s'.goto (.here rest)) := by
  have moved : Instr.effects is (s.goto (.here (instrs is ++ rest))) =
      some (s'.goto (.here (instrs is ++ rest))) := by
    rw [Instr.effects_goto, h]
    rfl
  show image.Reaches _ ((s'.goto (.here (instrs is ++ rest))).goto (.here rest))
  exact reaches_instrs rfl moved

/-- A return comes back behind the call, if an instruction stands there. -/
theorem arrival_addressOf {i : Instr} (suffix : .instr i :: rest <:+ lines) :
    image.arrival (image.addressOf (.instr i :: rest)) = .here (.instr i :: rest) := by
  obtain ⟨before, rfl⟩ := suffix
  have place : (before ++ .instr i :: rest).length - (Line.instr i :: rest).length
      = before.length := by simp
  have found := image.line?_address before.length i (by simp)
  rw [addressOf, place, arrival, found]
  simp

end Machine.Image

/-! ## 4. Operations -/

namespace Machine

/-- The registers that a computation of operands leaves alone, and the memory. -/
structure State.SameStack (s s' : State) : Prop where
  rsp : s'.reg .rsp = s.reg .rsp
  rbp : s'.reg .rbp = s.reg .rbp
  mem : s'.mem = s.mem

/-- The sign of a difference, corrected by its overflow, tells which number is less. -/
theorem sign_ne_overflow (a b : Word) :
    ((a - b).msb != (a.msb != b.msb && (a - b).msb != a.msb)) = a.slt b := by
  have ha := a.isLt
  have hb := b.isLt
  simp only [BitVec.msb_eq_decide, BitVec.slt_eq_decide, BitVec.toInt_eq_toNat_cond,
    BitVec.toNat_sub, Nat.reduceSub, Nat.reducePow] at ha hb ⊢
  by_cases na : 9223372036854775808 ≤ a.toNat <;> by_cases nb : 9223372036854775808 ≤ b.toNat <;>
    by_cases nd : 9223372036854775808 ≤ (18446744073709551616 - b.toNat + a.toNat)
      % 18446744073709551616 <;>
    simp only [na, nb, nd, decide_true, decide_false, bne_self_eq_false,
      Bool.false_and] <;>
    simp <;> omega

theorem zero_ofDifference (a b : Int64) :
    (Flags.ofDifference a.toBitVec b.toBitVec).zero = (a == b) := by
  have apart : a.toBitVec - b.toBitVec = 0 ↔ a.toBitVec = b.toBitVec := by
    constructor <;> intro h <;> bv_omega
  rw [Bool.eq_iff_iff]
  simp only [Flags.ofDifference, beq_iff_eq, apart, Int64.toBitVec_inj]

theorem less_ofDifference (a b : Int64) :
    (Flags.ofDifference a.toBitVec b.toBitVec).passes .less = decide (a < b) := by
  rw [Bool.eq_iff_iff, decide_eq_true_iff, Int64.lt_iff_toBitVec_slt, ← sign_ne_overflow]
  rfl

/-- A test of a comparison passes exactly if the numbers are related as it says. -/
theorem passes_ofDifference (a b : Int64) (test : Test) :
    (Flags.ofDifference a.toBitVec b.toBitVec).passes test =
      match test with
      | .equal => a == b
      | .notEqual => a != b
      | .less => decide (a < b)
      | .lessOrEqual => decide (a ≤ b) := by
  cases test with
  | equal => exact zero_ofDifference a b
  | notEqual => exact congrArg not (zero_ofDifference a b)
  | less => exact less_ofDifference a b
  | lessOrEqual =>
    have either : decide (a ≤ b) = (a == b || decide (a < b)) := by
      rw [Bool.eq_iff_iff]
      simp only [decide_eq_true_eq, Bool.or_eq_true, beq_iff_eq]
      rw [Int64.le_iff_lt_or_eq, or_comm]
    rw [either, ← zero_ofDifference, ← less_ofDifference]
    rfl

/-- A byte that was set and widened is all that is left of its register. -/
theorem widen_setByte (x : Word) (c : BitVec 8) :
    ((x.extractLsb' 8 56 ++ c).extractLsb' 0 8).setWidth 64 = c.setWidth 64 := by
  congr 1
  ext i hi
  simp only [BitVec.getElem_extractLsb', Nat.zero_add]
  rw [BitVec.getLsbD_append, if_pos hi, BitVec.getLsbD_eq_getElem hi]

/-- The code of a comparison leaves its truth value. -/
theorem effects_compareCode (s : State) (test : Test) :
    ∃ s', Instr.effects (compareCode test) s = some s' ∧ s.SameStack s' ∧
      s'.reg .rax =
        (truth ((Flags.ofDifference (s.reg .rax) (s.reg .rdi)).passes test)).toBitVec := by
  refine ⟨_, rfl, ⟨rfl, rfl, rfl⟩, ?_⟩
  show (BitVec.extractLsb' 0 8 _).setWidth 64 = _
  simp only [State.reg_set, if_true, widen_setByte, truth]
  split <;> rfl

/-- Widening a word by its sign keeps its value. -/
theorem toInt_signExtended (x : Word) :
    ((if x.msb then BitVec.allOnes 64 else 0) ++ x).toInt = x.toInt := by
  rw [BitVec.toInt_append, BitVec.toInt_eq_msb_cond x]
  cases x.msb with
  | false => simp
  | true => simp; omega

end Machine

namespace Op

theorem effects_div {a b v : Int64} {s : State} (h : div.compute a b = .done v)
    (ha : s.reg .rax = a.toBitVec) (hb : s.reg .rdi = b.toBitVec) :
    ∃ s', Instr.effects div.code s = some s' ∧ s.SameStack s' ∧ s'.reg .rax = v.toBitVec := by
  simp only [compute] at h
  split at h
  · cases h
  · next defined =>
    cases h
    rw [not_or] at defined
    have quotient : (a / b).toInt = a.toInt.tdiv b.toInt := by
      by_cases least : a = Int64.minValue
      · exact Int64.toInt_div_of_ne_right a b fun hb => defined.2 ⟨least, hb⟩
      · exact Int64.toInt_div_of_ne_left a b least
    have nonzero : b.toBitVec ≠ 0 := fun zero => defined.1 (Int64.toBitVec_inj.mp zero)
    have fits : (BitVec.ofInt 64 (a.toInt.tdiv b.toInt)) = (a / b).toBitVec := by
      rw [← quotient, ← Int64.toBitVec_ofInt, Int64.ofInt_toInt]
    let s₁ := s.set .rdx (if (s.reg .rax).msb then BitVec.allOnes 64 else 0)
    have dividend : (s₁.reg .rdx ++ s₁.reg .rax).toInt = a.toInt := by
      show ((if (s.reg .rax).msb then BitVec.allOnes 64 else 0) ++ s.reg .rax).toInt = _
      rw [toInt_signExtended, ha]
      rfl
    have divisor : s₁.reg .rdi = b.toBitVec := hb
    have divided : s₁.divide? (s₁.reg .rdi) = some (((s₁.set .rax (a / b).toBitVec).set .rdx
        (BitVec.ofInt 64 (a.toInt.tmod b.toInt))).flag none) := by
      simp only [State.divide?, dividend, divisor, Int64.toInt_toBitVec, fits, quotient, nonzero,
        ne_eq, not_false_eq_true, and_self, if_true]
    refine ⟨((s₁.set .rax (a / b).toBitVec).set .rdx
      (BitVec.ofInt 64 (a.toInt.tmod b.toInt))).flag none, ?_, ⟨rfl, rfl, rfl⟩, rfl⟩
    exact congrArg (fun o => o.bind (Instr.effects [])) divided

/-- The code of an operation computes its value, if it has one. -/
theorem effects_code {op : Op} {a b v : Int64} {s : State} (h : op.compute a b = .done v)
    (ha : s.reg .rax = a.toBitVec) (hb : s.reg .rdi = b.toBitVec) :
    ∃ s', Instr.effects op.code s = some s' ∧ s.SameStack s' ∧ s'.reg .rax = v.toBitVec := by
  cases op with
  | div => exact effects_div h ha hb
  | add | sub | mul =>
    cases h
    refine ⟨_, rfl, ⟨rfl, rfl, rfl⟩, ?_⟩
    simp [Arith.apply, ha, hb]
  | eq | ne | lt | le =>
    cases h
    obtain ⟨s', run, same, value⟩ := effects_compareCode s _
    refine ⟨s', run, same, ?_⟩
    rw [value, ha, hb, passes_ofDifference]

end Op

end StackCompiler
