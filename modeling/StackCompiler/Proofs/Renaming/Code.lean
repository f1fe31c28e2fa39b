import Mathlib
import StackCompiler.Proofs.Binding
import StackCompiler.Proofs.Demands
import StackCompiler.Proofs.Renaming

/-!
# Code of renamed variables

Names and slots of variables decide nothing but the offsets in the code. A tree with its variables
renamed and bound anew demands what the tree demands, and it has the same code at other offsets.

The main statements are these.
* A renamed function demands what the function demands (`Function.demands_rename`).
* The code of a function that is bound to another frame is its code with the slots of the one frame
  exchanged for those of the other (`Function.code_rename`).
-/

namespace StackCompiler

/-! ## 1. What is demanded -/

section Demands

variable (τ : String → String) (slot : String → Nat)

theorem Stmt.endsOpen_rename (s : Stmt) : (s.rename τ slot).EndsOpen ↔ s.EndsOpen := by
  cases s with
  | ret | expr | block => rfl
  | cond test yes no =>
    cases no with
    | none => rfl
    | some no => exact no.endsOpen_rename
  | loop start test next body => exact body.endsOpen_rename

mutual

theorem Stmt.elsesNearest_rename (s : Stmt) : (s.rename τ slot).ElsesNearest ↔ s.ElsesNearest := by
  match s with
  | .ret value => rfl
  | .expr e => rfl
  | .block body => exact elsesNearestIn_renameBlock body
  | .cond test yes none => exact yes.elsesNearest_rename
  | .cond test yes (some no) =>
    exact and_congr (not_congr (yes.endsOpen_rename τ slot))
      (and_congr yes.elsesNearest_rename no.elsesNearest_rename)
  | .loop start test next body => exact body.elsesNearest_rename

theorem elsesNearestIn_renameBlock (body : List Stmt) :
    ElsesNearestIn (renameBlock τ slot body) ↔ ElsesNearestIn body := by
  match body with
  | [] => rfl
  | s :: rest => exact and_congr s.elsesNearest_rename (elsesNearestIn_renameBlock rest)

end

theorem length_renameArgs (args : List Expr) : (renameArgs τ slot args).length = args.length := by
  induction args with
  | nil => rfl
  | cons arg args ih => exact congrArg (· + 1) ih

theorem Expr.isVariable_rename (e : Expr) : (e.rename τ slot).isVariable = e.isVariable := by
  cases e <;> rfl

mutual

theorem Expr.demands_rename (owner : Nat) (e : Expr) :
    (e.rename τ slot).demands owner = e.demands owner := by
  cases e with
  | num | var => rfl
  | binary op lhs rhs =>
    rw [Expr.rename, Expr.demands, Expr.demands, lhs.demands_rename, rhs.demands_rename]
  | assign target value loc =>
    rw [Expr.rename, Expr.demands, Expr.demands, value.demands_rename, target.isVariable_rename]
  | call name args loc =>
    rw [Expr.rename, Expr.demands, Expr.demands, demands_renameArgs owner args, length_renameArgs]

theorem demands_renameArgs (owner : Nat) (args : List Expr) :
    demandsOfArgs owner (renameArgs τ slot args) = demandsOfArgs owner args := by
  cases args with
  | nil => rfl
  | cons arg args =>
    rw [renameArgs, demandsOfArgs, demandsOfArgs, arg.demands_rename, demands_renameArgs owner args]

end

theorem demands_renameClause (owner : Nat) (clause : Option Expr) :
    demandsOfClause owner (clause.map (Expr.rename τ slot)) = demandsOfClause owner clause := by
  cases clause with
  | none => rfl
  | some e => exact e.demands_rename τ slot owner

mutual

theorem Stmt.demands_rename (owner : Nat) (s : Stmt) :
    (s.rename τ slot).demands owner = s.demands owner := by
  match s with
  | .ret value => exact value.demands_rename τ slot owner
  | .expr e => exact e.demands_rename τ slot owner
  | .block body => exact demands_renameBlock owner body
  | .cond test yes none =>
    rw [Stmt.rename, Stmt.demands, Stmt.demands, test.demands_rename, yes.demands_rename]
  | .cond test yes (some no) =>
    rw [Stmt.rename, Stmt.demands, Stmt.demands, test.demands_rename, yes.demands_rename,
      no.demands_rename]
  | .loop start test next body =>
    rw [Stmt.rename, Stmt.demands, Stmt.demands, demands_renameClause, demands_renameClause,
      demands_renameClause, body.demands_rename]

theorem demands_renameBlock (owner : Nat) (body : List Stmt) :
    demandsOfBlock owner (renameBlock τ slot body) = demandsOfBlock owner body := by
  match body with
  | [] => rfl
  | s :: rest =>
    rw [renameBlock, demandsOfBlock, demandsOfBlock, s.demands_rename,
      demands_renameBlock owner rest]

end

/-- A renamed function demands what the function demands. -/
theorem Function.demands_rename (frame : Frame) (earlier : List String) (f : Function) :
    (f.rename τ frame).demands earlier = f.demands earlier := by
  rw [Function.demands, Function.demands, Function.rename, demands_renameBlock, List.length_map]

end Demands

/-! ## 2. Code -/

/-- The instruction with other frame slots. -/
def Instr.reslot (σ : Nat → Nat) : Instr → Instr
  | .loadSlot dst offset => .loadSlot dst (σ offset)
  | .storeSlot offset src => .storeSlot (σ offset) src
  | .slotAddress dst offset => .slotAddress dst (σ offset)
  | i => i

/-- The line with other frame slots. -/
def Line.reslot (σ : Nat → Nat) : Line → Line
  | .instr i => .instr (i.reslot σ)
  | line => line

theorem Line.reslot_id (line : Line) : line.reslot id = line := by
  cases line with
  | instr i => cases i <;> rfl
  | dialect | exported | entry | label => rfl

theorem map_reslot_instrs (σ : Nat → Nat) (is : List Instr) :
    (instrs is).map (Line.reslot σ) = instrs (is.map (Instr.reslot σ)) := by
  rw [instrs, instrs, List.map_map, List.map_map]
  rfl

/-- Instructions that use no slot. -/
theorem map_reslot_of_quiet {σ : Nat → Nat} {is : List Instr} (h : ∀ i ∈ is, i.reslot σ = i) :
    (instrs is).map (Line.reslot σ) = instrs is := by
  rw [map_reslot_instrs, List.map_congr_left h, List.map_id']

theorem Op.reslot_code (σ : Nat → Nat) (op : Op) : ∀ i ∈ op.code, i.reslot σ = i := by
  cases op <;> simp [Op.code, compareCode, Instr.reslot]

theorem map_reslot_callCode (σ : Nat → Nat) (name : String) (args number : Nat) :
    (callCode name args number).map (Line.reslot σ) = callCode name args number := by
  have pops : (instrs ((argRegs.take args).reverse.map .pop)).map (Line.reslot σ) =
      instrs ((argRegs.take args).reverse.map .pop) := by
    refine map_reslot_of_quiet fun i hi => ?_
    obtain ⟨r, -, rfl⟩ := List.mem_map.mp hi
    rfl
  unfold callCode
  rw [List.map_append, List.map_append, List.map_append, pops]
  rfl

mutual

theorem Expr.labels_rename (τ : String → String) (slot : String → Nat) (e : Expr) :
    (e.rename τ slot).labels = e.labels := by
  cases e with
  | num | var => rfl
  | binary op lhs rhs =>
    rw [Expr.rename, Expr.labels, Expr.labels, lhs.labels_rename, rhs.labels_rename]
  | assign target value loc => exact value.labels_rename τ slot
  | call name args loc => exact congrArg (· + 1) (labels_renameArgs τ slot args)

theorem labels_renameArgs (τ : String → String) (slot : String → Nat) (args : List Expr) :
    labelsOfArgs (renameArgs τ slot args) = labelsOfArgs args := by
  cases args with
  | nil => rfl
  | cons arg args =>
    rw [renameArgs, labelsOfArgs, labelsOfArgs, arg.labels_rename, labels_renameArgs τ slot args]

end

theorem labels_renameClause (τ : String → String) (slot : String → Nat) (clause : Option Expr) :
    labelsOfClause (clause.map (Expr.rename τ slot)) = labelsOfClause clause := by
  cases clause with
  | none => rfl
  | some e => exact e.labels_rename τ slot

mutual

theorem Stmt.labels_rename (τ : String → String) (slot : String → Nat) (s : Stmt) :
    (s.rename τ slot).labels = s.labels := by
  match s with
  | .ret value => exact value.labels_rename τ slot
  | .expr e => exact e.labels_rename τ slot
  | .block body => exact labels_renameBlock τ slot body
  | .cond test yes none =>
    rw [Stmt.rename, Stmt.labels, Stmt.labels, test.labels_rename, yes.labels_rename]
  | .cond test yes (some no) =>
    rw [Stmt.rename, Stmt.labels, Stmt.labels, test.labels_rename, yes.labels_rename,
      no.labels_rename]
  | .loop start test next body =>
    rw [Stmt.rename, Stmt.labels, Stmt.labels, labels_renameClause, labels_renameClause,
      labels_renameClause, body.labels_rename]

theorem labels_renameBlock (τ : String → String) (slot : String → Nat) (body : List Stmt) :
    labelsOfBlock (renameBlock τ slot body) = labelsOfBlock body := by
  match body with
  | [] => rfl
  | s :: rest =>
    rw [renameBlock, labelsOfBlock, labelsOfBlock, s.labels_rename, labels_renameBlock τ slot rest]

end

/-- Under `σ` every slot of `frame` becomes the slot that `slot` gives to the new name. -/
def Frame.Reslots (frame : Frame) (τ : String → String) (slot : String → Nat) (σ : Nat → Nat) :
    Prop :=
  ∀ x ∈ frame.names, slot (τ x) = σ (frame.offset x)

section Code

variable {frame : Frame} {τ : String → String} {slot : String → Nat} {σ : Nat → Nat}

theorem Expr.addressCode_rename (e : Expr) (bound : e.Bound frame)
    (h : frame.Reslots τ slot σ) :
    (e.rename τ slot).addressCode = e.addressCode.map (Instr.reslot σ) := by
  cases e with
  | var name offset loc =>
    obtain ⟨known, rfl⟩ : name ∈ frame.names ∧ offset = frame.offset name := bound
    rw [Expr.rename, h name known]
    rfl
  | num | binary | assign | call => rfl

mutual

/-- The code of a renamed expression is its code at other offsets. -/
theorem Expr.code_rename (e : Expr) (bound : e.Bound frame) (h : frame.Reslots τ slot σ)
    (number : Nat) : (e.rename τ slot).code number = (e.code number).map (Line.reslot σ) := by
  cases e with
  | num value => rfl
  | var name offset loc =>
    obtain ⟨known, rfl⟩ : name ∈ frame.names ∧ offset = frame.offset name := bound
    rw [Expr.rename, h name known]
    rfl
  | binary op lhs rhs =>
    rw [Expr.rename, Expr.code, Expr.code, lhs.code_rename bound.1 h, rhs.code_rename bound.2 h,
      lhs.labels_rename, List.map_append, List.map_append, map_reslot_of_quiet]
    simpa [Instr.reslot, or_imp, forall_and] using op.reslot_code σ
  | assign target value loc =>
    rw [Expr.rename, Expr.code, Expr.code, target.addressCode_rename bound.1 h,
      value.code_rename bound.2 h, List.map_append, List.map_append, map_reslot_instrs]
    rfl
  | call name args loc =>
    rw [Expr.rename, Expr.code, Expr.code, code_renameArgs args bound h, length_renameArgs,
      labels_renameArgs, List.map_append, map_reslot_callCode]

theorem code_renameArgs (args : List Expr) (bound : BoundArgs frame args)
    (h : frame.Reslots τ slot σ) (number : Nat) :
    codeOfArgs number (renameArgs τ slot args) = (codeOfArgs number args).map (Line.reslot σ) := by
  cases args with
  | nil => rfl
  | cons arg args =>
    rw [renameArgs, codeOfArgs, codeOfArgs, arg.code_rename bound.1 h, arg.labels_rename,
      code_renameArgs args bound.2 h, List.map_append]

end

theorem Expr.effectCode_rename (e : Expr) (bound : e.Bound frame) (h : frame.Reslots τ slot σ)
    (number : Nat) :
    (e.rename τ slot).effectCode number = (e.effectCode number).map (Line.reslot σ) := by
  rw [Expr.effectCode, Expr.effectCode, e.code_rename bound h, List.map_append]
  rfl

theorem Expr.branchCode_rename (e : Expr) (bound : e.Bound frame) (h : frame.Reslots τ slot σ)
    (number : Nat) (target : Target) :
    (e.rename τ slot).branchCode number target =
      (e.branchCode number target).map (Line.reslot σ) := by
  rw [Expr.branchCode, Expr.branchCode, e.code_rename bound h, List.map_append]
  rfl

theorem code_renameClause {clause : Option Expr} {code : Expr → Listing}
    (bound : BoundClause frame clause)
    (h : ∀ e : Expr, e.Bound frame → code (e.rename τ slot) = (code e).map (Line.reslot σ)) :
    (clause.map (Expr.rename τ slot)).elim [] code =
      List.map (Line.reslot σ) (clause.elim [] code) := by
  cases clause with
  | none => rfl
  | some e => exact h e (bound e rfl)

mutual

/-- The code of a renamed statement is its code at other offsets. -/
theorem Stmt.code_rename (s : Stmt) (bound : s.Bound frame) (h : frame.Reslots τ slot σ)
    (function : String) (number : Nat) :
    (s.rename τ slot).code function number = (s.code function number).map (Line.reslot σ) := by
  match s with
  | .ret value =>
    rw [Stmt.rename, Stmt.code, Stmt.code, value.code_rename bound h, List.map_append]
    rfl
  | .expr e => exact e.effectCode_rename bound h number
  | .block body => exact code_renameBlock body bound h function number
  | .cond test yes none =>
    rw [Stmt.rename, Stmt.code, Stmt.code, test.branchCode_rename bound.1 h, test.labels_rename,
      yes.code_rename bound.2 h, List.map_append, List.map_append]
    rfl
  | .cond test yes (some no) =>
    rw [Stmt.rename, Stmt.code, Stmt.code, test.branchCode_rename bound.1 h, test.labels_rename,
      yes.code_rename bound.2.1 h, yes.labels_rename, no.code_rename bound.2.2 h]
    simp only [List.map_append, List.map_cons]
    rfl
  | .loop start test next body =>
    rw [Stmt.rename, Stmt.code, Stmt.code, labels_renameClause, labels_renameClause,
      body.code_rename bound.2.2.2 h, body.labels_rename,
      code_renameClause bound.1 fun e he => e.effectCode_rename he h _,
      code_renameClause bound.2.1 fun e he => e.branchCode_rename he h _ _,
      code_renameClause bound.2.2.1 fun e he => e.effectCode_rename he h _]
    simp only [List.map_append, List.map_cons]
    rfl

theorem code_renameBlock (body : List Stmt) (bound : BoundBlock frame body)
    (h : frame.Reslots τ slot σ) (function : String) (number : Nat) :
    codeOfBlock function number (renameBlock τ slot body) =
      (codeOfBlock function number body).map (Line.reslot σ) := by
  match body with
  | [] => rfl
  | s :: rest =>
    rw [renameBlock, codeOfBlock, codeOfBlock, s.code_rename bound.1 h, s.labels_rename,
      code_renameBlock rest bound.2 h, List.map_append]

end

theorem map_reslot_reserveCode (σ : Nat → Nat) (size : Nat) :
    (reserveCode size).map (Instr.reslot σ) = reserveCode size := by
  unfold reserveCode
  split <;> rfl

theorem Function.enterCode_rename {f : Function} (bound : f.Bound) {frame' : Frame}
    (h : f.frame.Reslots τ frame'.offset σ) (size : frame'.size = f.frame.size) :
    (f.rename τ frame').enterCode = f.enterCode.map (Instr.reslot σ) := by
  have stores : List.zipWith (fun (param : Slot) reg => Instr.storeSlot param.offset reg)
      (f.params.map fun param => ⟨τ param.name, frame'.offset (τ param.name)⟩) argRegs =
        (List.zipWith (fun (param : Slot) reg => Instr.storeSlot param.offset reg)
          f.params argRegs).map (Instr.reslot σ) := by
    rw [List.zipWith_map_left, List.map_zipWith, ← List.map_uncurry_zip_eq_zipWith,
      ← List.map_uncurry_zip_eq_zipWith]
    refine List.map_congr_left ?_
    rintro ⟨param, reg⟩ stored
    obtain ⟨known, offset⟩ := bound.params param (List.of_mem_zip stored).1
    show Instr.storeSlot (frame'.offset (τ param.name)) reg = .storeSlot (σ param.offset) reg
    rw [h param.name known, ← offset]
  rw [enterCode, enterCode, List.map_append, List.map_append, map_reslot_reserveCode, ← stores,
    bound.frameSize, ← size]
  rfl

/-- The code of a renamed function is its code at other offsets. -/
theorem Function.code_rename {f : Function} (bound : f.Bound) {frame' : Frame}
    (h : f.frame.Reslots τ frame'.offset σ) (size : frame'.size = f.frame.size) (number : Nat) :
    (f.rename τ frame').code number = (f.code number).map (Line.reslot σ) := by
  have enter := congrArg instrs (f.enterCode_rename bound h size)
  rw [← map_reslot_instrs] at enter
  have body := code_renameBlock f.body bound.body h f.name number
  unfold Function.code
  rw [List.map_append, List.map_append, List.map_append, enter]
  exact congrArg₂ (· ++ ·) (congrArg₂ (· ++ ·) rfl body) rfl

end Code

end StackCompiler
