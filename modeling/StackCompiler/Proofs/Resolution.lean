import Mathlib.Data.List.Basic
import StackCompiler.Program.Resolution

/-!
# Binding to the finished frame

While a function is bound to slots its frame is still growing. The slots can as well be read off
the finished frame: the names are claimed in one walk over the function in source order, and then
each variable is replaced by the slot of its name. That is the slot it had when it was met, because
offsets never change.

Main statement: the pass that goes over a function once gives the function that is bound to the
finished frame (`Surface.Function.bind_eq_resolve`).
-/

namespace StackCompiler

namespace Surface

/-! ## 1. The variables in source order -/

mutual

/-- The variables of an expression, one for each occurrence, in source order. The names of called
functions are no variables. -/
def Expr.variables : Expr → List String
  | .num _ => []
  | .var name _ => [name]
  | .neg operand => operand.variables
  | .binary _ lhs rhs => lhs.variables ++ rhs.variables
  | .assign target value _ => target.variables ++ value.variables
  | .call _ args _ => variablesOfArgs args

/-- The variables of the arguments of a call, in source order. -/
def variablesOfArgs : List Expr → List String
  | [] => []
  | arg :: args => arg.variables ++ variablesOfArgs args

end

/-- The variables of a clause that may be absent. -/
def variablesOfClause (clause : Option Expr) : List String :=
  clause.elim [] Expr.variables

mutual

/-- The variables of a statement, one for each occurrence, in source order. -/
def Stmt.variables : Stmt → List String
  | .ret value => value.variables
  | .expr e => e.variables
  | .block body => variablesOfBlock body
  | .cond test yes none => test.variables ++ yes.variables
  | .cond test yes (some no) => test.variables ++ yes.variables ++ no.variables
  | .loop start test next body =>
    variablesOfClause start ++ variablesOfClause test ++ variablesOfClause next ++ body.variables

/-- The variables of the statements of a block, in source order. -/
def variablesOfBlock : List Stmt → List String
  | [] => []
  | s :: rest => s.variables ++ variablesOfBlock rest

end

/-- The frame of a function: the parameters, then the other variables as the body uses them. -/
def Function.frame (f : Function) : Frame :=
  Frame.ofNames (f.params ++ variablesOfBlock f.body)

/-! ## 2. Slots of the finished frame -/

mutual

/-- An expression with its variables bound to the slots of `frame`. -/
def Expr.resolve (frame : Frame) : Expr → StackCompiler.Expr
  | .num value => .num value
  | .var name loc => .var name (frame.offset name) loc
  | .neg operand => .binary .sub (.num 0) (operand.resolve frame)
  | .binary op lhs rhs => op.apply (lhs.resolve frame) (rhs.resolve frame)
  | .assign target value loc => .assign (target.resolve frame) (value.resolve frame) loc
  | .call name args loc => .call name (resolveArgs frame args) loc

/-- The arguments of a call with their variables bound. -/
def resolveArgs (frame : Frame) : List Expr → List StackCompiler.Expr
  | [] => []
  | arg :: args => arg.resolve frame :: resolveArgs frame args

end

mutual

/-- A statement with its variables bound to the slots of `frame`. -/
def Stmt.resolve (frame : Frame) : Stmt → StackCompiler.Stmt
  | .ret value => .ret (value.resolve frame)
  | .expr e => .expr (e.resolve frame)
  | .block body => .block (resolveBlock frame body)
  | .cond test yes none => .cond (test.resolve frame) (yes.resolve frame) none
  | .cond test yes (some no) =>
    .cond (test.resolve frame) (yes.resolve frame) (some (no.resolve frame))
  | .loop start test next body =>
    .loop (start.map (Expr.resolve frame)) (test.map (Expr.resolve frame))
      (next.map (Expr.resolve frame)) (body.resolve frame)

/-- The statements of a block with their variables bound. -/
def resolveBlock (frame : Frame) : List Stmt → List StackCompiler.Stmt
  | [] => []
  | s :: rest => s.resolve frame :: resolveBlock frame rest

end

/-- A function with its variables bound to the slots of its own frame, and the whole of the
frame reserved. -/
def Function.resolve (f : Function) : StackCompiler.Function :=
  let frame := f.frame
  { name := f.name
    loc := f.loc
    params := f.params.map fun name => ⟨name, frame.offset name⟩
    body := resolveBlock frame f.body
    frame := frame
    frameSize := frame.size }

/-! ## 3. The growing frame -/

end Surface

namespace Frame

theorem prefix_names_insert (f : Frame) (x : String) : f.names <+: (f.insert x).names := by
  by_cases known : x ∈ f.names
  · exact (names_insert_of_mem known).symm ▸ List.prefix_rfl
  · rw [names_insert_of_not_mem known]
    exact List.prefix_append ..

theorem prefix_names_foldl (names : List String) (f : Frame) :
    f.names <+: (names.foldl insert f).names := by
  induction names generalizing f with
  | nil => exact List.prefix_rfl
  | cons x names ih => exact (f.prefix_names_insert x).trans (ih (f.insert x))

/-- The frame in which a name is claimed can grow, and the name keeps its slot. -/
theorem offset_of_prefix {f final : Frame} {x : String}
    (le : (f.insert x).names <+: final.names) : final.offset x = f.offset x := by
  obtain ⟨more, grown⟩ := le
  rw [offset, offset, ← grown]
  by_cases known : x ∈ f.names
  · rw [names_insert_of_mem known, List.idxOf_append_of_mem known]
  · rw [names_insert_of_not_mem known, List.append_assoc, List.idxOf_append_of_notMem known,
      List.singleton_append, List.idxOf_cons_self, List.idxOf_eq_length_iff.mpr known, Nat.add_zero]

end Frame

namespace Surface

/-- The frame in which names have slots that are met behind those of `frame`. -/
def grow (frame : Frame) (names : List String) : Frame :=
  names.foldl Frame.insert frame

variable {frame final : Frame} {xs ys : List String}

theorem grow_append (frame : Frame) (xs ys : List String) :
    grow frame (xs ++ ys) = grow (grow frame xs) ys :=
  List.foldl_append

theorem prefix_grow_left (le : (grow frame (xs ++ ys)).names <+: final.names) :
    (grow frame xs).names <+: final.names := by
  rw [grow_append] at le
  exact (Frame.prefix_names_foldl ys _).trans le

theorem prefix_grow_right (le : (grow frame (xs ++ ys)).names <+: final.names) :
    (grow (grow frame xs) ys).names <+: final.names := by
  rwa [grow_append] at le

mutual

/-- The pass over an expression claims its variables in source order, and binds them as any frame
does that this one grows to. -/
theorem Expr.bind_eq (e : Expr) {frame final : Frame}
    (le : (grow frame e.variables).names <+: final.names) :
    e.bind frame = (e.resolve final, grow frame e.variables) := by
  cases e with
  | num value => rfl
  | var name loc =>
    rw [Expr.bind, Expr.resolve, Frame.offset_of_prefix le]
    rfl
  | neg operand =>
    rw [Expr.bind, operand.bind_eq le]
    rfl
  | binary op lhs rhs =>
    rw [Expr.bind, lhs.bind_eq (prefix_grow_left le)]
    dsimp only
    rw [rhs.bind_eq (prefix_grow_right le), ← grow_append]
    rfl
  | assign target value loc =>
    rw [Expr.bind, target.bind_eq (prefix_grow_left le)]
    dsimp only
    rw [value.bind_eq (prefix_grow_right le), ← grow_append]
    rfl
  | call name args loc =>
    rw [Expr.bind, bindArgs_eq args le]
    rfl

theorem bindArgs_eq (args : List Expr) {frame final : Frame}
    (le : (grow frame (variablesOfArgs args)).names <+: final.names) :
    bindArgs frame args = (resolveArgs final args, grow frame (variablesOfArgs args)) := by
  cases args with
  | nil => rfl
  | cons arg args =>
    rw [bindArgs, arg.bind_eq (prefix_grow_left le)]
    dsimp only
    rw [bindArgs_eq args (prefix_grow_right le), ← grow_append]
    rfl

end

theorem bindClause_eq {clause : Option Expr}
    (le : (grow frame (variablesOfClause clause)).names <+: final.names) :
    bindClause frame clause =
      (clause.map (Expr.resolve final), grow frame (variablesOfClause clause)) := by
  cases clause with
  | none => rfl
  | some e =>
    rw [bindClause, e.bind_eq le]
    rfl

mutual

/-- The pass over a statement claims its variables in source order, and binds them as any frame
does that this one grows to. -/
theorem Stmt.bind_eq (s : Stmt) {frame final : Frame}
    (le : (grow frame s.variables).names <+: final.names) :
    s.bind frame = (s.resolve final, grow frame s.variables) := by
  match s with
  | .ret value =>
    rw [Stmt.bind, value.bind_eq le]
    rfl
  | .expr e =>
    rw [Stmt.bind, e.bind_eq le]
    rfl
  | .block body =>
    rw [Stmt.bind, bindBlock_eq body le]
    rfl
  | .cond test yes none =>
    rw [Stmt.bind, test.bind_eq (prefix_grow_left le)]
    dsimp only
    rw [yes.bind_eq (prefix_grow_right le), ← grow_append]
    rfl
  | .cond test yes (some no) =>
    have first := prefix_grow_left le
    rw [Stmt.bind, test.bind_eq (prefix_grow_left first)]
    dsimp only
    rw [yes.bind_eq (prefix_grow_right first), ← grow_append]
    dsimp only
    rw [no.bind_eq (prefix_grow_right le), ← grow_append]
    rfl
  | .loop start test next body =>
    have third := prefix_grow_left le
    have second := prefix_grow_left third
    rw [Stmt.bind, bindClause_eq (prefix_grow_left second)]
    dsimp only
    rw [bindClause_eq (prefix_grow_right second), ← grow_append]
    dsimp only
    rw [bindClause_eq (prefix_grow_right third), ← grow_append]
    dsimp only
    rw [body.bind_eq (prefix_grow_right le), ← grow_append]
    rfl

theorem bindBlock_eq (body : List Stmt) {frame final : Frame}
    (le : (grow frame (variablesOfBlock body)).names <+: final.names) :
    bindBlock frame body = (resolveBlock final body, grow frame (variablesOfBlock body)) := by
  match body with
  | [] => rfl
  | s :: rest =>
    rw [bindBlock, s.bind_eq (prefix_grow_left le)]
    dsimp only
    rw [bindBlock_eq rest (prefix_grow_right le), ← grow_append]
    rfl

end

theorem bindParams_eq {frame final : Frame} (names : List String)
    (le : (grow frame names).names <+: final.names) :
    bindParams frame names =
      (names.map fun name => ⟨name, final.offset name⟩, grow frame names) := by
  induction names generalizing frame with
  | nil => rfl
  | cons name names ih =>
    have first : (frame.insert name).names <+: final.names :=
      (Frame.prefix_names_foldl names _).trans le
    rw [bindParams, Frame.resolve]
    dsimp only
    rw [ih le, List.map_cons, Frame.offset_of_prefix first]
    rfl

/-- The function that one pass gives, whose frame grows as it goes, is the function with its
variables bound to the finished frame. -/
theorem Function.bind_eq_resolve (f : Function) : f.bind = f.resolve := by
  have whole : (grow .empty (f.params ++ variablesOfBlock f.body)).names <+: f.frame.names :=
    List.prefix_rfl
  rw [Function.bind, bindParams_eq f.params (prefix_grow_left whole)]
  dsimp only
  rw [bindBlock_eq f.body (prefix_grow_right whole), ← grow_append]
  rfl

theorem map_bind (fs : List Function) : fs.map Function.bind = fs.map Function.resolve :=
  List.map_congr_left fun f _ => f.bind_eq_resolve

end Surface

end StackCompiler
