import Mathlib
import StackCompiler.Proofs.Assembly
import StackCompiler.Proofs.Layout.Code
import StackCompiler.Proofs.Machine.Discipline

/-!
# Stack discipline of compiled programs

Whatever a program computes, its code keeps the stack intact (`Program.disciplined_of_run`), as it
is read from the text of its listing. Calls are made on an aligned stack, an activation writes to
its own frame or below the stack, and it returns to where it was called from, with `rbp` and
everything above it as they were.

The invariant says of the running activation that the layout of its next line holds, and of every
activation that waits for another one that its layout will hold as soon as that one has returned
(`Suspended`). Moves preserve it (`Sound.move`).
-/

namespace StackCompiler

open Machine

variable {lines : Listing} {image : Image lines} {plan : Plan}

/-! ## 1. Places in a listing -/

/-- From the layout on, the rest of the listing flows to its end. -/
structure Stands (plan : Plan) (lines : Listing) (layout : Layout) (rest : Listing) : Prop where
  suffix : rest <:+ lines
  flow : ∃ last, Flow plan layout rest ⟨last, .outside⟩

/-- A plan under which the whole listing flows. -/
structure Plan.Covers (plan : Plan) (lines : Listing) : Prop where
  flow : ∃ last, Flow plan ⟨0, .outside⟩ lines ⟨last, .outside⟩
  size_mod : ∀ function, plan.size function % 8 = 0

theorem Listing.of_startingAt? {line : Line} {lines dest : Listing}
    (h : lines.startingAt? line = some dest) : ∃ rest, dest = line :: rest ∧ dest <:+ lines := by
  induction lines with
  | nil => cases h
  | cons first others ih =>
    rw [startingAt?] at h
    split at h
    · next same =>
      cases h
      exact ⟨others, by rw [same], List.suffix_refl _⟩
    · obtain ⟨rest, rfl, suffix⟩ := ih h
      exact ⟨rest, rfl, suffix.trans (List.suffix_cons ..)⟩

/-- A jump gets to a place with the layout that the plan has for the label. -/
theorem Plan.Covers.label (covers : plan.Covers lines) {target : Target} {dest : Listing}
    (h : lines.startingAt? (.label target) = some dest) :
    Stands plan lines (plan.landing target) dest := by
  obtain ⟨rest, rfl, suffix⟩ := Listing.of_startingAt? h
  obtain ⟨last, whole⟩ := covers.flow
  obtain ⟨layout, flow⟩ := whole.of_suffix suffix
  cases flow with
  | cons first others =>
    cases first with
    | label landing settled _ =>
      refine ⟨suffix, last, ?_⟩
      rw [landing]
      exact .cons (.label landing settled (.inl rfl)) others

/-- A call gets to a place where a function is entered. -/
theorem Plan.Covers.entry (covers : plan.Covers lines) {function : String} {dest : Listing}
    (h : lines.startingAt? (.entry function) = some dest) :
    Stands plan lines ⟨plan.size function, .entered⟩ dest := by
  obtain ⟨rest, rfl, suffix⟩ := Listing.of_startingAt? h
  obtain ⟨last, whole⟩ := covers.flow
  obtain ⟨layout, flow⟩ := whole.of_suffix suffix
  cases flow with
  | cons first others =>
    cases first with
    | entry _ => exact ⟨suffix, last, .cons (.entry (.inr rfl)) others⟩

/-- An instruction follows a call. -/
theorem Stands.exists_instr {size : Nat} {cells : List Cell} {rest : Listing}
    (h : Stands plan lines ⟨size, .body .back cells⟩ rest) :
    ∃ i after, rest = .instr i :: after := by
  obtain ⟨last, flow⟩ := h.flow
  cases flow with
  | cons first _ =>
    cases first with
    | label _ settled meets =>
      rcases meets with rfl | meets
      · exact absurd rfl settled
      · cases meets
    | entry meets =>
      rcases meets with meets | meets <;> cases meets
    | instr _ => exact ⟨_, _, rfl⟩

/-! ## 2. The invariant -/

/-- Every activation that waits for another one, which was entered in the state `e` and returns to
`resume`, goes on there with the layout behind its call. -/
def Suspended (image : Image lines) (plan : Plan) : List Activation → State → Control → Prop
  | [], _, _ => True
  | a :: outer, e, resume =>
    (∃ rest cells, resume = .here rest ∧ e.top ≤ (e.reg .rsp + 8).toNat ∧
      Stands plan lines ⟨plan.size a.function, .body .back cells⟩ rest ∧
      Layout.Holds ⟨plan.size a.function, .body .back cells⟩ a.entry
        (e.set .rsp (e.reg .rsp + 8))) ∧
    image.arrival (a.entry.mem.read (a.entry.reg .rsp)) = a.resume ∧
    Suspended image plan outer a.entry a.resume

/-- The running activation stands where the layout holds, and all others are suspended. -/
structure Sound (image : Image lines) (plan : Plan) (s : State) (a : Activation)
    (outer : List Activation) : Prop where
  here : ∃ phase rest, s.control = .here rest ∧
    Stands plan lines ⟨plan.size a.function, phase⟩ rest ∧
    Layout.Holds ⟨plan.size a.function, phase⟩ a.entry s
  resume : image.arrival (a.entry.mem.read (a.entry.reg .rsp)) = a.resume
  suspended : Suspended image plan outer a.entry a.resume

namespace Sound

variable {s s' : State} {a : Activation} {outer : List Activation}

/-- A function that was just entered is sound. -/
theorem enter (covers : plan.Covers lines) {function : String} {dest : Listing}
    (landing : lines.startingAt? (.entry function) = some dest) (here : s.control = .here dest)
    (aligned : s.top % 8 = 0) {resume : Control}
    (arrives : image.arrival (s.mem.read (s.reg .rsp)) = resume)
    (suspended : Suspended image plan outer s resume) :
    Sound image plan s ⟨function, s, resume⟩ outer where
  here := ⟨.entered, dest, here, covers.entry landing, covers.size_mod function, aligned,
    fun _ _ => rfl, rfl, rfl⟩
  resume := arrives
  suspended := suspended

/-- A jump to a label keeps what is known there. -/
theorem jump (h : Sound image plan s a outer) (covers : plan.Covers lines) {target : Target}
    {known : Known} {cells : List Cell} {dest : Listing}
    (landing : plan.landing target = ⟨plan.size a.function, .body known cells⟩)
    (lands : lines.startingAt? (.label target) = some dest)
    (holds : Layout.Holds ⟨plan.size a.function, .body known cells⟩ a.entry s) :
    Sound image plan (s.goto (.here dest)) a outer := by
  have stands := covers.label lands
  rw [landing] at stands
  exact ⟨⟨_, dest, rfl, stands, holds.goto _⟩, h.resume, h.suspended⟩

/-- Going on behind a line. -/
theorem next (h : Sound image plan s a outer) {phase : Phase} {rest : Listing}
    (stands : Stands plan lines ⟨plan.size a.function, phase⟩ rest)
    (holds : Layout.Holds ⟨plan.size a.function, phase⟩ a.entry s') :
    Sound image plan (s'.goto (.here rest)) a outer :=
  ⟨⟨phase, rest, rfl, stands, holds.goto _⟩, h.resume, h.suspended⟩

/-- The first line of a place, and the place behind it. -/
theorem exists_leads (h : Sound image plan s a outer) {line : Line} {rest : Listing}
    (here : s.control = .here (line :: rest)) :
    ∃ phase middle, Layout.Holds ⟨plan.size a.function, phase⟩ a.entry s ∧
      line.Leads plan ⟨plan.size a.function, phase⟩ middle ∧ Stands plan lines middle rest := by
  obtain ⟨phase, rest', control, stands, holds⟩ := h.here
  rw [here] at control
  cases control
  obtain ⟨last, flow⟩ := stands.flow
  cases flow with
  | cons first others =>
    exact ⟨phase, _, holds, first, (List.suffix_cons ..).trans stands.suffix, last, others⟩

/-- The same for an instruction, which does not change the size of the frame. -/
theorem exists_leads_instr (h : Sound image plan s a outer) {i : Instr} {rest : Listing}
    (here : s.control = .here (.instr i :: rest)) :
    ∃ phase phase', Layout.Holds ⟨plan.size a.function, phase⟩ a.entry s ∧
      i.Leads plan (plan.size a.function) phase phase' ∧
      Stands plan lines ⟨plan.size a.function, phase'⟩ rest := by
  obtain ⟨phase, middle, holds, leads, stands⟩ := h.exists_leads here
  cases leads with
  | instr leads => exact ⟨phase, _, holds, leads, stands⟩

theorem own_mark (h : Sound image plan s a outer) {line : Line} {rest : Listing}
    (here : s.control = .here (line :: rest)) (marked : ∀ i, line ≠ .instr i) :
    Sound image plan (s.goto (.here rest)) a outer := by
  obtain ⟨phase, middle, holds, leads, stands⟩ := h.exists_leads here
  cases leads with
  | dialect | exported => exact nomatch holds.phase
  | entry meets =>
    rcases meets with outside | same
    · cases outside
      exact nomatch holds.phase
    · obtain ⟨size, rfl⟩ := Layout.mk.inj same
      rw [← size] at stands
      exact h.next stands holds
  | label landing settled meets =>
    rcases meets with rfl | rfl
    · exact h.next stands holds
    · exact nomatch holds.phase.2
  | instr => exact absurd rfl (marked _)

theorem own_jump (h : Sound image plan s a outer) (covers : plan.Covers lines) {target : Target}
    {rest : Listing} (here : s.control = .here (.instr (.jump target) :: rest))
    (step : image.step s = some s') : Sound image plan s' a outer := by
  obtain ⟨phase, phase', holds, leads, stands⟩ := h.exists_leads_instr here
  unfold Image.step at step
  rw [here] at step
  obtain ⟨dest, lands, rfl⟩ := Option.map_eq_some_iff.mp step
  cases leads with
  | jump landing => exact h.jump covers landing lands (holds.forget trivial)
  | quiet quiet | quietAligned quiet => exact nomatch quiet

theorem own_jumpEqual (h : Sound image plan s a outer) (covers : plan.Covers lines)
    {target : Target} {rest : Listing}
    (here : s.control = .here (.instr (.jumpEqual target) :: rest))
    (step : image.step s = some s') : Sound image plan s' a outer := by
  obtain ⟨phase, phase', holds, leads, stands⟩ := h.exists_leads_instr here
  unfold Image.step at step
  rw [here] at step
  obtain ⟨f, flags, step⟩ := Option.bind_eq_some_iff.mp step
  cases leads with
  | jumpEqual landing =>
    split at step
    · obtain ⟨dest, lands, rfl⟩ := Option.map_eq_some_iff.mp step
      exact h.jump covers landing lands (holds.forget trivial)
    · cases step
      exact h.next stands (holds.forget trivial)
  | quiet quiet | quietAligned quiet => exact nomatch quiet

/-- The jump over a call is taken if the stack has to be padded. -/
theorem own_jumpNonzero (h : Sound image plan s a outer) (covers : plan.Covers lines)
    {target : Target} {rest : Listing}
    (here : s.control = .here (.instr (.jumpNonzero target) :: rest))
    (step : image.step s = some s') : Sound image plan s' a outer := by
  obtain ⟨phase, phase', holds, leads, stands⟩ := h.exists_leads_instr here
  unfold Image.step at step
  rw [here] at step
  obtain ⟨f, flags, step⟩ := Option.bind_eq_some_iff.mp step
  cases leads with
  | jumpNonzero landing =>
    obtain ⟨set_up, g, flags', zero⟩ := holds.phase
    rw [flags] at flags'
    cases flags'
    have mod := set_up.top_mod holds.size_mod holds.entry_mod
    split at step
    · next aligned =>
      cases step
      exact h.next stands (holds.forget (zero.mp aligned))
    · next unaligned =>
      obtain ⟨dest, lands, rfl⟩ := Option.map_eq_some_iff.mp step
      have half : s.top % 16 = 8 := by
        have : ¬ s.top % 16 = 0 := fun aligned => unaligned (zero.mpr aligned)
        omega
      exact h.jump covers landing lands (holds.forget half)
  | quiet quiet | quietAligned quiet => exact nomatch quiet

/-- Lines other than calls and returns stay in their activation. -/
theorem own (h : Sound image plan s a outer) (covers : plan.Covers lines) {line : Line}
    {rest : Listing} (here : s.control = .here (line :: rest))
    (stays : ∀ function, line ≠ .instr (.call function)) (active : line ≠ .instr .ret)
    (step : image.step s = some s') : Sound image plan s' a outer := by
  cases line with
  | dialect | exported | entry | label =>
    unfold Image.step at step
    rw [here] at step
    cases step
    exact h.own_mark here nofun
  | instr i =>
    cases i with
    | jump => exact h.own_jump covers here step
    | jumpEqual => exact h.own_jumpEqual covers here step
    | jumpNonzero => exact h.own_jumpNonzero covers here step
    | call function => exact absurd rfl (stays function)
    | ret => exact absurd rfl active
    | _ =>
      obtain ⟨phase, phase', holds, leads, stands⟩ := h.exists_leads_instr here
      unfold Image.step at step
      rw [here] at step
      obtain ⟨t, run, rfl⟩ := Option.map_eq_some_iff.mp step
      exact h.next stands (leads.holds_of_effect holds run)

/-- What a call finds: an aligned stack, and an instruction behind it to come back to. -/
theorem at_call (h : Sound image plan s a outer) {function : String} {rest : Listing}
    (here : s.control = .here (.instr (.call function) :: rest)) :
    s.top % 16 = 0 ∧ image.arrival (image.addressOf rest) = .here rest ∧
      ∃ cells, Stands plan lines ⟨plan.size a.function, .body .back cells⟩ rest ∧
        Layout.Holds ⟨plan.size a.function, .body .back cells⟩ a.entry s := by
  obtain ⟨phase, phase', holds, leads, stands⟩ := h.exists_leads_instr here
  cases leads with
  | @call _ cells =>
    obtain ⟨i, after, rfl⟩ := stands.exists_instr
    exact ⟨holds.phase.2, Image.arrival_addressOf stands.suffix, cells, stands,
      holds.forget trivial⟩
  | quiet quiet | quietAligned quiet => exact nomatch quiet

theorem call (h : Sound image plan s a outer) (covers : plan.Covers lines) {function : String}
    {rest : Listing} (here : s.control = .here (.instr (.call function) :: rest))
    (step : image.step s = some s') :
    Sound image plan s' ⟨function, s', .here rest⟩ (a :: outer) := by
  obtain ⟨aligned, arrives, cells, stands, holds⟩ := h.at_call here
  unfold Image.step at step
  rw [here] at step
  dsimp only at step
  split at step
  · next room =>
    obtain ⟨dest, lands, rfl⟩ := Option.map_eq_some_iff.mp step
    have top := State.toNat_pushed room
    have returns : (s.reg .rsp - 8) + 8 = s.reg .rsp := BitVec.sub_add_cancel ..
    refine .enter covers lands rfl (by show (s.reg .rsp - 8).toNat % 8 = 0; omega) ?_
      ⟨⟨rest, cells, rfl, ?_, stands, ?_⟩, h.resume, h.suspended⟩
    · show image.arrival ((s.mem.write (s.reg .rsp - 8) _).read (s.reg .rsp - 8)) = _
      rw [Memory.read_write_same]
      exact arrives
    · show (s.reg .rsp - 8).toNat ≤ ((s.reg .rsp - 8) + 8).toNat
      rw [returns]
      exact Nat.le_of_add_right_le (Nat.le_of_eq top)
    · exact holds.above returns rfl fun x hx => Memory.write_above (by omega)
  · cases step

theorem foreign (h : Sound image plan s a outer) {function : String} {rest : Listing}
    (here : s.control = .here (.instr (.call function) :: rest)) (room : 8 ≤ s.top)
    (back : s'.control = image.arrival (image.addressOf rest)) (rsp : s'.reg .rsp = s.reg .rsp)
    (rbp : s'.reg .rbp = s.reg .rbp)
    (mem : ∀ x : Word, s.top - 8 ≤ x.toNat → s'.mem x = (s.push (image.addressOf rest)).mem x) :
    Sound image plan s' a outer := by
  obtain ⟨_, arrives, cells, stands, holds⟩ := h.at_call here
  have top := State.toNat_pushed room
  refine ⟨⟨_, rest, by rw [back, arrives], stands, holds.above rsp rbp fun x hx => ?_⟩, h.resume,
    h.suspended⟩
  rw [mem x (by omega)]
  exact Memory.write_above (by omega)

/-- What a return finds: the stack as it was when the activation was entered. -/
theorem at_ret (h : Sound image plan s a outer) {rest : Listing}
    (here : s.control = .here (.instr .ret :: rest)) : a.Restored s image := by
  obtain ⟨phase, phase', holds, leads, stands⟩ := h.exists_leads_instr here
  cases leads with
  | ret =>
    obtain ⟨rsp, rbp⟩ := holds.phase
    have address : s.mem.read (s.reg .rsp) = a.entry.mem.read (a.entry.reg .rsp) := by
      rw [rsp]
      exact Memory.read_congr holds.entry_mod fun x low _ => holds.kept x low
    exact ⟨rsp, rbp, holds.kept, address, by rw [address, h.resume]⟩
  | quiet quiet | quietAligned quiet => exact nomatch quiet

theorem ret {b : Activation} (h : Sound image plan s a (b :: outer)) {rest : Listing}
    (here : s.control = .here (.instr .ret :: rest)) (step : image.step s = some s') :
    Sound image plan s' b outer := by
  have restored := h.at_ret here
  obtain ⟨⟨rest', cells, resume, le, stands, holds⟩, arrives, suspended⟩ := h.suspended
  rw [Image.step_ret here] at step
  cases step
  refine ⟨⟨_, rest', ?_, stands, ?_⟩, arrives, suspended⟩
  · show image.arrival (s.mem.read (s.reg .rsp)) = _
    rw [restored.resume, resume]
  · have popped : (s.set .rsp (s.reg .rsp + 8)).reg .rsp =
        (a.entry.set .rsp (a.entry.reg .rsp + 8)).reg .rsp := by
      show s.reg .rsp + 8 = a.entry.reg .rsp + 8
      rw [restored.rsp]
    have after : Layout.Holds _ b.entry (s.set .rsp (s.reg .rsp + 8)) :=
      holds.above popped restored.rbp fun x hx => restored.kept x (Nat.le_trans le hx)
    exact after.goto _

/-- Every move keeps the invariant, as long as an activation is left. -/
theorem move (covers : plan.Covers lines) {r r' : Run} (moves : image.Moves r r')
    (h : ∀ a outer, r.active = a :: outer → Sound image plan r.state a outer) :
    ∀ a outer, r'.active = a :: outer → Sound image plan r'.state a outer := by
  intro b inner active'
  cases moves with
  | own here stays active step =>
    cases active'
    exact (h _ _ rfl).own covers here stays active step
  | call here step =>
    cases active'
    exact (h _ _ rfl).call covers here step
  | foreign here missing room back rsp rbp mem =>
    cases active'
    exact (h _ _ rfl).foreign here room back rsp rbp mem
  | ret here step =>
    cases active'
    exact (h _ _ rfl).ret here step

/-- An instruction that pushes a word and is executed has room for it. -/
theorem room_of_moves {r r' : Run} {i : Instr} {rest : Listing} (moves : image.Moves r r')
    (here : r.state.control = .here (.instr i :: rest)) :
    (∀ q, i = .push q → 8 ≤ r.state.top) ∧ ∀ g, i = .call g → 8 ≤ r.state.top := by
  refine ⟨?_, ?_⟩
  · rintro q rfl
    cases moves with
    | own here' stays active step =>
      unfold Image.step at step
      rw [here] at step
      obtain ⟨t, run, -⟩ := Option.map_eq_some_iff.mp step
      exact (Instr.effect_push run).1
    | call here' | foreign here' | ret here' =>
      rw [here] at here'
      cases here'
  · rintro g rfl
    cases moves with
    | own here' stays active step =>
      rw [here] at here'
      cases here'
      exact absurd rfl (stays g)
    | call here' step =>
      unfold Image.step at step
      rw [here] at step
      dsimp only at step
      split at step
      · next room => exact room
      · cases step
    | foreign here' missing room => exact room
    | ret here' =>
      rw [here] at here'
      cases here'

theorem disciplined {r : Run} (h : Sound image plan r.state a outer) :
    a.Disciplined image (plan.size a.function) r where
  aligned function rest here := (h.at_call here).1
  writes i rest w here written executed := by
    obtain ⟨r', moves⟩ := executed
    obtain ⟨pushes, calls⟩ := room_of_moves moves here
    obtain ⟨phase, phase', holds, leads, stands⟩ := h.exists_leads_instr here
    exact leads.mayWrite holds pushes calls written
  returns rest here := h.at_ret here

end Sound

/-! ## 3. Programs -/

namespace Program

theorem frameSizeOf_mod {p : Program} (bound : ∀ f ∈ p, f.Bound) (name : String) :
    p.frameSizeOf name % 8 = 0 := by
  rw [frameSizeOf]
  cases found : p.function? name with
  | none => rfl
  | some f =>
    show f.frameSize % 8 = 0
    rw [(bound f (List.mem_of_find?_eq_some found)).frameSize]
    exact f.frame.size_mod

/-- The text of the listing of a program is read as the listing. Every activation in a run of these
lines keeps to the discipline of the stack, from the moment on at which a function is entered with
the stack pointer a multiple of eight. -/
theorem disciplined_of_run {source : String} {p : Program} {supply supply' : Label.Supply}
    {lines : Listing} (read : Program.ofSource source = .ok p)
    (generated : p.generate supply = (.ok lines, supply')) :
    Listing.ofText? lines.text = some lines ∧
      ∀ (image : Image lines) (function : String) (dest : Listing) (s : State) (r : Run)
        (a : Activation) (outer : List Activation),
        lines.startingAt? (.entry function) = some dest → s.control = .here dest →
          s.top % 8 = 0 → Relation.ReflTransGen image.Moves (image.enter function s) r →
          r.active = a :: outer → a.Disciplined image (p.frameSizeOf a.function) r := by
  refine ⟨ofText?_of_ofSource read generated, ?_⟩
  intro image function dest s r a outer landing here aligned run active
  obtain ⟨admitted, rfl⟩ := generate_eq_ok generated
  have bound := Program.bound_of_ofSource read
  obtain ⟨plan, last, size, flow⟩ := p.exists_flow (p.nodup_names_of_admission admitted) bound
    (Program.allowed_of_admission admitted) supply.taken
  have covers : plan.Covers (p.listing supply.taken) :=
    ⟨⟨last, flow⟩, fun name => by rw [size]; exact frameSizeOf_mod bound name⟩
  -- the invariant is about whatever activation runs, so it is carried for all of them
  have sound : ∀ a outer, r.active = a :: outer → Sound image plan r.state a outer := by
    clear active
    induction run with
    | refl =>
      intro b inner active
      cases active
      exact .enter covers landing here aligned rfl trivial
    | tail _ moves ih => exact Sound.move covers moves ih
  rw [← size]
  exact (sound a outer active).disciplined

/-- The program `f(){return g();}`, which calls a function that it lacks. -/
def caller : Program :=
  [{ name := "f"
     loc := 0
     params := []
     body := [.ret (.call "g" [] 11)]
     frame := .empty
     frameSize := 0 }]

theorem caller_disciplined :
    ∃ (image : Image (caller.listing 0)) (entry : Listing) (r : Run) (a : Activation)
        (rest : Listing),
      Listing.ofText? (caller.listing 0).text = some (caller.listing 0) ∧
      (caller.listing 0).startingAt? (.entry "f") = some entry ∧
      Relation.ReflTransGen image.Moves (image.enter "f" (.entering entry 65544 0)) r ∧
      r.active = [a] ∧ r.state.control = .here (.instr (.call "g") :: rest) ∧
      a.Disciplined image (caller.frameSizeOf a.function) r := by
  have read : Program.ofSource "f(){return g();}" = .ok caller := by cbv
  have generated :
      caller.generate .full = (.ok (caller.listing 0), (caller.generate .full).2) := rfl
  -- the saved `rbp` leaves the stack aligned, so the jump to the other variant is not taken
  obtain ⟨r, run, active, rest, here⟩ : ∃ r, Relation.ReflTransGen
      (Image.plain (caller.listing 0) (by decide)).Moves
      ((Image.plain (caller.listing 0) (by decide)).enter "f"
        (.entering ((caller.listing 0).drop 2) 65544 0)) r ∧ (∃ a, r.active = [a]) ∧
      ∃ rest, r.state.control = .here (.instr (.call "g") :: rest) :=
    ⟨_, .head (.own rfl (by simp) (by simp) rfl) <| .head (.own rfl (by simp) (by simp) rfl) <|
      .head (.own rfl (by simp) (by simp) rfl) <| .head (.own rfl (by simp) (by simp) rfl) <|
      .head (.own rfl (by simp) (by simp) rfl) <| .head (.own rfl (by simp) (by simp) rfl) <|
      .head (.own rfl (by simp) (by simp) rfl) .refl, ⟨_, rfl⟩, _, rfl⟩
  obtain ⟨a, active⟩ := active
  obtain ⟨printed, disciplined⟩ := disciplined_of_run read generated
  exact ⟨_, _, r, a, rest, printed, rfl, run, active, here,
    disciplined _ _ _ _ r a [] rfl rfl (by decide) run active⟩

end Program

end StackCompiler
