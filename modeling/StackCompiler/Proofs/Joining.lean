import Mathlib
import StackCompiler.Proofs.Labelling
import StackCompiler.Proofs.Relocation

/-!
# Sources one behind the other

Functions are compiled one by one. Two sources with a blank between them have the functions of the
first one and then those of the second one, and the listing goes on behind the first part as if
that had been compiled before.

The main statements are these.
* The tokens of two sources that are joined are those of the first one and, behind the blank, those
  of the second one (`Token.Lexes.join`).
* The listing of two programs is made up of their listings (`Program.generate_append`).
* Both together (`compile_of_joined`).
-/

namespace StackCompiler

/-! ## 1. Tokens -/

/-- Two texts with one character between them. -/
def joined (first : String) (c : Char) (second : String) : String :=
  first ++ String.singleton c ++ second

section Joined

variable {first second : String} {c : Char}

theorem toList_joined : (joined first c second).toList = first.toList ++ c :: second.toList := by
  simp [joined]

theorem utf8ByteSize_joined (blank : Token.isBlank c) :
    (joined first c second).utf8ByteSize = first.utf8ByteSize + 1 + second.utf8ByteSize := by
  have single := (Token.isBlank_classes blank).1
  simp [joined, single]

namespace Token

/-- Tokens of the first text are tokens of the whole. -/
theorem IsPlaced.join_left {t : Token} (h : IsPlaced first t) (blank : isBlank c)
    (second : String) : IsPlaced (joined first c second) t := by
  obtain ⟨before, text, after, split, loc, same, lexeme⟩ := h
  refine ⟨before, text, after ++ c :: second.toList, ?_, loc, same, lexeme.before_blank blank _⟩
  rw [toList_joined, split, List.append_assoc, List.append_assoc]

/-- Tokens of the second text are tokens of the whole, behind the first text and the blank. -/
theorem IsPlaced.join_right {t : Token} (h : IsPlaced second t) (blank : isBlank c)
    (first : String) :
    IsPlaced (joined first c second) (t.relocate (· + (first.utf8ByteSize + 1))) := by
  obtain ⟨before, text, after, split, loc, same, lexeme⟩ := h
  refine ⟨first.toList ++ c :: before, text, after, ?_, ?_, same, lexeme⟩
  · rw [toList_joined, split, List.append_assoc, List.cons_append]
  · rw [Text.byteSize_append, Text.byteSize_cons, Text.byteSize_toList, loc, loc_relocate,
      (isBlank_classes blank).1, ← Nat.add_assoc, Nat.add_comm]

/-- A byte of the whole lies in the first text, is the blank, or lies in the second text. -/
theorem byte_cases {b : Nat} (h : b < first.utf8ByteSize + 1 + second.utf8ByteSize) :
    b < first.utf8ByteSize ∨ b = first.utf8ByteSize ∨
      ∃ j < second.utf8ByteSize, b = j + (first.utf8ByteSize + 1) := by
  rcases Nat.lt_trichotomy b first.utf8ByteSize with lt | eq | gt
  · exact .inl lt
  · exact .inr (.inl eq)
  · obtain ⟨j, rfl⟩ := Nat.exists_eq_add_of_le' gt
    refine .inr (.inr ⟨j, ?_, rfl⟩)
    rw [Nat.add_comm j] at h
    exact Nat.lt_of_add_lt_add_left h

/-- The tokens of two texts with a blank between them. -/
theorem Lexes.join {ts us : List Token} (hts : Lexes first first.utf8ByteSize ts)
    (hus : Lexes second second.utf8ByteSize us) (blank : isBlank c) :
    Lexes (joined first c second) (joined first c second).utf8ByteSize
      (ts ++ us.map (relocate (· + (first.utf8ByteSize + 1)))) := by
  rw [utf8ByteSize_joined blank]
  have ends (t : Token) (ht : t ∈ ts) : t.loc + t.size ≤ first.utf8ByteSize + 1 :=
    Nat.le_succ_of_le (hts.within t ht)
  constructor
  · refine List.forall_mem_append.mpr ⟨fun t ht => (hts.placed t ht).join_left blank second, ?_⟩
    exact List.forall_mem_map.mpr fun u hu => (hus.placed u hu).join_right blank first
  · exact List.forall_mem_append.mpr ⟨hts.nonempty, List.forall_mem_map.mpr hus.nonempty⟩
  · refine List.pairwise_append.mpr ⟨hts.ordered, ?_, fun t ht => ?_⟩
    · refine List.pairwise_map.mpr (hus.ordered.imp fun {u v} before => ?_)
      simp only [loc_relocate, size_relocate]
      omega
    · refine List.forall_mem_map.mpr fun u hu => (ends t ht).trans ?_
      exact Nat.le_add_left _ _
  · refine List.forall_mem_append.mpr ⟨fun t ht => (ends t ht).trans (Nat.le_add_right _ _), ?_⟩
    refine List.forall_mem_map.mpr fun u hu => ?_
    have within := hus.within u hu
    simp only [loc_relocate, size_relocate]
    omega
  · intro b lt out
    obtain ⟨outLeft, outRight⟩ := List.forall_mem_append.mp out
    rcases byte_cases lt with left | rfl | ⟨j, right, rfl⟩
    · obtain ⟨before, d, after, split, loc, hd⟩ := hts.blank b left outLeft
      refine ⟨before, d, after ++ c :: second.toList, ?_, loc, hd⟩
      rw [toList_joined, split, List.append_assoc, List.cons_append]
    · exact ⟨first.toList, c, second.toList, toList_joined, Text.byteSize_toList first,
        isBlank_iff.mp blank⟩
    · have outside (u : Token) (hu : u ∈ us) : ¬ (u.loc ≤ j ∧ j < u.loc + u.size) := by
        have := List.forall_mem_map.mp outRight u hu
        simp only [loc_relocate, size_relocate] at this
        omega
      obtain ⟨before, d, after, split, loc, hd⟩ := hus.blank j right outside
      refine ⟨first.toList ++ c :: before, d, after, ?_, ?_, hd⟩
      · rw [toList_joined, split, List.append_assoc, List.cons_append]
      · rw [Text.byteSize_append, Text.byteSize_cons, Text.byteSize_toList, loc,
          (isBlank_classes blank).1, ← Nat.add_assoc, Nat.add_comm]

end Token

/-! ## 2. Functions -/

theorem Grammar.Program.append {ts us : List Token} {p q : StackCompiler.Program}
    (hp : Program ts p) (hq : Program us q) : Program (ts ++ us) (p ++ q) := by
  induction hp with
  | nil => exact hq
  | cons hf _ ih =>
    rw [List.append_assoc]
    exact .cons hf ih

/-- Two texts with a blank between them have the functions of both. -/
theorem Program.ofSource_joined {p q : Program} (hp : Program.ofSource first = .ok p)
    (hq : Program.ofSource second = .ok q) (blank : Token.isBlank c) :
    Program.ofSource (joined first c second) =
      .ok (p ++ q.relocate (· + (first.utf8ByteSize + 1))) := by
  obtain ⟨ts, lexes, derivable, distinct, nearest⟩ := exists_derivation hp
  obtain ⟨us, lexes', derivable', distinct', nearest'⟩ := exists_derivation hq
  have both := lexes.join lexes' blank
  have scanned := Token.scan_eq_ok.mpr ⟨_, rfl, both⟩
  unfold Program.ofSource
  rw [scanned]
  refine ofTokens_eq_ok.mpr ⟨?_, ?_, ?_⟩
  · rw [Token.beforeEnd_append both.noEnd rfl]
    exact derivable.append (derivable'.relocate _)
  · exact List.forall_mem_append.mpr ⟨distinct, List.forall_mem_map.mpr distinct'⟩
  · refine List.forall_mem_append.mpr ⟨nearest, List.forall_mem_map.mpr fun f hf => ?_⟩
    exact (elsesNearestIn_relocateBlock _ f.body).mpr (nearest' f hf)

end Joined

/-! ## 3. Listings -/

namespace Program

variable {p q : Program}

theorem exprs_append (p q : Program) : exprs (p ++ q) = p.exprs ++ q.exprs :=
  List.flatMap_append

theorem stmts_append (p q : Program) : stmts (p ++ q) = p.stmts ++ q.stmts :=
  List.flatMap_append

theorem labelled_append (p q : Program) : labelled (p ++ q) = p.labelled + q.labelled := by
  unfold labelled
  rw [exprs_append, stmts_append, List.countP_append, List.countP_append]
  exact Nat.add_add_add_comm _ _ _ _

theorem sections_append (p q : Program) (number : Nat) :
    sections number (p ++ q) = p.sections number ++ q.sections (number + p.labels) := by
  induction p generalizing number with
  | nil => rfl
  | cons f rest ih =>
    rw [List.cons_append, sections, sections, labels, ih, List.append_assoc, Nat.add_assoc]

/-- Two acceptable programs that have no function name in common are acceptable together. -/
theorem Acceptable.append (hp : p.Acceptable) (hq : q.Acceptable)
    (apart : ∀ f ∈ p, ∀ h ∈ q, f.name ≠ h.name) : Acceptable (p ++ q) where
  distinct := by
    rw [List.map_append]
    refine List.nodup_append.mpr ⟨hp.distinct, hq.distinct, ?_⟩
    exact List.forall_mem_map.mpr fun f hf => List.forall_mem_map.mpr (apart f hf)
  names := List.forall_mem_append.mpr ⟨hp.names, hq.names⟩
  params := List.forall_mem_append.mpr ⟨hp.params, hq.params⟩
  calls := by
    intro name args loc h
    rw [exprs_append] at h
    exact (List.mem_append.mp h).elim (hp.calls name args loc) (hq.calls name args loc)
  targets := by
    intro target value loc h
    rw [exprs_append] at h
    exact (List.mem_append.mp h).elim (hp.targets target value loc) (hq.targets target value loc)

/-- The listing of two programs is that of the first one and, with the labels that are left then,
that of the second one, which begins with the choice of the dialect. -/
theorem generate_append {s s' s'' : Label.Supply} {xs ys : Listing}
    (hp : p.generate s = (.ok xs, s')) (hq : q.generate s' = (.ok ys, s''))
    (apart : ∀ f ∈ p, ∀ h ∈ q, f.name ≠ h.name) :
    generate (p ++ q) s = (.ok (xs ++ ys.tail), s'') := by
  obtain ⟨⟨accept, -⟩, taken⟩ := generate_eq_ok_iff.mp ⟨xs, hp⟩
  obtain ⟨⟨accept', room⟩, taken'⟩ := generate_eq_ok_iff.mp ⟨ys, hq⟩
  have total : s''.taken = s.taken + labelled (p ++ q) := by
    rw [taken', taken, labelled_append, Nat.add_assoc]
  have enough : s.taken + labelled (p ++ q) ≤ 17576 := total ▸ s''.taken_le
  obtain ⟨lines, generated⟩ :=
    generate_eq_ok_iff.mpr ⟨⟨accept.append accept' apart, enough⟩, total⟩
  obtain ⟨admitted, rfl⟩ := generate_eq_ok hp
  obtain ⟨-, rfl⟩ := generate_eq_ok hq
  rw [generated, (generate_eq_ok generated).2, taken_of_admission admitted]
  unfold listing
  rw [sections_append]
  rfl

end Program

theorem Listing.text_append (xs ys : Listing) : text (xs ++ ys) = xs.text ++ text ys := by
  have from_here (written : String) :
      ys.foldl (fun written line => written ++ line.text ++ "\n") written =
        written ++ text ys := by
    unfold text
    induction ys generalizing written with
    | nil => exact String.append_empty.symm
    | cons line ys ih =>
      rw [List.foldl_cons, List.foldl_cons, ih, ih ("" ++ _ ++ _)]
      simp [String.append_assoc]
  unfold text
  rw [List.foldl_append]
  exact from_here _

/-! ## 4. Sources -/

/-- Compilation goes function by function. Let `second` stand behind `first`, with one blank between
them.

* The functions of the whole are those of `first` and then those of `second`, which only stand that
  much further behind.
* If no function is defined in both, and they are compiled one after the other with one supply of
  labels, then so is the whole, with the same labels. Its listing is that of `first`, and behind it
  that of `second` without its first line, which chooses the dialect. -/
theorem compile_of_joined {first second : String} {p q : Program} {c : Char}
    (hp : Program.ofSource first = .ok p) (hq : Program.ofSource second = .ok q)
    (blank : c ∈ [' ', '\t', '\n', '\x0c', '\r']) :
    Program.ofSource (first ++ String.singleton c ++ second) =
        .ok (p ++ q.relocate (· + (first.utf8ByteSize + 1))) ∧
      ∀ s s' s'' xs ys, (∀ f ∈ p, ∀ h ∈ q, f.name ≠ h.name) →
        compileWith first s = (.ok xs, s') → compileWith second s' = (.ok ys, s'') →
          compileWith (first ++ String.singleton c ++ second) s = (.ok (xs ++ ys.tail), s'') ∧
            Listing.text (xs ++ ys.tail) = xs.text ++ Listing.text ys.tail ∧
              ys.text = ".intel_syntax noprefix\n" ++ Listing.text ys.tail := by
  have isBlank : Token.isBlank c :=
    Token.forall_of_all (P := fun d => Token.isBlank d = true) (by decide) c blank
  have read := Program.ofSource_joined hp hq isBlank
  refine ⟨read, fun s s' s'' xs ys apart compiled compiled' => ?_⟩
  obtain ⟨p', hp', generated⟩ := exists_program_of_compileWith compiled
  obtain ⟨q', hq', generated'⟩ := exists_program_of_compileWith compiled'
  obtain rfl := Except.ok.inj (hp.symm.trans hp')
  obtain rfl := Except.ok.inj (hq.symm.trans hq')
  have moved := q.generate_relocate (· + (first.utf8ByteSize + 1)) s'
  rw [generated'] at moved
  have whole := Program.generate_append generated moved
    fun f hf => List.forall_mem_map.mpr (apart f hf)
  refine ⟨?_, Listing.text_append _ _, ?_⟩
  · unfold joined at read
    rw [compileWith_of_read read, whole]
    rfl
  · rw [(Program.generate_eq_ok generated').2]
    exact Listing.text_append [.dialect] _

/-- The program `f(){}`. -/
def Program.idle : Program :=
  [⟨"f", 0, [], [], .empty, 0⟩]

/-- The program `g(){f();}`. -/
def Program.calling : Program :=
  [⟨"g", 0, [], [.expr (.call "f" [] 4)], .empty, 0⟩]

/-- A function in front of its caller, on a line of its own. -/
theorem compile_of_two_lines :
    Program.ofSource "f(){}" = .ok .idle ∧ Program.ofSource "g(){f();}" = .ok .calling ∧
      Program.ofSource ("f(){}" ++ String.singleton '\n' ++ "g(){f();}") =
        .ok (Program.idle ++ Program.calling.relocate (· + 6)) ∧
      ∃ xs ys s' s'', compileWith "f(){}" .full = (.ok xs, s') ∧
        compileWith "g(){f();}" s' = (.ok ys, s'') ∧ s''.taken = 1 ∧
        compileWith ("f(){}" ++ String.singleton '\n' ++ "g(){f();}") .full =
          (.ok (xs ++ ys.tail), s'') := by
  have hp : Program.ofSource "f(){}" = .ok .idle := by cbv
  have hq : Program.ofSource "g(){f();}" = .ok .calling := by cbv
  have blank : '\n' ∈ [' ', '\t', '\n', '\x0c', '\r'] := by decide
  have apart : ∀ f ∈ Program.idle, ∀ h ∈ Program.calling, f.name ≠ h.name := by
    simp [Program.idle, Program.calling]
  have compiled : compileWith "f(){}" .full = (.ok (Program.idle.listing 0), .full) := by
    rw [compileWith_of_read hp]
    rfl
  have compiled' : compileWith "g(){f();}" .full =
      (.ok (Program.calling.listing 0), ⟨1, by decide⟩) := by
    rw [compileWith_of_read hq]
    rfl
  obtain ⟨read, compile⟩ := compile_of_joined hp hq blank
  obtain ⟨whole, -, -⟩ := compile _ _ _ _ _ apart compiled compiled'
  exact ⟨hp, hq, read, _, _, _, _, compiled, compiled', rfl, whole⟩

end StackCompiler
