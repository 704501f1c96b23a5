import ClassCompiler.Proofs.Compilation.Lowering
import ClassCompiler.Proofs.Machine.Access
import ClassCompiler.Proofs.Machine.Emittable
import ClassCompiler.Proofs.ThreeAddress.Liveness

/-!
# Jumps find their labels

A label of lowered code is one of four texts with the number of its control structure, and a label
of a comparison is one of two other texts with the number of the comparison.  None of the six texts
has a digit, so that no label of one sort is one of another.  The labels of the code are therefore
still different from one another, and from those of comparisons, when the code has become lines.

What is written for a label starts with its name, and what is written for an instruction starts with
blanks.  So a label is written on one line only.

* `ordinary_of_mem_labelNames`: the labels of control structures are none of comparisons.
* `Jumping`: lines in which jumps find their labels.
* `selectAll_jumping`: the lines of a method.
* `lowerClass_jumps_resolve`: the methods of a class, as code and as lines.
-/

namespace ClassCompiler
namespace Machine

open ThreeAddress
open Meaning (except_bind_eq_ok labelOfLine?)

/-! ## Texts of labels -/

theorem ordinary_of_mem_labelNames {name : String} {k : Nat} (h : name ∈ labelNames k) :
    Ordinary name := by
  rw [labelNames_eq] at h
  obtain ⟨text, htext, rfl⟩ := List.mem_map.mp h
  have hdigit := noDigit_of_mem_labelTexts htext
  have htrue : NoDigit "CMP_TRUE_" := by decide
  have hend : NoDigit "CMP_END_" := by decide
  intro j
  constructor
  · intro heq
    exact absurd ((numbered_inj hdigit htrue heq).1 ▸ htext) (by decide)
  · intro heq
    exact absurd ((numbered_inj hdigit hend heq).1 ▸ htext) (by decide)

/-- A text whose first character is a blank. -/
def StartsBlank (text : String) : Prop :=
  text.toList.head? = some ' '

theorem not_startsBlank_append {text : String} (h : ¬ StartsBlank text) (hne : text.toList ≠ [])
    (rest : String) : ¬ StartsBlank (text ++ rest) := by
  rwa [StartsBlank, String.toList_append, List.head?_append_of_ne_nil _ hne]

theorem not_startsBlank_of_mem_labelNames {name : String} {k : Nat} (h : name ∈ labelNames k) :
    ¬ StartsBlank name := by
  rw [labelNames_eq] at h
  obtain ⟨text, htext, rfl⟩ := List.mem_map.mp h
  have hall : ∀ text ∈ labelTexts, text.toList.head? ≠ some ' ' ∧ text.toList ≠ [] := by decide
  exact not_startsBlank_append (hall text htext).1 (hall text htext).2 _

theorem not_startsBlank_trueLabel (k : Nat) : ¬ StartsBlank (trueLabel k) := by
  have htext : ¬ StartsBlank "CMP_TRUE_" := by
    unfold StartsBlank
    decide
  exact not_startsBlank_append htext (by decide) _

theorem not_startsBlank_endLabel (k : Nat) : ¬ StartsBlank (endLabel k) := by
  have htext : ¬ StartsBlank "CMP_END_" := by
    unfold StartsBlank
    decide
  exact not_startsBlank_append htext (by decide) _

/-- A label has a line of its own text, which no instruction has. -/
theorem text_eq_label_iff {name : String} (h : ¬ StartsBlank name) (l : Line Op) :
    Line.text Op.text l = name ++ ":" ↔ labelOfLine? l = some name := by
  cases l with
  | op o =>
    refine iff_of_false (fun heq => ?_) (by simp [labelOfLine?])
    have hblank : StartsBlank (name ++ ":") := by
      rw [← heq, Line.text, StartsBlank, String.toList_append]
      rfl
    by_cases hne : name.toList = []
    · rw [StartsBlank, String.toList_append, hne] at hblank
      exact absurd hblank (by decide)
    · exact not_startsBlank_append h hne _ hblank
  | label other =>
    rw [Line.text, labelOfLine?, Option.some.injEq, ← String.toList_inj, String.toList_append,
      String.toList_append, List.append_cancel_right_eq, String.toList_inj]

/-! ## Lines -/

/-- Every label is written on one line, and every jump goes to a label that is written. -/
structure Jumping (lines : List (Line Op)) : Prop where
  once : ∀ name, Line.label name ∈ lines →
    (lines.map (Line.text Op.text)).count (name ++ ":") = 1
  found : ∀ o name, Line.op o ∈ lines → o.target? = some name → Line.label name ∈ lines

theorem mem_labelsOfLines {lines : List (Line Op)} {name : String} :
    name ∈ labelsOfLines lines ↔ Line.label name ∈ lines := by
  rw [labelsOfLines, List.mem_filterMap]
  constructor
  · rintro ⟨l, hl, hname⟩
    cases l with
    | op o => cases hname
    | label other =>
      cases Option.some.inj hname
      exact hl
  · exact fun h => ⟨_, h, rfl⟩

/-- A label that is set once is written once. -/
theorem count_text_of_nodup {lines : List (Line Op)} (h : (labelsOfLines lines).Nodup)
    {name : String} (hname : Line.label name ∈ lines) (hblank : ¬ StartsBlank name) :
    (lines.map (Line.text Op.text)).count (name ++ ":") = 1 := by
  have htexts : (lines.map (Line.text Op.text)).count (name ++ ":") =
      lines.countP fun l => labelOfLine? l == some name := by
    rw [List.count_eq_countP, List.countP_map]
    refine List.countP_congr fun l _ => ?_
    rw [Function.comp_apply, beq_iff_eq, beq_iff_eq]
    exact text_eq_label_iff hblank l
  rw [htexts, ← List.count_filterMap]
  exact List.count_eq_one_of_mem h (mem_labelsOfLines.mpr hname)

section

variable {T : ClassTable} {F : Frame} {k : Nat}

/-- The labels of the code are set in its lines. -/
theorem labelsOf_subset_lines {code : List Instr} {lines : List (Line Op)}
    (h : selectAll T F k code = .ok lines) : labelsOf code ⊆ labelsOfLines lines := by
  induction code generalizing k lines with
  | nil => exact List.nil_subset _
  | cons i is ih =>
    obtain ⟨own, rest, hown, hrest, rfl⟩ := selectAll_cons.mp h
    rw [labelsOf_cons, labelsOfLines_append, select_labels hown]
    exact List.append_subset.mpr ⟨fun _ hname => by simp [hname],
      fun _ hname => List.mem_append_right _ (ih hrest hname)⟩

/-- **Jumps find their labels** in the lines of code whose labels are those of control structures,
each set once, and whose own jumps do. -/
theorem selectAll_jumping {code : List Instr} {lines : List (Line Op)}
    (h : selectAll T F k code = .ok lines) (hnodup : (labelsOf code).Nodup)
    (hnames : ∀ name ∈ labelsOf code, ∃ j, name ∈ labelNames j)
    (hjumps : ∀ i ∈ code, ∀ name, i.target? = some name → name ∈ labelsOf code) :
    Jumping lines := by
  have hordinary : ∀ name ∈ labelsOf code, Ordinary name := by
    intro name hname
    obtain ⟨j, hj⟩ := hnames name hname
    exact ordinary_of_mem_labelNames hj
  refine ⟨fun name hname => ?_, fun o name ho htarget => mem_labelsOfLines.mp ?_⟩
  · refine count_text_of_nodup (selectAll_labels h hnodup hordinary) hname ?_
    rcases selectAll_label_cases h (mem_labelsOfLines.mpr hname) with hcode | ⟨j, -, rfl | rfl⟩
    · obtain ⟨j, hj⟩ := hnames name hcode
      exact not_startsBlank_of_mem_labelNames hj
    · exact not_startsBlank_trueLabel j
    · exact not_startsBlank_endLabel j
  · obtain ⟨j, i, hi, haccess, hcomparison⟩ := selectAll_accesses h ho
    cases haccess with
    | plain _ hnone | receiver _ _ hnone | «variable» _ _ hnone =>
      rw [hnone] at htarget
      cases htarget
    | jump hown _ hsome =>
      cases Option.some.inj (hsome.symm.trans htarget)
      exact labelsOf_subset_lines h (hjumps i hi _ hown)
    | comparison hown _ hsome =>
      cases Option.some.inj (hsome.symm.trans htarget)
      exact hcomparison _ hown

end

/-! ## Methods -/

section

variable {T : ClassTable} {info : MethodInfo} {ts : List Ast} {m : Method}

/-- The labels of a lowered method are those of control structures. -/
theorem lowerMethod_labelNames (hinfo : T.method? info.name = some info)
    (h : lowerMethod T info ts = .ok m) : ∀ name ∈ labelsOf m.code, ∃ k, name ∈ labelNames k := by
  obtain ⟨code, f, hcode, -, -, -, -, -, hclose⟩ := lowerMethod_eq_ok h
  have hlisted : Site.IsListed ⟨T, info⟩ := hinfo
  have hreserved : Site.Reserved ⟨T, info⟩ { reserved := reservedNames T info } := rfl
  obtain ⟨-, -, hwithin⟩ := lowerStatements_labels
    (fun _ _ _ _ _ hf h => lowerStatement_labels hlisted hf h) hreserved hcode
  rw [hclose, Meaning.labelsOf_closeBody]
  intro name hname
  obtain ⟨k, -, -, hk⟩ := hwithin name hname
  exact ⟨k, hk⟩

/-- A frame for closed code fails for want of slots only. -/
theorem build_error (h : IsClosed m) {budget : Nat} {e : Error}
    (he : Frame.build budget m = .error e) : e = .tooManySlots := by
  cases hslots : allocate m with
  | error e' =>
    rw [Frame.build, hslots] at he
    cases Except.error.inj he
    exact allocate_error hslots
  | ok slots =>
    obtain ⟨F, hF⟩ := (build_isOk h budget).mpr ((allocate_isOk m).mp ⟨slots, hslots⟩)
    rw [hF] at he
    cases he

end

/-- **Labels are unique and jumps resolve.**  In every method of a class that was lowered with any
table, no label is set twice and every jump goes to one that is set; so its frame can fail for want
of slots only, and it has live variables.  Where its frame has a listing, every label, also of a
comparison, is written on one line, and every jump goes to one that is written. -/
theorem lowerClass_jumps_resolve {T : ClassTable} {t : Ast} {code : ClassCode}
    (h : lowerClass T t = .ok code) {m : Method} (hm : m ∈ code.methods) :
    (labelsOf m.code).Nodup ∧
    (∀ i ∈ m.code, ∀ name, i.target? = some name → name ∈ labelsOf m.code) ∧
    (∀ budget e, Frame.build budget m = .error e → e = .tooManySlots) ∧
    (∃ L, m.liveness = .ok L) ∧
    ∀ T' budget F listing, Frame.build budget m = .ok F → F.listing T' = .ok listing →
      (∀ name, Line.label name ∈ listing.lines →
        (listing.lines.map (Line.text Op.text)).count (name ++ ":") = 1) ∧
      ∀ o name, Line.op o ∈ listing.lines → o.target? = some name →
        Line.label name ∈ listing.lines := by
  obtain ⟨c, hc, -⟩ := except_bind_eq_ok.mp (id h)
  obtain ⟨-, hmethods⟩ := lowerClass_eq_ok hc h
  obtain ⟨member, -, name, info, -, hinfo, hmethod⟩ := mem_lowerMethods hmethods hm
  obtain rfl := ClassTable.name_of_method? hinfo
  have hclosed := lowerMethod_isClosed hinfo hmethod
  have hland : m.JumpsLand := fun i hi label htarget =>
    List.mem_filterMap.mp (hclosed.jumps i hi label htarget)
  refine ⟨hclosed.labels, hclosed.jumps, fun budget e he => build_error hclosed he,
    hland.liveness, fun T' budget F listing hF hlisting => ?_⟩
  obtain ⟨rfl, -, -⟩ := Frame.build_eq_ok hF
  obtain ⟨lines, hselect, hlisting⟩ := except_bind_eq_ok.mp hlisting
  cases Except.ok.inj hlisting
  have hjumping := selectAll_jumping hselect hclosed.labels (lowerMethod_labelNames hinfo hmethod)
    hclosed.jumps
  exact ⟨hjumping.once, hjumping.found⟩

/-- A class with a conditional inside a loop, whose tests are comparisons. -/
def climbClass : Program :=
  .ofSource <| .classOf "Climb" none [
    .method .void "climb" [.argument .int "n"] [
      .loop (.binary .lt (.identifier "n") (.int 9)) [
        .ifElse (.binary .lt (.identifier "n") (.int 0))
          [.assign "n" (.int 0)]
          [.assign "n" (.binary .add (.identifier "n") (.int 1))]]]]

theorem climbClass_jumps_resolve : ∃ a code m F listing, climbClass.analyze {} = .ok a ∧
    lowerClass a.table climbClass.tree = .ok code ∧ m ∈ code.methods ∧
    labelsOf m.code = ["Loop_0", "Else_1", "EndIf_1", "EndLoop_0"] ∧
    Frame.build 99 m = .ok F ∧ F.listing a.table = .ok listing ∧
    Line.op (.ifeq "Else_1") ∈ listing.lines ∧
    (listing.lines.map (Line.text Op.text)).count "Else_1:" = 1 := by
  obtain ⟨a, code, m, F, listing, ha, hcode, hm, hlabels, hF, hlisting, hjump⟩ :
      ∃ a code m F listing, climbClass.analyze {} = .ok a ∧
        lowerClass a.table climbClass.tree = .ok code ∧ m ∈ code.methods ∧
        labelsOf m.code = ["Loop_0", "Else_1", "EndIf_1", "EndLoop_0"] ∧
        Frame.build 99 m = .ok F ∧ F.listing a.table = .ok listing ∧
        Line.op (.ifeq "Else_1") ∈ listing.lines :=
    ⟨_, _, _, _, _, rfl, rfl, List.mem_cons_self, rfl, rfl, rfl,
      List.mem_of_getElem? (i := 22) rfl⟩
  obtain ⟨-, -, -, -, hlines⟩ := lowerClass_jumps_resolve hcode hm
  obtain ⟨honce, hfound⟩ := hlines a.table 99 F listing hF hlisting
  exact ⟨a, code, m, F, listing, ha, hcode, hm, hlabels, hF, hlisting, hjump,
    honce "Else_1" (hfound _ _ hjump rfl)⟩

end Machine
end ClassCompiler
