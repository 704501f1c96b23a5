import ClassCompiler.Proofs.Machine.Select
import ClassCompiler.Proofs.Meaning.Code
import ClassCompiler.Proofs.Meaning.Machine
import ClassCompiler.Proofs.ThreeAddress.Fresh

/-!
# Where the lines of an instruction are

The lines of a method are those of its instructions, one after another.  So each instruction has a
place in the listing, and a label is found at the place of the instruction that sets it, provided
that it is not one of the labels that comparisons set for themselves.

* `selectAll_at`: the lines of one instruction.
* `StartsAt`: the line where an instruction starts.
* `selectAll_labels`: no label is set twice.
* `lineOf?_eq`: where a label is found.
-/

namespace ClassCompiler
namespace Machine

open ThreeAddress
open Meaning (except_bind_eq_ok CodeAt labelOfLine? lineOf? findIdx?_of_nodup)

variable {T : ClassTable} {F : Frame}

/-! ## Places -/

theorem selectAll_cons {k : Nat} {i : Instr} {is : List Instr} {lines : List (Line Op)} :
    selectAll T F k (i :: is) = .ok lines ↔ ∃ ls rest, select T F k i = .ok ls ∧
      selectAll T F (k + comparisonsOf i) is = .ok rest ∧ lines = ls ++ rest := by
  rw [selectAll, except_bind_eq_ok]
  constructor
  · rintro ⟨ls, hls, h⟩
    obtain ⟨rest, hrest, h⟩ := except_bind_eq_ok.mp h
    exact ⟨ls, rest, hls, hrest, (Except.ok.inj h).symm⟩
  · rintro ⟨ls, rest, hls, hrest, rfl⟩
    exact ⟨ls, hls, except_bind_eq_ok.mpr ⟨rest, hrest, rfl⟩⟩

/-- The lines before an instruction, its own, and those after it. -/
theorem selectAll_at {k place : Nat} {code : List Instr} {lines : List (Line Op)} {i : Instr}
    (h : selectAll T F k code = .ok lines) (hi : code[place]? = some i) :
    ∃ number before own after, selectAll T F k (code.take place) = .ok before ∧
      select T F number i = .ok own ∧
      selectAll T F k (code.take (place + 1)) = .ok (before ++ own) ∧
      lines = before ++ (own ++ after) := by
  induction code generalizing k place lines with
  | nil => simp at hi
  | cons j js ih =>
    obtain ⟨ls, rest, hls, hrest, rfl⟩ := selectAll_cons.mp h
    cases place with
    | zero =>
      rw [List.getElem?_cons_zero, Option.some.injEq] at hi
      subst hi
      refine ⟨k, [], ls, rest, rfl, hls, ?_, rfl⟩
      rw [List.take_succ_cons, List.take_zero, selectAll_cons]
      exact ⟨ls, [], hls, rfl, (List.append_nil ls).symm⟩
    | succ place =>
      rw [List.getElem?_cons_succ] at hi
      obtain ⟨number, before, own, after, hbefore, hown, hnext, rfl⟩ := ih hrest hi
      refine ⟨number, ls ++ before, own, after, ?_, hown, ?_, ?_⟩
      · rw [List.take_succ_cons, selectAll_cons]
        exact ⟨ls, before, hls, hbefore, rfl⟩
      · rw [List.take_succ_cons, selectAll_cons]
        exact ⟨ls, before ++ own, hls, hnext, List.append_assoc ..⟩
      · rw [List.append_assoc]

/-- The line where the instruction at a place starts; behind the last instruction, the end. -/
def StartsAt (T : ClassTable) (F : Frame) (place line : Nat) : Prop :=
  ∃ before, selectAll T F 0 (F.method.code.take place) = .ok before ∧ before.length = line

theorem StartsAt.zero : StartsAt T F 0 0 :=
  ⟨[], rfl, rfl⟩

/-- The lines of an instruction are where it starts, and the next one starts behind them. -/
theorem StartsAt.own {lines : List (Line Op)} (h : selectAll T F 0 F.method.code = .ok lines)
    {place line : Nat} (hline : StartsAt T F place line) {i : Instr}
    (hi : F.method.code[place]? = some i) :
    ∃ number own, select T F number i = .ok own ∧ CodeAt lines line own ∧
      StartsAt T F (place + 1) (line + own.length) := by
  obtain ⟨number, before, own, after, hbefore, hown, hnext, hlines⟩ := selectAll_at h hi
  obtain ⟨before', hbefore', rfl⟩ := hline
  cases Except.ok.inj (hbefore.symm.trans hbefore')
  refine ⟨number, own, hown, ?_, before ++ own, hnext, List.length_append⟩
  have hall := CodeAt.whole lines
  rw [hlines] at hall ⊢
  have hown := hall.right.left
  rwa [Nat.zero_add] at hown

/-- Behind the last instruction there are no lines. -/
theorem StartsAt.over {lines : List (Line Op)} (h : selectAll T F 0 F.method.code = .ok lines)
    {place line : Nat} (hline : StartsAt T F place line)
    (hplace : F.method.code[place]? = none) : lines[line]? = none := by
  obtain ⟨before, hbefore, rfl⟩ := hline
  rw [List.take_of_length_le (List.getElem?_eq_none_iff.mp hplace), h] at hbefore
  cases hbefore
  exact List.getElem?_eq_none (Nat.le_refl _)

/-! ## Labels -/

/-- The labels that lines set. -/
def labelsOfLines (lines : List (Line Op)) : List String :=
  lines.filterMap labelOfLine?

theorem labelsOfLines_append (lines lines' : List (Line Op)) :
    labelsOfLines (lines ++ lines') = labelsOfLines lines ++ labelsOfLines lines' :=
  List.filterMap_append

theorem labelsOfLines_opLines (ops : List Op) : labelsOfLines (opLines ops) = [] := by
  induction ops with
  | nil => rfl
  | cons op ops ih => exact ih

/-- The labels that the comparison in an instruction sets for itself. -/
def comparisonLabels (k : Nat) (i : Instr) : List String :=
  if comparisonsOf i = 0 then [] else [trueLabel k, endLabel k]

theorem labelsOfLines_binaryLines (k : Nat) (op : BinaryOp) :
    labelsOfLines (binaryLines k op) =
      if op.isComparison then [trueLabel k, endLabel k] else [] := by
  cases op <;> rfl

/-- The labels of an instruction are the one it sets and those of its comparison. -/
theorem select_labels {k : Nat} {i : Instr} {lines : List (Line Op)}
    (h : select T F k i = .ok lines) :
    labelsOfLines lines = i.label?.toList ++ comparisonLabels k i := by
  cases select_cases h with
  | @assign dest rhs lines slot hrhs hslot =>
    rw [labelsOfLines_append, labelsOfLines_opLines, List.append_nil]
    cases selectRhs_cases hrhs with
    | @binary op left right l r hl hr =>
      rw [labelsOfLines_append, labelsOfLines_opLines, labelsOfLines_binaryLines]
      cases op <;> rfl
    | _ => exact labelsOfLines_opLines _
  | label => rfl
  | noop => rfl
  | _ => exact labelsOfLines_opLines _

/-- A name that no comparison takes for a label. -/
def Ordinary (name : String) : Prop :=
  ∀ k, name ≠ trueLabel k ∧ name ≠ endLabel k

theorem trueLabel_inj {j k : Nat} (h : trueLabel j = trueLabel k) : j = k := by
  have htext : NoDigit "CMP_TRUE_" := by decide
  exact (numbered_inj htext htext h).2

theorem endLabel_inj {j k : Nat} (h : endLabel j = endLabel k) : j = k := by
  have htext : NoDigit "CMP_END_" := by decide
  exact (numbered_inj htext htext h).2

theorem trueLabel_ne_endLabel (j k : Nat) : trueLabel j ≠ endLabel k := by
  intro h
  have htrue : NoDigit "CMP_TRUE_" := by decide
  have hend : NoDigit "CMP_END_" := by decide
  have htext := (numbered_inj htrue hend h).1
  exact absurd htext (by decide)

theorem mem_comparisonLabels {k : Nat} {i : Instr} {name : String}
    (h : name ∈ comparisonLabels k i) :
    comparisonsOf i ≠ 0 ∧ (name = trueLabel k ∨ name = endLabel k) := by
  unfold comparisonLabels at h
  split at h
  · cases h
  · exact ⟨‹_›, by simpa using h⟩

theorem comparisonLabels_nodup (k : Nat) (i : Instr) : (comparisonLabels k i).Nodup := by
  unfold comparisonLabels
  split
  · exact List.nodup_nil
  · simp [trueLabel_ne_endLabel]

/-- Every label is one of the code's, or one of a comparison from number `k` on. -/
theorem selectAll_label_cases {k : Nat} {code : List Instr} {lines : List (Line Op)}
    (h : selectAll T F k code = .ok lines) {name : String} (hname : name ∈ labelsOfLines lines) :
    name ∈ labelsOf code ∨ ∃ j, k ≤ j ∧ (name = trueLabel j ∨ name = endLabel j) := by
  induction code generalizing k lines with
  | nil =>
    cases Except.ok.inj h
    cases hname
  | cons i is ih =>
    obtain ⟨ls, rest, hls, hrest, rfl⟩ := selectAll_cons.mp h
    rw [labelsOfLines_append, select_labels hls, List.mem_append, List.mem_append] at hname
    rw [labelsOf_cons, List.mem_append]
    rcases hname with (hown | hcomparison) | hlater
    · exact .inl (.inl hown)
    · exact .inr ⟨k, Nat.le_refl k, (mem_comparisonLabels hcomparison).2⟩
    · rcases ih hrest hlater with hcode | ⟨j, hj, hcomparison⟩
      · exact .inl (.inr hcode)
      · exact .inr ⟨j, Nat.le_of_add_right_le hj, hcomparison⟩

/-- **No label is set twice**, if the code sets none twice and none that a comparison takes. -/
theorem selectAll_labels {k : Nat} {code : List Instr} {lines : List (Line Op)}
    (h : selectAll T F k code = .ok lines) (hnodup : (labelsOf code).Nodup)
    (hordinary : ∀ name ∈ labelsOf code, Ordinary name) : (labelsOfLines lines).Nodup := by
  induction code generalizing k lines with
  | nil =>
    cases Except.ok.inj h
    exact List.nodup_nil
  | cons i is ih =>
    obtain ⟨ls, rest, hls, hrest, rfl⟩ := selectAll_cons.mp h
    rw [labelsOf_cons] at hnodup hordinary
    obtain ⟨hown, his, hapart⟩ := List.nodup_append.mp hnodup
    have hlater := ih hrest his fun name hname => hordinary name (List.mem_append_right _ hname)
    rw [labelsOfLines_append, select_labels hls]
    refine List.nodup_append.mpr ⟨List.nodup_append.mpr
      ⟨hown, comparisonLabels_nodup k i, fun name hname other hother heq => ?_⟩, hlater,
      fun name hname other hother heq => ?_⟩
    · -- The label that the instruction sets is not one of its comparison.
      have hname' := hordinary name (List.mem_append_left _ hname) k
      rcases (mem_comparisonLabels hother).2 with hother | hother
      · exact hname'.1 (heq.trans hother)
      · exact hname'.2 (heq.trans hother)
    · subst heq
      rcases List.mem_append.mp hname with hname | hname
      · -- It is not set later either: not by the code, nor by a comparison.
        have hname' := hordinary name (List.mem_append_left _ hname)
        rcases selectAll_label_cases hrest hother with hcode | ⟨j, -, hj | hj⟩
        · exact hapart name hname name hcode rfl
        · exact (hname' j).1 hj
        · exact (hname' j).2 hj
      · -- A label of the comparison belongs to no later one, whose numbers are greater.
        obtain ⟨hone, hname⟩ := mem_comparisonLabels hname
        rcases selectAll_label_cases hrest hother with hcode | ⟨j, hj, hlabel⟩
        · have hname' := hordinary name (List.mem_append_right _ hcode) k
          exact hname.elim hname'.1 hname'.2
        · have hlt : k < j := by omega
          rcases hname with rfl | rfl <;> rcases hlabel with hlabel | hlabel
          · exact Nat.ne_of_lt hlt (trueLabel_inj hlabel)
          · exact trueLabel_ne_endLabel k j hlabel
          · exact trueLabel_ne_endLabel j k hlabel.symm
          · exact Nat.ne_of_lt hlt (endLabel_inj hlabel)

/-- Where each label is set once, it is found where it is set. -/
theorem lineOf?_eq {lines : List (Line Op)} (h : (labelsOfLines lines).Nodup) {line : Nat}
    {name : String} (hline : lines[line]? = some (.label name)) :
    lineOf? lines name = some line :=
  findIdx?_of_nodup h hline rfl

/-! ## Frames -/

/-- The code of a frame sets no label twice. -/
theorem collectLabels_nodup {method : String} {start : Nat} {known labels : List (String × Nat)}
    {code : List Instr} (h : collectLabels method start known code = .ok labels)
    (hknown : (known.map Prod.fst).Nodup) : (known.map Prod.fst ++ labelsOf code).Nodup := by
  induction code generalizing start known with
  | nil => simpa using hknown
  | cons c cs ih =>
    rw [collectLabels] at h
    rw [labelsOf_cons]
    cases hc : c.label? with
    | none =>
      rw [hc] at h
      exact ih h hknown
    | some name =>
      simp only [hc] at h
      split at h
      · cases h
      · rename_i hnew
        have hfresh : name ∉ known.map Prod.fst := by
          simpa [List.lookup_isSome_iff] using hnew
        have hnodup := ih h (by
          rw [List.map_append]
          exact List.nodup_append.mpr ⟨hknown, by simp, by
            rintro a ha b hb rfl
            simp at hb
            exact hfresh (hb ▸ ha)⟩)
        simpa using hnodup

/-- What building a frame has checked. -/
theorem Frame.build_eq_ok {budget : Nat} {m : Method} (h : Frame.build budget m = .ok F) :
    F.method = m ∧ allocate m = .ok F.slots ∧ (labelsOf m.code).Nodup := by
  obtain ⟨slots, hslots, h⟩ := except_bind_eq_ok.mp h
  obtain ⟨labels, hlabels, h⟩ := except_bind_eq_ok.mp h
  obtain ⟨_, -, h⟩ := except_bind_eq_ok.mp h
  cases Except.ok.inj h
  exact ⟨rfl, hslots, collectLabels_nodup hlabels List.nodup_nil⟩

/-- The labels that are collected are those of the code. -/
theorem collectLabels_names {method : String} {start : Nat} {known labels : List (String × Nat)}
    {code : List Instr} (h : collectLabels method start known code = .ok labels) :
    labels.map Prod.fst = known.map Prod.fst ++ labelsOf code := by
  induction code generalizing start known with
  | nil =>
    cases Except.ok.inj h
    rw [labelsOf_nil, List.append_nil]
  | cons c cs ih =>
    rw [collectLabels] at h
    rw [labelsOf_cons]
    cases hc : c.label? with
    | none =>
      rw [hc] at h
      exact ih h
    | some name =>
      simp only [hc] at h
      split at h
      · cases h
      · rw [ih h]
        simp

/-- The jumps that have been checked go to labels that were collected. -/
theorem checkJumps_target {method : String} {labels : List (String × Nat)} {code : List Instr}
    (h : checkJumps method labels code = .ok ()) {i : Instr} (hi : i ∈ code) {name : String}
    (hname : i.target? = some name) : name ∈ labels.map Prod.fst := by
  induction code with
  | nil => cases hi
  | cons c cs ih =>
    rw [checkJumps] at h
    rcases List.mem_cons.mp hi with rfl | hi
    · rw [hname] at h
      dsimp only at h
      split at h
      · rename_i hfound
        obtain ⟨entry, hentry, heq⟩ := List.lookup_isSome_iff.mp hfound
        exact List.mem_map.mpr ⟨entry, hentry, (beq_iff_eq.mp heq).symm⟩
      · cases h
    · split at h
      · exact ih h hi
      · split at h
        · exact ih h hi
        · cases h

/-- Every jump of a frame goes to a label of its code. -/
theorem Frame.build_target {budget : Nat} {m : Method} (h : Frame.build budget m = .ok F)
    {i : Instr} (hi : i ∈ m.code) {name : String} (hname : i.target? = some name) :
    name ∈ labelsOf m.code := by
  obtain ⟨slots, -, h⟩ := except_bind_eq_ok.mp h
  obtain ⟨labels, hlabels, h⟩ := except_bind_eq_ok.mp h
  obtain ⟨_, hjumps, -⟩ := except_bind_eq_ok.mp h
  have hmem := checkJumps_target hjumps hi hname
  rwa [collectLabels_names hlabels, List.map_nil, List.nil_append] at hmem

end Machine
end ClassCompiler
