import ClassCompiler.Proofs.Machine.Balance
import ClassCompiler.Proofs.Machine.Emit

/-!
# Slots and labels in the lines of a method

A machine instruction names a place in two ways.  It reads or writes a slot, or it jumps to a label.
Where such a name comes from can be told for every line at once (`Accesses`): a slot is that of the
receiver or was given to a variable, a label is the target of the instruction that was selected or
belongs to its comparison.  All other instructions name no place at all.

The slots that are given are as many as there are names.  Together this says that a method never
touches a slot that it did not announce.

* `Op.slot?`: the slot that an instruction reads or writes.
* `Accesses`, `select_accesses`: where slots and labels in the lines of an instruction come from.
* `allocate_used`: the number of slots that are given.
* `slots_of_allocate`: the slots of a method, and how they are used.
-/

namespace ClassCompiler
namespace Machine

open ThreeAddress
open Meaning (except_bind_eq_ok)

/-! ## The lines of instructions -/

/-- The slot that an instruction reads or writes. -/
def Op.slot? : Op → Option Nat
  | load _ slot | store _ slot => some slot
  | _ => none

/-- Where an instruction in the lines of `i` has its slot or its label from. -/
inductive Accesses (F : Frame) (k : Nat) (i : Instr) : Op → Prop
  | plain {o} (hslot : o.slot? = none) (htarget : o.target? = none) : Accesses F k i o
  | receiver {o} (hstatic : F.method.isStatic = false) (hslot : o.slot? = some 0)
    (htarget : o.target? = none) : Accesses F k i o
  | variable {o v index} (hindex : F.slot v = .ok index) (hslot : o.slot? = some index)
    (htarget : o.target? = none) : Accesses F k i o
  | jump {o name} (hi : i.target? = some name) (hslot : o.slot? = none)
    (htarget : o.target? = some name) : Accesses F k i o
  | comparison {o name} (hname : name ∈ comparisonLabels k i) (hslot : o.slot? = none)
    (htarget : o.target? = some name) : Accesses F k i o

section

variable {T : ClassTable} {F : Frame} {k : Nat} {i : Instr}

theorem mem_opLines {o : Op} {ops : List Op} : Line.op o ∈ opLines ops ↔ o ∈ ops := by
  simp [opLines]

theorem accesses_pushInt (value : Int32) : Accesses F k i (pushInt value) := by
  unfold pushInt
  dsimp only
  split
  · exact .plain rfl rfl
  · split
    · exact .plain rfl rfl
    · split
      · exact .plain rfl rfl
      · exact .plain rfl rfl

theorem accesses_push {o : Operand} {op : Op} (h : push F o = .ok op) : Accesses F k i op := by
  cases o with
  | int value =>
    cases Except.ok.inj h
    exact accesses_pushInt value
  | bool value =>
    cases Except.ok.inj h
    exact accesses_pushInt _
  | string value =>
    cases Except.ok.inj h
    exact .plain rfl rfl
  | var v =>
    obtain ⟨index, hindex, rfl⟩ := push_var_eq_ok h
    exact .variable hindex rfl rfl
  | this name =>
    obtain ⟨hstatic, rfl⟩ := push_this_eq_ok h
    exact .receiver hstatic rfl rfl
  | classRef name => cases h

theorem accesses_pushAll {os : List Operand} {ops : List Op} (h : pushAll F os = .ok ops) :
    ∀ op ∈ ops, Accesses F k i op := by
  induction os generalizing ops with
  | nil =>
    cases Except.ok.inj h
    exact fun _ hop => absurd hop List.not_mem_nil
  | cons o os ih =>
    obtain ⟨op, rest, hop, hrest, rfl⟩ := pushAll_cons_eq_ok h
    exact List.forall_mem_cons.mpr ⟨accesses_push hop, ih hrest⟩

theorem accesses_selectCall {c : Call} {ops : List Op} (h : selectCall T F c = .ok ops) :
    ∀ op ∈ ops, Accesses F k i op := by
  obtain ⟨target, kind, owner, args, signature, htarget, -, hargs, -, rfl⟩ := selectCall_eq_ok h
  have hpushed : ∀ op ∈ target, Accesses F k i op := by
    cases htarget with
    | static _ _ _ => exact fun _ hop => absurd hop List.not_mem_nil
    | virtual _ hop _ => exact List.forall_mem_singleton.mpr (accesses_push hop)
  intro op hop
  rcases List.mem_append.mp hop with hop | hop
  · exact (List.mem_append.mp hop).elim (hpushed op) (accesses_pushAll hargs op)
  · rw [List.mem_singleton.mp hop]
    exact .plain rfl rfl

/-- A comparison jumps to its own labels. -/
theorem accesses_binaryLines {op : BinaryOp}
    (hlabels : op.isComparison = true → comparisonLabels k i = [trueLabel k, endLabel k]) {o : Op}
    (ho : Line.op o ∈ binaryLines k op) : Accesses F k i o := by
  have hcomparison {jump : String → Op} (hjump : ∀ name, (jump name).slot? = none ∧
      (jump name).target? = some name) (hown : comparisonLabels k i = [trueLabel k, endLabel k])
      (ho : Line.op o ∈ comparisonLines k jump) : Accesses F k i o := by
    simp only [comparisonLines, List.mem_cons, Line.op.injEq, reduceCtorEq, List.not_mem_nil,
      or_false, false_or] at ho
    rcases ho with rfl | rfl | rfl | rfl
    · exact .comparison (by simp [hown]) (hjump _).1 (hjump _).2
    · exact accesses_pushInt _
    · have hend : endLabel k ∈ comparisonLabels k i := by simp [hown]
      exact .comparison hend rfl rfl
    · exact accesses_pushInt _
  cases op with
  | lt => exact hcomparison (fun _ => ⟨rfl, rfl⟩) (hlabels rfl) ho
  | gt => exact hcomparison (fun _ => ⟨rfl, rfl⟩) (hlabels rfl) ho
  | _ =>
    obtain rfl := Line.op.inj (List.mem_singleton.mp ho)
    exact .plain rfl rfl

theorem accesses_selectRhs {dest : Var} {rhs : Rhs} {lines : List (Line Op)}
    (h : selectRhs T F k rhs = .ok lines) {o : Op} (ho : Line.op o ∈ lines) :
    Accesses F k (.assign dest rhs) o := by
  cases selectRhs_cases h with
  | operand hop =>
    rw [mem_opLines, List.mem_singleton] at ho
    exact ho ▸ accesses_push hop
  | @binary op left right l r hl hr =>
    rcases List.mem_append.mp ho with ho | ho
    · rw [mem_opLines] at ho
      rcases List.mem_cons.mp ho with rfl | ho
      · exact accesses_push hl
      · exact List.mem_singleton.mp ho ▸ accesses_push hr
    · refine accesses_binaryLines (fun hop => ?_) ho
      rw [comparisonLabels, comparisonsOf, if_pos hop, if_neg Nat.one_ne_zero]
  | call hops => exact accesses_selectCall hops o (mem_opLines.mp ho)
  | not hop =>
    rw [mem_opLines] at ho
    rcases List.mem_cons.mp ho with rfl | ho
    · exact accesses_push hop
    · rcases List.mem_cons.mp ho with rfl | ho
      · exact accesses_pushInt 1
      · exact List.mem_singleton.mp ho ▸ .plain rfl rfl
  | getField hop _ _ | arrayLength hop | newArray hop =>
    rw [mem_opLines] at ho
    rcases List.mem_cons.mp ho with rfl | ho
    · exact accesses_push hop
    · exact List.mem_singleton.mp ho ▸ .plain rfl rfl
  | arrayLoad hslot hop =>
    rw [mem_opLines] at ho
    rcases List.mem_cons.mp ho with rfl | ho
    · exact .variable hslot rfl rfl
    · rcases List.mem_cons.mp ho with rfl | ho
      · exact accesses_push hop
      · exact List.mem_singleton.mp ho ▸ .plain rfl rfl
  | newObject _ =>
    rw [mem_opLines] at ho
    simp only [List.mem_cons, List.not_mem_nil, or_false] at ho
    rcases ho with rfl | rfl | rfl <;> exact .plain rfl rfl

/-- **Where the lines of an instruction have their slots and labels from.** -/
theorem select_accesses {lines : List (Line Op)} (h : select T F k i = .ok lines) {o : Op}
    (ho : Line.op o ∈ lines) : Accesses F k i o := by
  cases select_cases h with
  | assign hrhs hslot =>
    rcases List.mem_append.mp ho with ho | ho
    · exact accesses_selectRhs hrhs ho
    · rw [mem_opLines, List.mem_singleton] at ho
      exact ho ▸ .variable hslot rfl rfl
  | arrayStore hslot hi hv =>
    rw [mem_opLines] at ho
    simp only [List.mem_cons, List.not_mem_nil, or_false] at ho
    rcases ho with rfl | rfl | rfl | rfl
    · exact .variable hslot rfl rfl
    · exact accesses_push hi
    · exact accesses_push hv
    · exact .plain rfl rfl
  | @call c ops hops =>
    rw [mem_opLines] at ho
    split at ho
    · exact accesses_selectCall hops o ho
    · rcases List.mem_append.mp ho with ho | ho
      · exact accesses_selectCall hops o ho
      · exact List.mem_singleton.mp ho ▸ .plain rfl rfl
  | putField hobject hv _ _ =>
    rw [mem_opLines] at ho
    simp only [List.mem_cons, List.not_mem_nil, or_false] at ho
    rcases ho with rfl | rfl | rfl
    · exact accesses_push hobject
    · exact accesses_push hv
    · exact .plain rfl rfl
  | @returnSome value op hop =>
    rw [mem_opLines] at ho
    rcases List.mem_cons.mp ho with rfl | ho
    · exact accesses_push hop
    · rw [List.mem_singleton.mp ho]
      unfold returnOf
      split
      · exact .plain rfl rfl
      · split <;> exact .plain rfl rfl
  | returnNone =>
    rw [mem_opLines, List.mem_singleton] at ho
    exact ho ▸ .plain rfl rfl
  | jump =>
    rw [mem_opLines, List.mem_singleton] at ho
    exact ho ▸ .jump rfl rfl rfl
  | @branch cond negated target op hop =>
    rw [mem_opLines] at ho
    rcases List.mem_cons.mp ho with rfl | ho
    · exact accesses_push hop
    · rw [List.mem_singleton.mp ho]
      cases negated <;> exact .jump rfl rfl rfl
  | label => exact absurd (List.mem_singleton.mp ho) (by simp)
  | noop => exact absurd ho List.not_mem_nil

/-- Every instruction in the lines of code is in the lines of one of its instructions, with the
labels of that one's comparison among those of the lines. -/
theorem selectAll_accesses {code : List Instr} {lines : List (Line Op)}
    (h : selectAll T F k code = .ok lines) {o : Op} (ho : Line.op o ∈ lines) :
    ∃ j, ∃ i ∈ code, Accesses F j i o ∧
      ∀ name ∈ comparisonLabels j i, name ∈ labelsOfLines lines := by
  induction code generalizing k lines with
  | nil =>
    cases Except.ok.inj h
    exact absurd ho List.not_mem_nil
  | cons i is ih =>
    obtain ⟨own, rest, hown, hrest, rfl⟩ := selectAll_cons.mp h
    rw [labelsOfLines_append]
    rcases List.mem_append.mp ho with ho | ho
    · refine ⟨k, i, List.mem_cons_self, select_accesses hown ho, fun name hname => ?_⟩
      rw [select_labels hown]
      exact List.mem_append_left _ (List.mem_append_right _ hname)
    · obtain ⟨j, i', hi', haccess, hlabels⟩ := ih hrest ho
      exact ⟨j, i', List.mem_cons_of_mem i hi', haccess,
        fun name hname => List.mem_append_right _ (hlabels name hname)⟩

end

/-! ## Slots -/

namespace SlotTable

/-- Each name that had no slot takes one. -/
theorem assignAll_used {t t' : SlotTable} {vs : List Var} (h : t.assignAll vs = .ok t') :
    t'.used = t.used + (t.newNames vs).card := by
  induction vs generalizing t with
  | nil =>
    cases Except.ok.inj h
    rfl
  | cons v vs ih =>
    obtain ⟨t₁, _, hv, hvs⟩ := assignAll_cons h
    rcases assign_cases hv with ⟨s, hs, rfl⟩ | ⟨hnone, hused, hget⟩
    · rw [newNames_cons_of_some hs]
      exact ih hvs
    · rw [card_newNames_cons hnone hget, ih hvs, hused]
      omega

/-- Slots run out and nothing else goes wrong. -/
theorem assignAll_error {t : SlotTable} {vs : List Var} {e : Error}
    (h : t.assignAll vs = .error e) : e = .tooManySlots := by
  induction vs generalizing t with
  | nil => cases h
  | cons v vs ih =>
    rw [assignAll] at h
    cases hassign : t.assign v with
    | ok r =>
      rw [hassign] at h
      exact ih h
    | error e' =>
      rw [hassign] at h
      cases Except.error.inj h
      unfold assign at hassign
      split at hassign
      · cases hassign
      · split at hassign
        · cases hassign
        · exact (Except.error.inj hassign).symm

end SlotTable

section

variable {m : Method} {t : SlotTable}

theorem newNames_of_empty {start : SlotTable} (h : ∀ x, start.get? x = none) (vs : List Var) :
    start.newNames vs = (vs.map Var.name).toFinset :=
  Finset.filter_true_of_mem fun x _ => by rw [h]; rfl

/-- **As many slots are given as are needed.** -/
theorem allocate_used (h : allocate m = .ok t) : t.used = slotsNeeded m := by
  obtain ⟨start, heq, hused, hnone⟩ := allocate_eq m
  rw [heq] at h
  rw [SlotTable.assignAll_used h, hused, newNames_of_empty hnone, slotsNeeded]

theorem allocate_covers (h : allocate m = .ok t) {v : Var} (hv : v ∈ frameVars m) :
    ∃ s, t.get? v.name = some s := by
  obtain ⟨start, heq, -⟩ := allocate_eq m
  rw [heq] at h
  exact Option.isSome_iff_exists.mp (SlotTable.assignAll_covers h hv)

theorem allocate_error {e : Error} (h : allocate m = .error e) : e = .tooManySlots := by
  obtain ⟨start, heq, -⟩ := allocate_eq m
  rw [heq] at h
  exact SlotTable.assignAll_error h

/-- The slots that the lines of a method name were given to its variables or to the receiver. -/
theorem slot_lt_of_listing {T : ClassTable} {budget : Nat} {F : Frame} {listing : Listing Op}
    (hF : Frame.build budget m = .ok F) (hlisting : F.listing T = .ok listing) {o : Op} {slot : Nat}
    (ho : Line.op o ∈ listing.lines) (hslot : o.slot? = some slot) : slot < F.slots.used := by
  obtain ⟨rfl, hslots, -⟩ := Frame.build_eq_ok hF
  obtain ⟨lines, hselect, hlisting⟩ := except_bind_eq_ok.mp hlisting
  cases Except.ok.inj hlisting
  have hapart := allocate_apart hslots
  obtain ⟨_, _, -, haccess, -⟩ := selectAll_accesses hselect ho
  cases haccess with
  | plain hnone _ | jump _ hnone _ | comparison _ hnone _ =>
    rw [hnone] at hslot
    cases hslot
  | receiver hstatic hzero _ =>
    rw [hzero, Option.some.injEq] at hslot
    have hbase := hapart.base_le
    rw [firstSlot, hstatic, if_neg Bool.false_ne_true] at hbase
    omega
  | «variable» hindex hsome _ =>
    rw [hsome, Option.some.injEq] at hslot
    obtain ⟨s, hs, rfl⟩ := Frame.slot_eq_ok hindex
    exact hslot ▸ (hapart.bounds _ s hs).2

/-- **The slots of a method.**  Where slots are given, no two names have the same, and none has that
of the receiver; every parameter, every local and everything that is assigned has one; parameters
with different names have the first ones in their order; there are as many as names, with one more
for the receiver, and all are below that number.  A method announces at least that many, whatever
its budget, and its lines touch no slot that it does not announce.  Slots are given unless there
are not enough, and that is the only error. -/
theorem slots_of_allocate (m : Method) :
    (∀ t, allocate m = .ok t →
      (∀ x y s s', t.get? x = some s → t.get? y = some s' → s.index = s'.index → x = y) ∧
      (m.isStatic = false → ∀ x s, t.get? x = some s → s.index ≠ 0) ∧
      (∀ v, (v ∈ m.params ∨ v ∈ m.locals ∨ ∃ rhs, Instr.assign v rhs ∈ m.code) →
        ∃ s, t.get? v.name = some s) ∧
      ((m.params.map Var.name).Nodup → ∀ i v, m.params[i]? = some v →
        ∃ s, t.get? v.name = some s ∧ s.index = if m.isStatic then i else i + 1) ∧
      t.used = ((m.params ++ m.locals ++ m.code.filterMap Instr.dest?).map Var.name).toFinset.card +
        (if m.isStatic then 0 else 1) ∧
      (∀ x s, t.get? x = some s → s.index < t.used) ∧
      (∀ budget, t.used ≤ slotLimit budget t) ∧ t.used ≤ 65535) ∧
    (∀ T budget F listing, Frame.build budget m = .ok F → F.listing T = .ok listing →
      ∀ o slot, Line.op o ∈ listing.lines → o.slot? = some slot → slot < F.limit) ∧
    (∀ e, allocate m = .error e → e = .tooManySlots ∧ 65535 < slotsNeeded m) := by
  refine ⟨fun t ht => ?_, fun T budget F listing hF hlisting o slot ho hslot => ?_, fun e he => ?_⟩
  · have hapart := allocate_apart ht
    have hused := allocate_used ht
    have hneeded := (allocate_isOk m).mp ⟨t, ht⟩
    refine ⟨hapart.inj, fun hstatic x s hx => ?_, fun v hv => allocate_covers ht ?_,
      fun hnodup i v hv => ?_, ?_, fun x s hx => (hapart.bounds x s hx).2,
      fun budget => Nat.le_max_right .., hused ▸ hneeded⟩
    · have hbase := (hapart.bounds x s hx).1
      rw [firstSlot, hstatic, if_neg Bool.false_ne_true] at hbase
      omega
    · rw [frameVars, List.append_assoc, List.mem_append, List.mem_append, List.mem_filterMap]
      rcases hv with hv | hv | ⟨rhs, hrhs⟩
      · exact .inl hv
      · exact .inr (.inl hv)
      · exact .inr (.inr ⟨_, hrhs, rfl⟩)
    · obtain ⟨s, hs, hindex⟩ := allocate_params ht hnodup hv
      refine ⟨s, hs, hindex.trans ?_⟩
      rw [firstSlot]
      split <;> omega
    · rw [hused, slotsNeeded, Nat.add_comm, frameVars, firstSlot]
  · have hlt := slot_lt_of_listing hF hlisting ho hslot
    obtain ⟨slots, hslots, hF⟩ := except_bind_eq_ok.mp hF
    obtain ⟨labels, -, hF⟩ := except_bind_eq_ok.mp hF
    obtain ⟨_, -, hF⟩ := except_bind_eq_ok.mp hF
    cases Except.ok.inj hF
    exact Nat.lt_of_lt_of_le hlt (Nat.le_max_right ..)
  · refine ⟨allocate_error he, Nat.lt_of_not_le fun hneeded => ?_⟩
    obtain ⟨t, ht⟩ := (allocate_isOk m).mpr hneeded
    rw [he] at ht
    cases ht

open Meaning (divideMethod) in
/-- A method that announces more slots than it is told to. -/
theorem divideMethod_slots : ∃ t F listing, allocate divideMethod = .ok t ∧
    Frame.build 3 divideMethod = .ok F ∧
    F.listing ⟨"Divider", none, [], [], []⟩ = .ok listing ∧
    (∃ s, t.get? "loud" = some s ∧ s.index = 2) ∧ t.used = 5 ∧
    Line.op (.store .int 4) ∈ listing.lines ∧ 4 < F.limit := by
  obtain ⟨hgiven, hlines, -⟩ := slots_of_allocate divideMethod
  obtain ⟨-, -, -, hparams, hused, -⟩ := hgiven _ rfl
  have hstored : ∃ F listing, Frame.build 3 divideMethod = .ok F ∧
      F.listing ⟨"Divider", none, [], [], []⟩ = .ok listing ∧
      Line.op (.store .int 4) ∈ listing.lines := by
    refine ⟨_, _, rfl, rfl, List.mem_of_getElem? (i := 11) rfl⟩
  obtain ⟨F, listing, hF, hlisting, hstore⟩ := hstored
  exact ⟨_, F, listing, rfl, hF, hlisting, hparams (by decide) 1 ⟨"loud", .bool⟩ rfl,
    hused.trans (by decide), hstore, hlines _ 3 F listing hF hlisting _ 4 hstore rfl⟩

end

end Machine
end ClassCompiler
