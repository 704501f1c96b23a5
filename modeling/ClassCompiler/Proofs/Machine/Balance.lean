import ClassCompiler.Machine.ClassText
import ClassCompiler.Proofs.Machine.Depth
import ClassCompiler.Proofs.Machine.Simulation
import Mathlib.Data.List.MinMax
import Mathlib.Order.Nat

/-!
# Listings are balanced

The lines of each instruction are level, and lead from an empty stack to an empty stack, provided
that no call without a result is assigned.  So the lines of a method are level as well, and every
path through them finds an empty stack between two instructions, finds what it takes, and never has
more on the stack than three words or the object and the arguments of a call.

* `select_level`: the lines of an instruction.
* `listing_level`: the lines of a method.
* `listing_stack_balanced`: all paths through them.
* `listing_run_stack_le`: all runs of the machine.
-/

namespace ClassCompiler
namespace Machine

open ThreeAddress
open Meaning (except_bind_eq_ok)

/-! ## The lines of instructions -/

variable {T : ClassTable} {F : Frame} {k bound depth : Nat}

/-- An instruction that puts one word on the stack and goes on. -/
structure Op.IsPush (o : Op) : Prop where
  pops : o.pops = 0
  pushes : o.pushes = 1
  target : o.target? = none
  goes : o.goesOn = true

theorem isPush_pushInt (value : Int32) : (pushInt value).IsPush := by
  unfold pushInt
  dsimp only
  split
  · exact ⟨rfl, rfl, rfl, rfl⟩
  · split
    · exact ⟨rfl, rfl, rfl, rfl⟩
    · split
      · exact ⟨rfl, rfl, rfl, rfl⟩
      · exact ⟨rfl, rfl, rfl, rfl⟩

theorem isPush_loadSlot (t : ValueType) (slot : Nat) : (loadSlot t slot).IsPush :=
  ⟨rfl, rfl, rfl, rfl⟩

theorem isPush_push {o : Operand} {op : Op} (h : push F o = .ok op) : op.IsPush := by
  cases o with
  | int value =>
    cases Except.ok.inj h
    exact isPush_pushInt value
  | bool value =>
    cases Except.ok.inj h
    exact isPush_pushInt _
  | string value =>
    cases Except.ok.inj h
    exact ⟨rfl, rfl, rfl, rfl⟩
  | var v =>
    obtain ⟨index, -, rfl⟩ := push_var_eq_ok h
    exact isPush_loadSlot v.type index
  | this name =>
    obtain ⟨-, rfl⟩ := push_this_eq_ok h
    exact ⟨rfl, rfl, rfl, rfl⟩
  | classRef name => cases h

namespace Level

variable {o : Op} {lines : List (Line Op)} {after : Nat}

/-- An instruction that does not jump and goes on. -/
theorem plain (depth' : Nat) (htarget : o.target? = none) (hgoes : o.goesOn = true)
    (hpops : o.pops ≤ depth) (hchange : o.change depth = depth') (hbound : depth' ≤ bound)
    (h : Level bound depth' lines after) : Level bound depth (.op o :: lines) after := by
  subst hchange
  have hsettle : o.settle depth = o.change depth := if_pos hgoes
  refine .op hpops hbound (fun name hname => ?_) (hsettle ▸ h)
  rw [htarget] at hname
  cases hname

/-- An instruction that only puts a word on the stack. -/
theorem push (ho : o.IsPush) (hbound : depth + 1 ≤ bound)
    (h : Level bound (depth + 1) lines after) : Level bound depth (.op o :: lines) after := by
  have hchange : o.change depth = depth + 1 := by
    rw [Op.change, ho.pops, ho.pushes, Nat.sub_zero]
  exact .plain (depth + 1) ho.target ho.goes (ho.pops ▸ Nat.zero_le depth) hchange hbound h

/-- A conditional jump on one word. -/
theorem branch {name : String} (hpops : o.pops = 1) (hpushes : o.pushes = 0)
    (htarget : o.target? = some name) (hname : labelDepth name = 0) :
    Level bound 1 [.op o] 0 := by
  have hchange : o.change 1 = 0 := by
    rw [Op.change, hpops, hpushes]
  have hsettle : o.settle 1 = 0 := by
    rw [Op.settle, hchange, ite_self]
  refine .op (Nat.le_of_eq hpops) (hchange ▸ Nat.zero_le bound) (fun other hother => ?_)
    (hsettle ▸ .nil)
  rw [htarget, Option.some.injEq] at hother
  rw [← hother, hname, hchange]

/-- An instruction that does not go on. -/
theorem final (hgoes : o.goesOn = false) (hpops : o.pops ≤ depth) (hbound : o.change depth ≤ bound)
    (htarget : ∀ name, o.target? = some name → labelDepth name = o.change depth) :
    Level bound depth [.op o] 0 := by
  have hsettle : o.settle depth = 0 := by
    rw [Op.settle, hgoes, if_neg Bool.false_ne_true]
  exact .op hpops hbound htarget (hsettle ▸ .nil)

end Level

theorem pushAll_level {os : List Operand} {ops : List Op} (h : pushAll F os = .ok ops)
    (hbound : depth + os.length ≤ bound) :
    Level bound depth (opLines ops) (depth + os.length) := by
  induction os generalizing ops depth with
  | nil =>
    cases Except.ok.inj h
    exact .nil
  | cons o os ih =>
    obtain ⟨op, rest, hop, hrest, rfl⟩ := pushAll_cons_eq_ok h
    rw [List.length_cons] at hbound ⊢
    have hlater : Level bound (depth + 1) (opLines rest) (depth + 1 + os.length) :=
      ih hrest (by omega)
    rw [show depth + (os.length + 1) = depth + 1 + os.length by omega]
    exact .push (isPush_push hop) (by omega) hlater

theorem descriptorsOf_length {ts : List ValueType} {ds : List Descriptor}
    (h : descriptorsOf T ts = .ok ds) : ds.length = ts.length := by
  induction ts generalizing ds with
  | nil =>
    cases Except.ok.inj h
    rfl
  | cons t ts ih =>
    obtain ⟨d, -, h⟩ := except_bind_eq_ok.mp h
    obtain ⟨rest, hrest, h⟩ := except_bind_eq_ok.mp h
    cases Except.ok.inj h
    rw [List.length_cons, List.length_cons, ih hrest]

theorem descriptorOf_eq_void {t : ValueType} {d : Descriptor} (h : descriptorOf T t = .ok d) :
    d = .void ↔ t = .void := by
  cases t with
  | object name =>
    obtain ⟨path, -, h⟩ := except_bind_eq_ok.mp h
    cases Except.ok.inj h
    simp
  | _ =>
    cases Except.ok.inj h
    simp

theorem signatureOf_eq_ok {params : List ValueType} {result : ValueType} {s : Signature}
    (h : signatureOf T params result = .ok s) :
    descriptorsOf T params = .ok s.params ∧ descriptorOf T result = .ok s.result := by
  obtain ⟨ds, hds, h⟩ := except_bind_eq_ok.mp h
  obtain ⟨d, hd, h⟩ := except_bind_eq_ok.mp h
  cases Except.ok.inj h
  exact ⟨hds, hd⟩

/-- The words that a result takes on the stack. -/
def words (t : ValueType) : Nat :=
  if t = .void then 0 else 1

theorem words_le (t : ValueType) : words t ≤ 1 := by
  unfold words
  split <;> omega

/-- The lines of a call leave its result, if it has one. -/
theorem selectCall_level {c : Call} {ops : List Op} (h : selectCall T F c = .ok ops)
    (hbound : c.args.length + 1 ≤ bound) : Level bound 0 (opLines ops) (words c.result) := by
  obtain ⟨target, kind, owner, args, signature, htarget, hlength, hargs, hsignature, rfl⟩ :=
    selectCall_eq_ok h
  obtain ⟨hparams, hresult⟩ := signatureOf_eq_ok hsignature
  have hcount : signature.params.length = c.args.length :=
    (descriptorsOf_length hparams).trans hlength
  have hpushes : (Op.invoke kind owner c.method signature).pushes = words c.result := by
    simp only [Op.pushes, words, descriptorOf_eq_void hresult]
  have hwords := words_le c.result
  -- What the call takes is what was pushed for it.
  have hinvoke (before : Nat) (hbefore : (Op.invoke kind owner c.method signature).pops = before) :
      Level bound before (opLines [.invoke kind owner c.method signature]) (words c.result) := by
    refine .plain _ rfl rfl (Nat.le_of_eq hbefore) ?_ (by omega) .nil
    rw [Op.change, hbefore, hpushes, Nat.sub_self, Nat.zero_add]
  unfold opLines at hinvoke ⊢
  rw [List.map_append, List.map_append]
  cases htarget with
  | static =>
    refine (pushAll_level hargs (by omega)).append (hinvoke _ ?_)
    rw [Op.pops, hcount, if_pos rfl, Nat.zero_add]
    rfl
  | virtual _ hop _ =>
    refine (Level.push (isPush_push hop) (by omega) (pushAll_level hargs (by omega))).append
      (hinvoke _ ?_)
    rw [Op.pops, hcount, if_neg (by decide), Nat.add_comm 0 1, Nat.add_comm]

/-- A comparison takes two words and leaves one, whichever way it goes. -/
theorem comparisonLines_level (k : Nat) {jump : String → Op} (hbound : 1 ≤ bound)
    (hpops : ∀ name, (jump name).pops = 2) (hpushes : ∀ name, (jump name).pushes = 0)
    (htarget : ∀ name, (jump name).target? = some name)
    (hgoes : ∀ name, (jump name).goesOn = true) : Level bound 2 (comparisonLines k jump) 1 := by
  have hchange : (jump (trueLabel k)).change 2 = 0 := by
    rw [Op.change, hpops, hpushes]
  have hsettle : (jump (trueLabel k)).settle 2 = 0 := by
    rw [Op.settle, if_pos (hgoes _), hchange]
  refine .op (Nat.le_of_eq (hpops _)) (hchange ▸ Nat.zero_le bound) (fun name hname => ?_) ?_
  · rw [htarget, Option.some.injEq] at hname
    rw [← hname, hchange, labelDepth_trueLabel]
  rw [hsettle]
  refine .push (isPush_pushInt _) hbound (.op (Nat.zero_le 1) hbound (fun name hname => ?_) ?_)
  · cases Option.some.inj hname
    exact labelDepth_endLabel k
  refine .label (labelDepth_trueLabel k) (.push (isPush_pushInt _) hbound ?_)
  exact .label (labelDepth_endLabel k) .nil

theorem binaryLines_level (k : Nat) (op : BinaryOp) (hbound : 1 ≤ bound) :
    Level bound 2 (binaryLines k op) 1 := by
  have harith {o : Op} (hpops : o.pops = 2) (hpushes : o.pushes = 1) (htarget : o.target? = none)
      (hgoes : o.goesOn = true) : Level bound 2 [.op o] 1 :=
    .plain 1 htarget hgoes (Nat.le_of_eq hpops) (by rw [Op.change, hpops, hpushes]) hbound .nil
  cases op with
  | lt | gt =>
    exact comparisonLines_level k hbound (fun _ => rfl) (fun _ => rfl) (fun _ => rfl) fun _ => rfl
  | _ => exact harith rfl rfl rfl rfl

/-- A right-hand side leaves one word, unless it is a call that gives nothing. -/
theorem selectRhs_level {rhs : Rhs} {lines : List (Line Op)} (h : selectRhs T F k rhs = .ok lines)
    (hbound : 3 ≤ bound)
    (hcall : ∀ c, rhs = .call c → c.result ≠ .void ∧ c.args.length + 1 ≤ bound) :
    Level bound 0 lines 1 := by
  cases selectRhs_cases h with
  | operand ho => exact .push (isPush_push ho) (by omega) .nil
  | @binary op _ _ _ _ hl hr =>
    exact .push (isPush_push hl) (by omega)
      (.push (isPush_push hr) (by omega) (binaryLines_level k op (by omega)))
  | not ho =>
    exact .push (isPush_push ho) (by omega) (.push (isPush_pushInt 1) (by omega)
      (.plain 1 rfl rfl (Nat.le_refl 2) rfl (by omega) .nil))
  | @call c ops hops =>
    obtain ⟨hvoid, hargs⟩ := hcall c rfl
    have hlevel := selectCall_level hops hargs
    rwa [words, if_neg hvoid] at hlevel
  | getField ho _ _ =>
    exact .push (isPush_push ho) (by omega)
      (.plain 1 rfl rfl (Nat.le_refl 1) rfl (by omega) .nil)
  | arrayLength ho =>
    exact .push (isPush_push ho) (by omega)
      (.plain 1 rfl rfl (Nat.le_refl 1) rfl (by omega) .nil)
  | arrayLoad _ hi =>
    exact .push (isPush_loadSlot _ _) (by omega) (.push (isPush_push hi) (by omega)
      (.plain 1 rfl rfl (Nat.le_refl 2) rfl (by omega) .nil))
  | newObject _ =>
    -- The object is copied for its constructor, which takes the copy.
    exact .push ⟨rfl, rfl, rfl, rfl⟩ (by omega) (.plain 2 rfl rfl (Nat.le_refl 1) rfl (by omega)
      (.plain 1 rfl rfl (Nat.le_succ 1) rfl (by omega) .nil))
  | newArray ho =>
    exact .push (isPush_push ho) (by omega)
      (.plain 1 rfl rfl (Nat.le_refl 1) rfl (by omega) .nil)

/-- The call in an instruction. -/
def callOf? : Instr → Option Call
  | .assign _ (.call c) => some c
  | .call c => some c
  | _ => none

/-- What is asked of an instruction so that its lines are level: a call that gives nothing is not
assigned, its arguments fit, and a jump goes to a label that does not end a comparison. -/
structure Levelled (bound : Nat) (i : Instr) : Prop where
  result : ∀ dest c, i = .assign dest (.call c) → c.result ≠ .void
  args : ∀ c, callOf? i = some c → c.args.length + 1 ≤ bound
  target : ∀ name, i.target? = some name → labelDepth name = 0
  label : ∀ name, i.label? = some name → labelDepth name = 0

theorem returnOf_level (t : ValueType) (hbound : 1 ≤ bound) :
    Level bound 1 (opLines [returnOf t]) 0 := by
  have hreturn {o : Op} (hgoes : o.goesOn = false) (hpops : o.pops ≤ 1)
      (hchange : o.change 1 ≤ 1) (htarget : o.target? = none) : Level bound 1 [.op o] 0 := by
    refine .final hgoes hpops (Nat.le_trans hchange hbound) (fun name hname => ?_)
    rw [htarget] at hname
    cases hname
  unfold returnOf
  split
  · exact hreturn rfl (by decide) (by decide) rfl
  · split
    · exact hreturn rfl (by decide) (by decide) rfl
    · exact hreturn rfl (by decide) (by decide) rfl

/-- **The lines of an instruction lead from an empty stack to an empty stack.** -/
theorem select_level {i : Instr} {lines : List (Line Op)} (h : select T F k i = .ok lines)
    (hbound : 3 ≤ bound) (hi : Levelled bound i) : Level bound 0 lines 0 := by
  cases select_cases h with
  | @assign dest rhs lines slot hrhs _ =>
    have hlines : Level bound 0 lines 1 := by
      refine selectRhs_level hrhs hbound fun c hc => ?_
      subst hc
      exact ⟨hi.result dest c rfl, hi.args c rfl⟩
    exact hlines.append (.plain 0 rfl rfl (Nat.le_refl 1) rfl (Nat.zero_le bound) .nil)
  | arrayStore _ hindex hvalue =>
    exact .push (isPush_loadSlot _ _) (by omega) (.push (isPush_push hindex) (by omega)
      (.push (isPush_push hvalue) (by omega)
        (.plain 0 rfl rfl (Nat.le_refl 3) rfl (Nat.zero_le bound) .nil)))
  | @call c ops hops =>
    have hlevel := selectCall_level hops (hi.args c rfl)
    by_cases hvoid : c.result = .void
    · rw [if_pos hvoid]
      rwa [words, if_pos hvoid] at hlevel
    · -- The result that nobody wants is thrown away.
      rw [words, if_neg hvoid] at hlevel
      rw [if_neg hvoid, opLines, List.map_append]
      exact hlevel.append (.plain 0 rfl rfl (Nat.le_refl 1) rfl (Nat.zero_le bound) .nil)
  | putField ho hv _ _ =>
    exact .push (isPush_push ho) (by omega) (.push (isPush_push hv) (by omega)
      (.plain 0 rfl rfl (Nat.le_refl 2) rfl (Nat.zero_le bound) .nil))
  | returnSome hv => exact .push (isPush_push hv) (by omega) (returnOf_level _ (by omega))
  | returnNone =>
    refine .final rfl (Nat.le_refl 0) (Nat.zero_le bound) (fun name hname => ?_)
    cases hname
  | @jump target =>
    refine .final rfl (Nat.le_refl 0) (Nat.zero_le bound) (fun name hname => ?_)
    exact hi.target name hname
  | @branch cond negated target op hcond =>
    have htarget := hi.target target rfl
    refine .push (isPush_push hcond) (by omega) ?_
    cases negated with
    | true => exact .branch rfl rfl rfl htarget
    | false => exact .branch rfl rfl rfl htarget
  | @label name => exact .label (hi.label name rfl) .nil
  | noop => exact .nil

/-- The lines of levelled instructions, one after another. -/
theorem selectAll_level {code : List Instr} {lines : List (Line Op)}
    (h : selectAll T F k code = .ok lines) (hbound : 3 ≤ bound)
    (hcode : ∀ i ∈ code, Levelled bound i) : Level bound 0 lines 0 := by
  induction code generalizing k lines with
  | nil =>
    cases Except.ok.inj h
    exact .nil
  | cons i is ih =>
    obtain ⟨own, rest, hown, hrest, rfl⟩ := selectAll_cons.mp h
    have hi := hcode i List.mem_cons_self
    have his := ih hrest fun j hj => hcode j (List.mem_cons_of_mem i hj)
    exact (select_level hown hbound hi).append his

/-! ## The listing of a method -/

/-- The largest number of arguments of a call. -/
def mostArgs (code : List Instr) : Nat :=
  ((code.filterMap callOf?).map fun c => c.args.length).foldr max 0

theorem args_le_mostArgs {code : List Instr} {i : Instr} (hi : i ∈ code) {c : Call}
    (hc : callOf? i = some c) : c.args.length ≤ mostArgs code := by
  have hmem : c ∈ code.filterMap callOf? := List.mem_filterMap.mpr ⟨i, hi, hc⟩
  exact List.le_max_of_le (List.mem_map_of_mem hmem) (Nat.le_refl _)

theorem mostArgs_le {code : List Instr} {n : Nat}
    (h : ∀ i ∈ code, ∀ c, callOf? i = some c → c.args.length ≤ n) : mostArgs code ≤ n := by
  refine List.max_le_of_forall_le _ n fun length hlength => ?_
  obtain ⟨c, hc, rfl⟩ := List.mem_map.mp hlength
  obtain ⟨i, hi, hic⟩ := List.mem_filterMap.mp hc
  exact h i hi c hic

/-- The lines before the one where an instruction starts are those of the instructions before. -/
theorem StartsAt.take {lines : List (Line Op)} (h : selectAll T F 0 F.method.code = .ok lines)
    {place line : Nat} (hline : StartsAt T F place line) :
    selectAll T F 0 (F.method.code.take place) = .ok (lines.take line) := by
  obtain ⟨before, hbefore, rfl⟩ := hline
  cases hi : F.method.code[place]? with
  | none =>
    rw [List.take_of_length_le (List.getElem?_eq_none_iff.mp hi), h] at hbefore
    cases hbefore
    rw [List.take_length, List.take_of_length_le (List.getElem?_eq_none_iff.mp hi), h]
  | some i =>
    obtain ⟨_, before', own, rest, hbefore', -, -, rfl⟩ := selectAll_at h hi
    cases Except.ok.inj (hbefore.symm.trans hbefore')
    rw [List.take_left', hbefore]
    rfl

/-- What is asked of the instructions of a method holds, if it assigns the result of no call that
has none and sets no label like those that end comparisons. -/
theorem levelled_of_build {budget : Nat} {m : Method} (hF : Frame.build budget m = .ok F)
    (hresult : ∀ dest c, Instr.assign dest (.call c) ∈ m.code → c.result ≠ .void)
    (hlabels : ∀ name ∈ labelsOf m.code, ¬ "CMP_END_".toList <+: name.toList) {i : Instr}
    (hi : i ∈ m.code) : Levelled (max 3 (1 + mostArgs m.code)) i := by
  have hordinary : ∀ name ∈ labelsOf m.code, labelDepth name = 0 := by
    intro name hname
    exact if_neg (hlabels name hname)
  refine ⟨fun dest c heq => ?_, fun c hc => ?_, fun name hname => ?_, fun name hname => ?_⟩
  · subst heq
    exact hresult dest c hi
  · have hargs := args_le_mostArgs hi hc
    omega
  · exact hordinary name (Frame.build_target hF hi hname)
  · exact hordinary name (List.mem_filterMap.mpr ⟨i, hi, hname⟩)

/-- The lines of a method are level. -/
theorem listing_level {budget : Nat} {m : Method} {listing : Listing Op}
    (hF : Frame.build budget m = .ok F) (hlisting : F.listing T = .ok listing)
    (hresult : ∀ dest c, Instr.assign dest (.call c) ∈ m.code → c.result ≠ .void)
    (hlabels : ∀ name ∈ labelsOf m.code, ¬ "CMP_END_".toList <+: name.toList) :
    selectAll T F 0 m.code = .ok listing.lines ∧
      Level (max 3 (1 + mostArgs m.code)) 0 listing.lines 0 := by
  have hlevelled : ∀ i ∈ m.code, Levelled (max 3 (1 + mostArgs m.code)) i :=
    fun i hi => levelled_of_build hF hresult hlabels hi
  obtain ⟨rfl, -, -⟩ := Frame.build_eq_ok hF
  obtain ⟨lines, hselect, hlisting⟩ := except_bind_eq_ok.mp hlisting
  cases Except.ok.inj hlisting
  exact ⟨hselect, selectAll_level hselect (Nat.le_max_left ..) hlevelled⟩

/-- The depth at a label of a listing. -/
theorem depth_at_label {code : List Instr} {lines : List (Line Op)}
    (h : selectAll T F 0 code = .ok lines)
    (hlabels : ∀ name ∈ labelsOf code, ¬ "CMP_END_".toList <+: name.toList) {line : Nat}
    {name : String} (hline : lines[line]? = some (.label name)) :
    (name ∈ labelsOf code ∨ ∃ k, name = trueLabel k) ∧ labelDepth name = 0 ∨
      (∃ k, name = endLabel k) ∧ labelDepth name = 1 := by
  have hmem : name ∈ labelsOfLines lines :=
    List.mem_filterMap.mpr ⟨_, List.mem_of_getElem? hline, rfl⟩
  rcases selectAll_label_cases h hmem with hcode | ⟨k, -, rfl | rfl⟩
  · exact .inl ⟨.inl hcode, if_neg (hlabels name hcode)⟩
  · exact .inl ⟨.inr ⟨k, rfl⟩, labelDepth_trueLabel k⟩
  · exact .inr ⟨⟨k, rfl⟩, labelDepth_endLabel k⟩

/-- **The listing of a method is balanced.**  However a path gets to a line, the instruction there
finds the words that it takes; at a label the depth is zero, or one where a comparison ends; where
the lines of an instruction start, and so where those of the one before it end, the stack is empty.
The depth is never more than three, or than a call with the most arguments needs, so that the depth
which every method announces is enough unless a call has more than 98 arguments. -/
theorem listing_stack_balanced (T : ClassTable) (budget : Nat) (m : Method) {F : Frame}
    {listing : Listing Op} (hF : Frame.build budget m = .ok F)
    (hlisting : F.listing T = .ok listing)
    (hresult : ∀ dest c, Instr.assign dest (.call c) ∈ m.code → c.result ≠ .void)
    (hlabels : ∀ name ∈ labelsOf m.code,
      ¬ "CMP_TRUE_".toList <+: name.toList ∧ ¬ "CMP_END_".toList <+: name.toList)
    {line depth : Nat} (hpath : Arrives listing.lines line depth) :
    (∀ o, listing.lines[line]? = some (.op o) → o.pops ≤ depth) ∧
    (∀ name, listing.lines[line]? = some (.label name) →
      (name ∈ labelsOf m.code ∨ ∃ k, name = trueLabel k) ∧ depth = 0 ∨
        (∃ k, name = endLabel k) ∧ depth = 1) ∧
    (∀ place, StartsAt T F place line → depth = 0) ∧
    depth ≤ max 3 (1 + mostArgs m.code) ∧
    ((∀ i ∈ m.code, ∀ c, callOf? i = some c → c.args.length ≤ 98) → depth ≤ stackLimit) := by
  have hend : ∀ name ∈ labelsOf m.code, ¬ "CMP_END_".toList <+: name.toList :=
    fun name hname => (hlabels name hname).2
  obtain ⟨hselect, hlevel⟩ := listing_level hF hlisting hresult hend
  have hbefore := hlevel.arrives hpath
  have hmost : depth ≤ max 3 (1 + mostArgs m.code) := hbefore.le_bound (Nat.zero_le _)
  refine ⟨fun o ho => ?_, fun name hname => ?_, fun place hplace => ?_, hmost, fun hargs => ?_⟩
  · obtain ⟨rest, hrest, -⟩ := hlevel.at_line hbefore ho
    cases hrest with
    | op hpops _ _ _ => exact hpops
  · obtain ⟨rest, hrest, -⟩ := hlevel.at_line hbefore hname
    cases hrest with
    | label hdepth _ =>
      rw [← hdepth]
      exact depth_at_label hselect hend hname
  · obtain ⟨rfl, -, -⟩ := Frame.build_eq_ok hF
    have hempty := selectAll_level (hplace.take hselect) (Nat.le_max_left ..)
      fun i hi => levelled_of_build hF hresult hend (List.mem_of_mem_take hi)
    exact hbefore.unique hempty
  · have hcalls := mostArgs_le hargs
    unfold stackLimit
    omega

open Meaning (divideMethod) in
theorem divideMethod_balanced :
    ∃ F listing, Frame.build 99 divideMethod = .ok F ∧
      F.listing ⟨"Divider", none, [], [], []⟩ = .ok listing ∧
      listing.lines[17]? = some (.op (.invoke .virtual "Divider" "round"
        ⟨[.int, .boolean], .int⟩)) ∧
      Arrives listing.lines 17 3 ∧ 3 ≤ max 3 (1 + mostArgs divideMethod.code) ∧
      3 ≤ stackLimit := by
  refine ⟨_, _, rfl, rfl, rfl, ?_⟩
  generalize hlines : Listing.lines _ = lines
  -- Past the comparison that fails, into the body of the loop, up to the call.
  have hstart : Arrives lines 0 0 := .start
  have hloaded : Arrives lines 5 2 := by
    subst hlines
    exact .next (.next (.label (.next (.next hstart rfl (by rfl)) rfl (by rfl)) rfl) rfl (by rfl))
      rfl (by rfl)
  have hends : Arrives lines 10 1 := by
    subst hlines
    exact .jump (.next (.next hloaded rfl (by rfl)) rfl (by rfl)) rfl (by rfl) rfl
  have hcall : Arrives lines 17 3 := by
    subst hlines
    exact .next (.next (.next (.next (.next (.next (.label hends rfl) rfl (by rfl)) rfl (by rfl))
      rfl (by rfl)) rfl (by rfl)) rfl (by rfl)) rfl (by rfl)
  subst hlines
  have hresult : ∀ dest c, Instr.assign dest (.call c) ∈ divideMethod.code → c.result ≠ .void := by
    simp [divideMethod]
  obtain ⟨-, -, -, hmost, hlimit⟩ := listing_stack_balanced ⟨"Divider", none, [], [], []⟩ 99
    divideMethod rfl rfl hresult (by decide) hcall
  exact ⟨hcall, hmost, hlimit (by simp [divideMethod, callOf?])⟩

/-- **The machine never needs more than that**, if the code reads no field of no type. -/
theorem listing_run_stack_le {budget : Nat} {m : Method} {listing : Listing Op}
    (hF : Frame.build budget m = .ok F) (hlisting : F.listing T = .ok listing)
    (hresult : ∀ dest c, Instr.assign dest (.call c) ∈ m.code → c.result ≠ .void)
    (hlabels : ∀ name ∈ labelsOf m.code, ¬ "CMP_END_".toList <+: name.toList)
    (hfield : ∀ owner name, Line.op (.getfield owner name .void) ∉ listing.lines)
    {receiver : Meaning.Reference} {words : List Meaning.Word} {s s' : Meaning.MachineState}
    (hs : Meaning.Started m receiver words s)
    {events : List (Meaning.Question × Option Meaning.Word)}
    (hrun : Meaning.Runs (Meaning.MachineState.turn listing.lines) s events s') :
    s'.stack.length ≤ max 3 (1 + mostArgs m.code) := by
  have hstart : Arrives listing.lines s.line s.stack.length := by
    rw [hs.line, hs.stack]
    exact .start
  have hlevel := (listing_level hF hlisting hresult hlabels).2
  exact (hlevel.arrives (hstart.runs hfield hrun)).le_bound (Nat.zero_le _)

end Machine
end ClassCompiler
