import ClassCompiler.Proofs.Machine.Match

/-!
# Operands and operators on the machine

What the lines of an operand, of a list of operands and of an operator do to the stack, wherever
they are in a listing and whatever is on the stack below.

* `Pushes.silently`: operands are pushed, the last one on top.
* `binary_silently`: an operator replaces its operands by its value.
* `binary_traps`: a division by zero traps.
-/

namespace ClassCompiler
namespace Meaning

open ThreeAddress Machine

variable {T : ClassTable} {F : Frame} {receiver : Reference} {vars : Vars}
  {lines : List (Line Op)}

/-! ## One line -/

theorem turn_op {s : MachineState} {op : Op} (h : lines[s.line]? = some (.op op)) :
    s.turn lines = s.execute lines op := by
  rw [MachineState.turn, h]

theorem turn_label {s : MachineState} {name : String} (h : lines[s.line]? = some (.label name)) :
    s.turn lines = .silent (s.next s.stack) := by
  rw [MachineState.turn, h]

/-! ## Operands -/

theorem readVar_eq_ok {D : Discipline} {x : Var} {v : Value} :
    readVar D vars x = .ok v ↔ vars x.name = some v ∧ D x.type (some v) = true := by
  unfold readVar Vars.read
  cases vars x.name with
  | none => simp [bind, Except.bind]
  | some u =>
    rw [except_bind_eq_ok]
    simp only [Except.ok.injEq, exists_eq_left', Option.some.injEq]
    rw [except_bind_eq_ok]
    constructor
    · rintro ⟨_, hcheck, hpure⟩
      cases Except.ok.inj hpure
      exact ⟨rfl, Discipline.check_eq_ok.mp hcheck⟩
    · rintro ⟨rfl, hcheck⟩
      exact ⟨(), Discipline.check_eq_ok.mpr hcheck, rfl⟩

/-- The value of an operand that is pushed is of the family of its type. -/
theorem byFamily_of_readOperand {o : Operand} {op : Op} (hop : push F o = .ok op) {v : Value}
    (hv : readOperand .byFamily receiver vars o = .ok v) :
    Discipline.byFamily o.type (some v) = true := by
  cases o with
  | var x => exact (readVar_eq_ok.mp hv).2
  | classRef name => cases hop
  | _ =>
    cases Except.ok.inj hv
    rfl

theorem execute_pushInt (s : MachineState) (n : Int32) :
    s.execute lines (pushInt n) = s.push (.int n) := by
  unfold pushInt
  dsimp only
  split
  · exact if_pos ‹_›
  · split
    · exact if_pos ‹_›
    · split
      · exact if_pos ‹_›
      · rfl

/-- **An operand is pushed**, by the one instruction that it has. -/
theorem execute_push (lines : List (Line Op)) {s : MachineState}
    (hholds : SlotsHold F receiver vars s.slots) {o : Operand}
    {op : Op} (hop : push F o = .ok op) {v : Value}
    (hv : readOperand .byFamily receiver vars o = .ok v) :
    ∃ w, v.word? = some w ∧ s.execute lines op = s.push w := by
  cases o with
  | int n =>
    cases Except.ok.inj hop
    cases Except.ok.inj hv
    exact ⟨.int n, rfl, execute_pushInt s n⟩
  | bool b =>
    cases Except.ok.inj hop
    cases Except.ok.inj hv
    exact ⟨_, rfl, execute_pushInt s _⟩
  | string text =>
    cases Except.ok.inj hop
    cases Except.ok.inj hv
    exact ⟨_, rfl, rfl⟩
  | var x =>
    obtain ⟨index, hindex, rfl⟩ := push_var_eq_ok hop
    obtain ⟨slot, hslot, rfl⟩ := Frame.slot_eq_ok hindex
    obtain ⟨hvar, hfamily⟩ := readVar_eq_ok.mp hv
    obtain ⟨w, hw, hholding⟩ := hholds.vars x.name slot v hslot hvar
    obtain ⟨w', hw', hfamily, -⟩ := word?_of_byFamily hfamily
    cases hw.symm.trans hw'
    refine ⟨w, hw, ?_⟩
    unfold loadSlot MachineState.execute
    simp only [hholding, hfamily, if_true]
  | this name =>
    obtain ⟨hstatic, rfl⟩ := push_this_eq_ok hop
    cases Except.ok.inj hv
    refine ⟨_, rfl, ?_⟩
    unfold MachineState.execute
    simp only [hholds.receiver hstatic, Word.family?, if_true]
  | classRef name => cases hop

/-- Instructions that push operands, with the values of the operands. -/
inductive Pushes (F : Frame) (receiver : Reference) (vars : Vars) : List Op → List Value → Prop
  | nil : Pushes F receiver vars [] []
  | cons {o op v ops values} (hop : push F o = .ok op)
    (hv : readOperand .byFamily receiver vars o = .ok v) (h : Pushes F receiver vars ops values) :
    Pushes F receiver vars (op :: ops) (v :: values)

theorem pushes_of_pushAll {os : List Operand} {ops : List Op} (hops : pushAll F os = .ok ops)
    {values : List Value} (hvalues : readOperands .byFamily receiver vars os = .ok values) :
    Pushes F receiver vars ops values := by
  induction os generalizing ops values with
  | nil =>
    cases Except.ok.inj hops
    cases Except.ok.inj hvalues
    exact .nil
  | cons o os ih =>
    obtain ⟨op, rest, hop, hrest, rfl⟩ := pushAll_cons_eq_ok hops
    obtain ⟨v, hv, hvalues⟩ := except_bind_eq_ok.mp hvalues
    obtain ⟨vs, hvs, hvalues⟩ := except_bind_eq_ok.mp hvalues
    cases Except.ok.inj hvalues
    exact .cons hop hv (ih hrest hvs)

/-- **Operands are pushed**, one after another: the last one is on top. -/
theorem Pushes.silently {ops : List Op} {values : List Value}
    (h : Pushes F receiver vars ops values) {slots : Nat → Option Word}
    (hholds : SlotsHold F receiver vars slots) {line : Nat}
    (hcode : CodeAt lines line (opLines ops))
    (stack : List Word) :
    ∃ words, SameWords values words ∧
      Silently (MachineState.turn lines) ⟨line, stack, slots⟩
        ⟨line + ops.length, words.reverse ++ stack, slots⟩ := by
  induction h generalizing line stack with
  | nil => exact ⟨[], .nil, .refl _⟩
  | @cons o op v ops values hop hv _ ih =>
    obtain ⟨w, hw, hpush⟩ := execute_push lines (s := ⟨line, stack, slots⟩) hholds hop hv
    obtain ⟨words, hwords, hsilently⟩ := ih hcode.tail (w :: stack)
    refine ⟨w :: words, .cons hw hwords, .step ((turn_op hcode.head).trans hpush) ?_⟩
    rw [List.reverse_cons, List.append_assoc, List.length_cons, Nat.add_comm ops.length 1,
      ← Nat.add_assoc]
    exact hsilently

/-- Operands are pushed, and it is the turn of the instruction that takes them. -/
theorem Pushes.silently_to {ops : List Op} {values : List Value}
    (h : Pushes F receiver vars ops values) {slots : Nat → Option Word}
    (hholds : SlotsHold F receiver vars slots) {line : Nat} {op : Op} {rest : List Op}
    (hcode : CodeAt lines line (opLines (ops ++ op :: rest))) :
    ∃ words, SameWords values words ∧
      Silently (MachineState.turn lines) ⟨line, [], slots⟩
        ⟨line + ops.length, words.reverse, slots⟩ ∧
      MachineState.turn lines ⟨line + ops.length, words.reverse, slots⟩ =
        MachineState.execute ⟨line + ops.length, words.reverse, slots⟩ lines op := by
  rw [opLines, List.map_append] at hcode
  have hop := hcode.right.head
  rw [List.length_map] at hop
  obtain ⟨words, hwords, hsilently⟩ := h.silently hholds hcode.left []
  rw [List.append_nil] at hsilently
  exact ⟨words, hwords, hsilently, turn_op hop⟩

/-! ## Operators -/

/-- What a binary operation gives, case by case. -/
inductive BinaryGives : BinaryOp → Value → Value → Value → Prop
  | add (a b : Int32) : BinaryGives .add (.int a) (.int b) (.int (a + b))
  | sub (a b : Int32) : BinaryGives .sub (.int a) (.int b) (.int (a - b))
  | mul (a b : Int32) : BinaryGives .mul (.int a) (.int b) (.int (a * b))
  | div (a b : Int32) (hb : b ≠ 0) : BinaryGives .div (.int a) (.int b) (.int (a / b))
  | and (p q : Bool) : BinaryGives .and (.bool p) (.bool q) (.bool (p && q))
  | or (p q : Bool) : BinaryGives .or (.bool p) (.bool q) (.bool (p || q))
  | lt (a b : Int32) : BinaryGives .lt (.int a) (.int b) (.bool (decide (a < b)))
  | gt (a b : Int32) : BinaryGives .gt (.int a) (.int b) (.bool (decide (b < a)))

theorem binary_cases {op : BinaryOp} {a b v : Value} (h : Value.binary op a b = .ok v) :
    BinaryGives op a b v := by
  -- The equations in 32 bits replace the definition, which goes through the integers.
  have hbinary := h
  unfold Value.binary at h
  split at h
  case h_1 a b => exact Except.ok.inj ((Value.binary_add a b).symm.trans hbinary) ▸ .add a b
  case h_2 a b => exact Except.ok.inj ((Value.binary_sub a b).symm.trans hbinary) ▸ .sub a b
  case h_3 a b => exact Except.ok.inj ((Value.binary_mul a b).symm.trans hbinary) ▸ .mul a b
  case h_4 a b =>
    rw [Value.binary_div] at hbinary
    split at hbinary
    · cases hbinary
    · exact Except.ok.inj hbinary ▸ .div a b ‹_›
  case h_5 p q => exact Except.ok.inj ((Value.binary_and p q).symm.trans hbinary) ▸ .and p q
  case h_6 p q => exact Except.ok.inj ((Value.binary_or p q).symm.trans hbinary) ▸ .or p q
  case h_7 a b => exact Except.ok.inj ((Value.binary_lt a b).symm.trans hbinary) ▸ .lt a b
  case h_8 a b => exact Except.ok.inj ((Value.binary_gt a b).symm.trans hbinary) ▸ .gt a b
  case h_9 => cases h

/-- The two operands of an operation that the machine does in one instruction. -/
theorem combine_silently {op : Op} {f : Int32 → Int32 → Int32}
    (hop : ∀ s : MachineState, s.execute lines op = s.combine f) {line : Nat}
    (hcode : CodeAt lines line [.op op]) (a b : Int32) (stack : List Word)
    (slots : Nat → Option Word) :
    Silently (MachineState.turn lines) ⟨line, .int b :: .int a :: stack, slots⟩
      ⟨line + 1, .int (f a b) :: stack, slots⟩ := by
  refine .one ?_
  rw [turn_op hcode.head, hop]
  rfl

/-- **A comparison leaves zero or one**, and comes to its last line either way. -/
theorem comparison_silently (hnodup : (labelsOfLines lines).Nodup) {line k : Nat}
    (jump : String → Op) (test : Int32 → Int32 → Bool)
    (hjump : ∀ (s : MachineState) target,
      s.execute lines (jump target) = s.compare lines test target)
    (hcode : CodeAt lines line (comparisonLines k jump)) (a b : Int32) (stack : List Word)
    (slots : Nat → Option Word) :
    Silently (MachineState.turn lines) ⟨line, .int b :: .int a :: stack, slots⟩
      ⟨line + 6, .int (if test a b then 1 else 0) :: stack, slots⟩ := by
  have htrue : lineOf? lines (trueLabel k) = some (line + 3) :=
    lineOf?_eq hnodup hcode.tail.tail.tail.head
  have hend : lineOf? lines (endLabel k) = some (line + 5) :=
    lineOf?_eq hnodup hcode.tail.tail.tail.tail.tail.head
  have hlast : Silently (MachineState.turn lines)
      ⟨line + 5, .int (if test a b then 1 else 0) :: stack, slots⟩
      ⟨line + 6, .int (if test a b then 1 else 0) :: stack, slots⟩ :=
    .one (turn_label hcode.tail.tail.tail.tail.tail.head)
  have hstart : (⟨line, .int b :: .int a :: stack, slots⟩ : MachineState).turn lines =
      MachineState.goToIf ⟨line, .int b :: .int a :: stack, slots⟩ lines (test a b)
        (trueLabel k) stack := by
    rw [turn_op hcode.head, hjump]
    rfl
  cases htest : test a b with
  | true =>
    -- The jump is taken: over the label to the push of one.
    rw [htest] at hstart hlast
    have hgo : (⟨line, .int b :: .int a :: stack, slots⟩ : MachineState).turn lines =
        .silent ⟨line + 3, stack, slots⟩ := by
      rw [hstart, MachineState.goToIf, if_pos rfl, MachineState.goTo, htrue]
    refine .step hgo (.step (turn_label hcode.tail.tail.tail.head) (.step ?_ hlast))
    exact (turn_op hcode.tail.tail.tail.tail.head).trans (execute_pushInt _ 1)
  | false =>
    -- It is not: the push of zero, and a jump over the other one.
    rw [htest] at hstart hlast
    have hgo : (⟨line + 2, .int 0 :: stack, slots⟩ : MachineState).turn lines =
        .silent ⟨line + 5, .int 0 :: stack, slots⟩ := by
      rw [turn_op hcode.tail.tail.head, MachineState.execute, MachineState.goTo, hend]
    refine .step hstart (.step ?_ (.step hgo hlast))
    exact (turn_op hcode.tail.head).trans (execute_pushInt _ 0)

/-- **An operator replaces its operands by its value.** -/
theorem binary_silently (hnodup : (labelsOfLines lines).Nodup) {line k : Nat} {op : BinaryOp}
    (hcode : CodeAt lines line (binaryLines k op)) {a b v : Value}
    (hv : Value.binary op a b = .ok v) {w w' : Word} (hw : a.word? = some w)
    (hw' : b.word? = some w') (stack : List Word) (slots : Nat → Option Word) :
    ∃ result, v.word? = some result ∧
      Silently (MachineState.turn lines) ⟨line, w' :: w :: stack, slots⟩
        ⟨line + (binaryLines k op).length, result :: stack, slots⟩ := by
  cases binary_cases hv with
  | add a b =>
    cases hw
    cases hw'
    exact ⟨_, rfl, combine_silently (fun _ => rfl) hcode a b stack slots⟩
  | sub a b =>
    cases hw
    cases hw'
    exact ⟨_, rfl, combine_silently (fun _ => rfl) hcode a b stack slots⟩
  | mul a b =>
    cases hw
    cases hw'
    exact ⟨_, rfl, combine_silently (fun _ => rfl) hcode a b stack slots⟩
  | div a b hb =>
    cases hw
    cases hw'
    refine ⟨_, rfl, .one ?_⟩
    rw [turn_op hcode.head, MachineState.execute]
    exact if_neg hb
  | and p q =>
    cases hw
    cases hw'
    refine ⟨_, rfl, ?_⟩
    have hword : (if p && q then 1 else 0 : Int32) =
        (if p then 1 else 0) &&& if q then 1 else 0 := by
      cases p <;> cases q <;> decide
    rw [hword]
    exact combine_silently (fun _ => rfl) hcode _ _ stack slots
  | or p q =>
    cases hw
    cases hw'
    refine ⟨_, rfl, ?_⟩
    have hword : (if p || q then 1 else 0 : Int32) =
        (if p then 1 else 0) ||| if q then 1 else 0 := by
      cases p <;> cases q <;> decide
    rw [hword]
    exact combine_silently (fun _ => rfl) hcode _ _ stack slots
  | lt a b =>
    cases hw
    cases hw'
    exact ⟨_, rfl, comparison_silently hnodup .ifIcmplt (fun a b => decide (a < b))
      (fun _ _ => rfl) hcode a b stack slots⟩
  | gt a b =>
    cases hw
    cases hw'
    exact ⟨_, rfl, comparison_silently hnodup .ifIcmpgt (fun a b => decide (b < a))
      (fun _ _ => rfl) hcode a b stack slots⟩

/-- **A division by zero traps.** -/
theorem binary_traps {line k : Nat} {op : BinaryOp} (hcode : CodeAt lines line (binaryLines k op))
    {a b : Value} (h : Value.binary op a b = .error .divisionByZero) {w w' : Word}
    (hw : a.word? = some w) (hw' : b.word? = some w') (stack : List Word)
    (slots : Nat → Option Word) :
    (⟨line, w' :: w :: stack, slots⟩ : MachineState).turn lines = .trap := by
  have hdivision := h
  unfold Value.binary at h
  split at h
  case h_4 a b =>
    cases hw
    cases hw'
    rw [Value.binary_div] at hdivision
    split at hdivision
    · rw [turn_op hcode.head, MachineState.execute]
      exact if_pos ‹_›
    · cases hdivision
  all_goals simp at h

end Meaning
end ClassCompiler
