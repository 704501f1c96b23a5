import ClassCompiler.Proofs.Machine.Operand

/-!
# What the lines of an instruction do

The lines of an instruction start and end with an empty stack.  In between they do what the
instruction does: they go on where it goes on, ask what it asks and stop where it stops.

What an instruction does is the result of reading operands, one after another, and of an operation
on their values.  To read an operand may fail, and then the instruction is stuck and the machine may
do anything.  `CarriesRhs` and `Carries` compare such a result with the machine, and their rule for
one computation after another (`CarriesRhs.bind`, `Carries.bind`) leaves only what succeeds.

* `selectCall_asks`: calls.
* `CarriesRhs`, `selectRhs_carries`: right-hand sides.
* `Carries`, `select_carries`: instructions.
-/

namespace ClassCompiler
namespace Meaning

open ThreeAddress Machine

variable {T : ClassTable} {F : Frame} {receiver : Reference} {vars : Vars}
  {lines : List (Line Op)} {slots : Nat → Option Word}

/-! ## Calls -/

/-- An answer of a type is pushed. -/
theorem receive_word (s : MachineState) (stack : List Word) {type : ValueType} {d : Descriptor}
    (hd : descriptorOf T type = .ok d) {v : Value}
    (hv : Discipline.byFamily type (some v) = true) {w : Word} (hw : v.word? = some w) :
    s.receive d stack (some w) = some (s.next (w :: stack)) :=
  if_pos (fits_of_byFamily hd hv hw)

theorem fitsAll_length {words : List Word} {ds : List Descriptor}
    (h : fitsAll words ds = true) : words.length = ds.length := by
  induction words generalizing ds with
  | nil =>
    cases ds with
    | nil => rfl
    | cons _ _ => cases h
  | cons w words ih =>
    cases ds with
    | nil => cases h
    | cons d ds =>
      rw [fitsAll, Bool.and_eq_true] at h
      rw [List.length_cons, List.length_cons, ih h.2]

/-- The arguments are taken off the stack in their order. -/
theorem takeArgs_eq {s : MachineState} {words stack : List Word} {ds : List Descriptor}
    (hs : s.stack = words.reverse ++ stack) (h : fitsAll words ds = true) :
    s.takeArgs ds = some (words, stack) := by
  have hlength : ds.length = words.reverse.length := by
    rw [List.length_reverse, fitsAll_length h]
  unfold MachineState.takeArgs
  rw [hs, hlength, List.take_left, List.drop_left, List.reverse_reverse]
  exact if_pos h

/-- Arguments that may be passed fit the signature. -/
theorem fitsAll_of_checkArgs {types : List ValueType} {ds : List Descriptor}
    (hds : descriptorsOf T types = .ok ds) {values : List Value} {words : List Word}
    (hwords : SameWords values words) (hlength : types.length = values.length) {u : Unit}
    (h : checkArgs .byFamily types values = .ok u) : fitsAll words ds = true := by
  induction types generalizing ds values words with
  | nil =>
    cases Except.ok.inj hds
    cases hwords with
    | nil => rfl
    | cons _ _ => cases hlength
  | cons type types ih =>
    obtain ⟨d, hd, hds⟩ := except_bind_eq_ok.mp hds
    obtain ⟨rest, hrest, hds⟩ := except_bind_eq_ok.mp hds
    cases Except.ok.inj hds
    cases hwords with
    | nil => cases hlength
    | cons hw hwords =>
      obtain ⟨_, hcheck, h⟩ := except_bind_eq_ok.mp h
      rw [fitsAll, Bool.and_eq_true]
      exact ⟨fits_of_byFamily hd (Discipline.check_eq_ok.mp hcheck) hw,
        ih hrest hwords (Nat.succ.inj hlength) h⟩

theorem readOperands_length {D : Discipline} {os : List Operand} {values : List Value}
    (h : readOperands D receiver vars os = .ok values) : values.length = os.length := by
  induction os generalizing values with
  | nil =>
    cases Except.ok.inj h
    rfl
  | cons o os ih =>
    obtain ⟨v, -, h⟩ := except_bind_eq_ok.mp h
    obtain ⟨vs, hvs, h⟩ := except_bind_eq_ok.mp h
    cases Except.ok.inj h
    rw [List.length_cons, List.length_cons, ih hvs]

/-- **A call is asked for**, with its arguments, of the class and by the signature that it names. -/
theorem selectCall_asks (hholds : SlotsHold F receiver vars slots) {c : Call} {ops : List Op}
    (hops : selectCall T F c = .ok ops) {line : Nat} (hcode : CodeAt lines line (opLines ops))
    {r : Request Value} (hr : callRequest .byFamily receiver vars c = .ok r) :
    ∃ t q d, Silently (MachineState.turn lines) ⟨line, [], slots⟩ t ∧
      t.turn lines = .ask q (t.receive d []) ∧ t.line + 1 = line + ops.length ∧ t.slots = slots ∧
      descriptorOf T c.result = .ok d ∧ linkOfCall T c = .ok q.link ∧ Encodes T r q.request := by
  obtain ⟨target, kind, owner, args, signature, htarget, hcount, hargs, hsignature, rfl⟩ :=
    selectCall_eq_ok hops
  obtain ⟨v, hv, hr⟩ := except_bind_eq_ok.mp hr
  obtain ⟨values, hvalues, hr⟩ := except_bind_eq_ok.mp hr
  obtain ⟨_, hcheck, hr⟩ := except_bind_eq_ok.mp hr
  have hlength : c.params.length = values.length := hcount.trans (readOperands_length hvalues).symm
  have hlink : ∀ path, ownerPath T c.target = .ok path →
      linkOfCall T c = .ok (.method (kindOf c.kind) path signature) := by
    intro path hpath
    unfold linkOfCall
    rw [hpath, hsignature]
    rfl
  obtain ⟨params, hparams, hresult⟩ := except_bind_eq_ok.mp hsignature
  obtain ⟨d, hd, hresult⟩ := except_bind_eq_ok.mp hresult
  cases Except.ok.inj hresult
  have hpushes := pushes_of_pushAll hargs hvalues
  cases htarget with
  | @static name _ hkind hclass howner =>
    rw [hclass] at hv
    cases Except.ok.inj hv
    cases Except.ok.inj hr
    obtain ⟨words, hwords, hsilently, hturn⟩ := hpushes.silently_to hholds hcode
    have hfits := fitsAll_of_checkArgs hparams hwords hlength hcheck
    refine ⟨_, ⟨.method .static owner ⟨params, d⟩, .call (.ofClass owner) c.method words⟩, d,
      hsilently, ?_, by simp; omega, rfl, hd, ?_, .ofClass howner hwords⟩
    · rw [hturn, MachineState.execute]
      unfold MachineState.invoke
      rw [takeArgs_eq (List.append_nil _).symm hfits]
    · rw [hlink owner (by rw [hclass]; exact howner), hkind]
      rfl
  | @virtual op _ hkind hop howner =>
    obtain ⟨words, hwords, hsilently, hturn⟩ := (hpushes.cons hop hv).silently_to hholds hcode
    cases hwords with
    | @cons _ w _ words hw hwords =>
      have hfits := fitsAll_of_checkArgs hparams hwords hlength hcheck
      -- Only a reference has a word and a method.
      cases v with
      | ref reference =>
        cases hw
        cases Except.ok.inj hr
        refine ⟨_, ⟨.method .virtual owner ⟨params, d⟩,
          .call (.object reference) c.method words⟩, d, hsilently, ?_, by simp; omega, rfl, hd,
          ?_, .object hwords⟩
        · rw [hturn, MachineState.execute]
          unfold MachineState.invoke
          rw [takeArgs_eq List.reverse_cons hfits]
        · rw [hlink owner howner, hkind]
          rfl
      | classRef name => cases hw
      | int _ | bool _ => cases hr

/-! ## Right-hand sides -/

theorem turn_invokeSpecial {s : MachineState} {owner method : String} {signature : Signature}
    (h : lines[s.line]? = some (.op (.invoke .special owner method signature))) :
    s.turn lines = s.construct owner method signature := by
  rw [turn_op h]
  rfl

/-- The constructor takes one copy of an object and makes the other one ready. -/
theorem construct_asks (l line : Nat) (path : String) (slots : Nat → Option Word) :
    ∃ resume, MachineState.construct ⟨l, [.unready line path, .unready line path], slots⟩ path
        "<init>" ⟨[], .void⟩ =
        .ask ⟨.method .special path ⟨[], .void⟩, .newObject path⟩ resume ∧
      ∀ r, resume (some (.ref r)) = some ⟨l + 1, [.ref r],
        fun i => (slots i).map (MachineState.makeReady (.unready line path) r)⟩ := by
  refine ⟨_, if_pos ⟨rfl, rfl, rfl⟩, fun r => ?_⟩
  simp [MachineState.makeReady]

/-- From a line, the machine does what a right-hand side comes to: it leaves the value on the stack
at another line, or asks and leaves the answer there. -/
def CarriesRhs (T : ClassTable) (F : Frame) (receiver : Reference) (vars : Vars)
    (lines : List (Line Op)) (slots : Nat → Option Word) (rhs : Rhs) (line stop : Nat) :
    Except Fault Computed → Prop
  | .error .divisionByZero =>
    ∃ t, Silently (MachineState.turn lines) ⟨line, [], slots⟩ t ∧ t.turn lines = .trap
  | .error _ => True
  | .ok (.value v) => ∃ w, v.word? = some w ∧
    Silently (MachineState.turn lines) ⟨line, [], slots⟩ ⟨stop, [w], slots⟩
  | .ok (.ask r type) => ∃ t q resume,
    Silently (MachineState.turn lines) ⟨line, [], slots⟩ t ∧ t.turn lines = .ask q resume ∧
      linkOfRhs T rhs = .ok q.link ∧ Encodes T r q.request ∧
      ∀ v w, Discipline.byFamily type (some v) = true → v.word? = some w →
        ∃ slots', resume (some w) = some ⟨stop, [w], slots'⟩ ∧ SlotsHold F receiver vars slots'

/-- Nothing is asked of the machine where the right-hand side is stuck. -/
theorem CarriesRhs.bind {α : Type} {rhs : Rhs} {line stop : Nat} {x : Except Fault α}
    {g : α → Except Fault Computed} (hx : FailsStuck x)
    (h : ∀ a, x = .ok a → CarriesRhs T F receiver vars lines slots rhs line stop (g a)) :
    CarriesRhs T F receiver vars lines slots rhs line stop (x >>= g) := by
  cases x with
  | error e =>
    cases hx e rfl
    exact trivial
  | ok a => exact h a rfl

/-- A machine that asks and pushes the answer does what a right-hand side does that asks. -/
theorem CarriesRhs.asking (hholds : SlotsHold F receiver vars slots) {rhs : Rhs}
    {line stop : Nat} {t : MachineState} {q : Question} {r : Request Value} {type : ValueType}
    {d : Descriptor} (hsilently : Silently (MachineState.turn lines) ⟨line, [], slots⟩ t)
    (hturn : t.turn lines = .ask q (t.receive d [])) (hstop : t.line + 1 = stop)
    (hslots : t.slots = slots) (hd : descriptorOf T type = .ok d)
    (hlink : linkOfRhs T rhs = .ok q.link) (hencodes : Encodes T r q.request) :
    CarriesRhs T F receiver vars lines slots rhs line stop (.ok (.ask r type)) := by
  refine ⟨t, q, t.receive d [], hsilently, hturn, hlink, hencodes, fun v w hv hw => ?_⟩
  have hreceive : t.receive d [] (some w) = some (t.next [w]) := receive_word t [] hd hv hw
  refine ⟨slots, ?_, hholds⟩
  rw [hreceive, MachineState.next, hstop, hslots]

/-- Two operands are pushed and the operator takes them. -/
theorem binary_carries (hnodup : (labelsOfLines lines).Nodup)
    (hholds : SlotsHold F receiver vars slots) {k line : Nat} {op : BinaryOp}
    {left right : Operand} {l r : Op} (hl : push F left = .ok l) (hr : push F right = .ok r)
    (hcode : CodeAt lines line (opLines [l, r] ++ binaryLines k op)) :
    CarriesRhs T F receiver vars lines slots (.binary op left right) line
      (line + (opLines [l, r] ++ binaryLines k op).length)
      (compute .byFamily receiver vars (.binary op left right)) := by
  have hread (o : Operand) := readOperand_failsStuck .byFamily receiver vars o
  refine .bind (hread left) fun a ha => .bind (hread right) fun b hb => ?_
  obtain ⟨words, hwords, hsilently⟩ :=
    ((Pushes.nil.cons hr hb).cons hl ha).silently hholds hcode.left []
  obtain - | ⟨hw, - | ⟨hw', - | _⟩⟩ := hwords
  cases hresult : Value.binary op a b with
  | ok v =>
    obtain ⟨result, hresult, hbinary⟩ :=
      binary_silently hnodup hcode.right hresult hw hw' [] slots
    refine ⟨result, hresult, ?_⟩
    rw [List.length_append, ← Nat.add_assoc]
    exact hsilently.trans hbinary
  | error e =>
    cases e with
    | divisionByZero => exact ⟨_, hsilently, binary_traps hcode.right hresult hw hw' [] slots⟩
    | stuck | raised _ | noReturn => exact trivial

/-- To negate a truth value is to flip the last bit of zero or one. -/
theorem not_carries (hholds : SlotsHold F receiver vars slots) {line : Nat} {o : Operand} {op : Op}
    (hop : push F o = .ok op) (hcode : CodeAt lines line (opLines [op, pushInt 1, .ixor])) :
    CarriesRhs T F receiver vars lines slots (.not o) line (line + 3)
      (compute .byFamily receiver vars (.not o)) := by
  refine .bind (readOperand_failsStuck .byFamily receiver vars o) fun v hv => ?_
  cases v with
  | bool b =>
    obtain ⟨words, hwords, hsilently, hturn⟩ :=
      (Pushes.nil.cons hop hv).silently_to hholds hcode
    obtain - | ⟨hw, - | _⟩ := hwords
    cases hw
    have hword : (if !b then 1 else 0 : Int32) = (if b then 1 else 0) ^^^ 1 := by
      cases b <;> decide
    have hone := hturn.trans (execute_pushInt _ 1)
    refine ⟨.int (if !b then 1 else 0), rfl, hsilently.trans (.step hone ?_)⟩
    rw [hword]
    exact combine_silently (fun _ => rfl) hcode.tail.tail _ _ [] slots
  | int _ | ref _ | classRef _ => exact trivial

/-- An object is made, copied, and asked for when its constructor is called on the copy. -/
theorem newObject_carries (hholds : SlotsHold F receiver vars slots) {line : Nat}
    {name path : String} (hpath : qualify T name = .ok path)
    (hcode : CodeAt lines line
      (opLines [.new path, .dup, .invoke .special path "<init>" ⟨[], .void⟩])) :
    CarriesRhs T F receiver vars lines slots (.newObject name) line (line + 3)
      (compute .byFamily receiver vars (.newObject name)) := by
  have hnew : (⟨line, [], slots⟩ : MachineState).turn lines =
      .silent ⟨line + 1, [.unready line path], slots⟩ := by
    rw [turn_op hcode.head]
    rfl
  have hdup : (⟨line + 1, [.unready line path], slots⟩ : MachineState).turn lines =
      .silent ⟨line + 2, [.unready line path, .unready line path], slots⟩ := by
    rw [turn_op hcode.tail.head]
    rfl
  have hlink : linkOfRhs T (.newObject name) = .ok (.method .special path ⟨[], .void⟩) :=
    except_bind_eq_ok.mpr ⟨path, hpath, rfl⟩
  obtain ⟨resume, hconstruct, hresume⟩ := construct_asks (line + 2) line path slots
  rw [← turn_invokeSpecial hcode.tail.tail.head] at hconstruct
  refine ⟨_, _, resume, .step hnew (.one hdup), hconstruct, hlink, .newObject hpath, ?_⟩
  -- The answer is an object, and the copy on the stack becomes it.
  intro v w hv hw
  cases v with
  | ref reference =>
    cases hw
    exact ⟨_, hresume reference, hholds.makeReady line path reference⟩
  | int _ | bool _ | classRef _ => cases hv

/-- **The machine does what a right-hand side comes to.** -/
theorem selectRhs_carries (hnodup : (labelsOfLines lines).Nodup)
    (hholds : SlotsHold F receiver vars slots) {k : Nat} {rhs : Rhs} {own : List (Line Op)}
    (h : selectRhs T F k rhs = .ok own) {line : Nat} (hcode : CodeAt lines line own) :
    CarriesRhs T F receiver vars lines slots rhs line (line + own.length)
      (compute .byFamily receiver vars rhs) := by
  have hread (o : Operand) := readOperand_failsStuck .byFamily receiver vars o
  have hint : descriptorOf T .int = .ok .int := rfl
  have harray : descriptorOf T .intArray = .ok (.array .int) := rfl
  cases selectRhs_cases h with
  | @operand o op hop =>
    refine .bind (hread o) fun v hv => ?_
    obtain ⟨words, hwords, hsilently⟩ := (Pushes.nil.cons hop hv).silently hholds hcode []
    obtain - | ⟨hw, - | _⟩ := hwords
    exact ⟨_, hw, hsilently⟩
  | binary hl hr => exact binary_carries hnodup hholds hl hr hcode
  | not hop => exact not_carries hholds hop hcode
  | @call c ops hops =>
    refine .bind (callRequest_failsStuck .byFamily receiver vars c) fun r hr => ?_
    obtain ⟨t, q, d, hsilently, hturn, hline, hslots, hd, hlink, hencodes⟩ :=
      selectCall_asks hholds hops hcode hr
    rw [opLines, List.length_map]
    exact .asking hholds hsilently hturn hline hslots hd hlink hencodes
  | @getField object field op owner type hop howner htype =>
    refine .bind (hread object) fun v hv => ?_
    obtain ⟨words, hwords, hsilently, hturn⟩ :=
      (Pushes.nil.cons hop hv).silently_to hholds hcode
    obtain - | ⟨hw, - | _⟩ := hwords
    cases v with
    | ref reference =>
      cases hw
      exact .asking hholds hsilently hturn rfl rfl htype (linkOfField_eq howner htype) .getField
    | int _ | bool _ | classRef _ => exact trivial
  | @arrayLength o op hop =>
    refine .bind (hread o) fun v hv => ?_
    obtain ⟨words, hwords, hsilently, hturn⟩ :=
      (Pushes.nil.cons hop hv).silently_to hholds hcode
    obtain - | ⟨hw, - | _⟩ := hwords
    cases v with
    | ref reference =>
      cases hw
      exact .asking hholds hsilently hturn rfl rfl hint rfl .arrayLength
    | int _ | bool _ | classRef _ => exact trivial
  | @arrayLoad array index slot op hslot hop =>
    refine .bind (readVar_failsStuck .byFamily vars array) fun a ha =>
      .bind (hread index) fun i hi => ?_
    obtain ⟨words, hwords, hsilently, hturn⟩ :=
      ((Pushes.nil.cons hop hi).cons (push_var hslot) ha).silently_to hholds hcode
    obtain - | ⟨hw, - | ⟨hw', - | _⟩⟩ := hwords
    -- Anything but an index into an array is stuck.
    cases a with
    | ref reference =>
      cases i with
      | int n =>
        cases hw
        cases hw'
        exact .asking hholds hsilently hturn rfl rfl hint rfl .arrayLoad
      | bool _ | ref _ | classRef _ => exact trivial
    | int _ | bool _ | classRef _ => exact trivial
  | newObject hpath => exact newObject_carries hholds hpath hcode
  | @newArray o op hop =>
    refine .bind (hread o) fun v hv => ?_
    obtain ⟨words, hwords, hsilently, hturn⟩ :=
      (Pushes.nil.cons hop hv).silently_to hholds hcode
    obtain - | ⟨hw, - | _⟩ := hwords
    cases v with
    | int n =>
      cases hw
      exact .asking hholds hsilently hturn rfl rfl harray rfl .newArray
    | ref _ | bool _ | classRef _ => exact trivial

/-! ## Instructions -/

/-- The value on top of the stack is stored in the slot of a variable. -/
theorem storeSlot_silently (hapart : F.slots.Apart (firstSlot F.method))
    (hholds : SlotsHold F receiver vars slots) {dest : Var} {slot : Nat}
    (hslot : F.slot dest = .ok slot) {line : Nat}
    (hline : lines[line]? = some (.op (storeSlot dest.type slot))) {v : Value} {vars' : Vars}
    (hassign : assignVar .byFamily vars dest v = .ok vars') {w : Word} (hw : v.word? = some w) :
    ∃ t, Silently (MachineState.turn lines) ⟨line, [w], slots⟩ t ∧
      Rests F receiver vars' (line + 1) t := by
  obtain ⟨_, hcheck, hassign⟩ := except_bind_eq_ok.mp hassign
  cases Except.ok.inj hassign
  obtain ⟨s, hs, rfl⟩ := Frame.slot_eq_ok hslot
  obtain ⟨w', hw', hfamily, -⟩ := word?_of_byFamily (Discipline.check_eq_ok.mp hcheck)
  cases hw.symm.trans hw'
  refine ⟨⟨line + 1, [], fun i => if i = s.index then some w else slots i⟩, .one ?_,
    ⟨rfl, rfl, hholds.store hapart hs hw⟩⟩
  rw [turn_op hline]
  unfold storeSlot
  exact if_pos hfamily

/-- From a state, the machine does what an instruction does: it rests at the line where the next
instruction starts or at a label, or stops, or asks and then rests. -/
def Carries (T : ClassTable) (F : Frame) (receiver : Reference) (vars : Vars)
    (lines : List (Line Op)) (i : Instr) (next : Nat) (s : MachineState) :
    Except Fault Move → Prop
  | .error .divisionByZero =>
    ∃ t, Silently (MachineState.turn lines) s t ∧ t.turn lines = .trap
  | .error _ => True
  | .ok (.next vars') =>
    ∃ t, Silently (MachineState.turn lines) s t ∧ Rests F receiver vars' next t
  | .ok (.jump name) => ∀ line, lineOf? lines name = some line →
    ∃ t, Silently (MachineState.turn lines) s t ∧ Rests F receiver vars line t
  | .ok (.stop result) => ∃ t result', Silently (MachineState.turn lines) s t ∧
    t.turn lines = .stop result' ∧ SameAnswer result result'
  | .ok (.ask r resume) => ∃ t q resume', Silently (MachineState.turn lines) s t ∧
    t.turn lines = .ask q resume' ∧ SameQuestion T (i, r) q ∧
      ∀ answer answer' vars', SameAnswer answer answer' → resume answer = .ok vars' →
        ∃ u u', resume' answer' = some u ∧ Silently (MachineState.turn lines) u u' ∧
          Rests F receiver vars' next u'

/-- Nothing is asked of the machine where the instruction is stuck. -/
theorem Carries.bind {α : Type} {i : Instr} {next : Nat} {s : MachineState} {x : Except Fault α}
    {g : α → Except Fault Move} (hx : FailsStuck x)
    (h : ∀ a, x = .ok a → Carries T F receiver vars lines i next s (g a)) :
    Carries T F receiver vars lines i next s (x >>= g) := by
  cases x with
  | error e =>
    cases hx e rfl
    exact trivial
  | ok a => exact h a rfl

theorem assignVar_failsStuck (D : Discipline) (vars : Vars) (dest : Var) (v : Value) :
    FailsStuck (assignVar D vars dest v) :=
  .bind (D.check_failsStuck dest.type (some v)) fun _ => .ok _

/-- An assignment stores what its right-hand side comes to. -/
theorem assign_carries (hapart : F.slots.Apart (firstSlot F.method))
    (hholds : SlotsHold F receiver vars slots) {dest : Var} {rhs : Rhs} {line stop slot : Nat}
    (hrhs : CarriesRhs T F receiver vars lines slots rhs line stop
      (compute .byFamily receiver vars rhs))
    (hslot : F.slot dest = .ok slot)
    (hline : lines[stop]? = some (.op (storeSlot dest.type slot))) :
    Carries T F receiver vars lines (.assign dest rhs) (stop + 1) ⟨line, [], slots⟩
      (moveOf .byFamily receiver vars (.assign dest rhs)) := by
  rw [moveOf]
  cases hcompute : compute .byFamily receiver vars rhs with
  | error e =>
    rw [hcompute] at hrhs
    cases e with
    | divisionByZero => exact hrhs
    | stuck | raised _ | noReturn => exact trivial
  | ok computed =>
    rw [hcompute] at hrhs
    cases computed with
    | value v =>
      obtain ⟨w, hw, hsilently⟩ := hrhs
      change Carries _ _ _ _ _ _ _ _
        (assignVar .byFamily vars dest v >>= fun vars' => pure (.next vars'))
      refine .bind (assignVar_failsStuck .byFamily vars dest v) fun vars' hassign => ?_
      obtain ⟨t, hstore, hrests⟩ := storeSlot_silently hapart hholds hslot hline hassign hw
      exact ⟨t, hsilently.trans hstore, hrests⟩
    | ask r type =>
      obtain ⟨t, q, resume, hsilently, hturn, hlink, hencodes, hresume⟩ := hrhs
      refine ⟨t, q, resume, hsilently, hturn, ⟨hlink, hencodes⟩, ?_⟩
      intro answer answer' vars' hsame hassign
      obtain ⟨_, hcheck, hassign⟩ := except_bind_eq_ok.mp hassign
      obtain ⟨v, hexpect, hassign⟩ := except_bind_eq_ok.mp hassign
      -- What is assigned is the answer, and the machine was given its word.
      cases answer with
      | none => cases hexpect
      | some u =>
        cases Except.ok.inj hexpect
        cases answer' with
        | none => exact hsame.elim
        | some w =>
          obtain ⟨slots', hu, hholds'⟩ := hresume v w (Discipline.check_eq_ok.mp hcheck) hsame
          obtain ⟨t', hstore, hrests⟩ :=
            storeSlot_silently hapart hholds' hslot hline hassign hsame
          exact ⟨_, t', hu, hstore, hrests⟩

/-- The result of a call that is not assigned is dropped, if there is one. -/
theorem call_carries (hholds : SlotsHold F receiver vars slots) {c : Call} {ops : List Op}
    (hops : selectCall T F c = .ok ops) {own : List Op}
    (hown : own = if c.result = .void then ops else ops ++ [.pop]) {line : Nat}
    (hcode : CodeAt lines line (opLines own)) {r : Request Value}
    (hr : callRequest .byFamily receiver vars c = .ok r) :
    Carries T F receiver vars lines (.call c) (line + (opLines own).length) ⟨line, [], slots⟩
      (.ok (.ask r fun answer => do
        Discipline.check .byFamily c.result answer
        return vars)) := by
  rw [opLines, List.length_map]
  split at hown
  · -- There is no result.
    rename_i hvoid
    subst hown
    obtain ⟨t, q, d, hsilently, hturn, hline, rfl, hd, hlink, hencodes⟩ :=
      selectCall_asks hholds hops hcode hr
    refine ⟨t, q, _, hsilently, hturn, ⟨hlink, hencodes⟩, ?_⟩
    intro answer answer' vars' hsame hvars
    obtain ⟨_, hcheck, hvars⟩ := except_bind_eq_ok.mp hvars
    cases Except.ok.inj hvars
    rw [hvoid] at hd hcheck
    cases Except.ok.inj hd
    have hnone := Discipline.check_eq_ok.mp hcheck
    cases answer with
    | some v =>
      rw [byFamily_void] at hnone
      cases hnone
    | none =>
      cases answer' with
      | some w => exact hsame.elim
      | none => exact ⟨t.next [], t.next [], rfl, .refl _, rfl, hline, hholds⟩
  · -- There is one.
    rename_i hvoid
    subst hown
    rw [opLines, List.map_append] at hcode
    have hpop := hcode.right.head
    obtain ⟨t, q, d, hsilently, hturn, hline, rfl, hd, hlink, hencodes⟩ :=
      selectCall_asks hholds hops hcode.left hr
    refine ⟨t, q, _, hsilently, hturn, ⟨hlink, hencodes⟩, ?_⟩
    intro answer answer' vars' hsame hvars
    obtain ⟨_, hcheck, hvars⟩ := except_bind_eq_ok.mp hvars
    cases Except.ok.inj hvars
    have hsome := Discipline.check_eq_ok.mp hcheck
    cases answer with
    | none => exact absurd (by simpa [Discipline.byFamily] using hsome) hvoid
    | some v =>
      cases answer' with
      | none => exact hsame.elim
      | some w =>
        refine ⟨_, (t.next [w]).next [], receive_word t [] hd hsome hsame, .one ?_, rfl, ?_, hholds⟩
        · rw [List.length_map, ← hline] at hpop
          rw [turn_op hpop]
          rfl
        · rw [List.length_append, ← Nat.add_assoc, ← hline]
          rfl

theorem returnOf_of_ne_void {type : ValueType} (h : type ≠ .void) :
    returnOf type = match familyOf type with
      | .int => .ireturn
      | .reference => .areturn := by
  cases type with
  | void => exact absurd rfl h
  | _ => rfl

/-- A value of a type is returned by the instruction for the type. -/
theorem execute_returnOf {type : ValueType} {v : Value}
    (hv : Discipline.byFamily type (some v) = true) {w : Word} (hw : v.word? = some w)
    (line : Nat) (slots : Nat → Option Word) :
    MachineState.execute ⟨line, [w], slots⟩ lines (returnOf type) = .stop (some w) := by
  obtain ⟨w', hw', hfamily, hvoid⟩ := word?_of_byFamily hv
  cases hw.symm.trans hw'
  rw [returnOf_of_ne_void hvoid]
  cases w with
  | int n =>
    rw [← Option.some.inj hfamily]
    rfl
  | ref r =>
    rw [← Option.some.inj hfamily]
    rfl
  | unready _ _ => cases hfamily

/-- A branch goes to its label or on. -/
theorem branch_carries (hholds : SlotsHold F receiver vars slots) {s : MachineState} {line : Nat}
    {b negated : Bool} {cond : Operand} {target : String}
    (hsilently : Silently (MachineState.turn lines) s ⟨line, [.int (if b then 1 else 0)], slots⟩)
    (hturn : MachineState.turn lines ⟨line, [.int (if b then 1 else 0)], slots⟩ =
      MachineState.execute ⟨line, [.int (if b then 1 else 0)], slots⟩ lines
        (if negated then .ifeq target else .ifne target)) :
    Carries T F receiver vars lines (.branch cond negated target) (line + 1) s
      (.ok (if b = negated then .next vars else .jump target)) := by
  split
  · -- The test fails.
    rename_i heq
    refine ⟨⟨line + 1, [], slots⟩, hsilently.trans (.one ?_), rfl, rfl, hholds⟩
    subst heq
    cases b <;> exact hturn
  · -- It holds.
    rename_i hne
    intro line' hline'
    refine ⟨⟨line', [], slots⟩, hsilently.trans (.one ?_), rfl, rfl, hholds⟩
    have hgo : MachineState.goTo ⟨line, [.int (if b then 1 else 0)], slots⟩ lines target [] =
        .silent ⟨line', [], slots⟩ := by
      rw [MachineState.goTo, hline']
    cases b <;> cases negated
    · exact absurd rfl hne
    · exact hturn.trans hgo
    · exact hturn.trans hgo
    · exact absurd rfl hne

/-- **The machine does what an instruction does**, from the line where the instruction starts. -/
theorem select_carries (hnodup : (labelsOfLines lines).Nodup)
    (hapart : F.slots.Apart (firstSlot F.method)) (hholds : SlotsHold F receiver vars slots)
    {k : Nat} {i : Instr} {own : List (Line Op)} (h : select T F k i = .ok own) {line : Nat}
    (hcode : CodeAt lines line own) :
    Carries T F receiver vars lines i (line + own.length) ⟨line, [], slots⟩
      (moveOf .byFamily receiver vars i) := by
  have hread (o : Operand) := readOperand_failsStuck .byFamily receiver vars o
  cases select_cases h with
  | @assign dest rhs own slot hrhs hslot =>
    have hcarries := selectRhs_carries hnodup hholds hrhs hcode.left
    rw [List.length_append, ← Nat.add_assoc]
    exact assign_carries hapart hholds hcarries hslot hcode.right.head
  | @arrayStore array index value slot i v hslot hi hv =>
    refine .bind (readVar_failsStuck .byFamily vars array) fun a ha =>
      .bind (hread index) fun n hn => .bind (hread value) fun x hx => ?_
    obtain ⟨words, hwords, hsilently, hturn⟩ :=
      (((Pushes.nil.cons hv hx).cons hi hn).cons (push_var hslot) ha).silently_to hholds hcode
    obtain - | ⟨hw, - | ⟨hw', - | ⟨hw'', - | _⟩⟩⟩ := hwords
    -- Anything but an integer at an index of an array is stuck.
    cases a with
    | ref reference =>
      cases n with
      | int n =>
        cases x with
        | int x =>
          cases hw
          cases hw'
          cases hw''
          refine ⟨_, _, _, hsilently, hturn, ⟨rfl, .arrayStore⟩, fun _ _ vars' _ hvars => ?_⟩
          cases Except.ok.inj hvars
          exact ⟨_, _, rfl, .refl _, rfl, rfl, hholds⟩
        | bool _ | ref _ | classRef _ => exact trivial
      | bool _ | ref _ | classRef _ => exact trivial
    | int _ | bool _ | classRef _ => exact trivial
  | @call c ops hops =>
    exact .bind (callRequest_failsStuck .byFamily receiver vars c) fun r hr =>
      call_carries hholds hops rfl hcode hr
  | @putField object field value o v owner type ho hv howner htype =>
    refine .bind (hread object) fun a ha => .bind (hread value) fun x hx =>
      .bind (Discipline.check_failsStuck .byFamily field.type (some x)) fun _ hcheck => ?_
    obtain ⟨words, hwords, hsilently, hturn⟩ :=
      ((Pushes.nil.cons hv hx).cons ho ha).silently_to hholds hcode
    obtain - | ⟨hw, - | ⟨hw', - | _⟩⟩ := hwords
    cases a with
    | ref reference =>
      cases hw
      have hfits := fits_of_byFamily htype (Discipline.check_eq_ok.mp hcheck) hw'
      refine ⟨_, _, _, hsilently, hturn.trans (if_pos hfits),
        ⟨linkOfField_eq howner htype, .putField hw'⟩, fun _ _ vars' _ hvars => ?_⟩
      cases Except.ok.inj hvars
      exact ⟨_, _, rfl, .refl _, rfl, rfl, hholds⟩
    | int _ | bool _ | classRef _ => exact trivial
  | @returnSome value op hop =>
    refine .bind (hread value) fun v hv => ?_
    obtain ⟨words, hwords, hsilently, hturn⟩ :=
      (Pushes.nil.cons hop hv).silently_to hholds hcode
    obtain - | ⟨hw, - | _⟩ := hwords
    exact ⟨_, _, hsilently,
      hturn.trans (execute_returnOf (byFamily_of_readOperand hop hv) hw _ _), hw⟩
  | returnNone =>
    refine ⟨_, none, .refl _, ?_, trivial⟩
    rw [turn_op hcode.head]
    rfl
  | @jump target =>
    intro line' hline'
    refine ⟨⟨line', [], slots⟩, .one ?_, rfl, rfl, hholds⟩
    rw [turn_op hcode.head, MachineState.execute, MachineState.goTo, hline']
  | @branch cond negated target op hop =>
    refine .bind (hread cond) fun v hv => ?_
    obtain ⟨words, hwords, hsilently, hturn⟩ :=
      (Pushes.nil.cons hop hv).silently_to hholds hcode
    obtain - | ⟨hw, - | _⟩ := hwords
    cases v with
    | bool b =>
      cases hw
      exact branch_carries hholds hsilently hturn
    | int _ | ref _ | classRef _ => exact trivial
  | label =>
    exact ⟨_, .one (turn_label hcode.head), rfl, rfl, hholds⟩
  | @noop o =>
    exact .bind (hread o) fun _ _ => ⟨_, .refl _, rfl, rfl, hholds⟩

end Meaning
end ClassCompiler
