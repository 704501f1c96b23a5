import ClassCompiler.Proofs.Machine.Layout
import ClassCompiler.Proofs.Machine.Slots
import ClassCompiler.Proofs.Meaning.Point

/-!
# When the machine does the same as the code

The code has truth values and class names; the machine has integers and paths.  A truth value is
zero or one to the machine, and a class goes by its path.  What the code asks, the machine asks of
the class, and with the descriptors, that the instruction is about.

* `Value.word?`: a value as the machine has it.
* `Encodes`, `linkOf`, `SameQuestion`, `SameAnswer`: what travels between them and the world.
* `SlotsHold`: the slots have the values of the variables.
* `Together`: the machine is between two instructions, as the code is.
-/

namespace ClassCompiler
namespace Meaning

open ThreeAddress Machine

/-! ## Values and words -/

/-- A value as the machine has it.  A class is no word. -/
def Value.word? : Value → Option Word
  | .int n => some (.int n)
  | .bool b => some (.int (if b then 1 else 0))
  | .ref r => some (.ref r)
  | .classRef _ => none

/-- No value is an object that is not ready. -/
theorem Value.word?_ne_unready {v : Value} {w : Word} (h : v.word? = some w) (line : Nat)
    (path : String) : w ≠ .unready line path := by
  rintro rfl
  cases v <;> simp [Value.word?] at h

/-- Nothing has the type of no values. -/
theorem byFamily_void (v : Value) : Discipline.byFamily .void (some v) = false := by
  cases v <;> rfl

/-- A value that may be at a place of a type is a word of the type's family. -/
theorem word?_of_byFamily {type : ValueType} {v : Value}
    (h : Discipline.byFamily type (some v) = true) :
    ∃ w, v.word? = some w ∧ w.family? = some (familyOf type) ∧ type ≠ .void := by
  cases v with
  | int n =>
    refine ⟨.int n, rfl, ?_⟩
    cases type <;> simp_all [Discipline.byFamily, Word.family?, familyOf, ValueType.isReference]
  | bool b =>
    refine ⟨.int (if b then 1 else 0), rfl, ?_⟩
    cases type <;> simp_all [Discipline.byFamily, Word.family?, familyOf, ValueType.isReference]
  | ref r =>
    refine ⟨.ref r, rfl, ?_⟩
    cases type <;> simp_all [Discipline.byFamily, Word.family?, familyOf, ValueType.isReference]
  | classRef name => cases h

/-- The descriptor of a type describes the family of the type. -/
theorem familyOfDescriptor?_descriptorOf {T : ClassTable} {type : ValueType} {d : Descriptor}
    (h : descriptorOf T type = .ok d) (hvoid : type ≠ .void) :
    familyOfDescriptor? d = some (familyOf type) := by
  cases type with
  | object name =>
    obtain ⟨path, -, h⟩ := except_bind_eq_ok.mp h
    cases Except.ok.inj h
    rfl
  | void => exact absurd rfl hvoid
  | _ =>
    cases Except.ok.inj h
    rfl

/-- A value that may be at a place of a type fits the descriptor of the type. -/
theorem fits_of_byFamily {T : ClassTable} {type : ValueType} {d : Descriptor} {v : Value} {w : Word}
    (hd : descriptorOf T type = .ok d) (hv : Discipline.byFamily type (some v) = true)
    (hw : v.word? = some w) : w.fits d = true := by
  obtain ⟨w', hw', hfamily, hvoid⟩ := word?_of_byFamily hv
  cases hw.symm.trans hw'
  unfold Word.fits
  rw [hfamily, familyOfDescriptor?_descriptorOf hd hvoid]
  exact beq_self_eq_true _

/-! ## Questions and answers -/

/-- The same answer, for code and machine. -/
def SameAnswer : Option Value → Option Word → Prop
  | none, none => True
  | some v, some w => v.word? = some w
  | _, _ => False

/-- The same values, for code and machine. -/
def SameWords (values : List Value) (words : List Word) : Prop :=
  List.Forall₂ (fun v w => v.word? = some w) values words

/-- The same request, for code and machine. -/
inductive Encodes (T : ClassTable) : Request Value → Request Word → Prop
  | ofClass {name path method args words} (hpath : qualify T name = .ok path)
    (hargs : SameWords args words) :
    Encodes T (.call (.ofClass name) method args) (.call (.ofClass path) method words)
  | object {r method args words} (hargs : SameWords args words) :
    Encodes T (.call (.object r) method args) (.call (.object r) method words)
  | getField {r field} : Encodes T (.getField r field) (.getField r field)
  | putField {r field v w} (hw : v.word? = some w) :
    Encodes T (.putField r field v) (.putField r field w)
  | arrayLength {r} : Encodes T (.arrayLength r) (.arrayLength r)
  | arrayLoad {r i} : Encodes T (.arrayLoad r i) (.arrayLoad r i)
  | arrayStore {r i n} : Encodes T (.arrayStore r i n) (.arrayStore r i n)
  | newObject {name path} (hpath : qualify T name = .ok path) :
    Encodes T (.newObject name) (.newObject path)
  | newArray {n} : Encodes T (.newArray n) (.newArray n)

/-- How the machine finds the method of a call. -/
def kindOf : CallKind → InvokeKind
  | .static => .static
  | .virtual => .virtual

/-- Whom a call addresses: a method of a class, by its signature. -/
def linkOfCall (T : ClassTable) (c : Call) : Except Error Link := do
  let owner ← ownerPath T c.target
  let signature ← signatureOf T c.params c.result
  return .method (kindOf c.kind) owner signature

/-- Whom an access addresses: a field of a class, by its type. -/
def linkOfField (T : ClassTable) (object : Operand) (field : Var) : Except Error Link := do
  let owner ← ownerPath T object
  let type ← descriptorOf T field.type
  return .field owner type

theorem linkOfField_eq {T : ClassTable} {object : Operand} {field : Var} {owner : String}
    {type : Descriptor} (howner : ownerPath T object = .ok owner)
    (htype : descriptorOf T field.type = .ok type) :
    linkOfField T object field = .ok (.field owner type) := by
  unfold linkOfField
  rw [howner, htype]
  rfl

/-- Whom a right-hand side addresses. -/
def linkOfRhs (T : ClassTable) : Rhs → Except Error Link
  | .call c => linkOfCall T c
  | .getField object field => linkOfField T object field
  | .newObject name => do return .method .special (← qualify T name) ⟨[], .void⟩
  | _ => .ok .none

/-- Whom an instruction addresses. -/
def linkOf (T : ClassTable) : Instr → Except Error Link
  | .assign _ rhs => linkOfRhs T rhs
  | .call c => linkOfCall T c
  | .putField object field _ => linkOfField T object field
  | _ => .ok .none

/-- The same question: the request, and whom the instruction addresses. -/
def SameQuestion (T : ClassTable) (question : Instr × Request Value) (q : Question) : Prop :=
  linkOf T question.1 = .ok q.link ∧ Encodes T question.2 q.request

/-! ## States -/

/-- The slots have the values of the variables, and the first one the receiver. -/
structure SlotsHold (F : Frame) (receiver : Reference) (vars : Vars) (slots : Nat → Option Word) :
    Prop where
  vars : ∀ x s v, F.slots.get? x = some s → vars x = some v →
    ∃ w, v.word? = some w ∧ slots s.index = some w
  receiver : F.method.isStatic = false → slots 0 = some (.ref receiver)

/-- The machine is at a line with an empty stack. -/
structure Rests (F : Frame) (receiver : Reference) (vars : Vars) (line : Nat) (s : MachineState) :
    Prop where
  stack : s.stack = []
  line : s.line = line
  holds : SlotsHold F receiver vars s.slots

/-- The machine is where the code is, and its slots have the values of the variables. -/
def Together (T : ClassTable) (F : Frame) (receiver : Reference) (p : Point) (s : MachineState) :
    Prop :=
  ∃ line, StartsAt T F p.place line ∧ Rests F receiver p.vars line s

/-- What is stored in the slot of a variable is its value; the other slots are as before. -/
theorem SlotsHold.store {F : Frame} {receiver : Reference} {vars : Vars} {slots : Nat → Option Word}
    (h : SlotsHold F receiver vars slots) (hapart : F.slots.Apart (firstSlot F.method)) {x : String}
    {s : Slot} (hs : F.slots.get? x = some s) {v : Value} {w : Word} (hw : v.word? = some w) :
    SlotsHold F receiver (vars.set x v) fun i => if i = s.index then some w else slots i := by
  constructor
  · intro y s' u hs' hu
    by_cases hyx : y = x
    · subst hyx
      rw [Vars.set_self, Option.some.injEq] at hu
      cases hs.symm.trans hs'
      exact ⟨w, hu ▸ hw, if_pos rfl⟩
    · rw [Vars.set_of_ne vars v hyx] at hu
      have hindex : s'.index ≠ s.index := fun heq => hyx (hapart.inj y x s' s hs' hs heq)
      rw [if_neg hindex]
      exact h.vars y s' u hs' hu
  · intro hstatic
    have hpositive := (hapart.bounds x s hs).1
    rw [firstSlot, hstatic] at hpositive
    have hindex : 0 ≠ s.index := by
      simp at hpositive
      omega
    rw [if_neg hindex]
    exact h.receiver hstatic

/-- That an object is made ready does not change what the variables hold. -/
theorem SlotsHold.makeReady {F : Frame} {receiver : Reference} {vars : Vars}
    {slots : Nat → Option Word} (h : SlotsHold F receiver vars slots) (line : Nat) (path : String)
    (r : Reference) :
    SlotsHold F receiver vars fun i =>
      (slots i).map (MachineState.makeReady (.unready line path) r) := by
  constructor
  · intro x s v hs hv
    obtain ⟨w, hw, hslot⟩ := h.vars x s v hs hv
    refine ⟨w, hw, ?_⟩
    rw [hslot, Option.map_some, MachineState.makeReady, if_neg (v.word?_ne_unready hw line path)]
  · intro hstatic
    rw [h.receiver hstatic]
    rfl

end Meaning
end ClassCompiler
