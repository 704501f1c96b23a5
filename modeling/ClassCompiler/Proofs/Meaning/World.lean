import ClassCompiler.Tree.Kind

/-!
# Values and the world outside a method

What a method body means depends on things it cannot see: what its calls do, which objects exist,
what fields and arrays hold.  All of this is the *world*.  A body talks to the world by requests,
one at a time; the world replies and changes.  A meaning is therefore given for every world at once,
and whatever is shown of two bodies holds for every heap, every callee and every allocator.

What belongs to the method itself are its variables.  The world never touches them.

* `Value`: what a variable holds.  Truth values are not integers here; a machine may think
  otherwise.
* `Request`: what a body asks of the world.  It is parametric in the values that travel with it, so
  that a machine with other values can ask the same things.
* `World.ask`: one exchange, recorded in the trace.
* `Value.binary`, `Value.negate`: the operators, on integers of 32 bits that wrap around.
-/

namespace ClassCompiler
namespace Meaning

/-- What a variable of a reference type holds. -/
inductive Reference where
  | null
  /-- An object or an array, by its address. -/
  | address (number : Nat)
  | string (text : String)
  deriving DecidableEq, Repr

/-- What an expression gives. -/
inductive Value where
  | int (value : Int32)
  | bool (value : Bool)
  | ref (value : Reference)
  /-- A class itself.  Nothing can be done with it but to call a method through it. -/
  | classRef (name : String)
  deriving DecidableEq, Repr

/-- Why an execution ended without a result. -/
inductive Fault where
  | divisionByZero
  /-- What was to be done has no meaning: an operation on values of the wrong kind, a name that
  stands for nothing, a node in the wrong place. -/
  | stuck
  /-- The world refused a request, for instance an access past the end of an array. -/
  | raised (reason : String)
  /-- A method that has to give a value came to its end without one. -/
  | noReturn
  deriving DecidableEq, Repr

/-! ## Results that may be errors -/

/-- Both parts of a computation that succeeds have succeeded. -/
theorem except_bind_eq_ok {ε α β : Type} {x : Except ε α} {g : α → Except ε β} {b : β} :
    x >>= g = .ok b ↔ ∃ a, x = .ok a ∧ g a = .ok b := by
  cases x with
  | error e => exact ⟨fun h => (nomatch h), fun ⟨_, h, _⟩ => (nomatch h)⟩
  | ok a => exact ⟨fun h => ⟨a, rfl, h⟩, fun ⟨_, h, h'⟩ => Except.ok.inj h ▸ h'⟩

theorem except_bind_pure {ε α β : Type} (x : Except ε α) (g : α → β) :
    (x >>= fun a => pure (g a)) = x.map g := by
  cases x <;> rfl

/-! ## Operators -/

namespace Value

/-- The value of a binary operation.  Sums, differences, products and quotients are taken among all
integers, the quotient rounded toward zero, and brought back to 32 bits. -/
def binary (op : BinaryOp) (left right : Value) : Except Fault Value :=
  match op, left, right with
  | .add, int a, int b => .ok (int (.ofInt (a.toInt + b.toInt)))
  | .sub, int a, int b => .ok (int (.ofInt (a.toInt - b.toInt)))
  | .mul, int a, int b => .ok (int (.ofInt (a.toInt * b.toInt)))
  | .div, int a, int b =>
    if b.toInt = 0 then .error .divisionByZero
    else .ok (int (.ofInt (a.toInt.tdiv b.toInt)))
  | .and, bool a, bool b => .ok (bool (a && b))
  | .or, bool a, bool b => .ok (bool (a || b))
  | .lt, int a, int b => .ok (bool (a.toInt < b.toInt))
  | .gt, int a, int b => .ok (bool (a.toInt > b.toInt))
  | _, _, _ => .error .stuck

/-- The negation of a truth value. -/
def negate : Value → Except Fault Value
  | bool b => .ok (bool !b)
  | _ => .error .stuck

/-! The arithmetic of 32-bit words is what wrapping around makes of the arithmetic of integers. -/

@[simp] theorem binary_add (a b : Int32) : binary .add (int a) (int b) = .ok (int (a + b)) := by
  rw [binary, Int32.ofInt_add, Int32.ofInt_toInt, Int32.ofInt_toInt]

@[simp] theorem binary_sub (a b : Int32) : binary .sub (int a) (int b) = .ok (int (a - b)) := by
  rw [binary, Int32.ofInt_sub, Int32.ofInt_toInt, Int32.ofInt_toInt]

@[simp] theorem binary_mul (a b : Int32) : binary .mul (int a) (int b) = .ok (int (a * b)) := by
  rw [binary, Int32.ofInt_mul, Int32.ofInt_toInt, Int32.ofInt_toInt]

@[simp] theorem binary_div (a b : Int32) :
    binary .div (int a) (int b) =
      if b = 0 then .error .divisionByZero else .ok (int (a / b)) := by
  have hzero : b.toInt = 0 ↔ b = 0 := Int32.toInt_inj (y := 0)
  have hquot : Int32.ofInt (a.toInt.tdiv b.toInt) = a / b := by
    rw [Int32.ofInt_tdiv a.minValue_le_toInt a.toInt_le b.minValue_le_toInt b.toInt_le,
      Int32.ofInt_toInt, Int32.ofInt_toInt]
  rw [binary, hquot]
  simp only [hzero]

@[simp] theorem binary_lt (a b : Int32) :
    binary .lt (int a) (int b) = .ok (bool (decide (a < b))) := by
  simp only [binary, Int32.lt_iff_toInt_lt]

@[simp] theorem binary_gt (a b : Int32) :
    binary .gt (int a) (int b) = .ok (bool (decide (b < a))) := by
  simp only [binary, Int32.lt_iff_toInt_lt, gt_iff_lt]

@[simp] theorem binary_and (a b : Bool) : binary .and (bool a) (bool b) = .ok (bool (a && b)) := rfl

@[simp] theorem binary_or (a b : Bool) : binary .or (bool a) (bool b) = .ok (bool (a || b)) := rfl

end Value

/-! ## Variables -/

/-- What the variables of a method hold; a variable may hold nothing yet. -/
abbrev Vars := String → Option Value

namespace Vars

/-- The variables after an assignment. -/
def set (vars : Vars) (name : String) (value : Value) : Vars := fun x =>
  if x = name then some value else vars x

@[simp] theorem set_self (vars : Vars) (name : String) (value : Value) :
    vars.set name value name = some value := by
  simp [set]

theorem set_of_ne (vars : Vars) {name x : String} (value : Value) (h : x ≠ name) :
    vars.set name value x = vars x := by
  simp [set, h]

end Vars

/-! ## Requests -/

/-- Whom a call goes to. -/
inductive Callee where
  | ofClass (name : String)
  | object (receiver : Reference)
  deriving DecidableEq, Repr

/-- What is asked of the world.  The values that go along have type `α`. -/
inductive Request (α : Type) where
  | call (callee : Callee) (method : String) (args : List α)
  | getField (object : Reference) (field : String)
  | putField (object : Reference) (field : String) (value : α)
  | arrayLength (array : Reference)
  | arrayLoad (array : Reference) (index : Int32)
  | arrayStore (array : Reference) (index value : Int32)
  | newObject (className : String)
  | newArray (length : Int32)
  deriving DecidableEq, Repr

namespace Request

/-- The call of a method on a value; only references and classes have methods. -/
def callOn (method : String) (args : List Value) : Value → Except Fault (Request Value)
  | .ref r => .ok (.call (.object r) method args)
  | .classRef name => .ok (.call (.ofClass name) method args)
  | _ => .error .stuck

/-- The length of a value. -/
def lengthOf : Value → Except Fault (Request Value)
  | .ref r => .ok (.arrayLength r)
  | _ => .error .stuck

/-- The element of a value at an index. -/
def loadFrom : Value → Value → Except Fault (Request Value)
  | .ref r, .int i => .ok (.arrayLoad r i)
  | _, _ => .error .stuck

/-- The change of the element of a value at an index. -/
def storeTo : Value → Value → Value → Except Fault (Request Value)
  | .ref r, .int i, .int v => .ok (.arrayStore r i v)
  | _, _, _ => .error .stuck

/-- A new array as long as a value says. -/
def arrayOf : Value → Except Fault (Request Value)
  | .int n => .ok (.newArray n)
  | _ => .error .stuck

end Request

/-! ## Worlds -/

/-- A world with states of type `σ`.  It answers a request with a value or with nothing, or refuses
it with a reason. -/
structure World (σ : Type) where
  reply : σ → Request Value → Except String (Option Value) × σ

/-- One exchange with the world. -/
structure Event where
  request : Request Value
  reply : Except String (Option Value)

/-- The world at some moment, with everything that was exchanged so far. -/
structure Outside (σ : Type) where
  state : σ
  trace : List Event := []

/-- A computation that talks to the world and may end in a fault. -/
def Effect (σ α : Type) : Type :=
  Outside σ → Except Fault α × Outside σ

namespace Effect

variable {σ α β : Type}

/-- A value, without asking. -/
protected def pure (a : α) : Effect σ α := fun o =>
  (.ok a, o)

/-- One computation after another.  The second does not happen after a fault. -/
protected def bind (x : Effect σ α) (f : α → Effect σ β) : Effect σ β := fun o =>
  match x o with
  | (.ok a, o) => f a o
  | (.error e, o) => (.error e, o)

instance : Monad (Effect σ) where
  pure := Effect.pure
  bind := Effect.bind

/-- A result that does not depend on the world. -/
def ofExcept (x : Except Fault α) : Effect σ α := fun o =>
  (x, o)

@[simp] theorem pure_apply (a : α) (o : Outside σ) : (pure a : Effect σ α) o = (.ok a, o) := rfl

theorem bind_apply (x : Effect σ α) (f : α → Effect σ β) (o : Outside σ) :
    (x >>= f) o = match x o with
      | (.ok a, o) => f a o
      | (.error e, o) => (.error e, o) := rfl

@[simp] theorem pure_bind (a : α) (f : α → Effect σ β) : (pure a >>= f : Effect σ β) = f a := rfl

theorem bind_assoc {γ : Type} (x : Effect σ α) (f : α → Effect σ β) (g : β → Effect σ γ) :
    (x >>= f) >>= g = x >>= fun a => f a >>= g := by
  funext o
  rw [bind_apply, bind_apply, bind_apply]
  rcases x o with ⟨_ | a, o'⟩ <;> rfl

theorem bind_pure (x : Effect σ α) : x >>= pure = x := by
  funext o
  rw [bind_apply]
  rcases x o with ⟨_ | a, o'⟩ <;> rfl

@[simp] theorem ofExcept_ok (a : α) : (ofExcept (.ok a) : Effect σ α) = pure a := rfl

@[simp] theorem ofExcept_apply (x : Except Fault α) (o : Outside σ) :
    (ofExcept x : Effect σ α) o = (x, o) := rfl

end Effect

namespace World

variable {σ : Type}

/-- Asks the world, and records the exchange. -/
def ask (w : World σ) (r : Request Value) : Effect σ (Option Value) := fun o =>
  let (reply, state) := w.reply o.state r
  let o : Outside σ := ⟨state, o.trace ++ [⟨r, reply⟩]⟩
  match reply with
  | .ok answer => (.ok answer, o)
  | .error reason => (.error (.raised reason), o)

/-- An answer that has to be a value. -/
def expect : Option Value → Except Fault Value
  | some v => .ok v
  | none => .error .stuck

/-- Asks the world for a value, if there is something to ask. -/
def demand (w : World σ) (r : Except Fault (Request Value)) : Effect σ Value := do
  let r ← Effect.ofExcept r
  let answer ← w.ask r
  Effect.ofExcept (expect answer)

end World

end Meaning
end ClassCompiler
