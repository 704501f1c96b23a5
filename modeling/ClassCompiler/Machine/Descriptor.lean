import ClassCompiler.Class.Table
import ClassCompiler.Error

/-!
# Class names and descriptors of the machine

The machine writes a class by its path with slashes and a type by a descriptor.  A name is looked up
in the symbol table: the class itself, an import, the class of strings, the superclass.  A class
that none of these names is an error, never a guess.
-/

namespace ClassCompiler
namespace Machine

open ThreeAddress (ValueType Operand)

/-- The root of the class hierarchy. -/
def rootClass : String := "java/lang/Object"

/-- The class of strings. -/
def stringClass : String := "java/lang/String"

/-- The type of a value, as the machine describes it. -/
inductive Descriptor where
  | int
  | boolean
  | void
  /-- The objects of a class, by its path. -/
  | object (path : String)
  | array (element : Descriptor)
  deriving DecidableEq, Repr

/-- The types of the parameters and of the result of a method. -/
structure Signature where
  params : List Descriptor
  result : Descriptor
  deriving DecidableEq, Repr

namespace Descriptor

/-- The text of a descriptor. -/
def text : Descriptor → String
  | int => "I"
  | boolean => "Z"
  | void => "V"
  | object path => s!"L{path};"
  | array element => "[" ++ element.text

end Descriptor

namespace Signature

/-- The text of a signature. -/
def text (s : Signature) : String :=
  "(" ++ String.join (s.params.map Descriptor.text) ++ ")" ++ s.result.text

end Signature

/-- A path with slashes instead of points. -/
def slashed (path : String) : String :=
  String.ofList (path.toList.map fun c => if c = '.' then '/' else c)

/-- The path of a class that the table knows. -/
def qualify (T : ClassTable) (name : String) : Except Error String :=
  if name = T.className then .ok name
  else
    match T.importPath? name with
    | some path => .ok (slashed path)
    | none =>
      if name = "String" then .ok stringClass
      else if T.isSuperclass name then .ok name
      else .error (.unknownType name)

/-- The path of the superclass. -/
def superclassPath (T : ClassTable) : Except Error String :=
  match T.superclass with
  | some name => qualify T name
  | none => .ok rootClass

/-- The class that a member accessed through an operand belongs to. -/
def ownerPath (T : ClassTable) (object : Operand) : Except Error String :=
  match object.type with
  | .object name => qualify T name
  | other => .error (.unknownType ("member access on" ++ other.text))

/-- The descriptor of a type. -/
def descriptorOf (T : ClassTable) : ValueType → Except Error Descriptor
  | .int => .ok .int
  | .bool => .ok .boolean
  | .intArray => .ok (.array .int)
  | .string => .ok (.object stringClass)
  | .stringArray => .ok (.array (.object stringClass))
  | .object name => do return .object (← qualify T name)
  | .void => .ok .void

/-- The descriptors of types. -/
def descriptorsOf (T : ClassTable) : List ValueType → Except Error (List Descriptor)
  | [] => .ok []
  | t :: ts => do
    let d ← descriptorOf T t
    let ds ← descriptorsOf T ts
    return d :: ds

/-- The signature of a method with these types. -/
def signatureOf (T : ClassTable) (params : List ValueType) (result : ValueType) :
    Except Error Signature := do
  let params ← descriptorsOf T params
  let result ← descriptorOf T result
  return ⟨params, result⟩

end Machine
end ClassCompiler
