import ClassCompiler.Class.Type

/-!
# Symbol tables

What the rest of the compiler knows about a class: its name, its superclass, the imports, the fields
and the signatures and locals of the methods, all in the order of their declaration.

A variable name means a local, else a parameter, else a field.  A class name is visible if it names
the superclass, ends an import or names the class itself.
-/

namespace ClassCompiler

/-- A declared name with its type. -/
structure Symbol where
  name : String
  type : Ty
  deriving DecidableEq, Repr

/-- A method as it is declared. -/
structure MethodInfo where
  name : String
  returnType : Ty
  parameters : List Symbol
  locals : List Symbol
  isStatic : Bool
  deriving DecidableEq, Repr

/-- Where a variable was found. -/
inductive Scope where
  | local
  | parameter
  | field
  deriving DecidableEq, Repr

/-- What is known about a class. -/
structure ClassTable where
  className : String
  superclass : Option String
  /-- Paths with points. -/
  imports : List String
  fields : List Symbol
  methods : List MethodInfo
  deriving DecidableEq, Repr

/-- The symbol of that name. -/
def Symbol.find? (symbols : List Symbol) (name : String) : Option Symbol :=
  symbols.find? fun s => s.name == name

namespace ClassTable

/-- The method of that name. -/
def method? (T : ClassTable) (name : String) : Option MethodInfo :=
  T.methods.find? fun m => m.name == name

/-- The field of that name. -/
def field? (T : ClassTable) (name : String) : Option Symbol :=
  Symbol.find? T.fields name

/-- The local or parameter of that name in a method. -/
def frameVariable? (info : MethodInfo) (name : String) : Option (Scope × Symbol) :=
  match Symbol.find? info.locals name with
  | some s => some (.local, s)
  | none => (Symbol.find? info.parameters name).map fun s => (.parameter, s)

/-- What a variable name means inside a method. -/
def resolve? (T : ClassTable) (method name : String) : Option (Scope × Symbol) :=
  let inFrame := (T.method? method).bind fun info => frameVariable? info name
  match inFrame with
  | some found => some found
  | none => (T.field? name).map fun s => (.field, s)

/-- The last segment of a path with points. -/
def lastSegment (path : String) : String :=
  String.ofList (path.toList.reverse.takeWhile (· ≠ '.')).reverse

/-- The first import that ends in a name. -/
def importPath? (T : ClassTable) (name : String) : Option String :=
  T.imports.find? fun path => lastSegment path == name

def isImport (T : ClassTable) (name : String) : Bool :=
  (T.importPath? name).isSome

def isSuperclass (T : ClassTable) (name : String) : Bool :=
  T.superclass == some name

/-- The type with its origin set if it names the superclass or an import. -/
def tagOrigin (T : ClassTable) (t : Ty) : Ty :=
  if t.isArray ∨ t.origin = .this then t
  else if T.isSuperclass t.name then { t with origin := .extension }
  else if T.isImport t.name then { t with origin := .imported }
  else t

/-- The type that a visible class name stands for. -/
def classReference? (T : ClassTable) (name : String) : Option Ty :=
  if T.isSuperclass name then some ⟨name, false, .extension⟩
  else if T.isImport name then some ⟨name, false, .imported⟩
  else if name = T.className then some ⟨name, false, .object⟩
  else none

end ClassTable
end ClassCompiler
