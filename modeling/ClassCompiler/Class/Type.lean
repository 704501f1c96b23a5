import ClassCompiler.Tree.Kind

/-!
# Static types

The types that checking gives to expressions.  Beside its name a type remembers where it came from:
the checker cannot see into imported classes and into the superclass, and treats their types more
leniently.  The origin never takes part in the comparison of types.
-/

namespace ClassCompiler

/-- Where a type came from. -/
inductive Origin where
  | primitive
  | object
  /-- A class that an import declaration names. -/
  | imported
  /-- The declared superclass. -/
  | extension
  /-- The receiver of the method that is checked. -/
  | this
  /-- The result of a method of the class. -/
  | method
  deriving DecidableEq, Repr

/-- The type of an expression or a declaration. -/
structure Ty where
  name : String
  isArray : Bool
  origin : Origin
  deriving DecidableEq, Repr

namespace Ty

def int : Ty := ⟨"int", false, .primitive⟩

def intArray : Ty := ⟨"int", true, .primitive⟩

def boolean : Ty := ⟨"boolean", false, .primitive⟩

def void : Ty := ⟨"void", false, .primitive⟩

def string : Ty := ⟨"String", false, .object⟩

def stringArray : Ty := ⟨"String", true, .object⟩

/-- The type of the receiver in the methods of a class. -/
def this (className : String) : Ty := ⟨className, false, .this⟩

/-- A type as it is declared. -/
def ofDeclared (t : TypeName) : Ty :=
  let origin :=
    if t.name = "int" ∨ t.name = "boolean" ∨ t.name = "void" then .primitive else .object
  ⟨t.name, t.isArray, origin⟩

/-- The same type, whatever the origins. -/
def same (a b : Ty) : Bool :=
  a.isArray == b.isArray && a.name == b.name

def isInt (t : Ty) : Bool :=
  !t.isArray && t.name == "int"

def isBoolean (t : Ty) : Bool :=
  !t.isArray && t.name == "boolean"

def isIntArray (t : Ty) : Bool :=
  t.isArray && t.name == "int"

def isVoid (t : Ty) : Bool :=
  !t.isArray && t.name == "void"

/-- Named by the language itself, as an array or not. -/
def isBuiltin (t : Ty) : Bool :=
  t.name == "int" || t.name == "boolean" || t.name == "void" || t.name == "String"

/-- The text of a type. -/
def text (t : Ty) : String :=
  if t.isArray then t.name ++ "[]" else t.name

end Ty
end ClassCompiler
