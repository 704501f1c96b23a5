import ClassCompiler.Machine.Select
import ClassCompiler.Text.Lines

/-!
# The text of a class

A header, the fields, a constructor that does nothing but call that of the superclass, and the
methods, with an empty line before each part.
-/

namespace ClassCompiler
namespace Machine

open ThreeAddress (Var Method ClassCode)

/-- The depth of the stack that every method announces. -/
def stackLimit : Nat := 99

/-- The lines of the fields. -/
def fieldLines (T : ClassTable) : List Var → Except Error (List String)
  | [] => .ok []
  | f :: fs => do
    let type ← descriptorOf T f.type
    let rest ← fieldLines T fs
    return s!".field private {f.name} {type.text}" :: rest

/-- The lines of the constructor. -/
def constructorLines (superclass : String) : List String :=
  let body : List Op := [.load .reference 0, .invoke .special superclass "<init>" ⟨[], .void⟩, .ret]
  ".method public <init>()V" :: body.map (fun o => Line.text Op.text (.op o)) ++ [".end method"]

/-- The lines of a method. -/
def methodLines (T : ClassTable) (budget : Nat) (m : Method) : Except Error (List String) := do
  let frame ← Frame.build budget m
  let signature ← signatureOf T (m.params.map Var.type) m.result
  let listing ← frame.listing T
  let modifiers := if m.isStatic then "public static" else "public"
  return [s!".method {modifiers} {m.name}{signature.text}", s!"    .limit stack {stackLimit}",
      s!"    .limit locals {frame.limit}"]
    ++ listing.lines.map (Line.text Op.text) ++ [".end method"]

/-- The lines of the methods, with an empty line before each. -/
def methodsLines (T : ClassTable) (budget : Nat) : List Method → Except Error (List String)
  | [] => .ok []
  | m :: ms => do
    let lines ← methodLines T budget m
    let rest ← methodsLines T budget ms
    return "" :: lines ++ rest

/-- The text of a class whose methods announce at least `budget` slots. -/
def classText (T : ClassTable) (budget : Nat) (c : ClassCode) : Except Error String := do
  let superclass ← superclassPath T
  let fields ← fieldLines T c.fields
  let methods ← methodsLines T budget c.methods
  return Text.unlines ([s!".class public {c.name}", s!".super {superclass}"]
    ++ (if fields.isEmpty then [] else "" :: fields)
    ++ "" :: constructorLines superclass ++ methods)

end Machine
end ClassCompiler
