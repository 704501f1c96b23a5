import ClassCompiler.Class.Table
import ClassCompiler.Diagnostic

/-!
# From declarations to the symbol table

The table is read off the class without resolving a type.  Of two declarations of one name the first
one counts; the other is reported and dropped.  A method that is dropped is still read, so what is
wrong inside it is reported too.

* `Ast.classTree`: the class of a tree.
* `ClassTable.ofTree`: its table.
-/

namespace ClassCompiler

namespace Tree

/-- The kind of a class declaration. -/
def isClass (t : Ast) : Bool :=
  match t.kind with
  | .classDeclaration _ _ => true
  | _ => false

/-- The class of a tree: the tree itself, or the first class right below it. -/
def classTree (t : Ast) : Except Error Ast :=
  if t.isClass then .ok t
  else
    match t.children.find? isClass with
    | some c => .ok c
    | none => .error (.malformedTree t.id .noClass)

/-- The paths that the import declarations of a program name. -/
def imports (t : Ast) : List String :=
  match t.kind with
  | .program => t.children.filterMap fun c =>
      match c.kind with
      | .importDeclaration path => some (".".intercalate path)
      | _ => none
  | _ => []

/-- The first return type among the children of a method. -/
def returnType? (children : List Ast) : Option TypeName :=
  children.findSome? fun c =>
    match c.kind with
    | .returnType type => some type
    | _ => none

end Tree

namespace ClassTable

/-- Reads the arguments and locals among the children of a method, after the parameters and locals
that are known already. -/
def declareFrame (method : String) (parameters locals : List Symbol) :
    List Ast → Checked (List Symbol × List Symbol)
  | [] => pure (parameters, locals)
  | t :: ts =>
    match t.kind with
    | .argument name type =>
      if (Symbol.find? parameters name).isSome then do
        Checked.report t.label (.repeatedParameter name method)
        declareFrame method parameters locals ts
      else declareFrame method (parameters ++ [⟨name, .ofDeclared type⟩]) locals ts
    | .localVar name type =>
      if (Symbol.find? locals name).isSome then do
        Checked.report t.label (.repeatedLocal name method)
        declareFrame method parameters locals ts
      else if (Symbol.find? parameters name).isSome then do
        Checked.report t.label (.localNamedLikeParameter name method)
        declareFrame method parameters locals ts
      else declareFrame method parameters (locals ++ [⟨name, .ofDeclared type⟩]) ts
    | _ => declareFrame method parameters locals ts

/-- Reads a method with its return type and the parameters that it has from the start. -/
def declareMethod (name : String) (returnType : Ty) (isStatic : Bool) (parameters : List Symbol)
    (children : List Ast) : Checked MethodInfo := do
  let (parameters, locals) ← declareFrame name parameters [] children
  return { name, returnType, parameters, locals, isStatic }

/-- The table with a method, unless there is one of its name. -/
def addMethod (T : ClassTable) (n : Numbered) (info : MethodInfo) : Checked ClassTable :=
  if (T.method? info.name).isSome then do
    Checked.report n (.repeatedMethod info.name T.className)
    return T
  else return { T with methods := T.methods ++ [info] }

/-- The table with a field, unless there is one of its name. -/
def addField (T : ClassTable) (n : Numbered) (name : String) (type : TypeName) :
    Checked ClassTable :=
  if (T.field? name).isSome then do
    Checked.report n (.repeatedField name)
    return T
  else return { T with fields := T.fields ++ [⟨name, .ofDeclared type⟩] }

/-- The table with one more member of the class. -/
def addMember (T : ClassTable) (member : Ast) : Checked ClassTable :=
  match member.kind with
  | .classField name type => T.addField member.label name type
  | .method name _ =>
    match Tree.returnType? member.children with
    | none => Checked.fail (.malformedTree member.id (.noReturnType name))
    | some type => do
      let info ← declareMethod name (.ofDeclared type) false [] member.children
      T.addMethod member.label info
  | .entry argument => do
    let info ← declareMethod Kind.entryName .void true [⟨argument, .stringArray⟩] member.children
    T.addMethod member.label info
  | kind => Checked.fail (.malformedTree member.id (.unexpectedMember kind))

/-- The table with more members of the class. -/
def addMembers (T : ClassTable) : List Ast → Checked ClassTable
  | [] => pure T
  | member :: members => do
    let T ← T.addMember member
    T.addMembers members

/-- The table of a class before its members are read. -/
def ofHeader (imports : List String) (kind : Kind) : ClassTable :=
  match kind with
  | .classDeclaration name superclass => ⟨name, superclass, imports, [], []⟩
  | _ => ⟨"", none, imports, [], []⟩

/-- The table of the class of a tree. -/
def ofTree (t : Ast) : Checked ClassTable := do
  let c ← Checked.ofExcept t.classTree
  (ofHeader t.imports c.kind).addMembers c.children

end ClassTable
end ClassCompiler
