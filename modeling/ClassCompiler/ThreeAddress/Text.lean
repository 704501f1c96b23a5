import ClassCompiler.Text.Lines
import ClassCompiler.ThreeAddress.Basic

/-!
# The text of three-address code

Every value carries its type behind a point, and an assignment carries the type of its destination.
A method shows its labels two blanks deep and its other instructions four.
-/

namespace ClassCompiler
namespace ThreeAddress

/-- The type behind a value. -/
def ValueType.text : ValueType → String
  | .int => ".i32"
  | .bool => ".bool"
  | .intArray => ".array.i32"
  | .stringArray => ".array.String"
  | .string => ".String"
  | .object className => "." ++ className
  | .void => ".V"

/-- A name with its type. -/
def Var.text (v : Var) : String :=
  v.name ++ v.type.text

/-- An operand; truth values are shown as numbers. -/
def Operand.text : Operand → String
  | .int value => s!"{value.toInt}.i32"
  | .bool value => if value then "1.bool" else "0.bool"
  | .string value => Text.quote value ++ ".String"
  | .var v => v.text
  | .this _ => "this"
  | .classRef name => name

/-- The word for a kind of call. -/
def CallKind.text : CallKind → String
  | .static => "invokestatic"
  | .virtual => "invokevirtual"

/-- A call with its arguments. -/
def Call.text (c : Call) : String :=
  let args := String.join (c.args.map fun a => ", " ++ a.text)
  s!"{c.kind.text}({c.target.text}, {Text.quote c.method}{args}){c.result.text}"

/-- The type that a binary operation gives. -/
def resultType (op : BinaryOp) : ValueType :=
  if op.isArithmetic then .int else .bool

/-- A right-hand side. -/
def Rhs.text : Rhs → String
  | .operand value => value.text
  | .binary op left right => s!"{left.text} {op.symbol}{(resultType op).text} {right.text}"
  | .not value => "!.bool " ++ value.text
  | .call c => c.text
  | .getField object field => s!"getfield({object.text}, {field.text}){field.type.text}"
  | .arrayLength array => s!"arraylength({array.text}).i32"
  | .arrayLoad array index => s!"{array.name}[{index.text}].i32"
  | .newObject className => s!"new({className}).{className}"
  | .newArray length => s!"new(array, {length.text}).array.i32"

/-- An instruction. -/
def Instr.text : Instr → String
  | .assign dest rhs => s!"{dest.text} :={dest.type.text} {rhs.text};"
  | .arrayStore array index value => s!"{array.name}[{index.text}].i32 :=.i32 {value.text};"
  | .call c => c.text ++ ";"
  | .putField object field value =>
    s!"putfield({object.text}, {field.text}, {value.text}).V;"
  | .ret (some value) => s!"ret{value.type.text} {value.text};"
  | .ret none => "ret.V;"
  | .jump target => s!"goto {target};"
  | .branch cond false target => s!"if ({cond.text}) goto {target};"
  | .branch cond true target => s!"if (!.bool {cond.text}) goto {target};"
  | .label name => name ++ ":"
  | .noop value => value.text ++ ";"

/-- The line of an instruction in a method. -/
def Instr.line (i : Instr) : String :=
  match i with
  | .label _ => "  " ++ i.text
  | _ => "    " ++ i.text

/-- The lines of a method. -/
def Method.lines (m : Method) : List String :=
  let modifiers := if m.isStatic then "public static" else "public"
  let params := ", ".intercalate (m.params.map Var.text)
  s!".method {modifiers} {m.name}({params}){m.result.text} \x7b" ::
    m.code.map Instr.line ++ ["\x7d"]

/-- The lines of a class. -/
def ClassCode.lines (c : ClassCode) : List String :=
  let header := match c.superclass with
    | some superclass => s!"{c.name} extends {superclass} \x7b"
    | none => s!"{c.name} \x7b"
  c.imports.map (fun path => s!"import {path};")
    ++ (if c.imports.isEmpty then [] else [""])
    ++ header :: c.fields.map (fun f => s!".field private {f.text};")
    ++ ["", s!".construct {c.name}().V \x7b", "    invokespecial(this, \"<init>\").V;", "\x7d"]
    ++ c.methods.flatMap (fun m => "" :: m.lines)
    ++ ["\x7d"]

/-- The text of a method. -/
def Method.text (m : Method) : String :=
  Text.unlines m.lines

/-- The text of a class. -/
def ClassCode.text (c : ClassCode) : String :=
  Text.unlines c.lines

end ThreeAddress
end ClassCompiler
