import ClassCompiler.Class.Declarations
import ClassCompiler.Class.Table
import ClassCompiler.Class.Type
import ClassCompiler.CommandLine.Directory
import ClassCompiler.CommandLine.Options
import ClassCompiler.CommandLine.Run
import ClassCompiler.Compilation
import ClassCompiler.Constant.Edit
import ClassCompiler.Constant.Fold
import ClassCompiler.Constant.Loop
import ClassCompiler.Constant.Optimize
import ClassCompiler.Constant.Propagate
import ClassCompiler.Constant.Store
import ClassCompiler.Constant.Value
import ClassCompiler.Diagnostic
import ClassCompiler.Error
import ClassCompiler.Json.Reader
import ClassCompiler.Json.Value
import ClassCompiler.Json.Writer
import ClassCompiler.Machine.ClassText
import ClassCompiler.Machine.Descriptor
import ClassCompiler.Machine.Instruction
import ClassCompiler.Machine.Listing
import ClassCompiler.Machine.Select
import ClassCompiler.Machine.Slots
import ClassCompiler.Main
import ClassCompiler.Proofs.Class.Declared
import ClassCompiler.Proofs.Class.FirstDeclarations
import ClassCompiler.Proofs.Compilation.Emission
import ClassCompiler.Proofs.Compilation.Form
import ClassCompiler.Proofs.Compilation.Invocation
import ClassCompiler.Proofs.Compilation.Linking
import ClassCompiler.Proofs.Compilation.Lowering
import ClassCompiler.Proofs.Compilation.Optimizing
import ClassCompiler.Proofs.Constant.Edited
import ClassCompiler.Proofs.Constant.Fold
import ClassCompiler.Proofs.Constant.Folded
import ClassCompiler.Proofs.Constant.Known
import ClassCompiler.Proofs.Constant.Loop
import ClassCompiler.Proofs.Constant.Optimize
import ClassCompiler.Proofs.Constant.Propagate
import ClassCompiler.Proofs.Constant.Replacement
import ClassCompiler.Proofs.Constant.Rounds
import ClassCompiler.Proofs.Constant.Walkable
import ClassCompiler.Proofs.Json.RoundTrip
import ClassCompiler.Proofs.Json.Token
import ClassCompiler.Proofs.Machine.Access
import ClassCompiler.Proofs.Machine.Balance
import ClassCompiler.Proofs.Machine.Carry
import ClassCompiler.Proofs.Machine.Depth
import ClassCompiler.Proofs.Machine.Edited
import ClassCompiler.Proofs.Machine.Emit
import ClassCompiler.Proofs.Machine.Emittable
import ClassCompiler.Proofs.Machine.Jumps
import ClassCompiler.Proofs.Machine.Layout
import ClassCompiler.Proofs.Machine.Linkage
import ClassCompiler.Proofs.Machine.Match
import ClassCompiler.Proofs.Machine.Operand
import ClassCompiler.Proofs.Machine.Select
import ClassCompiler.Proofs.Machine.Simulation
import ClassCompiler.Proofs.Machine.Slots
import ClassCompiler.Proofs.Machine.StringConstant
import ClassCompiler.Proofs.Meaning.Code
import ClassCompiler.Proofs.Meaning.Congruence
import ClassCompiler.Proofs.Meaning.Live
import ClassCompiler.Proofs.Meaning.Machine
import ClassCompiler.Proofs.Meaning.Point
import ClassCompiler.Proofs.Meaning.Source
import ClassCompiler.Proofs.Meaning.Turn
import ClassCompiler.Proofs.Meaning.World
import ClassCompiler.Proofs.OnStore.Checking
import ClassCompiler.Proofs.OnStore.Compilation
import ClassCompiler.Proofs.OnStore.Folding
import ClassCompiler.Proofs.OnStore.Lowering
import ClassCompiler.Proofs.OnStore.Propagation
import ClassCompiler.Proofs.OnStore.Reading
import ClassCompiler.Proofs.OnStore.Rewriting
import ClassCompiler.Proofs.Settings.Order
import ClassCompiler.Proofs.Settings.RoundTrip
import ClassCompiler.Proofs.Store.Accounting
import ClassCompiler.Proofs.Store.Change
import ClassCompiler.Proofs.Store.Copying
import ClassCompiler.Proofs.Store.Folding
import ClassCompiler.Proofs.Store.History
import ClassCompiler.Proofs.Store.Numbering
import ClassCompiler.Proofs.Store.Optimizing
import ClassCompiler.Proofs.Store.Reading
import ClassCompiler.Proofs.Store.Warnings
import ClassCompiler.Proofs.ThreeAddress.Closed
import ClassCompiler.Proofs.ThreeAddress.Expression
import ClassCompiler.Proofs.ThreeAddress.Fresh
import ClassCompiler.Proofs.ThreeAddress.Labels
import ClassCompiler.Proofs.ThreeAddress.Linked
import ClassCompiler.Proofs.ThreeAddress.Liveness
import ClassCompiler.Proofs.ThreeAddress.Lower
import ClassCompiler.Proofs.ThreeAddress.Method
import ClassCompiler.Proofs.ThreeAddress.Simulate
import ClassCompiler.Proofs.ThreeAddress.SingleAssignment
import ClassCompiler.Proofs.ThreeAddress.Statement
import ClassCompiler.Proofs.ThreeAddress.Succeed
import ClassCompiler.Proofs.ThreeAddress.Sweeping
import ClassCompiler.Proofs.ThreeAddress.WellTyped
import ClassCompiler.Proofs.Tree.Induction
import ClassCompiler.Proofs.Typing.Accepted
import ClassCompiler.Proofs.Typing.Edited
import ClassCompiler.Proofs.Typing.Visited
import ClassCompiler.Settings
import ClassCompiler.Text.Blank
import ClassCompiler.Text.Lines
import ClassCompiler.Text.Printable
import ClassCompiler.Text.Quoted
import ClassCompiler.Text.Utf16
import ClassCompiler.ThreeAddress.Basic
import ClassCompiler.ThreeAddress.Fresh
import ClassCompiler.ThreeAddress.Liveness
import ClassCompiler.ThreeAddress.Lower
import ClassCompiler.ThreeAddress.Text
import ClassCompiler.Tree.Basic
import ClassCompiler.Tree.Construct
import ClassCompiler.Tree.Document
import ClassCompiler.Tree.Kind
import ClassCompiler.Tree.Outline
import ClassCompiler.Tree.Store
import ClassCompiler.Typing.Context
import ClassCompiler.Typing.Expression
import ClassCompiler.Typing.Statement
