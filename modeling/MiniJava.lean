import MiniJava.Tree.Cursor
import MiniJava.Compile
import MiniJava.Proofs.Semantics.Effect
import MiniJava.Proofs.Lowering.Blocks
import MiniJava.Proofs.Lowering.Closure
import MiniJava.Proofs.Lowering.ExprMeaning
import MiniJava.Proofs.Lowering.MethodMeaning
import MiniJava.Proofs.Assembly.BodySafe
import MiniJava.Proofs.Assembly.Compare
import MiniJava.Proofs.Assembly.InstrMeaning
import MiniJava.Proofs.Checking.Accepted
import MiniJava.Proofs.Checking.Calls
import MiniJava.Proofs.Checking.Emits
import MiniJava.Proofs.StackSafety
import MiniJava.Proofs.Assembly.BodyLabels
import MiniJava.Proofs.LabelSafety
import MiniJava.Proofs.Lowering.Issued
import MiniJava.Proofs.Lowering.Values
import MiniJava.Proofs.Checking.Throughout
import MiniJava.Proofs.Semantics.Typed
import MiniJava.Proofs.Checking.Arguments
import MiniJava.Proofs.Checking.Stores
import MiniJava.Proofs.TypeSafety
import MiniJava.Proofs.ReferenceSafety
import MiniJava.Proofs.Assembly.Covers
import MiniJava.Proofs.Assembly.Expressible
import MiniJava.Proofs.Checking.Usable
import MiniJava.Proofs.CleanGeneration
import MiniJava.Proofs.Assembly.Lines
import MiniJava.Proofs.Assembly.SlotTable
import MiniJava.Proofs.Checking.Rules
import MiniJava.Proofs.Lowering.Contexts
import MiniJava.Proofs.ReturnSafety
import MiniJava.Proofs.FailureReports
import MiniJava.Proofs.Acceptance
import MiniJava.Proofs.SlotAllocation
import MiniJava.Proofs.Parentheses
import MiniJava.Proofs.CallBinding
import MiniJava.Proofs.Lowering.Writes
import MiniJava.Proofs.ArgumentPassing
import MiniJava.Proofs.Lowering.Knowing
import MiniJava.Proofs.Semantics.TacPaths
import MiniJava.Proofs.AssignmentSafety
import MiniJava.Proofs.TypeAgreement
import MiniJava.Proofs.UnknownTypes
import MiniJava.Proofs.Checking.Names
import MiniJava.Proofs.Lowering.Silence
import MiniJava.Proofs.LoweringFailures
import MiniJava.Proofs.Checking.Worth
import MiniJava.Proofs.VoidSafety
import MiniJava.Proofs.Noninterference
import MiniJava.Proofs.DescriptorReading
import MiniJava.Proofs.Lowering.ThreeAddress
import MiniJava.Proofs.StackBound
import MiniJava.Proofs.FreshNames
import MiniJava.Proofs.ReportMessages
import MiniJava.Proofs.StackAccounting
import MiniJava.Proofs.SlotCounting
