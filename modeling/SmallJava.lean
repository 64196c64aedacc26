import SmallJava.Compile
import SmallJava.Syntax.Build
import SmallJava.Syntax.Placement
import SmallJava.Syntax.Rebinding
import SmallJava.Proofs.Codegen.Image
import SmallJava.Proofs.Outcome
import SmallJava.Proofs.Codegen.Emission
import SmallJava.Proofs.Codegen.Steps
import SmallJava.Proofs.Codegen.ReferenceEmission
import SmallJava.Proofs.Codegen.ExprEmission
import SmallJava.Proofs.Codegen.StmtEmission
import SmallJava.Proofs.Layout
import SmallJava.Proofs.Codegen.PackageEmission
import SmallJava.Proofs.Analysis.Ensures
import SmallJava.Proofs.Typing.Judgement
import SmallJava.Proofs.Typing.ReferenceSoundness
import SmallJava.Proofs.Typing.Rules
import SmallJava.Proofs.Analysis.ScopeCover
import SmallJava.Proofs.Typing.Discipline
import SmallJava.Proofs.Typing.ExprSoundness
import SmallJava.Proofs.Typing.Growth
import SmallJava.Proofs.Typing.StmtSoundness
import SmallJava.Proofs.Declaration.WellFormed
import SmallJava.Proofs.Declaration.Declare
import SmallJava.Proofs.Declaration.Analyze
import SmallJava.Proofs.Declaration.Accepted
import SmallJava.Proofs.Codegen.Extent
import SmallJava.Proofs.Flow.Control
import SmallJava.Proofs.Flow.Program
import SmallJava.Proofs.Frame.Effect
import SmallJava.Proofs.Frame.Height
import SmallJava.Proofs.Storage
import SmallJava.Proofs.Codegen.Ranges
import SmallJava.Proofs.Region.Instances
import SmallJava.Proofs.Region.Access
import SmallJava.Proofs.Region.Statement
import SmallJava.Proofs.Region.Program
import SmallJava.Proofs.Frame.Statement
import SmallJava.Proofs.Progress.Expr
import SmallJava.Proofs.Progress.Stmt
import SmallJava.Proofs.Progress.Program
import SmallJava.Proofs.Frame.Program
import SmallJava.Proofs.Analysis.Erase
import SmallJava.Proofs.Declaration.Describes
import SmallJava.Proofs.Declaration.Declared
import SmallJava.Proofs.Scoping.Judgement
import SmallJava.Proofs.Scoping.Soundness
import SmallJava.Proofs.Scoping.Program
import SmallJava.Proofs.Scoping.Refinement
import SmallJava.Proofs.Scoping.Overflow
import SmallJava.Proofs.Declaration.Confined
import SmallJava.Proofs.Linking.Draft
import SmallJava.Proofs.Linking.Generation
import SmallJava.Proofs.Linking.Linked
import SmallJava.Proofs.Linking.Program
import SmallJava.Proofs.Acceptance.Passes
import SmallJava.Proofs.Acceptance.Rules
import SmallJava.Proofs.Acceptance.Types
import SmallJava.Proofs.Acceptance.Models
import SmallJava.Proofs.Acceptance.Paths
import SmallJava.Proofs.Acceptance.Expressions
import SmallJava.Proofs.Acceptance.Growth
import SmallJava.Proofs.Acceptance.Statements
import SmallJava.Proofs.Acceptance.Methods
import SmallJava.Proofs.Acceptance.Declarations
import SmallJava.Proofs.Acceptance.Program
import SmallJava.Proofs.Locals.Watched
import SmallJava.Proofs.Locals.Consecutive
import SmallJava.Proofs.Locals.Program
import SmallJava.Proofs.Execution.Evaluation
import SmallJava.Proofs.Execution.Activation
import SmallJava.Proofs.Execution.Assignments
import SmallJava.Proofs.Execution.Loops
import SmallJava.Proofs.Reporting.Annotations
import SmallJava.Proofs.Acceptance.Order
import SmallJava.Proofs.Analysis.Agrees
import SmallJava.Proofs.Analysis.Independence
import SmallJava.Proofs.Execution.Answers
import SmallJava.Proofs.Execution.Loaded
import SmallJava.Proofs.Execution.Program
import SmallJava.Proofs.Reporting.Places
import SmallJava.Proofs.Scoping.Encapsulation
import SmallJava.Proofs.Scoping.Access
import SmallJava.Proofs.Scoping.BodyPaths
import SmallJava.Proofs.Execution.Pushing
import SmallJava.Proofs.Locals.Balance
import SmallJava.Proofs.Execution.Deciding
import SmallJava.Proofs.Execution.Learning
import SmallJava.Proofs.Codegen.Stations
import SmallJava.Proofs.Codegen.StmtLocality
import SmallJava.Proofs.Execution.Arriving
import SmallJava.Proofs.Execution.Conducting
import SmallJava.Proofs.Typing.Agreement
import SmallJava.Proofs.Execution.Folding
import SmallJava.Proofs.Syntax.Placing
import SmallJava.Proofs.Syntax.Rebinding
import SmallJava.Proofs.Numbering
import SmallJava.Proofs.Declaration.MadeBy
