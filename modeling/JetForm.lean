import JetForm.Trace.Expression
import JetForm.Render.Infix
import JetForm.Render.Nested
import JetForm.Render.Outline
import JetForm.Program.Source
import JetForm.Program.Tensor
import JetForm.Program.Cell
import JetForm.Program.Field
import JetForm.Program.Scalar
import JetForm.Program.Sensitivity
import JetForm.Reduction.Options
import JetForm.Reduction.Registry
import JetForm.Tree.Copy
import JetForm.Reduction.Normalize
import JetForm.Reduction.Extract
import JetForm.Reduction.Minimise
import JetForm.Reduction.Singularity
import JetForm.Reduction.Coefficient
import JetForm.Reduction.Matching
import JetForm.Integrate.Tableau
import JetForm.Numerics.Difference
import JetForm.Numerics.Newton
import JetForm.Integrate.BackwardEuler
import JetForm.Integrate.Steps
import JetForm.Integrate.Method
import JetForm.Reduction.Assignment
import JetForm.Reduction.Conditions
import JetForm.Reduction.Substitute
import JetForm.Reduction.InitialState
import JetForm.Reduction.Split
import JetForm.Reduction.FirstOrder
import JetForm.Integrate.InitialValue
import JetForm.Solve
import JetForm.Tree.Request
import JetForm.Decimal.Reader
import JetForm.Json.Basic
import JetForm.Json.Reader
import JetForm.Json.Writer
import JetForm.Reduction.Statement
import JetForm.Numerics.System
import JetForm.Number.Complex
import JetForm.Number.Entry
import JetForm.Number.Order
import JetForm.Proofs.Outcome
import JetForm.Proofs.Tree.Traversal
import JetForm.Proofs.Tree.Shape
import JetForm.Proofs.Tree.Invariant
import JetForm.Proofs.Program.Lowering
import JetForm.Proofs.Tree.Construction
import JetForm.Proofs.Reduction.Normalize
import JetForm.Proofs.Differential.Interpretation
import JetForm.Proofs.Differential.NormalForm
import JetForm.Proofs.Tree.Sharing
import JetForm.Proofs.Tree.Rebuild
import JetForm.Proofs.Reduction.Matching
import JetForm.Proofs.Reduction.Alternating
import JetForm.Proofs.Reduction.Substitute
import JetForm.Proofs.Reduction.Conditions
import JetForm.Proofs.Reduction.Sorting
import JetForm.Proofs.Differential.Substitution
import JetForm.Proofs.Reduction.Assignment
import JetForm.Proofs.Differential.Split
import JetForm.Proofs.Differential.Solutions
import JetForm.Proofs.Tree.Adopt
import JetForm.Proofs.Tree.Quotient
import JetForm.Proofs.Tree.Lowered
import JetForm.Proofs.Program.Reading
import JetForm.Proofs.Reduction.Repeatable
import JetForm.Proofs.Reduction.Entries
import JetForm.Proofs.Reduction.Residual
import JetForm.Proofs.Reduction.Equations
import JetForm.Proofs.Tree.Calls
import JetForm.Proofs.Trace.Workspace
import JetForm.Proofs.Trace.Expression
import JetForm.Proofs.Reduction.FirstOrder
import JetForm.Proofs.Reduction.Lowerable
import JetForm.Proofs.Trace.Formula
import JetForm.Proofs.Reduction.Statement
import JetForm.Proofs.Reduction.Breakpoints
import JetForm.Proofs.Domain
import JetForm.Proofs.Integrate.Steps
import JetForm.Proofs.Integrate.Pieces
import JetForm.Proofs.Integrate.Solution
import JetForm.Proofs.Integrate.Causality
import JetForm.Proofs.Integrate.Strides
import JetForm.Proofs.Numerics.Vectors
import JetForm.Proofs.Integrate.Descent
import JetForm.Proofs.Numerics.Elimination
import JetForm.Proofs.Integrate.Jacobian
import JetForm.Proofs.Tree.Solid
import JetForm.Proofs.Tree.Halves
import JetForm.Proofs.Program.Faults
import JetForm.Proofs.Reduction.Turns
import JetForm.Proofs.Reduction.Halves
import JetForm.Proofs.Reduction.Acceptance
import JetForm.Proofs.Reduction.Solvable
import JetForm.Proofs.Reduction.Splittable
import JetForm.Proofs.Reduction.Sides
import JetForm.Proofs.Reduction.Subtraction
import JetForm.Proofs.Reduction.Transposition
import JetForm.Proofs.Tree.Separation
import JetForm.Proofs.Tree.Linear
import JetForm.Proofs.Reduction.Extraction
import JetForm.Proofs.Reordering
import JetForm.Proofs.Reduction.StoredValues
import JetForm.Proofs.Reduction.Reordering
import JetForm.Proofs.Numerics.Reordering
import JetForm.Proofs.Reduction.ConditionOrder
import JetForm.Proofs.Reduction.Differentiable
import JetForm.Proofs.Reduction.LinearConditions
import JetForm.Proofs.Reduction.Orders
import JetForm.Proofs.Numerics.Doubles
import JetForm.Proofs.Reduction.NumericConditions
import JetForm.Proofs.Tree.Postorder
import JetForm.Proofs.Program.Symbols
import JetForm.Proofs.Program.Relation
import JetForm.Proofs.Program.Tensor
import JetForm.Proofs.Program.Batch
import JetForm.Proofs.Program.Revaluation
import JetForm.Proofs.Program.Interning
import JetForm.Proofs.Numerics.Newton
import JetForm.Proofs.Tree.Paths
import JetForm.Proofs.Tree.Copies
import JetForm.Proofs.Program.Sensitivity
import JetForm.Proofs.Trace.Domains
import JetForm.Proofs.Trace.FormulaDomains
import JetForm.Proofs.Chebyshev
import JetForm.Proofs.Numerics.Comparisons
import JetForm.Proofs.Program.Times
import JetForm.Proofs.Reduction.AcceptedSamples
import JetForm.Proofs.Reduction.ExactSamples
import JetForm.Proofs.Reduction.Jumps
import JetForm.Proofs.Reduction.PlainNumbers
import JetForm.Proofs.Render.Infix
import JetForm.Proofs.Render.Reader
import JetForm.Proofs.Integrate.StepCount
import JetForm.Proofs.Integrate.Restart
import JetForm.Proofs.Integrate.RungeKutta
import JetForm.Proofs.Integrate.Order
import JetForm.Proofs.Integrate.ImplicitStep
import JetForm.Proofs.Integrate.Termination
import JetForm.Proofs.Reduction.Layout
import JetForm.Proofs.Reduction.Memory
