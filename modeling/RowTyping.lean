import RowTyping.Span
import RowTyping.Table
import RowTyping.Ty.Basic
import RowTyping.Ty.Vars
import RowTyping.Ty.Subst
import RowTyping.Ty.Equality
import RowTyping.Registry.Basic
import RowTyping.Registry.Resolve
import RowTyping.Registry.Names
import RowTyping.Error
import RowTyping.State
import RowTyping.Unify
import RowTyping.Env
import RowTyping.Scheme
import RowTyping.Standard
import RowTyping.Tree
import RowTyping.Typing.TypeExpr
import RowTyping.Typing.Constructor
import RowTyping.Typing.Pattern
import RowTyping.Typing.Expr
import RowTyping.Typing.Decl
import RowTyping.Typing.Program
import RowTyping.Text.Form
import RowTyping.Text.Printer
import RowTyping.Text.Message
import RowTyping.Text.Diagnostic
import RowTyping.Proofs.Tables
import RowTyping.Proofs.Bindings
import RowTyping.Proofs.Reading
import RowTyping.Proofs.OccursCheck
import RowTyping.Proofs.WellFormed
import RowTyping.Proofs.Unifies
import RowTyping.Proofs.Preservation
import RowTyping.Proofs.Budget
import RowTyping.Proofs.Termination
import RowTyping.Proofs.Values
import RowTyping.Proofs.Kinds
import RowTyping.Proofs.Soundness
import RowTyping.Proofs.Shapes
import RowTyping.Proofs.Solutions
import RowTyping.Proofs.Roles
import RowTyping.Proofs.Meeting
import RowTyping.Proofs.Completeness
import RowTyping.Proofs.Synonyms
import RowTyping.Proofs.Keeping
import RowTyping.Proofs.Relocation
import RowTyping.Proofs.Comparison
import RowTyping.Proofs.ComparedTypes
import RowTyping.Proofs.ComparedPatterns
import RowTyping.Proofs.Correspondence
import RowTyping.Proofs.Written
import RowTyping.Proofs.Programs
import RowTyping.Proofs.Naming
import RowTyping.Proofs.Stages
import RowTyping.Proofs.Agreement
import RowTyping.Proofs.Declarative
import RowTyping.Proofs.Instances
import RowTyping.Proofs.Generalization
import RowTyping.Proofs.Denotation
import RowTyping.Proofs.Patterns
import RowTyping.Proofs.Inference
import RowTyping.Proofs.Declarations
import RowTyping.Proofs.Coherence
import RowTyping.Proofs.TypeSoundness
import RowTyping.Proofs.Points
import RowTyping.Proofs.Covering
import RowTyping.Proofs.Annotations
import RowTyping.Proofs.Sight
import RowTyping.Proofs.Discipline
import RowTyping.Proofs.Footprint
import RowTyping.Proofs.Sealing
import RowTyping.Proofs.Translation
import RowTyping.Proofs.Principality
import RowTyping.Proofs.Expansion
import RowTyping.Proofs.Simulation
import RowTyping.Proofs.Transparency
import RowTyping.Proofs.Exports
import RowTyping.Proofs.Vocabulary
import RowTyping.Proofs.Evolution
import RowTyping.Proofs.Tracing
import RowTyping.Proofs.Provenance
import RowTyping.Proofs.InternalErrors
import RowTyping.Proofs.Chains
import RowTyping.Proofs.Rigid
import RowTyping.Proofs.Matching
import RowTyping.Proofs.Twins
import RowTyping.Proofs.Reordering
import RowTyping.Proofs.Destructuring
import RowTyping.Proofs.PrincipalTypes
import RowTyping.Proofs.Quantifiers
import RowTyping.Proofs.Composition
import RowTyping.Proofs.NormalForms
import RowTyping.Proofs.Unpacking
import RowTyping.Proofs.DisplayNames
import RowTyping.Proofs.Spans
import RowTyping.Proofs.Leaks
import RowTyping.Proofs.Likeness
import RowTyping.Proofs.Parallel
import RowTyping.Proofs.ParallelUnification
import RowTyping.Proofs.ParallelSchemes
import RowTyping.Proofs.Inlining
import RowTyping.Proofs.FreshInstances
import RowTyping.Proofs.LastingErrors
import RowTyping.Proofs.ConstructorApplication
import RowTyping.Proofs.Idempotence
import RowTyping.Proofs.ShapeCongruence
import RowTyping.Proofs.PatternArity
import RowTyping.Proofs.Visibility
import RowTyping.Proofs.Unrelated
import RowTyping.Proofs.Unambiguous
import RowTyping.Proofs.Unfolding
