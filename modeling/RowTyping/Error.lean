import RowTyping.Span
import RowTyping.Ty.Equality

/-!
# Errors

What can be wrong with a program, as causes. Types in an error are given as
far as they were known when it arose.
-/

namespace RowTyping

/-- Why types or names do not fit. -/
inductive TypeError where
  /-- The two types, resolved, cannot be made equal. -/
  | mismatch (left right : Ty)
  /-- The variable would be part of its own solution. -/
  | cyclic (v : Nat) (t : Ty)
  /-- A bound variable was given a second, different type. -/
  | bindingConflict (v : Nat) (existing attempted : Ty)
  /-- The variable was never issued. -/
  | unknownVariable (v : Nat)
  | unboundName (name : String)
  | unboundType (name : String)
  | unboundTypeVariable (label : String)
  | constructorArity (name : String) (expected found : Nat)
  | typeArity (name : String) (expected found : Nat)
  | notConstructor (name : String)
  | notModule (name : String)
  | duplicateField (label : String)
  deriving DecidableEq

/-- An error and where it arose. -/
structure Located where
  error : TypeError
  span : Span
  deriving DecidableEq

end RowTyping
