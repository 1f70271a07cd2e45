import RowTyping.Scheme
import RowTyping.Tree
import RowTyping.Unify

/-!
# Value constructors

A constructor belongs to a variant type and takes at most one argument, which
may be a tuple. How many components it is given is compared with what was
declared before the types are.
-/

namespace RowTyping

open Check

/-- Makes the type found at a span equal to the expected one. -/
def unifyAt (span : Span) (found expected : Ty) : Check Located Unit :=
  located span (unify found expected)

/-- A constructor at a use. -/
structure Ctor where
  name : String
  owner : Ty
  arg : Option Ty

/-- The constructor whose type this is. -/
def Ty.ctor? : Ty → Option Ctor
  | .con (.ctor name) (owner :: args) => some ⟨name, owner, args.head?⟩
  | _ => none

/-- The type of a name used as a value: a constructor without argument is its
owner, one with an argument a function. -/
def Ty.asValue (t : Ty) : Ty :=
  match t.ctor? with
  | some ⟨_, owner, none⟩ => owner
  | some ⟨_, owner, some arg⟩ => .arrow arg owner
  | none => t

/-- The number of components something has. -/
inductive Arity where
  /-- Not known yet, but at least one. -/
  | any
  | count (n : Nat)
  deriving DecidableEq

namespace Arity

/-- The number shown to the reader. -/
def toNat : Arity → Nat
  | .any => 1
  | .count n => n

def agrees : Arity → Arity → Bool
  | .count m, .count n => m == n
  | .any, .count n => n != 0
  | .count m, .any => m != 0
  | .any, .any => true

def ofPattern : Option Pattern → Arity
  | none => .count 0
  | some (.tuple items) => .count items.length
  | some .wild => .any
  | some (.var _) => .any
  | some _ => .count 1

end Arity

namespace Registry

def headN (r : Registry) : Nat → Ty → Ty
  | 0, t => r.resolve t
  | n + 1, t =>
      match r.resolve t with
      | .synonym _ _ _ target => r.headN n target
      | t => t

theorem headN_of_not_synonym {r : Registry} {t : Ty} (h : ∀ id labels params target,
    r.resolve t ≠ .synonym id labels params target) (n : Nat) : r.headN n t = r.resolve t := by
  cases n with
  | zero => rfl
  | succ n =>
    rw [headN]
    split
    · next heq => exact absurd heq (h _ _ _ _)
    · rfl

/-- The type resolved at its head, synonyms looked through. -/
def head (r : Registry) (t : Ty) : Ty := r.headN (r.fuel t) t

/-- The number of components of an argument. -/
def arity (r : Registry) : Option Ty → Arity
  | none => .count 0
  | some t =>
      match r.head t with
      | .con .tuple items => .count items.length
      | .flex _ => .any
      | _ => .count 1

end Registry

namespace Ctor

/-- Compares what the constructor is given with what it takes. -/
def checkArity (c : Ctor) (span : Span) (found : Arity) : Check Located Unit := do
  let expected := (← registry).arity c.arg
  if expected.agrees found then pure ()
  else throw ⟨.constructorArity c.name expected.toNat found.toNat, span⟩

/-- The type of the constructor applied to an argument, if there is one. The
argument is inferred first. -/
def apply (c : Ctor) (span : Span) (arg : Option (Check Located Ty)) : Check Located Ty := do
  let found ←
    match arg with
    | none => pure none
    | some infer => do pure (some (← infer))
  c.checkArity span ((← registry).arity found)
  match c.arg, found with
  | some expected, some actual => unifyAt span actual expected
  | _, _ => pure ()
  return c.owner

end Ctor

/-- The scheme of a value name, or the error that there is none. -/
def Env.find (env : Env) (span : Span) (name : String) : Check Located Scheme :=
  located span (fromExcept (env.value name))

/-- A use of the constructor with a name. -/
def Env.constructor (env : Env) (span : Span) (name : String) : Check Located Ctor := do
  let t ← instantiate (← env.find span name)
  match t.ctor? with
  | some c => return c
  | none => throw ⟨.notConstructor name, span⟩

end RowTyping
