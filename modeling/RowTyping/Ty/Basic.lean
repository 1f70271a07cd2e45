import RowTyping.Table

/-!
# Type terms

Types are finite terms over variables. Every type former whose children are
ordinary types is a head `Con` applied to a list, so the operations below
treat functions, tuples, nominal types and constructor types alike. Records,
synonyms and modules have constructors of their own because their parts play
different roles.

A scheme quantifies a type over generalized variables; an environment holds
the schemes of values and of type names. The three are mutual because the type
of a module carries the environment of its members.
-/

namespace RowTyping

/-- Base types. -/
inductive Base where
  | int | float | bool | string | char | unit
  deriving DecidableEq, Repr

/-- A type variable: `flex` variables are solved by unification, `gen`
variables are rigid and stand for the quantified positions of schemes. -/
inductive TyVar where
  | flex (n : Nat)
  | gen (n : Nat)
  deriving DecidableEq, Repr

/-- Type formers. A nominal head carries its identity and the labels of the
declared parameters, a constructor head the constructor's name. Base types and
the empty row have no children, a function has two, a constructor has its
owner and at most one argument; the others have as many as they are given. -/
inductive Con where
  | base (b : Base)
  | arrow
  | tuple
  | emptyRow
  | variant (id : Nat) (labels : List String)
  | abstract (id : Nat) (labels : List String)
  | ctor (name : String)
  deriving DecidableEq, Repr

mutual

/-- Types. The tail of a record is `emptyRow` when it is closed, otherwise a
variable or a further record. A synonym keeps the arguments it was used with
beside the type it abbreviates. -/
inductive Ty where
  | var (x : TyVar)
  | con (c : Con) (args : List Ty)
  | record (fields : List (String × Ty)) (tail : Ty)
  | synonym (id : Nat) (labels : List String) (params : List Ty) (target : Ty)
  | module (name : String) (members : Env)

/-- A type with its quantified generalized variables. -/
structure Scheme where
  vars : List Nat
  body : Ty

/-- Schemes of the values and of the type names in scope. -/
structure Env where
  values : List (String × Scheme)
  types : List (String × Scheme)

end

instance : Inhabited Ty := ⟨.con (.base .unit) []⟩
instance : Inhabited Scheme := ⟨⟨[], default⟩⟩
instance : Inhabited Env := ⟨⟨[], []⟩⟩

/-- Whether two heads are the same type former. The labels of parameters do
not count. -/
def Con.agrees : Con → Con → Bool
  | .base b, .base b' => b == b'
  | .arrow, .arrow => true
  | .tuple, .tuple => true
  | .emptyRow, .emptyRow => true
  | .variant i _, .variant j _ => i == j
  | .abstract i _, .abstract j _ => i == j
  | .ctor n, .ctor m => n == m
  | _, _ => false

namespace Ty

@[match_pattern] abbrev flex (n : Nat) : Ty := .var (.flex n)
@[match_pattern] abbrev gen (n : Nat) : Ty := .var (.gen n)
@[match_pattern] abbrev base (b : Base) : Ty := .con (.base b) []
@[match_pattern] abbrev arrow (a r : Ty) : Ty := .con .arrow [a, r]
@[match_pattern] abbrev emptyRow : Ty := .con .emptyRow []

abbrev int : Ty := base .int
abbrev float : Ty := base .float
abbrev bool : Ty := base .bool
abbrev string : Ty := base .string
abbrev char : Ty := base .char
abbrev unit : Ty := base .unit

/-- A product type; no component is `unit` and one component is itself. -/
def tuple : List Ty → Ty
  | [] => unit
  | [t] => t
  | ts => .con .tuple ts

/-- A curried function of several parameters. -/
def arrows (params : List Ty) (result : Ty) : Ty :=
  params.foldr arrow result

/-- A variant type from its labelled arguments. -/
def variant (id : Nat) (args : List (String × Ty)) : Ty :=
  .con (.variant id (args.map (·.1))) (args.map (·.2))

/-- An abstract type from its labelled arguments. -/
def abstract (id : Nat) (args : List (String × Ty)) : Ty :=
  .con (.abstract id (args.map (·.1))) (args.map (·.2))

/-- A synonym from its labelled arguments. -/
def synonymOf (id : Nat) (args : List (String × Ty)) (target : Ty) : Ty :=
  .synonym id (args.map (·.1)) (args.map (·.2)) target

/-- The type of a value constructor: its owner, then its argument if it takes
one. -/
def ctor (name : String) (owner : Ty) (arg : Option Ty) : Ty :=
  .con (.ctor name) (owner :: arg.toList)

def isFlex : Ty → Bool
  | .flex _ => true
  | _ => false

def isBase : Ty → Bool
  | .con (.base _) _ => true
  | _ => false

def isRecord : Ty → Bool
  | .record _ _ => true
  | _ => false

/-- The identity of a variant, abstract type or synonym. -/
def nominalId? : Ty → Option Nat
  | .con (.variant id _) _ => some id
  | .con (.abstract id _) _ => some id
  | .synonym id _ _ _ => some id
  | _ => none

/-! ## Induction

The children of a type are lists; this principle hands out the hypothesis for
every member. The members of a module are no part of its type's structure. -/

@[elab_as_elim, induction_eliminator]
theorem induct {motive : Ty → Prop} (var : ∀ x, motive (.var x))
    (con : ∀ c args, (∀ t ∈ args, motive t) → motive (.con c args))
    (record : ∀ fields tail, (∀ e ∈ fields, motive e.2) → motive tail →
      motive (.record fields tail))
    (synonym : ∀ id labels params target, (∀ t ∈ params, motive t) → motive target →
      motive (.synonym id labels params target))
    (module : ∀ name members, motive (.module name members)) (t : Ty) : motive t :=
  @Ty.rec motive (fun _ => True) (fun _ => True) (fun ts => ∀ t ∈ ts, motive t)
    (fun fs => ∀ e ∈ fs, motive e.2) (fun _ => True) (fun e => motive e.2) (fun _ => True)
    var con record synonym (fun name members _ => module name members)
    (fun _ _ _ => trivial) (fun _ _ _ _ => trivial)
    (by simp) (fun _ _ h hs => List.forall_mem_cons.mpr ⟨h, hs⟩)
    (by simp) (fun _ _ h hs => List.forall_mem_cons.mpr ⟨h, hs⟩)
    trivial (fun _ _ _ _ => trivial) (fun _ _ h => h) (fun _ _ _ => trivial) t

end Ty

namespace Scheme

/-- A scheme without quantifiers. -/
def mono (t : Ty) : Scheme := ⟨[], t⟩

def isMono (s : Scheme) : Bool := s.vars.isEmpty

end Scheme

end RowTyping
