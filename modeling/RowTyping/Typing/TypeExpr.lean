import RowTyping.Scheme
import RowTyping.Tree

/-!
# The meaning of written types

A written type is read against the type names of an environment and a scope
for its labels. In an annotation each label stands for some type, a new
variable at its first use; in a type declaration the labels are the declared
parameters.
-/

namespace RowTyping

open Check

/-- What type labels stand for. -/
inductive Scope where
  /-- Labels get a variable when they are first met. -/
  | flexible (labels : Table Ty)
  /-- Only the given labels are known. -/
  | fixed (params : Table Ty)

namespace Scope

def fresh : Scope := .flexible []

/-- The scope of a declaration; of two parameters of one label the later
counts. -/
def ofParams (params : List (String × Ty)) : Scope := .fixed (Table.ofList params)

def isFixed : Scope → Bool
  | .flexible _ => false
  | .fixed _ => true

end Scope

/-- The state of a reader: a failure keeps the labels that were met. -/
structure ReadState where
  state : State
  scope : Scope

/-- Operations that read written types. -/
abbrev Read := EStateM TypeError ReadState

namespace Read

def lift {α : Type} (x : Check TypeError α) : Read α := fun s =>
  match x.run s.state with
  | .ok a st => .ok a { s with state := st }
  | .error e st => .error e { s with state := st }

def isFixed : Read Bool := do return (← get).scope.isFixed

/-- What a label stands for. -/
def label (l : String) : Read Ty := do
  match (← get).scope with
  | .flexible labels =>
      match labels.lookup l with
      | some t => return t
      | none => do
          let t ← lift freshVar
          modify fun s => { s with scope := .flexible (Table.insert l t labels) }
          return t
  | .fixed params =>
      match params.lookup l with
      | some t => return t
      | none => throw (.unboundTypeVariable l)

end Read

/-- The base type of a name. -/
def Base.ofName? : String → Option Base
  | "int" => some .int
  | "float" => some .float
  | "bool" => some .bool
  | "string" => some .string
  | "char" => some .char
  | "unit" => some .unit
  | _ => none

/-- A type name applied to arguments. Base types are known even where the
environment does not name them. -/
def applyName (env : Env) (isFixed : Bool) (name : String) (args : List Ty) :
    Check TypeError Ty :=
  match env.type? name with
  | some s =>
      if isFixed then instantiateDeclared name s args else instantiateWith name s args
  | none =>
      match Base.ofName? name with
      | some b => if args.isEmpty then pure (.base b) else throw (.typeArity name 0 args.length)
      | none => throw (.unboundType name)

namespace TypeExpr

mutual

/-- The type that is written. -/
def read (env : Env) : TypeExpr → Read Ty
  | .name n => do Read.lift (applyName env (← Read.isFixed) n [])
  | .var l => Read.label l
  | .app n args => do
      let args ← readList env args
      Read.lift (applyName env (← Read.isFixed) n args)
  | .arrow a r => do
      let a ← read env a
      let r ← read env r
      return .arrow a r
  | .tuple items => do return .tuple (← readList env items)
  | .record fields isOpen => do
      let fields ← readFields env fields []
      if isOpen then
        if ← Read.isFixed then return .record fields (.gen (← Read.lift freshGen))
        else return .record fields (← Read.lift freshVar)
      else return .record fields .emptyRow

def readList (env : Env) : List TypeExpr → Read (List Ty)
  | [] => return []
  | e :: es => do
      let t ← read env e
      return t :: (← readList env es)

/-- Reads fields on top of those read before. A label that is there already is
an error, found after its type is read. -/
def readFields (env : Env) : List (String × TypeExpr) → Table Ty → Read (Table Ty)
  | [], fields => return fields
  | (l, e) :: es, fields => do
      let t ← read env e
      if (fields.lookup l).isSome then throw (.duplicateField l)
      else readFields env es (Table.insert l t fields)

end

/-- The type that is written, read in a scope of its own. -/
def denote (env : Env) (scope : Scope) (e : TypeExpr) : Check TypeError Ty := fun s =>
  match (e.read env).run ⟨s, scope⟩ with
  | .ok t s => .ok t s.state
  | .error err s => .error err s.state

end TypeExpr

end RowTyping
