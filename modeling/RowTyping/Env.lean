import RowTyping.State

/-!
# Environments

An environment maps value names and type names to schemes. It is a value:
extending it leaves the old one as it was, so scopes never see each other.
-/

namespace RowTyping

namespace Env

def empty : Env := ⟨[], []⟩

def isEmpty (e : Env) : Bool := e.values.isEmpty && e.types.isEmpty

def value? (e : Env) (name : String) : Option Scheme := e.values.lookup name

def type? (e : Env) (name : String) : Option Scheme := e.types.lookup name

/-- The scheme of a value name. -/
def value (e : Env) (name : String) : Except TypeError Scheme :=
  match e.value? name with
  | some s => .ok s
  | none => .error (.unboundName name)

/-- The scheme of a type name. -/
def type (e : Env) (name : String) : Except TypeError Scheme :=
  match e.type? name with
  | some s => .ok s
  | none => .error (.unboundType name)

/-- Binds a value name, hiding what it stood for. -/
def addValue (e : Env) (name : String) (s : Scheme) : Env :=
  { e with values := Table.insert name s e.values }

/-- Binds a type name, hiding what it stood for. -/
def addType (e : Env) (name : String) (s : Scheme) : Env :=
  { e with types := Table.insert name s e.types }

/-- Binds several value names to types without quantifiers, the last one on
top. -/
def addMonos (e : Env) (bindings : List (String × Ty)) : Env :=
  bindings.foldl (fun e b => e.addValue b.1 (.mono b.2)) e

/-- The variables that the values of the environment leave open. -/
def freeVars (e : Env) (r : Registry) : List Nat :=
  distinct <| e.values.flatMap fun b =>
    (r.resolveDeep b.2.body).vars.filterMap fun
      | .flex v => some v
      | .gen _ => none

/-- The name of the nominal type with an identity. -/
def typeName? (e : Env) (id : Nat) : Option String :=
  (e.types.find? fun b => b.2.body.nominalId? = some id).map (·.1)

@[simp] theorem value?_addValue (e : Env) (x y : String) (s : Scheme) :
    (e.addValue x s).value? y = if y = x then some s else e.value? y :=
  Table.lookup_insert x y s e.values

@[simp] theorem type?_addType (e : Env) (x y : String) (s : Scheme) :
    (e.addType x s).type? y = if y = x then some s else e.type? y :=
  Table.lookup_insert x y s e.types

end Env

end RowTyping
