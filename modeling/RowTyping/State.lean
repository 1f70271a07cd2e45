import RowTyping.Error
import RowTyping.Registry.Resolve

/-!
# Checking runs

A run works on a state: the registry, and a log of what it did. An operation
that fails keeps what it did to the state before. `Check ε` is the type of
operations that fail with an `ε`.
-/

namespace RowTyping

/-- Steps worth recording. -/
inductive Event where
  /-- Two types, resolved at the head, are to be made equal. -/
  | unify (left right : Ty)
  /-- A variable got its binding. -/
  | bind (v : Nat) (t : Ty)
  /-- A type was quantified over so many variables. -/
  | generalized (body : Ty) (count : Nat)
  /-- A type declaration succeeded, with so many constructors. -/
  | typeDeclared (name : String) (constructors : Nat)
  /-- A declaration introduced a value. -/
  | valueDeclared (name : String) (body : Ty)
  /-- A declaration was left out because of an error. -/
  | rejected (error : TypeError)

structure State where
  registry : Registry := {}
  log : Array Event := #[]

/-- Operations on the state that may fail with an `ε`. -/
abbrev Check (ε : Type) := EStateM ε State

namespace Check

variable {ε : Type}

def registry : Check ε Registry := do return (← get).registry

def modifyRegistry (f : Registry → Registry) : Check ε Unit :=
  modify fun s => { s with registry := f s.registry }

def emit (e : Event) : Check ε Unit :=
  modify fun s => { s with log := s.log.push e }

/-- An outcome that does not depend on the state. -/
def fromExcept {α : Type} : Except ε α → Check ε α
  | .ok a => pure a
  | .error e => throw e

/-- Reports the errors of an operation against a span. -/
def located {α : Type} (span : Span) (x : Check TypeError α) : Check Located α :=
  x.adaptExcept fun e => ⟨e, span⟩

/-- Issues a variable. -/
def freshVar : Check ε Ty := do
  let v := (← registry).varCount
  modifyRegistry (·.addVar)
  return .flex v

/-- Issues a generalized variable. -/
def freshGen : Check ε Nat := do
  let g := (← registry).nextGen
  modifyRegistry (·.addGen)
  return g

/-- Issues the identity of a nominal type. -/
def freshType : Check ε Nat := do
  let i := (← registry).nextType
  modifyRegistry (·.addType)
  return i

/-! ## What the operations do -/

@[simp] theorem run_registry (s : State) :
    (registry : Check ε Registry).run s = .ok s.registry s := rfl

@[simp] theorem run_modifyRegistry (f : Registry → Registry) (s : State) :
    (modifyRegistry f : Check ε Unit).run s = .ok () { s with registry := f s.registry } := rfl

@[simp] theorem run_emit (e : Event) (s : State) :
    (emit e : Check ε Unit).run s = .ok () { s with log := s.log.push e } := rfl

@[simp] theorem run_freshVar (s : State) :
    (freshVar : Check ε Ty).run s =
      .ok (.flex s.registry.varCount) { s with registry := s.registry.addVar } := rfl

@[simp] theorem run_freshGen (s : State) :
    (freshGen : Check ε Nat).run s =
      .ok s.registry.nextGen { s with registry := s.registry.addGen } := rfl

@[simp] theorem run_freshType (s : State) :
    (freshType : Check ε Nat).run s =
      .ok s.registry.nextType { s with registry := s.registry.addType } := rfl

end Check

end RowTyping
