import RowTyping.Typing.Constructor

/-!
# Patterns

A pattern is checked against the type of what it is matched with; it yields
the names it binds with their types, from left to right.
-/

namespace RowTyping

open Check

/-- A new variable for each label, and the table of them. A label that comes
twice is an error. -/
def freshFields (span : Span) : List String → Table Ty → Check Located (List Ty × Table Ty)
  | [], fields => return ([], fields)
  | l :: ls, fields => do
      let t ← freshVar
      if (fields.lookup l).isSome then throw ⟨.duplicateField l, span⟩
      else do
        let (ts, fields) ← freshFields span ls (Table.insert l t fields)
        return (t :: ts, fields)

/-- A constructor pattern without its argument: the constructor has to fit the
argument's shape and the expected type. Yields the type that the argument is
matched with. -/
def Env.destruct (env : Env) (span : Span) (name : String) (found : Arity) (expected : Ty) :
    Check Located (Option Ty) := do
  let c ← env.constructor span name
  c.checkArity span found
  unifyAt span c.owner expected
  return c.arg

namespace Pattern

mutual

/-- The names a pattern binds when it is matched with a value of the expected
type. -/
def check (env : Env) (span : Span) : Pattern → Ty → Check Located (List (String × Ty))
  | .wild, _ => return []
  | .var name, expected => return [(name, expected)]
  | .lit b, expected => do
      unifyAt span (.base b) expected
      return []
  | .tuple items, expected => do
      let types := (← freshFor freshVar items).map (·.2)
      unifyAt span (.tuple types) expected
      checkList env span items types
  | .construct name none, expected => do
      let _ ← env.destruct span name (.ofPattern none) expected
      return []
  | .construct name (some p), expected => do
      match ← env.destruct span name (.ofPattern (some p)) expected with
      | some t => check env span p t
      | none => return []
  | .record fields isOpen, expected => do
      let (types, row) ← freshFields span (fields.map (·.1)) []
      let tail ← if isOpen then freshVar else pure .emptyRow
      unifyAt span (.record row tail) expected
      checkFields env span fields types

def checkList (env : Env) (span : Span) :
    List Pattern → List Ty → Check Located (List (String × Ty))
  | p :: ps, t :: ts => do
      let bindings ← check env span p t
      return bindings ++ (← checkList env span ps ts)
  | _, _ => return []

def checkFields (env : Env) (span : Span) :
    List (String × Pattern) → List Ty → Check Located (List (String × Ty))
  | (_, p) :: ps, t :: ts => do
      let bindings ← check env span p t
      return bindings ++ (← checkFields env span ps ts)
  | _, _ => return []

end

end Pattern

end RowTyping
