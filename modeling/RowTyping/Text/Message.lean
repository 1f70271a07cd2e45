import RowTyping.Text.Printer

/-!
# Messages

The wording of errors and of log entries, with every type printed by itself.
-/

namespace RowTyping

namespace TypeError

/-- Whether the error says that two types differ. -/
def isMismatch : TypeError → Bool
  | .mismatch _ _ => true
  | .cyclic _ _ => true
  | _ => false

def message : TypeError → String
  | .mismatch left right => "Cannot unify " ++ left.text ++ " with " ++ right.text
  | .cyclic v t => "Infinite type: " ++ (Ty.flex v).text ++ " occurs in " ++ t.text
  | .bindingConflict v existing attempted =>
      "Conflicting binding for " ++ (Ty.flex v).text ++ ": bound to " ++ existing.text ++
        ", rebound to " ++ attempted.text
  | .unknownVariable v => "Unknown type variable " ++ (Ty.flex v).text
  | .unboundName name => "Unbound name '" ++ name ++ "'"
  | .unboundType name => "Unbound type constructor '" ++ name ++ "'"
  | .unboundTypeVariable label => "Unbound type variable '" ++ label
  | .constructorArity name expected found =>
      "Constructor " ++ name ++ " expects " ++ toString expected ++
        " argument(s), but is applied to " ++ toString found
  | .typeArity name expected found =>
      "Type constructor " ++ name ++ " expects " ++ toString expected ++
        " argument(s), but is given " ++ toString found
  | .notConstructor name => "'" ++ name ++ "' is not a constructor"
  | .notModule name => "'" ++ name ++ "' is not a module"
  | .duplicateField label => "Field '" ++ label ++ "' is defined more than once"

end TypeError

/-- How much a log shows. -/
inductive Level where
  | debug | trace
  deriving DecidableEq

namespace Event

/-- The steps of unification are shown only to those who ask for all. -/
def level : Event → Level
  | .unify _ _ => .trace
  | .bind _ _ => .trace
  | _ => .debug

def text : Event → String
  | .unify a b => "unify " ++ a.text ++ " ~ " ++ b.text
  | .bind v t => "bind " ++ (Ty.flex v).text ++ " := " ++ t.text
  | .generalized body n => "generalized " ++ body.text ++ " over " ++ toString n ++ " variable(s)"
  | .typeDeclared name n =>
      "declared type " ++ name ++ " with " ++ toString n ++ " constructor(s)"
  | .valueDeclared name body => name ++ " : " ++ body.text
  | .rejected e => "declaration rejected: " ++ e.message

/-- The entry with its level in front. -/
def line (e : Event) : String :=
  match e.level with
  | .debug => "DEBUG " ++ e.text
  | .trace => "TRACE " ++ e.text

end Event

/-- The entries of the log that a level shows. -/
def State.logLines (s : State) (level : Level) : List String :=
  (s.log.toList.filter fun e => level = .trace || e.level = .debug).map Event.line

end RowTyping
