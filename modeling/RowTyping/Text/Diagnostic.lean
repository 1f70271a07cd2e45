import RowTyping.Text.Message
import RowTyping.Typing.Constructor

/-!
# Diagnostics

A diagnostic tells the author of a program about an error: a headline, the
place, and possibly a note. All types of a diagnostic are printed by one
printer, so a name means the same variable throughout.
-/

namespace RowTyping

inductive NoteKind where
  | note | help
  deriving DecidableEq

structure Diagnostic where
  headline : String
  location : String
  notes : List (NoteKind × String)

/-- Line and column of an offset, both from one. A line break belongs to the
line it ends and opens another only if text follows it, so the end of a text is
always on its last line. -/
def position (source : List Char) (offset : Nat) : Nat × Nat :=
  -- the last character opens no line, whatever it is
  let before := source.dropLast.take offset
  let start := before.length - (before.reverse.takeWhile (· ≠ '\n')).length
  (before.count '\n' + 1, offset - start + 1)

/-- The place of an offset in a file. -/
def location (file source : String) (offset : Nat) : String :=
  let (line, column) := position source.toList offset
  file ++ ":" ++ toString line ++ ":" ++ toString column

/-- A word in a terminal color of the 256-color palette. -/
def paint (color : Nat) (isOn : Bool) (word : String) : String :=
  if isOn then "\x1b[38;5;" ++ toString color ++ "m" ++ word ++ "\x1b[0m" else word

/-- The headline of an error and its note. -/
def TypeError.describe (p : Printer) (color : Bool) (e : TypeError) :
    String × List (NoteKind × String) :=
  let defect := "This is a defect in the type checker, not in the program"
  match e with
  | .mismatch left right =>
      let (expected, p) := p.type right
      let (found, _) := p.type left
      let expected := paint 201 color "expected" ++ " '" ++ expected ++ "'"
      let found := paint 155 color "found" ++ " '" ++ found ++ "'"
      ("Type mismatch: " ++ expected ++ ", " ++ found,
        [(.note, "Cannot unify " ++ expected ++ " with " ++ found)])
  | .cyclic v t =>
      let (v, p) := p.type (.flex v)
      let (t, _) := p.type t
      ("Infinite type: " ++ v ++ " occurs in " ++ t,
        [(.help, "This would create an infinite type")])
  | .bindingConflict v existing attempted =>
      let (v, p) := p.type (.flex v)
      let (existing, p) := p.type existing
      let (attempted, _) := p.type attempted
      ("Internal error: " ++ v ++ " is bound to " ++ existing ++ " and cannot be rebound to " ++
        attempted, [(.help, defect)])
  | .unknownVariable v =>
      ("Internal error: unknown type variable " ++ (p.type (.flex v)).1, [(.help, defect)])
  | .constructorArity name expected found =>
      let help :=
        if expected = 0 then name ++ " takes no argument"
        else if found = 0 then name ++ " needs an argument"
        else name ++ " takes a tuple of " ++ toString expected ++ " components, not " ++
          toString found
      (e.message, [(.help, help)])
  | .unboundTypeVariable _ =>
      (e.message, [(.help, "Type declarations may only use their own parameters")])
  | _ => (e.message, [])

/-- The diagnostic of an error, worded with the names of a registry and an
environment. -/
def Located.diagnose (e : Located) (file source : String) (color : Bool) (r : Registry)
    (env : Env) : Diagnostic :=
  let (headline, notes) := e.error.describe (.ofRun r env) color
  { headline, notes, location := location file source e.span.start }

end RowTyping
