import RowTyping.Env
import RowTyping.Registry.Names
import RowTyping.Text.Form

/-!
# Printing

A printer finds the words for variables and nominal types. Open variables go
by their display names, nominal types by their names in an environment, both
by number where there is none. Generalized variables are named in the order in
which the printer meets them, and keep their names from one type to the next.
-/

namespace RowTyping

/-- The `i`-th name for a generalized variable: `a` to `z`, then `a1` to `z1`
and so on. -/
def genName (i : Nat) : String :=
  if i < 26 then (letter i).toString else (letter (i % 26)).toString ++ toString (i / 26)

structure Printer where
  registry : Option Registry := none
  env : Env := .empty
  /-- Generalized variables in the order of their names. -/
  named : List Nat := []

namespace Printer

/-- A printer for the readers of a program. -/
def ofRun (r : Registry) (env : Env) : Printer := { registry := some r, env }

/-- Names generalized variables that have no name yet. -/
def name (p : Printer) (gens : List Nat) : Printer :=
  { p with named := distinct (p.named ++ gens) }

def word (p : Printer) : Piece → String
  | .text s => s
  | .var (.flex v) =>
      match p.registry.bind (·.name? v) with
      | some n => "'_" ++ n
      | none => "'_t" ++ toString v
  | .var (.gen g) => "'" ++ genName (p.named.idxOf g)
  | .nominal id =>
      match p.env.typeName? id with
      | some n => n
      | none => "#" ++ toString id

/-- The generalized variables of a written type, in order. -/
def gens (ps : List Piece) : List Nat :=
  ps.filterMap fun
    | .var (.gen g) => some g
    | _ => none

/-- The text of a type, and the printer that remembers its names. -/
def type (p : Printer) (t : Ty) : String × Printer :=
  let t := (p.registry.map (·.resolveDeep t)).getD t
  let p := p.name (gens t.pieces)
  (String.join (t.pieces.map p.word), p)

/-- The text of a scheme's body; its quantifiers are named first. -/
def scheme (p : Printer) (s : Scheme) : String × Printer :=
  (p.name s.vars).type s.body

end Printer

/-- The text of a type by itself: all words are numbers. -/
def Ty.text (t : Ty) : String := (({} : Printer).type t).1

/-- The text of a scheme by itself. -/
def Scheme.text (s : Scheme) : String := (({} : Printer).scheme s).1

end RowTyping
