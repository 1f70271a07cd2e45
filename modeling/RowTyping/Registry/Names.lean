import RowTyping.Registry.Basic

/-!
# Display names

Variables that a run leaves open get names in the order of their creation:
`a` to `z`, then `aa`, `ab` and so on.
-/

namespace RowTyping

/-- The `k`-th letter, from `a`. -/
def letter (k : Nat) : Char := Char.ofNat ('a'.toNat + k)

/-- The letters of the `i`-th name; every name has at most `i + 1`. -/
def letters : Nat → Nat → List Char
  | 0, _ => []
  | n + 1, i =>
      if i < 26 then [letter i] else letters n (i / 26 - 1) ++ [letter (i % 26)]

/-- The `i`-th non-empty word over `a` to `z`, shorter words first and words of
one length in alphabetical order. -/
def letterName (i : Nat) : String := String.ofList (letters (i + 1) i)

namespace Registry

/-- Gives one cell the next name if it is open and has none. -/
def nameCell (acc : Array Cell × Nat) (c : Cell) : Array Cell × Nat :=
  if c.binding.isSome || c.name.isSome then (acc.1.push c, acc.2)
  else (acc.1.push { c with name := some (letterName acc.2) }, acc.2 + 1)

/-- Names every variable that is unbound and unnamed. -/
def assignNames (r : Registry) : Registry :=
  let (cells, next) := r.cells.foldl nameCell (#[], r.nextName)
  { r with cells, nextName := next }

end Registry

end RowTyping
