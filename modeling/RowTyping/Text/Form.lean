import RowTyping.Ty.Vars

/-!
# How types are written

The text of a type is first laid out as a list of pieces: fixed text, and
places for the words of variables and of nominal types, which depend on who
reads them. The layout is the type's own: `int * bool -> 'a list`,
`{x: int, ..'_a}`.
-/

namespace RowTyping

/-- What a written type is made of. -/
inductive Piece where
  | text (s : String)
  | var (x : TyVar)
  | nominal (id : Nat)
  deriving DecidableEq

/-- The place a type stands in; a type that binds less tightly than its place
goes in parentheses. -/
inductive Prec where
  | arrow | tuple | atom
  deriving DecidableEq

/-- The ways to write a type: at each place, and as part of a row, where a
record gives its fields and the rest. -/
structure Form where
  pieces : Prec → List Piece
  fields : List (String × List Piece)
  rest : Option (List Piece)

namespace Form

/-- A type that is no row. -/
def ofPieces (pieces : Prec → List Piece) : Form := ⟨pieces, [], some (pieces .atom)⟩

def ofText (s : String) : Form := ofPieces fun _ => [.text s]

def parens (isInside : Bool) (ps : List Piece) : List Piece :=
  if isInside then .text "(" :: ps ++ [.text ")"] else ps

def separated (sep : String) (items : List (List Piece)) : List Piece :=
  [Piece.text sep].intercalate items

def arrow (a r : Form) : Form :=
  ofPieces fun p =>
    parens (p ≠ .arrow) (a.pieces .tuple ++ .text " -> " :: r.pieces .arrow)

def tuple (ts : List Form) : Form :=
  ofPieces fun p => parens (p = .atom) (separated " * " (ts.map (·.pieces .atom)))

/-- One argument stands before the name as it is, several in parentheses. -/
def nominal (id : Nat) : List Form → Form
  | [] => ofPieces fun _ => [.nominal id]
  | [t] => ofPieces fun _ => t.pieces .atom ++ [.text " ", .nominal id]
  | ts =>
      ofPieces fun _ =>
        parens true (separated ", " (ts.map (·.pieces .arrow))) ++ [.text " ", .nominal id]

/-- The fields in label order, then the rest unless the row is closed. -/
def row (fields : List (String × List Piece)) (rest : Option (List Piece)) : Form :=
  let items := (Table.sort fields).map fun e => .text (e.1 ++ ": ") :: e.2
  let items := items ++ rest.toList.map fun r => .text ".." :: r
  ⟨fun _ => .text "\x7b" :: separated ", " items ++ [.text "\x7d"], fields, rest⟩

/-- A constructor is written like the value it is. -/
def constructor : List Form → Form
  | [] => ofText ""
  | [owner] => ofPieces owner.pieces
  | owner :: arg :: _ => arrow arg owner

end Form

def Base.text : Base → String
  | .int => "int"
  | .float => "float"
  | .bool => "bool"
  | .string => "string"
  | .char => "char"
  | .unit => "unit"

/-- How a type former is written around its children. -/
def Con.form : Con → List Form → Form
  | .base b, _ => .ofText b.text
  | .arrow, [a, r] => .arrow a r
  | .arrow, _ => .ofText "->"
  | .tuple, ts => .tuple ts
  | .emptyRow, _ => .row [] none
  | .variant id _, ts => .nominal id ts
  | .abstract id _, ts => .nominal id ts
  | .ctor _, ts => .constructor ts

namespace Ty

mutual

def form : Ty → Form
  | .var x => .ofPieces fun _ => [.var x]
  | .con c args => c.form (formList args)
  | .record fields tail =>
      let tail := tail.form
      .row (formFields fields ++ tail.fields) tail.rest
  | .synonym id _ params _ => .nominal id (formList params)
  | .module name _ => .ofText ("module " ++ name)

def formList : List Ty → List Form
  | [] => []
  | t :: ts => t.form :: formList ts

def formFields : List (String × Ty) → List (String × List Piece)
  | [] => []
  | (l, t) :: fs => (l, t.form.pieces .arrow) :: formFields fs

end

/-- The written type, standing alone. -/
def pieces (t : Ty) : List Piece := t.form.pieces .arrow

@[simp] theorem formList_eq (ts : List Ty) : formList ts = ts.map form := by
  induction ts with
  | nil => rfl
  | cons t ts ih => simp [formList, ih]

@[simp] theorem formFields_eq (fs : List (String × Ty)) :
    formFields fs = fs.map fun e => (e.1, e.2.form.pieces .arrow) := by
  induction fs with
  | nil => rfl
  | cons f fs ih => simp [formFields, ih]

end Ty

end RowTyping
