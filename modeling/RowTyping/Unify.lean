import RowTyping.State

/-!
# Unification

`unify a b` makes two types equal by binding variables, or fails with the pair
of types that cannot meet. It works on the registry in place: a failure keeps
the bindings made before it.

Records are rows. Where each side lacks labels of the other, both tails are
bound to records that end in one new common tail.
-/

namespace RowTyping

open Check

/-- Fails with both types as far as they are known. -/
def mismatch {α : Type} (a b : Ty) : Check TypeError α := do
  let r ← registry
  throw (.mismatch (r.resolveDeep a) (r.resolveDeep b))

/-- Gives a variable its binding. A second binding has to be the same type as
the first. Whether the variable occurs in the type is not asked. -/
def bindVar (v : Nat) (t : Ty) : Check TypeError Unit := do
  let r ← registry
  match r.cells[v]? with
  | none => throw (.unknownVariable v)
  | some cell =>
    match cell.binding with
    | none => do
        emit (.bind v t)
        modifyRegistry (·.setBinding v t)
    | some old =>
        if r.sameShape old t then pure ()
        else throw (.bindingConflict v (r.resolve old) (r.resolve t))

/-- Solves a variable that resolution ends in, unless it would be part of its
solution. Resolution ends in a bound variable only if that one lies on a cycle
of variables, which has no solution either. -/
def solve (v : Nat) (t : Ty) : Check TypeError Unit := do
  let r ← registry
  -- without a cycle the variable is open (`Registry.binding?_of_resolve`)
  if (r.binding? v).isSome || r.occurs v t then throw (.cyclic v (r.resolveDeep t))
  else bindVar v t

/-- What is to be done when two resolved types meet. -/
inductive Meeting where
  /-- They are equal as they stand. -/
  | same
  /-- One of them is an open variable. -/
  | solve (v : Nat) (t : Ty)
  /-- One of them is a synonym, given by its target. -/
  | expand (target other : Ty)
  /-- Their children have to meet; if `ragged`, one side has more of them. -/
  | children (pairs : List (Ty × Ty)) (ragged : Bool)
  /-- Both are rows. -/
  | rows
  /-- They cannot be equal. -/
  | clash

/-- Two type formers meet when they agree. Only a constructor type may differ
in the number of its children, which is found out after the common ones met. -/
def Con.meet (c d : Con) (ts us : List Ty) : Meeting :=
  if c.agrees d then
    if ts.length = us.length then .children (ts.zip us) false
    else
      match c with
      | .ctor _ => .children (ts.zip us) true
      | _ => .clash
  else .clash

def Ty.meet : Ty → Ty → Meeting
  | .flex v, .flex w => if v = w then .same else .solve v (.flex w)
  | .flex v, u => .solve v u
  | t, .flex w => .solve w t
  | .synonym _ _ _ target, u => .expand target u
  | t, .synonym _ _ _ target => .expand target t
  | .gen g, .gen h => if g = h then .same else .clash
  | .con c ts, .con d us => c.meet d ts us
  | .record _ _, .record _ _ => .rows
  | .record _ _, .con .emptyRow _ => .rows
  | .con .emptyRow _, .record _ _ => .rows
  | .module m _, .module k _ => if m = k then .same else .clash
  | _, _ => .clash

/-- What is to be done about two rows once the fields they share are equal. -/
inductive Remainder where
  /-- A tail has become a record in the meantime: compare the rows again. -/
  | again
  /-- The labels are the same: the tails have to meet. -/
  | tails (mine theirs : Ty)
  /-- One row lacks fields: they go into its tail. -/
  | extend (v : Nat) (fields : Table Ty) (rest : Ty)
  /-- Each row lacks fields: they go into the two tails, which get a new common
  tail. -/
  | split (v w : Nat) (toMine toTheirs : Table Ty)
  /-- A row lacks fields and cannot take them. -/
  | clash

namespace Row

/-- The types of the labels that both rows have, in label order. -/
def shared (mine theirs : Row) : List (Ty × Ty) :=
  mine.fields.filterMap fun e => (theirs.fields.lookup e.1).map fun t => (e.2, t)

/-- The fields of `theirs` that `mine` lacks. -/
def lacking (mine theirs : Row) : Table Ty :=
  theirs.fields.filter fun e => (mine.fields.lookup e.1).isNone

/-- Compares the labels of two rows, given their tails as they are now. -/
def remainder (mine theirs : Row) (myTail theirTail : Ty) : Remainder :=
  if myTail.isRecord || theirTail.isRecord then .again
  else
    match mine.lacking theirs, theirs.lacking mine with
    | [], [] => .tails myTail theirTail
    | toMine, [] =>
        match myTail with
        | .flex v => .extend v toMine theirTail
        | _ => .clash
    | [], toTheirs =>
        match theirTail with
        | .flex w => .extend w toTheirs myTail
        | _ => .clash
    | toMine, toTheirs =>
        match myTail, theirTail with
        | .flex v, .flex w => if v = w then .clash else .split v w toMine toTheirs
        | _, _ => .clash

end Row

mutual

def unifyN : Nat → Ty → Ty → Check TypeError Unit
  | 0, a, b => mismatch a b
  | n + 1, a, b => do
      let r ← registry
      let a := r.resolve a
      let b := r.resolve b
      emit (.unify a b)
      match a.meet b with
      | .same => pure ()
      | .solve v t => solve v t
      | .expand t u => unifyN n t u
      | .children pairs ragged => do
          forM pairs fun p => unifyN n p.1 p.2
          if ragged then mismatch a b
      | .rows => unifyRowsN n a b
      | .clash => mismatch a b

/-- Makes two rows equal: first the fields they share, then what remains. -/
def unifyRowsN : Nat → Ty → Ty → Check TypeError Unit
  | 0, a, b => mismatch a b
  | n + 1, a, b => do
      let r ← registry
      let mine := r.row a
      let theirs := r.row b
      forM (mine.shared theirs) fun p => unifyN n p.1 p.2
      let r ← registry
      match mine.remainder theirs (r.resolve mine.tail) (r.resolve theirs.tail) with
      | .again => unifyRowsN n a b
      | .tails t u => unifyN n t u
      | .extend v fields rest => unifyN n (.flex v) (.record fields rest)
      | .split v w toMine toTheirs => do
          let rest ← freshVar
          unifyN n (.flex v) (.record toMine rest)
          unifyN n (.flex w) (.record toTheirs rest)
      | .clash => mismatch a b

end

/-- More than the depth of any unification of the two types over bindings
without a cycle. A run passes from a pair of types to pairs of smaller height
until it solves a variable, and every split of a row solves two variables for
one that it issues. -/
def Registry.unifyFuel (r : Registry) (a b : Ty) : Nat :=
  let n := r.varCount + 1
  let h := max r.maxHeight (max a.height b.height)
  16 * n * n * (h + n)

/-- Makes two types equal. -/
def unify (a b : Ty) : Check TypeError Unit := do
  let r ← registry
  unifyN (r.unifyFuel a b) a b

end RowTyping
