import RowTyping.Registry.Basic

/-!
# Reading types through the bindings

A type means what it becomes once its bound variables are followed. The
functions here follow them, each in its own way: `resolve` to the first term
that is not a bound variable, `row` along the tails of a record, `resolveDeep`
everywhere; `occurs` searches a variable and `sameShape` compares.

Each step into a child uses up one unit of fuel. Where the bindings have no
cycle, a path passes every binding at most once, so `Registry.fuel` is enough
and the functions satisfy their unbounded equations. Where a cycle keeps
`resolveDeep` from coming to an end, it is broken off, with `unit` for the rest.
-/

namespace RowTyping

/-- The fields of a record, collected along its tails, and the first tail that
is no record. -/
structure Row where
  fields : Table Ty
  tail : Ty

namespace Registry

/-- The greatest height of a binding. -/
def maxHeight (r : Registry) : Nat :=
  r.cells.foldl (fun h c => max h ((c.binding.map Ty.height).getD 0)) 0

/-- More than the height of the type after its variables are followed, if the
bindings have no cycle. -/
def fuel (r : Registry) (t : Ty) : Nat :=
  t.height + r.varCount * r.maxHeight + 1

/-- Follows at most `n` bindings from a variable. -/
def follow (r : Registry) : Nat → Ty → Ty
  | n + 1, .flex v =>
      match r.binding? v with
      | some t => r.follow n t
      | none => .flex v
  | _, t => t

/-- The type a chain of bound variables ends in. -/
def resolve (r : Registry) (t : Ty) : Ty := r.follow r.varCount t

/-- Collects fields along at most `n` records; a field that is already there
hides a later one of its name. -/
def collect (r : Registry) : Nat → Table Ty → Ty → Row
  | 0, fields, t => ⟨fields, r.resolve t⟩
  | n + 1, fields, t =>
      match r.resolve t with
      | .record fs tail => r.collect n (fields.union fs) tail
      | t => ⟨fields, t⟩

/-- The row a type stands for: no fields and itself when it is no record. -/
def row (r : Registry) (t : Ty) : Row := r.collect (r.fuel t) [] t

def resolveDeepN (r : Registry) : Nat → Ty → Ty
  | 0, _ => .unit
  | n + 1, t =>
      match r.resolve t with
      | .con c args => .con c (args.map (r.resolveDeepN n))
      | .record fs tail =>
          let row := r.row (.record fs tail)
          .record (row.fields.map fun e => (e.1, r.resolveDeepN n e.2)) row.tail
      | .synonym id labels params target =>
          .synonym id labels (params.map (r.resolveDeepN n)) (r.resolveDeepN n target)
      | t => t

/-- The type with all its variables followed and its records merged. -/
def resolveDeep (r : Registry) (t : Ty) : Ty := r.resolveDeepN (r.fuel t) t

def occursN (r : Registry) (v : Nat) : Nat → Ty → Bool
  | 0, _ => false
  | n + 1, t =>
      match r.resolve t with
      | .flex w => v == w
      | .con _ args => args.any (r.occursN v n)
      | .record fs tail => fs.any (fun e => r.occursN v n e.2) || r.occursN v n tail
      | .synonym _ _ _ target => r.occursN v n target
      | _ => false

/-- Whether a variable occurs in a type. The arguments a synonym was written
with do not count, only its target. -/
def occurs (r : Registry) (v : Nat) (t : Ty) : Bool := r.occursN v (r.fuel t) t

/-- Whether two lists have one length and related members. -/
def allPairs (rel : Ty → Ty → Bool) (ts us : List Ty) : Bool :=
  ts.length == us.length && (ts.zip us).all fun p => rel p.1 p.2

def sameShapeN (r : Registry) : Nat → Ty → Ty → Bool
  | 0, _, _ => false
  | n + 1, t, u =>
      match r.resolve t, r.resolve u with
      | .synonym i _ ps t', .synonym j ls qs u' =>
          (i == j && allPairs (r.sameShapeN n) ps qs) ||
            r.sameShapeN n t' (.synonym j ls qs u')
      | .synonym _ _ _ t', u => r.sameShapeN n t' u
      | t, .synonym _ _ _ u' => r.sameShapeN n u' t
      | .var x, .var y => x == y
      | .con c ts, .con d us => c.agrees d && allPairs (r.sameShapeN n) ts us
      | .record fs t', .record gs u' =>
          let mine := r.row (.record fs t')
          let theirs := r.row (.record gs u')
          mine.fields.length == theirs.fields.length &&
            mine.fields.all (fun e =>
              (theirs.fields.lookup e.1).any fun w => r.sameShapeN n e.2 w) &&
            r.sameShapeN n mine.tail theirs.tail
      | .module m _, .module k _ => m == k
      | _, _ => false

/-- Whether two types are alike once resolved. Synonyms are looked through,
parameter labels do not count and modules are alike when their names are. -/
def sameShape (r : Registry) (t u : Ty) : Bool :=
  r.sameShapeN (r.fuel t + r.fuel u) t u

end Registry

end RowTyping
