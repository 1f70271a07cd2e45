import RowTyping.Proofs.Bindings
import RowTyping.Proofs.Tables
import RowTyping.Ty.Subst

/-!
# What types say

Two types say the same when they differ only in how they are written: a record
may be one piece or several, its fields in any order, a synonym stands for its
target, the labels of type arguments are comments, and a module is its name.
`Ty.norm` removes these differences. Under an assignment of terms to variables
every type has a value, the normal form of what it becomes.
-/

namespace RowTyping

open Row Table Ty Function

/-- The head without the labels of its parameters. -/
def Con.plain : Con → Con
  | .variant id _ => .variant id []
  | .abstract id _ => .abstract id []
  | c => c

theorem Con.agrees_iff {c d : Con} : c.agrees d = true ↔ c.plain = d.plain := by
  cases c <;> cases d <;> simp [agrees, plain]

namespace Row

/-- Fields in front of a row; of two fields with one label the first counts. -/
def prepend (fs : List (String × Ty)) (row : Row) : Row :=
  ⟨(Table.union [] fs).union row.fields, row.tail⟩

def toRecord (row : Row) : Ty := .record row.fields row.tail

/-- A sorted row is what its lookups are and what it ends in. -/
theorem eq_of_lookup {x y : Row} (hx : x.fields.Sorted) (hy : y.fields.Sorted)
    (h : ∀ l, x.fields.lookup l = y.fields.lookup l) (ht : x.tail = y.tail) : x = y := by
  cases y
  cases ht
  cases hx.ext hy h
  rfl

theorem prepend_sorted (fs : Table Ty) (row : Row) : (prepend fs row).fields.Sorted :=
  (Sorted.nil.union fs).union _

@[simp] theorem lookup_prepend (fs : Table Ty) (row : Row) (l : String) :
    (prepend fs row).fields.lookup l = (fs.lookup l).or (row.fields.lookup l) := by
  simp [prepend]

@[simp] theorem tail_prepend (fs : Table Ty) (row : Row) : (prepend fs row).tail = row.tail :=
  rfl

theorem prepend_nil {row : Row} (h : row.fields.Sorted) : prepend [] row = row :=
  eq_of_lookup (prepend_sorted _ _) h (by simp) rfl

theorem prepend_end {fs : Table Ty} (h : fs.Sorted) (t : Ty) : prepend fs ⟨[], t⟩ = ⟨fs, t⟩ :=
  eq_of_lookup (prepend_sorted _ _) h (by simp) rfl

/-- Rows that have the same fields in front of the same row are the same. -/
theorem prepend_congr {fs gs : Table Ty} {x y : Row}
    (h : ∀ l, (fs.lookup l).or (x.fields.lookup l) = (gs.lookup l).or (y.fields.lookup l))
    (ht : x.tail = y.tail) : prepend fs x = prepend gs y :=
  eq_of_lookup (prepend_sorted _ _) (prepend_sorted _ _) (by simpa using h) ht

end Row

namespace Ty

/-- The fields of a record and what it ends in. Another type is a row that has
no fields and ends in that type. -/
def asRow : Ty → Row
  | .record fs tail => ⟨fs, tail⟩
  | t => ⟨[], t⟩

mutual

/-- The normal form of a type. The empty row is the record without fields. -/
def norm : Ty → Ty
  | .var x => .var x
  | .con .emptyRow _ => .record [] .emptyRow
  | .con c args => .con c.plain (normList args)
  | .record fs tail => (Row.prepend (normFields fs) (norm tail).asRow).toRecord
  | .synonym _ _ _ target => norm target
  | .module name _ => .module name ⟨[], []⟩

def normList : List Ty → List Ty
  | [] => []
  | t :: ts => norm t :: normList ts

def normFields : List (String × Ty) → List (String × Ty)
  | [] => []
  | (l, t) :: fs => (l, norm t) :: normFields fs

end

theorem normList_eq (ts : List Ty) : normList ts = ts.map norm := by
  induction ts with
  | nil => rfl
  | cons t ts ih => rw [normList, ih, List.map_cons]

theorem normFields_eq (fs : Table Ty) : normFields fs = mapValues norm fs := by
  induction fs with
  | nil => rfl
  | cons e fs ih => rw [normFields, ih, mapValues, mapValues, List.map_cons]

/-- The term that an assignment puts in the place of a variable. -/
def fill (θ : Nat → Ty) : TyVar → Ty
  | .flex v => θ v
  | .gen g => .gen g

/-- The value of a type under an assignment: the normal form of the type with
every variable replaced by its term. -/
def value (θ : Nat → Ty) (t : Ty) : Ty := (t.subst (fill θ)).norm

@[simp] theorem asRow_toRecord (row : Row) : row.toRecord.asRow = row := rfl

theorem asRow_norm_sorted (t : Ty) : t.norm.asRow.fields.Sorted := by
  induction t with
  | var x => exact .nil
  | con c args _ =>
    cases c <;> exact .nil
  | record fs tail _ _ =>
    exact prepend_sorted _ _
  | synonym id labels params target _ ih => rwa [norm]
  | module name members => exact .nil

theorem subst_record (f : TyVar → Ty) (fs : Table Ty) (tail : Ty) :
    (record fs tail).subst f = .record (fs.mapValues (subst f)) (tail.subst f) := by
  rw [subst, substFields_eq]
  rfl

/-- Only the variables of a term matter for a substitution. -/
theorem subst_congr {f g : TyVar → Ty} {t : Ty} (h : ∀ x ∈ t.occurrences, f x = g x) :
    t.subst f = t.subst g := by
  induction t with
  | var x => exact h x (by simp [occurrences])
  | con c args ih =>
    simp only [subst, substList_eq]
    congr 1
    exact List.map_congr_left fun t ht => ih t ht fun x hx =>
      h x (mem_occurrences.mpr (.inr ⟨t, ht, hx⟩))
  | record fs tail ihf iht =>
    simp only [subst, substFields_eq]
    congr 1
    · refine List.map_congr_left fun e he => ?_
      rw [ihf e he fun x hx =>
        h x (mem_occurrences.mpr (.inr ⟨_, mem_children_record.mpr (.inl ⟨e, he, rfl⟩), hx⟩))]
    · exact iht fun x hx =>
        h x (mem_occurrences.mpr (.inr ⟨_, mem_children_record.mpr (.inr rfl), hx⟩))
  | synonym id labels params target ihp iht =>
    simp only [subst, substList_eq]
    congr 1
    · exact List.map_congr_left fun t ht => ihp t ht fun x hx =>
        h x (mem_occurrences.mpr (.inr ⟨t, by simp [children, ht], hx⟩))
    · exact iht fun x hx => h x (mem_occurrences.mpr (.inr ⟨target, by simp [children], hx⟩))
  | module name members => rfl

/-! ## The value of a type, by its form -/

variable {θ θ' : Nat → Ty}

/-- Only the variables of a type matter for its value. -/
theorem value_congr {t : Ty} (h : ∀ v, t.Mentions v → θ v = θ' v) : t.value θ = t.value θ' := by
  unfold value
  rw [subst_congr]
  intro x hx
  cases x with
  | flex v => exact h v hx
  | gen g => rfl

theorem asRow_value_sorted (θ : Nat → Ty) (t : Ty) : (t.value θ).asRow.fields.Sorted :=
  asRow_norm_sorted _

@[simp] theorem value_flex (v : Nat) : (flex v).value θ = (θ v).norm := rfl

@[simp] theorem value_gen (g : Nat) : (gen g).value θ = .gen g := rfl

theorem value_con {c : Con} (hc : c ≠ .emptyRow) (args : List Ty) :
    (con c args).value θ = .con c.plain (args.map (value θ)) := by
  cases c <;> simp_all [value, subst, norm, normList_eq, comp_def]

@[simp] theorem value_emptyRow (args : List Ty) :
    (con .emptyRow args).value θ = .record [] .emptyRow := by
  simp [value, subst, norm]

@[simp] theorem value_record (fs : Table Ty) (tail : Ty) :
    (record fs tail).value θ =
      (prepend (mapValues (value θ) fs) (tail.value θ).asRow).toRecord := by
  simp [value, subst, norm, normFields_eq, mapValues, comp_def]

@[simp] theorem value_synonym (id : Nat) (labels : List String) (params : List Ty) (target : Ty) :
    (synonym id labels params target).value θ = target.value θ := by
  simp [value, subst, norm]

@[simp] theorem value_module (name : String) (members : Env) :
    (module name members).value θ = .module name ⟨[], []⟩ := by
  simp [value, subst, norm]

end Ty

end RowTyping
