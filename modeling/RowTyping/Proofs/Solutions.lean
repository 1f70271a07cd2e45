import RowTyping.Proofs.Soundness

/-!
# Solutions of a registry

A solution assigns to every variable a term without variables that satisfies
the bindings. A variable that stands for a row gets a finite row, and no label
of it is among those in front of the variable. Values are weighed, to show that
no variable has the value of a type in which it occurs.
-/

namespace RowTyping

open Row Table Ty Option

namespace Ty

/-- What a plain type over the first `n` variables is at its root: variables
are among the first `n`, fields are in order, and there is no synonym. -/
def PlainAt (n : Nat) : Ty → Prop
  | .flex v => v < n
  | .record fs _ => Table.Sorted fs
  | .synonym _ _ _ _ => False
  | _ => True

/-- A type without synonyms over the first `n` variables. -/
abbrev Plain (n : Nat) : Ty → Prop := All (PlainAt n)

/-- The labels of a record are not among those of the row it goes on with. -/
def ApartAt (θ : Nat → Ty) : Ty → Prop
  | .record fs tail => ∀ l, (fs.lookup l).isSome → (tail.value θ).asRow.fields.lookup l = none
  | _ => True

/-- No label repeats along a record, under the assignment. -/
abbrev Apart (θ : Nat → Ty) : Ty → Prop := All (ApartAt θ)

/-- A finite row without variables: fields, and at the end nothing more or a
rigid variable. -/
inductive IsRow : Ty → Prop where
  | gen (g : Nat) : IsRow (.gen g)
  | emptyRow : IsRow .emptyRow
  | record {fs : List (String × Ty)} {tail : Ty} (htail : IsRow tail) : IsRow (.record fs tail)

/-- The type has no variables that could be solved. -/
def Ground (t : Ty) : Prop := ∀ v, ¬ t.Mentions v

variable {θ θ' : Nat → Ty}

theorem PlainAt.paramsInTarget {n : Nat} {t : Ty} (h : t.PlainAt n) : t.ParamsInTarget := by
  cases t with
  | synonym => exact h.elim
  | _ => trivial

theorem Plain.mono {n m : Nat} {t : Ty} (h : t.Plain n) (hnm : n ≤ m) : t.Plain m := by
  refine h.imp fun t ht => ?_
  cases t with
  | var x =>
    cases x with
    | flex v => exact Nat.lt_of_lt_of_le ht hnm
    | gen g => trivial
  | _ => exact ht

theorem Plain.scoped {n : Nat} {t : Ty} (h : t.Plain n) : t.Scoped n := by
  induction h with
  | intro t here _ ih =>
    intro v hv
    rcases mem_occurrences.mp hv with rfl | ⟨u, hu, hv⟩
    · exact here
    · exact ih u hu v hv

end Ty

/-- The size of a value as what it is taken for. -/
noncomputable def Kind.size : Kind → Ty → Nat
  | .type, x => sizeOf x
  | .row, x => sizeOf x.asRow.fields + sizeOf x.asRow.tail

theorem Kind.Same.size_eq {k : Kind} {x y : Ty} (h : k.Same x y) : k.size x = k.size y := by
  cases k with
  | type => exact congrArg _ h
  | row => rw [size, size, h.asRow]

namespace Ty

variable {θ : Nat → Ty} {n : Nat} {fs : Table Ty} {tail : Ty}

theorem size_value_arg {c : Con} (hc : c ≠ .emptyRow) {args : List Ty} {u : Ty} (hu : u ∈ args) :
    sizeOf (u.value θ) < sizeOf ((con c args).value θ) := by
  have := List.sizeOf_lt_of_mem (List.mem_map_of_mem (f := value θ) hu)
  rw [value_con hc, con.sizeOf_spec]
  omega

/-- A record is as large as its fields and the row it goes on with. -/
theorem size_value_record (hs : fs.Sorted) (hapart : (record fs tail).ApartAt θ) :
    Kind.row.size ((record fs tail).value θ) + 1 =
      sizeOf (mapValues (value θ) fs) + Kind.row.size (tail.value θ) := by
  have hdisjoint : ∀ e ∈ (tail.value θ).asRow.fields,
      (mapValues (value θ) fs).lookup e.1 = none := by
    intro e he
    cases hl : (mapValues (value θ) fs).lookup e.1 with
    | none => rfl
    | some u =>
      have hin : (fs.lookup e.1).isSome := by
        rw [lookup_mapValues] at hl
        obtain ⟨w, hw, -⟩ := map_eq_some_iff.mp hl
        simp [hw]
      have hout := hapart e.1 hin
      rw [(asRow_value_sorted θ tail).lookup_of_mem he] at hout
      cases hout
  rw [value_record]
  simp only [Kind.size, asRow_toRecord, prepend, union_nil (hs.mapValues (value θ))]
  have := sizeOf_union (asRow_value_sorted θ tail) hdisjoint
  omega

theorem size_value_field (hs : fs.Sorted) (hapart : (record fs tail).ApartAt θ) {e : String × Ty}
    (he : e ∈ fs) : Kind.type.size (e.2.value θ) < Kind.row.size ((record fs tail).value θ) := by
  have hsize := size_value_record hs hapart
  have hmem : (e.1, e.2.value θ) ∈ mapValues (value θ) fs :=
    List.mem_map_of_mem he
  have hlt := List.sizeOf_lt_of_mem hmem
  rw [Prod.mk.sizeOf_spec] at hlt
  simp only [Kind.size] at *
  omega

theorem size_value_tail (hs : fs.Sorted) (hapart : (record fs tail).ApartAt θ) :
    Kind.row.size (tail.value θ) ≤ Kind.row.size ((record fs tail).value θ) ∧
      (fs ≠ [] → Kind.row.size (tail.value θ) < Kind.row.size ((record fs tail).value θ)) := by
  have hsize := size_value_record hs hapart
  cases fs with
  | nil =>
    simp only [mapValues, List.map_nil, List.nil.sizeOf_spec] at hsize
    exact ⟨by omega, by simp⟩
  | cons e fs =>
    simp only [mapValues, List.map_cons, List.cons.sizeOf_spec, Prod.mk.sizeOf_spec] at hsize
    exact ⟨by omega, fun _ => by omega⟩

theorem row_size_lt (fs : Table Ty) (tail : Ty) :
    Kind.row.size ((record fs tail).value θ) < Kind.type.size ((record fs tail).value θ) := by
  rw [value_record]
  simp only [Kind.size, toRecord, asRow, record.sizeOf_spec]
  omega

end Ty

/-- Plain types over the first `n` variables, with their kinds. The empty row may
stand for a type of values. -/
def PlainKind (K : Nat → Kind) (n : Nat) (k : Kind) (t : Ty) : Prop :=
  t.HasKind True K k ∧ t.Plain n

theorem kinding_plain (K : Nat → Kind) (n : Nat) : Kinding (PlainKind K n) :=
  kinding_hasKind (fun _ h => h.paramsInTarget) fun _ _ hs => hs

/-- An assignment of terms without variables that satisfies the bindings. Rows
go to the variables that stand for rows, and no label repeats along a record. -/
structure Registry.Solution (K : Nat → Kind) (θ : Nat → Ty) (r : Registry) : Prop where
  ground : ∀ v, v < r.varCount → (θ v).Ground
  rows : ∀ v, v < r.varCount → K v = .row → (θ v).IsRow
  satisfies : r.Satisfies K θ
  apart : r.AllBindings (Ty.Apart θ)

section

variable {K : Nat → Kind} {θ : Nat → Ty} {n : Nat} {r : Registry}

namespace Registry.Solution

/-- The labels of a row are not among those of what it ends in. -/
theorem row_apart (h : r.Solution K θ) (hr : r.WellFormed (PlainKind K n)) {t : Ty}
    (ht : PlainKind K n .row t) (hapart : t.Apart θ) {l : String}
    (hl : ((r.row t).fields.lookup l).isSome) :
    ((r.row t).tail.value θ).asRow.fields.lookup l = none := by
  have hP := kinding_plain K n
  refine row_induct hr.acyclic (motive := fun t row => PlainKind K n .row t → t.Apart θ →
    (row.fields.lookup l).isSome → (row.tail.value θ).asRow.fields.lookup l = none)
    ?_ ?_ t ht hapart hl
  · intro t fs tail heq ih ht hapart hl
    have hrec := hr.resolve ht
    have hapart' := h.apart.resolve hr.acyclic hapart
    rw [heq] at hrec hapart'
    have htail := hapart'.child (u := tail) (by simp [children])
    cases hlt : ((r.row tail).fields.lookup l).isSome with
    | true => exact ih (hP.tail hrec) htail hlt
    | false =>
      have hfs : (fs.lookup l).isSome := by
        rw [lookup_union, lookup_union, List.lookup_nil,
          isSome_or, hlt, Bool.or_false] at hl
        exact hl
      have hnone := hapart'.here l hfs
      rw [h.satisfies.row hP hr (fun h => h.1) (hP.tail hrec), lookup_prepend] at hnone
      exact (or_eq_none_iff.mp hnone).2
  · intro t _ _ _ hl
    simp at hl

end Registry.Solution

end

end RowTyping
