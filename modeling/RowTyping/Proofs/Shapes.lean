import RowTyping.Proofs.Soundness

/-!
# What deep resolution gives

Deep resolution gives every type as far as the bindings determine it. It is an
assignment of its own: it satisfies the registry, so what every satisfying
assignment makes equal is resolved to the same type, up to synonyms. And types
that are resolved to the same type have the same shape.
-/

namespace RowTyping

open Row Table Ty

namespace Ty

mutual

/-- The type with every synonym replaced by its target, without the labels of
type arguments and the members of modules. -/
def erase : Ty → Ty
  | .var x => .var x
  | .con c args => .con c.plain (eraseList args)
  | .record fs tail => .record (eraseFields fs) (erase tail)
  | .synonym _ _ _ target => erase target
  | .module name _ => .module name ⟨[], []⟩

def eraseList : List Ty → List Ty
  | [] => []
  | t :: ts => erase t :: eraseList ts

def eraseFields : List (String × Ty) → List (String × Ty)
  | [] => []
  | (l, t) :: fs => (l, erase t) :: eraseFields fs

end

theorem eraseList_eq (ts : List Ty) : eraseList ts = ts.map erase := by
  induction ts with
  | nil => rfl
  | cons t ts ih => rw [eraseList, ih, List.map_cons]

theorem eraseFields_eq (fs : Table Ty) : eraseFields fs = mapValues erase fs := by
  induction fs with
  | nil => rfl
  | cons e fs ih => rw [eraseFields, ih, mapValues, mapValues, List.map_cons]

theorem erase_con (c : Con) (args : List Ty) :
    (con c args).erase = .con c.plain (args.map erase) := by
  rw [erase, eraseList_eq]

theorem erase_record (fs : Table Ty) (tail : Ty) :
    (record fs tail).erase = .record (mapValues erase fs) tail.erase := by
  rw [erase, eraseFields_eq]

theorem norm_con {c : Con} (hc : c ≠ .emptyRow) (args : List Ty) :
    (con c args).norm = .con c.plain (args.map norm) := by
  cases c <;> simp_all [norm, normList_eq]

theorem norm_record (fs : Table Ty) (tail : Ty) :
    (record fs tail).norm = (prepend (mapValues norm fs) tail.norm.asRow).toRecord := by
  rw [norm, normFields_eq]

/-- What a record with kinds can end in. -/
def IsEnd (t : Ty) : Prop := (∃ x, t = .var x) ∨ t = .emptyRow

theorem HasKind.isEnd {E : Prop} {K : Nat → Kind} {t : Ty} (h : t.HasKind E K .row)
    (hrec : t.isRecord = false) : t.IsEnd := by
  cases h with
  | flex => exact .inl ⟨_, rfl⟩
  | gen => exact .inl ⟨_, rfl⟩
  | emptyRow => exact .inr rfl
  | record => simp [isRecord] at hrec

theorem IsEnd.asRow_norm {t : Ty} (h : t.IsEnd) : t.norm.asRow = ⟨[], t⟩ := by
  rcases h with ⟨x, rfl⟩ | rfl
  · rfl
  · rfl

theorem IsEnd.erase {t : Ty} (h : t.IsEnd) : t.erase = t := by
  rcases h with ⟨x, rfl⟩ | rfl
  · rfl
  · rfl

end Ty

namespace Registry

variable {r : Registry} {t : Ty}

section

variable {E : Prop} {K : Nat → Kind} {P : Kind → Ty → Prop}

/-- What a row ends in, given its kind. -/
theorem WellFormed.isEnd_tail (hP : Kinding P) (hPK : ∀ {k t}, P k t → t.HasKind E K k)
    (hr : r.WellFormed P) (ht : P .row t) : (r.row t).tail.IsEnd :=
  (hPK (hr.row hP ht).2).isEnd (row_tail hr.acyclic t).2

/-- The row of a resolved type consists of resolved types. -/
theorem asRow_resolveDeep (hP : Kinding P) (hPK : ∀ {k t}, P k t → t.HasKind E K k)
    (hr : r.WellFormed P) (ht : P .row t) :
    (r.resolveDeep t).norm.asRow =
      .prepend (mapValues (fun t => (r.resolveDeep t).norm) (r.row t).fields)
        (r.row t).tail.norm.asRow := by
  by_cases hrec : ∃ fs tail, r.resolve t = .record fs tail
  · obtain ⟨fs, tail, heq⟩ := hrec
    rw [resolveDeep_record hr.acyclic heq, norm_record]
    exact prepend_congr (by simp [Function.comp_def]) rfl
  · have hother : r.row t = ⟨[], r.resolve t⟩ := row_other fun fs tail h => hrec ⟨fs, tail, h⟩
    have hend := hr.isEnd_tail hP hPK ht
    rw [hother] at hend ⊢
    replace hend : (r.resolve t).IsEnd := hend
    have hdeep : r.resolveDeep t = r.resolve t := by
      rcases hend with ⟨x, hx⟩ | hx
      · rw [resolveDeep_var hr.acyclic hx, hx]
      · rw [resolveDeep_con hr.acyclic hx, hx, List.map_nil]
    rw [hdeep]
    exact (prepend_nil (asRow_norm_sorted _)).symm

/-- The assignment that deep resolution is. -/
def solution (r : Registry) (v : Nat) : Ty := r.resolveDeep (.flex v)

/-- Under this assignment the value of a type is what it is resolved to. -/
theorem value_solution (hP : Kinding P) (hPK : ∀ {k t}, P k t → t.HasKind E K k)
    (hr : r.WellFormed P) {k : Kind} (ht : P k t) :
    t.value r.solution = (r.resolveDeep t).norm := by
  have hres : ∀ {t : Ty}, (∀ v, t ≠ .flex v) → r.resolve t = t := resolve_of_not_flex
  induction t generalizing k with
  | var x =>
    cases x with
    | flex v => rfl
    | gen g => rw [resolveDeep_var hr.acyclic (hres (by simp))]; rfl
  | con c args ih =>
    rw [resolveDeep_con hr.acyclic (hres (by simp))]
    by_cases hc : c = .emptyRow
    · subst hc
      rfl
    · rw [value_con hc, norm_con hc, List.map_map]
      congr 1
      exact List.map_congr_left fun t ht' => ih t ht' (hP.args ht t ht')
  | record fs tail ihf iht =>
    have heq := hres (t := .record fs tail) (by simp)
    rw [resolveDeep_record hr.acyclic heq, value_record, norm_record,
      iht (hP.tail ht), asRow_resolveDeep hP hPK hr (hP.tail ht), row_record hr.acyclic heq]
    have hfields : ∀ l, (fs.lookup l).map (value r.solution) =
        (fs.lookup l).map fun t => (r.resolveDeep t).norm := by
      intro l
      cases hl : fs.lookup l with
      | none => rfl
      | some t =>
        have hmem := mem_of_lookup hl
        rw [Option.map_some, Option.map_some, ihf _ hmem (hP.fields ht _ hmem)]
    -- fields in front win over those of the tail on both sides, so label by label
    congr 1
    refine prepend_congr (fun l => ?_) rfl
    simp [hfields, Option.map_or, Option.or_assoc, Function.comp_def]
  | synonym id labels params target _ ih =>
    rw [resolveDeep_synonym hr.acyclic (hres (by simp)), value_synonym, ih (hP.target ht)]
    rfl
  | module name members =>
    rw [resolveDeep_module hr.acyclic (hres (by simp))]
    rfl

/-- Deep resolution satisfies the registry. -/
theorem satisfies_solution (hP : Kinding P) (hPK : ∀ {k t}, P k t → t.HasKind E K k)
    (hvar : ∀ v, P (K v) (.flex v)) (hr : r.WellFormed P) : r.Satisfies K r.solution := by
  intro v t hv
  have ht := hr.bindings v t hv (K v) (hvar v)
  rw [value_solution hP hPK hr (hvar v), value_solution hP hPK hr ht,
    ← resolveDeep_resolve hr.acyclic (.flex v), resolve_some hr.acyclic hv,
    resolveDeep_resolve hr.acyclic]
  exact .refl _ _

/-- What a type of values is resolved to is in normal form, synonyms apart. -/
theorem norm_resolveDeep (hP : Kinding P) (hPK : ∀ {k t}, P k t → t.HasKind False K k)
    (hr : r.WellFormed P) (ht : P .type t) : (r.resolveDeep t).norm = (r.resolveDeep t).erase := by
  have hacyclic := hr.acyclic
  induction t using part_induct hacyclic with
  | step t ih =>
    have hres := hr.resolve ht
    cases heq : r.resolve t with
    | var x =>
      rw [resolveDeep_var hacyclic heq]
      rfl
    | con c args =>
      rw [heq] at hres
      have hc : c ≠ .emptyRow := by
        rintro rfl
        cases hPK hres with
        | con hc => exact hc rfl
        | emptyRow hk => simp at hk
      rw [resolveDeep_con hacyclic heq, norm_con hc, erase_con, List.map_map, List.map_map]
      congr 1
      refine List.map_congr_left fun u hu => ih u (.inl ?_) (hP.args hres u hu)
      rw [heq]
      exact hu
    | record fs tail =>
      obtain ⟨hfields, htail⟩ := hr.record_row hP ht heq
      have hend := (hPK htail).isEnd (row_tail hacyclic t).2
      have hvalues : mapValues (norm ∘ r.resolveDeep) (r.row t).fields =
          mapValues (erase ∘ r.resolveDeep) (r.row t).fields :=
        mapValues_congr fun e he => ih e.2 (.inr ⟨e, he, rfl⟩) (hfields e he)
      rw [resolveDeep_record hacyclic heq, norm_record, erase_record, hend.asRow_norm,
        hend.erase, mapValues_mapValues, mapValues_mapValues, hvalues,
        prepend_end ((row_sorted hacyclic t).mapValues _)]
      rfl
    | synonym id labels params target =>
      rw [heq] at hres
      rw [resolveDeep_synonym hacyclic heq]
      exact ih target (.inl (by simp [heq, children])) (hP.target hres)
    | module name members =>
      rw [resolveDeep_module hacyclic heq]
      rfl

end

/-! ## Comparing shapes -/

/-- Where a comparison of types goes on from one of them. -/
inductive Seen (r : Registry) : Ty → Ty → Prop where
  | arg {t u : Ty} {c : Con} {args : List Ty} (h : r.resolve t = .con c args) (hu : u ∈ args) :
      Seen r u t
  | field {t tail : Ty} {fs : List (String × Ty)} {e : String × Ty}
      (h : r.resolve t = .record fs tail) (he : e ∈ (r.row (.record fs tail)).fields) : Seen r e.2 t
  | target {t u : Ty} {id : Nat} {labels : List String} {params : List Ty}
      (h : r.resolve t = .synonym id labels params u) : Seen r u t

/-- One level of a shape. -/
def outline (r : Registry) (shape : Ty → Ty) : Ty → Ty
  | .var x => .var x
  | .con c args => .con c.plain (args.map shape)
  | .record fs tail =>
      .record (Table.mapValues shape (r.row (.record fs tail)).fields)
        (r.row (.record fs tail)).tail
  | .synonym _ _ _ target => shape target
  | .module name _ => .module name ⟨[], []⟩

/-- The types of a class have shapes, which are made level by level, and end within
some depth. -/
structure Shaped (r : Registry) (P : Ty → Prop) (shape : Ty → Ty) (depth : Nat → Ty → Prop) :
    Prop where
  resolved : ∀ t, r.resolve (r.resolve t) = r.resolve t
  resolve : ∀ {t}, P t → P (r.resolve t)
  seen : ∀ {t u}, P t → r.Seen u t → P u
  shape_eq : ∀ {t}, P t → shape t = r.outline shape (r.resolve t)
  row : ∀ {fs tail}, P (.record fs tail) → (r.row (.record fs tail)).fields.Sorted ∧
    (r.row (.record fs tail)).tail.IsEnd ∧
      r.resolve (r.row (.record fs tail)).tail = (r.row (.record fs tail)).tail
  depth_resolve : ∀ {n t}, depth n t → depth n (r.resolve t)
  depth_seen : ∀ {n t u}, depth n t → r.Seen u t → ∃ k, n = k + 1 ∧ depth k u

/-- Resolved types that look alike on the outside, and whose parts have the same
shapes. -/
inductive Parallel (r : Registry) (shape : Ty → Ty) : Ty → Ty → Prop where
  | var (x : TyVar) : Parallel r shape (.var x) (.var x)
  | con {c d : Con} {ts us : List Ty} (hcd : c.agrees d = true) (h : ts.map shape = us.map shape) :
      Parallel r shape (.con c ts) (.con d us)
  | record {fs gs : List (String × Ty)} {t u : Ty}
      (hfields : Table.mapValues shape (r.row (.record fs t)).fields =
        Table.mapValues shape (r.row (.record gs u)).fields)
      (htail : (r.row (.record fs t)).tail = (r.row (.record gs u)).tail) :
      Parallel r shape (.record fs t) (.record gs u)
  | module (name : String) (e f : Env) : Parallel r shape (.module name e) (.module name f)

theorem parallel_of_outline_eq {shape : Ty → Ty} {u : Ty}
    (ht : ∀ id labels params target, t ≠ .synonym id labels params target)
    (hu : ∀ id labels params target, u ≠ .synonym id labels params target)
    (h : r.outline shape t = r.outline shape u) : r.Parallel shape t u := by
  cases t with
  | synonym id labels params target => exact absurd rfl (ht id labels params target)
  | var x =>
    cases u with
    | synonym id labels params target => exact absurd rfl (hu id labels params target)
    | var y => cases h; exact .var x
    | _ => cases h
  | con c ts =>
    cases u with
    | synonym id labels params target => exact absurd rfl (hu id labels params target)
    | con d us =>
      obtain ⟨hcd, hargs⟩ := con.inj h
      exact .con (Con.agrees_iff.mpr hcd) hargs
    | _ => cases h
  | record fs tail =>
    cases u with
    | synonym id labels params target => exact absurd rfl (hu id labels params target)
    | record gs tail' =>
      obtain ⟨hfields, htail⟩ := record.inj h
      exact .record hfields htail
    | _ => cases h
  | module name e =>
    cases u with
    | synonym id labels params target => exact absurd rfl (hu id labels params target)
    | module name' f =>
      obtain ⟨rfl, -⟩ := module.inj h
      exact .module name e f
    | _ => cases h

/-- A function makes lists equal if it does so member by member. -/
theorem map_eq_map_iff_zip {f : Ty → Ty} {ts us : List Ty} :
    ts.map f = us.map f ↔ ts.length = us.length ∧ ∀ p ∈ ts.zip us, f p.1 = f p.2 := by
  induction ts generalizing us with
  | nil => cases us <;> simp
  | cons t ts ih => cases us <;> simp [ih, and_left_comm]

/-- Fields that a function makes equal have the same labels. -/
theorem exists_lookup_of_mapValues_eq {f : Ty → Ty} {fs gs : Table Ty}
    (h : fs.mapValues f = gs.mapValues f) (hs : fs.Sorted) {e : String × Ty} (he : e ∈ fs) :
    ∃ w, gs.lookup e.1 = some w ∧ f w = f e.2 := by
  have hlook := congrArg (List.lookup e.1) h
  rw [lookup_mapValues, lookup_mapValues, hs.lookup_of_mem he] at hlook
  exact Option.map_eq_some_iff.mp hlook.symm

theorem sameShapeN_end {e : Ty} (hend : e.IsEnd) (hself : r.resolve e = e) (n : Nat) :
    r.sameShapeN (n + 1) e e = true := by
  rw [sameShapeN, hself]
  rcases hend with ⟨x, rfl⟩ | rfl
  · simp
  · rfl

namespace Shaped

variable {P : Ty → Prop} {shape : Ty → Ty} {depth : Nat → Ty → Prop} {u : Ty}
  (V : r.Shaped P shape depth)
include V

theorem shape_resolve (ht : P t) : shape (r.resolve t) = shape t := by
  rw [V.shape_eq (V.resolve ht), V.resolved, ← V.shape_eq ht]

/-- Shapes are equal for one of three reasons. -/
theorem cases_shape_eq (ht : P t) (hu : P u) (h : shape t = shape u) :
    (∃ id labels params target, r.resolve t = .synonym id labels params target ∧
      shape target = shape (r.resolve u)) ∨
    ((∀ id labels params target, r.resolve t ≠ .synonym id labels params target) ∧
      ∃ id labels params target, r.resolve u = .synonym id labels params target ∧
        shape target = shape (r.resolve t)) ∨
    r.Parallel shape (r.resolve t) (r.resolve u) := by
  have ht' := V.shape_eq ht
  have hu' := V.shape_eq hu
  by_cases htsyn : ∃ id labels params target, r.resolve t = .synonym id labels params target
  · obtain ⟨id, labels, params, target, heq⟩ := htsyn
    rw [heq] at ht'
    exact .inl ⟨id, labels, params, target, heq, by rw [V.shape_resolve hu, ← h, ht']; rfl⟩
  · have hne : ∀ id labels params target, r.resolve t ≠ .synonym id labels params target :=
      fun id labels params target heq => htsyn ⟨id, labels, params, target, heq⟩
    by_cases husyn : ∃ id labels params target, r.resolve u = .synonym id labels params target
    · obtain ⟨id, labels, params, target, heq⟩ := husyn
      rw [heq] at hu'
      exact .inr (.inl ⟨hne, id, labels, params, target, heq, by
        rw [V.shape_resolve ht, h, hu']; rfl⟩)
    · refine .inr (.inr (parallel_of_outline_eq hne (fun id labels params target heq => ?_) ?_))
      · exact husyn ⟨id, labels, params, target, heq⟩
      · rw [← ht', ← hu', h]

/-- Types of one shape are found to have it, if there is fuel for their depths. -/
theorem sameShapeN_of_eq {n i j : Nat} (hn : i + j + 1 < n) (hi : depth i t) (hj : depth j u)
    (ht : P t) (hu : P u) (h : shape t = shape u) : r.sameShapeN n t u = true := by
  induction n generalizing i j t u with
  | zero => omega
  | succ n ih =>
    have hti := V.depth_resolve hi
    have huj := V.depth_resolve hj
    -- parts of both types are less deep on both sides
    have parts : ∀ {x y : Ty}, r.Seen x t → r.Seen y u → shape x = shape y →
        r.sameShapeN n x y = true := by
      intro x y hx hy hxy
      obtain ⟨i', rfl, hi'⟩ := V.depth_seen hi hx
      obtain ⟨j', rfl, hj'⟩ := V.depth_seen hj hy
      exact ih (by omega) hi' hj' (V.seen ht hx) (V.seen hu hy) hxy
    rcases V.cases_shape_eq ht hu h with ⟨id, labels, params, target, hres, heq⟩ |
      ⟨hne, id, labels, params, target, hres, heq⟩ | hpar
    · obtain ⟨i', rfl, hi'⟩ := V.depth_seen hi (.target hres)
      have hrest := ih (by omega) hi' huj (V.seen ht (.target hres)) (V.resolve hu) heq
      simp only [sameShapeN, hres]
      cases hru : r.resolve u <;> simp_all
    · obtain ⟨j', rfl, hj'⟩ := V.depth_seen hj (.target hres)
      have hrest := ih (by omega) hj' hti (V.seen hu (.target hres)) (V.resolve ht) heq
      simp only [sameShapeN, hres]
      cases hrt : r.resolve t <;> simp_all
    · have hrow := V.resolve ht
      generalize hrt : r.resolve t = x at hpar hrow
      generalize hru : r.resolve u = y at hpar
      cases hpar with
      | var x => simp [sameShapeN, hrt, hru]
      | con hcd hargs =>
        obtain ⟨hlen, hpairs⟩ := map_eq_map_iff_zip.mp hargs
        simp only [sameShapeN, hrt, hru, hcd, Bool.true_and, allPairs, Bool.and_eq_true, beq_iff_eq,
          List.all_eq_true]
        refine ⟨hlen, fun p hp => ?_⟩
        obtain ⟨hp₁, hp₂⟩ := List.of_mem_zip hp
        exact parts (.arg hrt hp₁) (.arg hru hp₂) (hpairs p hp)
      | record hfields htail =>
        obtain ⟨hsorted, hend, hself⟩ := V.row hrow
        have hlen := congrArg List.length hfields
        simp only [mapValues, List.length_map] at hlen
        obtain ⟨n, rfl⟩ := Nat.exists_eq_add_one.mpr (show 0 < n by omega)
        simp only [sameShapeN, hrt, hru, Bool.and_eq_true, beq_iff_eq, List.all_eq_true, ← htail]
        refine ⟨⟨hlen, fun e he => ?_⟩, sameShapeN_end hend hself n⟩
        obtain ⟨w, hw, heq⟩ := exists_lookup_of_mapValues_eq hfields hsorted he
        rw [hw]
        exact parts (.field hrt he) (.field hru (mem_of_lookup hw)) heq.symm
      | module name e f => simp [sameShapeN, hrt, hru]

end Shaped

/-- Types whose records end in rows are resolved to their shapes. -/
theorem Acyclic.shaped {P : Ty → Prop} (hr : r.Acyclic) (resolve : ∀ {t}, P t → P (r.resolve t))
    (seen : ∀ {t u}, P t → r.Seen u t → P u)
    (isEnd : ∀ {t fs tail}, P t → r.resolve t = .record fs tail → (r.row t).tail.IsEnd) :
    r.Shaped P (fun t => (r.resolveDeep t).erase) r.Within where
  resolved := resolve_resolve hr
  resolve := resolve
  seen := seen
  shape_eq {t} ht := by
    cases heq : r.resolve t with
    | var x => rw [resolveDeep_var hr heq]; rfl
    | con c args =>
      rw [resolveDeep_con hr heq, erase_con, List.map_map]
      rfl
    | record fs tail =>
      rw [resolveDeep_record hr heq, erase_record, (isEnd ht heq).erase,
        mapValues_mapValues, outline, ← heq, row_resolve hr]
      rfl
    | synonym id labels params target => rw [resolveDeep_synonym hr heq]; rfl
    | module name members => rw [resolveDeep_module hr heq]; rfl
  row ht := ⟨row_sorted hr _, isEnd ht resolve_record, (row_tail hr _).1.resolve⟩
  depth_resolve hn := hn.congr (resolve_resolve hr _).symm
  depth_seen hn hu := by
    cases hu with
    | arg h hu => exact hn.child (h ▸ hu)
    | field h he =>
      rw [← h, row_resolve hr] at he
      exact hn.row_field hr he
    | target h => exact hn.child (by simp [h, children])

section

variable {E : Prop} {K : Nat → Kind} {P : Kind → Ty → Prop}

/-- Types with kinds are resolved to their shapes. -/
theorem WellFormed.shaped (hP : Kinding P) (hPK : ∀ {k t}, P k t → t.HasKind E K k)
    (hr : r.WellFormed P) :
    r.Shaped (fun t => ∃ k, P k t) (fun t => (r.resolveDeep t).erase) r.Within := by
  refine hr.acyclic.shaped (fun ⟨k, ht⟩ => ⟨k, hr.resolve ht⟩) ?_ fun ⟨k, ht⟩ heq =>
    (hPK (hr.record_row hP ht heq).2).isEnd (row_tail hr.acyclic _).2
  rintro t u ⟨k, ht⟩ hu
  cases hu with
  | arg h hu => exact ⟨.type, hP.args (h ▸ hr.resolve ht) _ hu⟩
  | field h he =>
    rw [← h, row_resolve hr.acyclic] at he
    exact ⟨.type, (hr.record_row hP ht h).1 _ he⟩
  | target h => exact ⟨k, hP.target (h ▸ hr.resolve ht)⟩

end

end Registry

/-- When unification of two types of values succeeds, they have the same shape
in the registry it leaves and are resolved to the same type, synonyms and
labels apart. -/
theorem unify_ok_same_shape {s : State} {a b : Ty} {K : Nat → Kind} (hscope : s.registry.Scoped)
    (hacyclic : s.registry.Acyclic) (hkinded : s.registry.Kinded False K)
    (hcov : s.registry.AllBindings Ty.Covered)
    (ha : a.Scoped s.registry.varCount ∧ a.Covered ∧ a.HasKind False K .type)
    (hb : b.Scoped s.registry.varCount ∧ b.Covered ∧ b.HasKind False K .type)
    (hok : ((unify a b).ends s).1 = .ok ()) :
    ((unify a b).ends s).2.sameShape a b = true ∧
      (((unify a b).ends s).2.resolveDeep a).erase =
        (((unify a b).ends s).2.resolveDeep b).erase := by
  have hrun := unify_unifies (.of_covered hacyclic hcov) ha.2.1 hb.2.1
  generalize ((unify a b).ends s).2 = r' at hrun ⊢
  have hP := Ty.kinding_hasKind (E := False) (K := Kind.upTo s.registry.varCount K)
    (fun _ h => h) fun _ _ _ => trivial
  have hk := hkinded.run hscope hacyclic hcov ha hb r'
  have hka := Registry.hasKind_upTo ha.2.2 ha.1
  have hkb := Registry.hasKind_upTo hb.2.2 hb.1
  obtain ⟨hwf', -⟩ := hrun.keeps hP hk
  have sat := Registry.satisfies_solution hP (fun h => h.1)
    (fun v => ⟨.flex rfl, Ty.covered_var _⟩) hwf'
  have hvalue : a.value r'.solution = b.value r'.solution :=
    hrun.sound hP (fun h => h.1) hok hk sat .type ⟨hka, ha.2.1⟩ ⟨hkb, hb.2.1⟩
  have herase : (r'.resolveDeep a).erase = (r'.resolveDeep b).erase := by
    rw [← Registry.norm_resolveDeep hP (fun h => h.1) hwf' ⟨hka, ha.2.1⟩,
      ← Registry.norm_resolveDeep hP (fun h => h.1) hwf' ⟨hkb, hb.2.1⟩,
      ← Registry.value_solution hP (fun h => h.1) hwf' ⟨hka, ha.2.1⟩,
      ← Registry.value_solution hP (fun h => h.1) hwf' ⟨hkb, hb.2.1⟩, hvalue]
  refine ⟨(hwf'.shaped hP fun h => h.1).sameShapeN_of_eq ?_ (Registry.within_fuel hwf'.acyclic a)
    (Registry.within_fuel hwf'.acyclic b) ⟨_, hka, ha.2.1⟩ ⟨_, hkb, hb.2.1⟩ herase, herase⟩
  simp only [Registry.fuel]
  omega

/-- Two open records, one behind a synonym, that have to exchange a field whose
type is bound. -/
theorem unify_open_records_same_shape :
    let s : State := ⟨({} : Registry).addVar.addVar.addVar.setBinding 2 (.arrow .int .bool), #[]⟩
    let a : Ty := .record [("x", .flex 2)] (.flex 0)
    let b : Ty := .synonym 0 ["p"] [.flex 2] (.record [("y", .flex 2)] (.flex 1))
    ((unify a b).ends s).2.sameShape a b = true ∧
      (((unify a b).ends s).2.resolveDeep a).erase =
        (((unify a b).ends s).2.resolveDeep b).erase := by
  intro s a b
  have hok : ((unify a b).ends s).1 = .ok () := eq_ok_of_isOk (by decide +kernel)
  have hcount : s.registry.varCount = 3 := by decide
  let K : Nat → Kind := fun v => if v < 2 then .row else .type
  refine unify_ok_same_shape (K := K) ?_ ?_ ?_ ?_ ?_ ?_ hok
  · exact Registry.forall_setBinding (by simp) (by simp [Ty.Scoped, Ty.Mentions, Ty.occurrences])
  · exact Registry.acyclic_setBinding (by simp) (by simp [Ty.Scoped, Ty.Mentions, Ty.occurrences])
  · exact Registry.forall_setBinding (by simp) (.arrow (.base _) (.base _))
  · exact Registry.forall_setBinding (by simp) (by simp)
  · refine ⟨?_, by simp [a], .record (List.forall_mem_singleton.mpr (.flex rfl)) (.flex rfl)⟩
    simp [hcount, a, Ty.Scoped, Ty.Mentions, Ty.occurrences]
  · refine ⟨?_, by simp [b, Ty.ParamsInTarget, Ty.Mentions, Ty.occurrences],
      .synonym (.record (List.forall_mem_singleton.mpr (.flex rfl)) (.flex rfl))⟩
    simp [hcount, b, Ty.Scoped, Ty.Mentions, Ty.occurrences]

end RowTyping
