import RowTyping.Proofs.Shapes

/-!
# What a type shows

The arguments that a synonym was written with have no influence on what it
stands for. A type without them is bare, and the variables of a bare type are
the ones that the type shows. Every way of reading a registry commutes with
dropping the arguments, as soon as the bare bindings have no cycle; a cycle
through an argument does no harm to what is shown.
-/

namespace RowTyping

open Row Table Ty Function Option

namespace Table

variable {α β : Type}

theorem mapValues_insert (f : α → β) (k : String) (a : α) (t : Table α) :
    (insert k a t).mapValues f = insert k (f a) (t.mapValues f) := by
  induction t with
  | nil => rfl
  | cons e t ih =>
    simp only [insert, mapValues, List.map_cons]
    split
    · rfl
    · split
      · rfl
      · exact congrArg _ ih

theorem mapValues_union (f : α → β) (t u : Table α) :
    (t.union u).mapValues f = (t.mapValues f).union (u.mapValues f) := by
  induction u generalizing t with
  | nil => rfl
  | cons e u ih =>
    have hstep : (t.insertNew e.1 e.2).mapValues f = (t.mapValues f).insertNew e.1 (f e.2) := by
      unfold insertNew
      rw [lookup_mapValues, isSome_map]
      split
      · rfl
      · exact mapValues_insert f _ _ _
    exact (ih _).trans (by rw [hstep]; rfl)

end Table

namespace Ty

variable {t : Ty} {x : TyVar}

mutual

/-- The type without the arguments of its synonyms. -/
def bare : Ty → Ty
  | .var x => .var x
  | .con c args => .con c (bareList args)
  | .record fs tail => .record (bareFields fs) (bare tail)
  | .synonym id labels _ target => .synonym id labels [] (bare target)
  | .module name members => .module name members

def bareList : List Ty → List Ty
  | [] => []
  | t :: ts => bare t :: bareList ts

def bareFields : List (String × Ty) → List (String × Ty)
  | [] => []
  | (l, t) :: fs => (l, bare t) :: bareFields fs

end

theorem bareList_eq (ts : List Ty) : bareList ts = ts.map bare := by
  induction ts with
  | nil => rfl
  | cons t ts ih => rw [bareList, ih, List.map_cons]

theorem bareFields_eq (fs : Table Ty) : bareFields fs = mapValues bare fs := by
  induction fs with
  | nil => rfl
  | cons e fs ih => rw [bareFields, ih, mapValues, mapValues, List.map_cons]

@[simp] theorem bare_var (x : TyVar) : (var x).bare = .var x := rfl

@[simp] theorem bare_con (c : Con) (args : List Ty) :
    (con c args).bare = .con c (args.map bare) := by
  rw [bare, bareList_eq]

@[simp] theorem bare_record (fs : Table Ty) (tail : Ty) :
    (record fs tail).bare = .record (mapValues bare fs) tail.bare := by
  rw [bare, bareFields_eq]

@[simp] theorem bare_synonym (id : Nat) (labels : List String) (params : List Ty) (target : Ty) :
    (synonym id labels params target).bare = .synonym id labels [] target.bare := rfl

@[simp] theorem bare_module (name : String) (members : Env) :
    (module name members).bare = .module name members := rfl

theorem bare_eq_flex {v : Nat} : t.bare = .flex v ↔ t = .flex v := by
  cases t <;> simp

/-! ## Normal forms and substitution -/

/-- Normalizing first makes no difference to a substitution. -/
theorem norm_subst (f : TyVar → Ty) (t : Ty) : (t.norm.subst f).norm = (t.subst f).norm := by
  induction t with
  | var x => rfl
  | con c args ih =>
    by_cases hc : c = .emptyRow
    · subst hc
      simp [norm, subst, normFields_eq, mapValues, prepend, toRecord, union, asRow]
    · have hplain : c.plain ≠ .emptyRow := by
        cases c <;> simp_all [Con.plain]
      rw [norm_con hc, subst, subst, norm_con hplain, norm_con hc]
      simp only [substList_eq, List.map_map]
      congr 1
      · cases c <;> rfl
      · exact List.map_congr_left fun t ht => ih t ht
  | record fs tail ihf iht =>
    -- the rest is a record that goes on, or something that ends the row
    have htail : ∀ x : Ty, (x.subst f).norm.asRow =
        .prepend (mapValues (fun t => (t.subst f).norm) x.asRow.fields)
          (x.asRow.tail.subst f).norm.asRow := by
      intro x
      by_cases hx : x.isRecord = true
      · obtain ⟨gs, rest, rfl⟩ := eq_record_of_isRecord hx
        rw [subst, substFields_eq, norm_record]
        simp only [asRow, mapValues, List.map_map]
        rfl
      · have hrow : x.asRow = ⟨[], x⟩ := by
          cases x <;> simp_all [asRow, isRecord]
        rw [hrow]
        exact (prepend_nil (asRow_norm_sorted _)).symm
    have hfields : ∀ gs : Table Ty, mapValues norm
        (gs.map fun e => (e.1, subst f e.2)) = mapValues (fun t => (t.subst f).norm) gs := by
      simp [mapValues]
    have hmine : mapValues (fun t => (t.subst f).norm) fs =
        mapValues (fun t => (t.norm.subst f).norm) fs :=
      mapValues_congr fun e he => (ihf e he).symm
    rw [norm_record, toRecord, subst, substFields_eq, norm_record, subst, substFields_eq,
      norm_record, ← iht, htail tail.norm, hfields, hfields, hmine]
    congr 1
    refine prepend_congr (fun l => ?_) rfl
    simp only [lookup_mapValues, lookup_prepend, Option.map_or, Option.or_assoc,
      Option.map_map, Function.comp_def, tail_prepend]
  | synonym id labels params target _ ih =>
    exact ih
  | module name members => rfl

theorem subst_var (t : Ty) : t.subst .var = t := by
  induction t with
  | var x => rfl
  | con c args ih =>
    rw [subst, substList_eq, List.map_congr_left ih, List.map_id']
  | record fs tail ihf iht =>
    rw [subst, substFields_eq, iht, List.map_congr_left (g := id) fun e he => by rw [ihf e he]; rfl,
      List.map_id]
  | synonym id labels params target ihp iht =>
    rw [subst, substList_eq, iht, List.map_congr_left ihp, List.map_id']
  | module name members => rfl

theorem norm_norm (t : Ty) : t.norm.norm = t.norm := by
  have h := norm_subst .var t
  rwa [subst_var, subst_var] at h

theorem subst_subst (f g : TyVar → Ty) (t : Ty) :
    (t.subst f).subst g = t.subst fun x => (f x).subst g := by
  induction t with
  | var x => rfl
  | con c args ih =>
    simp only [subst, substList_eq, List.map_map]
    exact congrArg _ (List.map_congr_left ih)
  | record fs tail ihf iht =>
    simp only [subst, substFields_eq, List.map_map, iht]
    congr 1
    exact List.map_congr_left fun e he => Prod.ext rfl (ihf e he)
  | synonym id labels params target ihp iht =>
    simp only [subst, substList_eq, List.map_map, iht]
    exact congrArg (fun ps => synonym id labels ps _) (List.map_congr_left ihp)
  | module name members => rfl

theorem norm_bare (t : Ty) : t.bare.norm = t.norm := by
  induction t with
  | var x => rfl
  | con c args ih =>
    rw [bare_con]
    by_cases hc : c = .emptyRow
    · subst hc
      rfl
    · rw [norm_con hc, norm_con hc, List.map_map]
      exact congrArg _ (List.map_congr_left ih)
  | record fs tail ihf iht =>
    rw [bare_record, norm_record, norm_record, iht, mapValues_mapValues]
    rw [mapValues_congr ihf]
  | synonym id labels params target _ ih =>
    exact ih
  | module name members => rfl

/-- The arguments of synonyms do not matter for the value of a type. -/
theorem norm_subst_bare (f : TyVar → Ty) (t : Ty) : (t.bare.subst f).norm = (t.subst f).norm := by
  rw [← norm_subst, norm_bare, norm_subst]

/-! ## The variables that are shown -/

/-- The variables that stand in the type outside the arguments of its
synonyms. -/
def shown (t : Ty) : List TyVar := t.bare.occurrences

@[simp] theorem mem_shown_var {y : TyVar} : x ∈ (var y).shown ↔ x = y := by
  simp [shown, occurrences]

@[simp] theorem mem_shown_con {c : Con} {args : List Ty} :
    x ∈ (con c args).shown ↔ ∃ t ∈ args, x ∈ t.shown := by
  simp [shown, occurrences]

@[simp] theorem mem_shown_record {fs : Table Ty} {tail : Ty} :
    x ∈ (record fs tail).shown ↔ (∃ e ∈ fs, x ∈ e.2.shown) ∨ x ∈ tail.shown := by
  simp only [shown, bare_record, occurrences, occurrencesFields_eq, mapValues,
    List.mem_append, List.mem_flatMap, List.mem_map]
  simp

@[simp] theorem mem_shown_synonym {id : Nat} {labels : List String} {params : List Ty}
    {target : Ty} : x ∈ (synonym id labels params target).shown ↔ x ∈ target.shown := by
  simp [shown, occurrences]

@[simp] theorem mem_shown_module {name : String} {members : Env} :
    x ∉ (module name members).shown := by
  simp [shown, occurrences]

theorem mem_shown_subst {f : TyVar → Ty} :
    x ∈ (t.subst f).shown ↔ ∃ y ∈ t.shown, x ∈ (f y).shown := by
  induction t with
  | var y => simp [subst]
  | con c args ih =>
    simp only [subst, substList_eq, mem_shown_con, List.mem_map, exists_exists_and_eq_and]
    constructor
    · rintro ⟨t, ht, hx⟩
      obtain ⟨y, hy, hxy⟩ := (ih t ht).mp hx
      exact ⟨y, ⟨t, ht, hy⟩, hxy⟩
    · rintro ⟨y, ⟨t, ht, hy⟩, hxy⟩
      exact ⟨t, ht, (ih t ht).mpr ⟨y, hy, hxy⟩⟩
  | record fs tail ihf iht =>
    simp only [subst, substFields_eq, mem_shown_record, List.mem_map, exists_exists_and_eq_and, iht]
    constructor
    · rintro (⟨e, he, hx⟩ | ⟨y, hy, hxy⟩)
      · obtain ⟨y, hy, hxy⟩ := (ihf e he).mp hx
        exact ⟨y, .inl ⟨e, he, hy⟩, hxy⟩
      · exact ⟨y, .inr hy, hxy⟩
    · rintro ⟨y, ⟨e, he, hy⟩ | hy, hxy⟩
      · exact .inl ⟨e, he, (ihf e he).mpr ⟨y, hy, hxy⟩⟩
      · exact .inr ⟨y, hy, hxy⟩
  | synonym id labels params target _ ih => simpa [subst] using ih
  | module name members => simp [subst]

theorem shown_subset (h : x ∈ t.shown) : x ∈ t.occurrences := by
  induction t with
  | var y => simpa [occurrences] using h
  | con c args ih =>
    obtain ⟨t, ht, hx⟩ := mem_shown_con.mp h
    simp only [occurrences, occurrencesList_eq, List.mem_flatMap]
    exact ⟨t, ht, ih t ht hx⟩
  | record fs tail ihf iht =>
    simp only [occurrences, occurrencesFields_eq, List.mem_append, List.mem_flatMap]
    rcases mem_shown_record.mp h with ⟨e, he, hx⟩ | hx
    · exact .inl ⟨e, he, ihf e he hx⟩
    · exact .inr (iht hx)
  | synonym id labels params target _ ih =>
    simp only [occurrences, List.mem_append]
    exact .inr (ih (mem_shown_synonym.mp h))
  | module name members => exact absurd h mem_shown_module

/-- Only the variables that are shown matter for a normal form. -/
theorem norm_subst_congr {f g : TyVar → Ty} (h : ∀ x ∈ t.shown, (f x).norm = (g x).norm) :
    (t.subst f).norm = (t.subst g).norm := by
  have hnorm : ∀ f : TyVar → Ty, (t.subst f).norm = (t.bare.subst fun x => (f x).norm).norm := by
    intro f
    rw [← norm_subst_bare]
    have hcomp : ∀ u : Ty, (u.subst fun x => (f x).norm).norm = (u.subst f).norm := by
      intro u
      induction u with
      | var x => exact norm_norm _
      | con c args ih =>
        by_cases hc : c = .emptyRow
        · subst hc
          rfl
        · rw [subst, subst, norm_con hc, norm_con hc]
          simp only [substList_eq, List.map_map]
          exact congrArg _ (List.map_congr_left ih)
      | record fs tail ihf iht =>
        rw [subst, subst, substFields_eq, substFields_eq, norm_record, norm_record, iht]
        congr 2
        simp only [mapValues, List.map_map]
        exact List.map_congr_left fun e he => Prod.ext rfl (ihf e he)
      | synonym id labels params target _ ih =>
        exact ih
      | module name members => rfl
    exact (hcomp _).symm
  rw [hnorm f, hnorm g, subst_congr h]

theorem value_bare (θ : Nat → Ty) (t : Ty) : t.bare.value θ = t.value θ := norm_subst_bare _ t

theorem HasKind.bare {E : Prop} {K : Nat → Kind} {k : Kind} (h : t.HasKind E K k) :
    t.bare.HasKind E K k := by
  induction h with
  | flex hv => exact .flex hv
  | gen k g => exact .gen k g
  | con hc _ ih =>
    rw [bare_con]
    exact .con hc (List.forall_mem_map.mpr ih)
  | emptyRow hk => exact .emptyRow hk
  | record _ _ ihf iht =>
    rw [bare_record]
    exact .record (List.forall_mem_map.mpr ihf) iht
  | synonym _ ih =>
    exact .synonym ih
  | module name members =>
    exact .module name members

/-! ## Heights -/

theorem heightList_le {ts : List Ty} {h : Nat} (hts : ∀ t ∈ ts, t.height ≤ h) :
    heightList ts ≤ h := by
  induction ts with
  | nil => simp [heightList]
  | cons t ts ih =>
    have ht := hts t (by simp)
    have hrest := ih fun u hu => hts u (by simp [hu])
    rw [heightList]
    omega

theorem height_bare (t : Ty) : t.bare.height ≤ t.height := by
  induction t with
  | var x => exact le_rfl
  | con c args ih =>
    rw [bare_con, height, height]
    have hargs : heightList (args.map bare) ≤ heightList args := by
      refine heightList_le fun u hu => ?_
      obtain ⟨t, ht, rfl⟩ := List.mem_map.mp hu
      exact (ih t ht).trans (height_le_heightList ht)
    omega
  | record fs tail ihf iht =>
    rw [bare_record, height, height]
    have hfields : heightFields (mapValues bare fs) ≤ heightFields fs := by
      refine heightFields_le fun u hu => ?_
      obtain ⟨e, he, rfl⟩ := List.mem_map.mp hu
      exact (ihf e he).trans (height_le_heightFields he)
    omega
  | synonym id labels params target _ ih =>
    rw [bare_synonym, height, height, heightList]
    omega
  | module name members => exact le_rfl

theorem covered_bare (t : Ty) : t.bare.Covered := by
  induction t with
  | var x => exact covered_var x
  | con c args ih =>
    rw [bare_con, covered_con]
    intro u hu
    obtain ⟨t, ht, rfl⟩ := List.mem_map.mp hu
    exact ih t ht
  | record fs tail ihf iht =>
    rw [bare_record, covered_record]
    refine ⟨fun u hu => ?_, iht⟩
    obtain ⟨e, he, rfl⟩ := List.mem_map.mp hu
    exact ihf e he
  | synonym id labels params target _ ih =>
    rw [bare_synonym, covered_synonym]
    exact ⟨by simp, by simp, ih⟩
  | module name members => exact .intro _ trivial (by simp [children])

end Ty

namespace Row

/-- The row without the arguments of synonyms. -/
def bare (row : Row) : Row := ⟨row.fields.mapValues Ty.bare, row.tail.bare⟩

end Row

namespace Registry

/-- The registry without the arguments of synonyms. -/
def bare (r : Registry) : Registry :=
  { r with cells := r.cells.map fun c => { c with binding := c.binding.map Ty.bare } }

variable {r : Registry}

@[simp] theorem varCount_bare (r : Registry) : r.bare.varCount = r.varCount := by
  simp [bare, varCount]

@[simp] theorem binding?_bare (r : Registry) (v : Nat) :
    r.bare.binding? v = (r.binding? v).map Ty.bare := by
  simp only [bare, binding?, Array.getElem?_map]
  cases r.cells[v]? <;> rfl

theorem allBindings_bare (r : Registry) : r.bare.AllBindings Covered := by
  intro v t hv
  rw [binding?_bare] at hv
  obtain ⟨u, -, rfl⟩ := map_eq_some_iff.mp hv
  exact u.covered_bare

theorem Acyclic.bare (hr : r.Acyclic) : r.bare.Acyclic := by
  intro v hv
  refine hr v (hv.lift id fun v w hvw => ?_)
  obtain ⟨t, ht, hw⟩ := hvw
  rw [binding?_bare] at ht
  obtain ⟨u, hu, rfl⟩ := map_eq_some_iff.mp ht
  exact ⟨u, hu, shown_subset hw⟩

theorem maxHeight_bare (r : Registry) : r.bare.maxHeight ≤ r.maxHeight := by
  refine maxHeight_le_iff.mpr fun v t hv => ?_
  rw [binding?_bare] at hv
  obtain ⟨u, hu, rfl⟩ := map_eq_some_iff.mp hv
  exact u.height_bare.trans (height_le_maxHeight hu)

theorem follow_bare (n : Nat) (t : Ty) : r.bare.follow n t.bare = (r.follow n t).bare := by
  induction n generalizing t with
  | zero => rfl
  | succ n ih =>
    by_cases ht : ∃ v, t = .flex v
    · obtain ⟨v, rfl⟩ := ht
      simp only [bare_var, follow, binding?_bare]
      cases r.binding? v with
      | none => rfl
      | some u => exact ih u
    · have hne : ∀ v, t ≠ .flex v := fun v hv => ht ⟨v, hv⟩
      rw [follow_of_not_flex hne, follow_of_not_flex]
      exact fun v hv => hne v (bare_eq_flex.mp hv)

theorem resolve_bare (t : Ty) : r.bare.resolve t.bare = (r.resolve t).bare := by
  rw [resolve, varCount_bare]
  exact follow_bare _ t

theorem collect_bare (n : Nat) (fields : Table Ty) (t : Ty) :
    r.bare.collect n (fields.mapValues Ty.bare) t.bare = (r.collect n fields t).bare := by
  induction n generalizing fields t with
  | zero => rw [collect, resolve_bare]; rfl
  | succ n ih =>
    rw [collect, collect, resolve_bare]
    cases r.resolve t with
    | record fs tail =>
      simp only [bare_record]
      rw [← mapValues_union]
      exact ih _ _
    | _ => simp [Row.bare]

/-- What fuel there is for a type is enough for the bare one. -/
theorem within_bare (hr : r.bare.Acyclic) (t : Ty) :
    r.bare.Within (t.height + r.varCount * r.maxHeight) t.bare := by
  refine (within_fuel hr t.bare).mono ?_
  rw [varCount_bare]
  exact Nat.add_le_add t.height_bare (Nat.mul_le_mul_left _ r.maxHeight_bare)

theorem row_bare (hr : r.bare.Acyclic) (t : Ty) : r.bare.row t.bare = (r.row t).bare := by
  rw [row, row, ← collect_bare]
  exact collect_stable ((within_fuel hr t.bare).succ) ((within_bare hr t).succ)

theorem resolveDeepN_bare (hr : r.bare.Acyclic) (n : Nat) (t : Ty) :
    r.bare.resolveDeepN n t.bare = (r.resolveDeepN n t).bare := by
  induction n generalizing t with
  | zero => rfl
  | succ n ih =>
    rw [resolveDeepN, resolveDeepN, resolve_bare]
    cases r.resolve t with
    | var x => rfl
    | con c args =>
      simp only [Ty.bare_con, List.map_map]
      exact congrArg _ (List.map_congr_left fun t _ => ih t)
    | record fs tail =>
      simp only [Ty.bare_record]
      rw [← Ty.bare_record, row_bare hr]
      simp only [Row.bare, Table.mapValues, List.map_map]
      congr 1
      exact List.map_congr_left fun e _ => Prod.ext rfl (ih e.2)
    | synonym id labels params target =>
      simp only [Ty.bare_synonym, List.map_nil]
      rw [ih]
    | module name members => rfl

theorem resolveDeep_bare (hr : r.bare.Acyclic) (t : Ty) :
    r.bare.resolveDeep t.bare = (r.resolveDeep t).bare := by
  rw [resolveDeep, resolveDeep, ← resolveDeepN_bare hr]
  exact resolveDeepN_stable hr (within_fuel hr t.bare) (within_bare hr t)

theorem occursN_bare (v n : Nat) (t : Ty) : r.bare.occursN v n t.bare = r.occursN v n t := by
  induction n generalizing t with
  | zero => rfl
  | succ n ih =>
    rw [occursN, occursN, resolve_bare]
    cases r.resolve t with
    | var x => cases x <;> rfl
    | con c args => simp [List.any_map, comp_def, ih]
    | record fs tail => simp [mapValues, List.any_map, comp_def, ih]
    | synonym id labels params target => simp [ih]
    | module name members => rfl

theorem occurs_bare (hr : r.bare.Acyclic) (v : Nat) (t : Ty) :
    r.bare.occurs v t.bare = r.occurs v t := by
  rw [occurs, occurs, ← occursN_bare (r := r)]
  exact occursN_stable (within_fuel hr t.bare) (within_bare hr t)

theorem bare_addVar (r : Registry) : r.addVar.bare = r.bare.addVar := by
  simp [bare, addVar]

theorem bare_setBinding (r : Registry) (v : Nat) (t : Ty) :
    (r.setBinding v t).bare = r.bare.setBinding v t.bare := by
  simp only [bare, setBinding]
  congr 1
  refine Array.ext_getElem? fun i => ?_
  simp only [Array.getElem?_map, Array.getElem?_modify]
  by_cases h : v = i
  · subst h
    cases r.cells[v]? <;> simp
  · simp [h]

/-- Binding an open variable to a type in which the search does not find it
closes no cycle of shown variables. -/
theorem acyclic_bare_setBinding (hr : r.bare.Acyclic) {v : Nat} {t : Ty}
    (hv : r.binding? v = none) (hocc : r.occurs v t = false) :
    (r.setBinding v t).bare.Acyclic := by
  have hopen : r.bare.binding? v = none := by rw [binding?_bare, hv]; rfl
  rw [bare_setBinding]
  refine hr.setBinding hopen fun hreach => ?_
  have hfound := occurs_of_reaches hr r.allBindings_bare hopen t.covered_bare hreach
  rw [occurs_bare hr, hocc] at hfound
  cases hfound

/-! ## Rows -/

theorem open_of_resolve (hr : r.bare.Acyclic) {t : Ty} {v : Nat} (h : r.resolve t = .flex v) :
    r.binding? v = none := by
  have hbare := binding?_of_resolve hr (by rw [resolve_bare, h]; rfl)
  rw [binding?_bare] at hbare
  exact map_eq_none_iff.mp hbare

/-- The row of a record whose tail leads nowhere. -/
theorem row_eq_self {fs : Table Ty} {tail : Ty} (hsorted : fs.Sorted) (htail : r.Resolved tail)
    (hend : tail.isRecord = false) : r.row (.record fs tail) = ⟨fs, tail⟩ := by
  -- the row is collected in one step
  have hstep : ∀ k, r.collect k fs tail = ⟨fs, tail⟩ := by
    intro k
    have hne : ∀ gs u, tail ≠ .record gs u := by
      rintro gs u rfl
      cases hend
    cases k <;> simp [collect, htail.resolve]
  rw [row, fuel, collect, resolve_record]
  simp only [union_nil hsorted, hstep]

theorem row_sorted_of_bare (hr : r.bare.Acyclic) (t : Ty) : (r.row t).fields.Sorted := by
  have hsorted := row_sorted hr t.bare
  rw [row_bare hr] at hsorted
  exact hsorted.of_mapValues

theorem row_tail_of_bare (hr : r.bare.Acyclic) (t : Ty) :
    r.Resolved (r.row t).tail ∧ (r.row t).tail.isRecord = false := by
  obtain ⟨hopen, hrecord⟩ := row_tail hr t.bare
  rw [row_bare hr, Row.bare] at hopen hrecord
  refine ⟨fun v hv => by simpa using hopen v (bare_eq_flex.mpr hv), ?_⟩
  cases heq : (r.row t).tail with
  | record => simp [heq, isRecord] at hrecord
  | var | con | synonym | module => rfl

end Registry

end RowTyping
