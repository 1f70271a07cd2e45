import RowTyping.Proofs.Coherence
import RowTyping.Proofs.Sealing
import RowTyping.Proofs.Transparency
import RowTyping.Proofs.Twins

/-!
# Types that differ in their variables

Two types are alike when they are one tree with related variables at its leaves;
labels count. Read through the bindings of two registries, types that are alike
are alike again if what their variables are read as is. Where a record ends in a
variable that is bound to further fields, the two registries may have come to
these fields in different steps: only the records that are merged in the end are
compared.
-/

namespace RowTyping

open Row Table Ty Function List

namespace Ty

/-- One tree with related variables, without synonyms and modules. A variable is
related to another one as what it stands for, a type or a row. -/
inductive Like (R : Kind → TyVar → TyVar → Prop) : Kind → Ty → Ty → Prop where
  | var {k : Kind} {x y : TyVar} (h : R k x y) : Like R k (.var x) (.var y)
  | con {c : Con} {ps : List (Ty × Ty)} (hc : c ≠ .emptyRow)
      (hargs : ∀ p ∈ ps, Like R .type p.1 p.2) :
      Like R .type (.con c (ps.map Prod.fst)) (.con c (ps.map Prod.snd))
  | emptyRow : Like R .row .emptyRow .emptyRow
  | record {k : Kind} {zs : Table (Ty × Ty)} {a b : Ty}
      (hfields : ∀ z ∈ zs, Like R .type z.2.1 z.2.2) (htail : Like R .row a b) :
      Like R k (.record (zs.mapValues Prod.fst) a) (.record (zs.mapValues Prod.snd) b)

namespace Like

variable {R R' : Kind → TyVar → TyVar → Prop} {k : Kind} {t u : Ty}

theorem con_map {α : Type} {c : Con} (hc : c ≠ .emptyRow) (xs : List α) (f g : α → Ty)
    (h : ∀ x ∈ xs, Like R .type (f x) (g x)) :
    Like R .type (.con c (xs.map f)) (.con c (xs.map g)) := by
  have hargs : ∀ p ∈ xs.map fun x => (f x, g x), Like R .type p.1 p.2 := forall_mem_map.mpr h
  simpa [comp_def] using Like.con hc hargs

theorem record_map {α : Type} (xs : Table α) (f g : α → Ty)
    (h : ∀ x ∈ xs, Like R .type (f x.2) (g x.2)) {a b : Ty} (htail : Like R .row a b) :
    Like R k (.record (xs.mapValues f) a) (.record (xs.mapValues g) b) := by
  have hfields : ∀ z ∈ mapValues (fun x => (f x, g x)) xs, Like R .type z.2.1 z.2.2 :=
    forall_mem_map.mpr h
  simpa [mapValues, comp_def] using Like.record hfields htail

theorem mono (h : Like R k t u) (hR : ∀ k x y, R k x y → R' k x y) : Like R' k t u := by
  induction h with
  | var h => exact .var (hR _ _ _ h)
  | con hc _ ih => exact .con hc ih
  | emptyRow => exact .emptyRow
  | record _ _ ihf iht => exact .record ihf iht

theorem symm (h : Like R k t u) : Like (fun k x y => R k y x) k u t := by
  induction h with
  | var h => exact .var h
  | con hc _ ih => exact con_map hc _ _ _ ih
  | emptyRow => exact .emptyRow
  | record _ _ ihf iht => exact record_map _ _ _ ihf iht

/-- Only the variables that occur matter. -/
theorem restrict (h : Like R k t u) :
    Like (fun k x y => R k x y ∧ x ∈ t.occurrences ∧ y ∈ u.occurrences) k t u := by
  induction h with
  | var h => exact .var ⟨h, by simp [occurrences], by simp [occurrences]⟩
  | con hc _ ih =>
    refine .con hc fun p hp => (ih p hp).mono fun k x y hxy => ⟨hxy.1, ?_, ?_⟩
    · exact mem_occurrences.mpr (.inr ⟨p.1, mem_map_of_mem hp, hxy.2.1⟩)
    · exact mem_occurrences.mpr (.inr ⟨p.2, mem_map_of_mem hp, hxy.2.2⟩)
  | emptyRow => exact .emptyRow
  | @record k zs a b _ _ ihf iht =>
    refine .record (fun z hz => (ihf z hz).mono fun k x y hxy => ⟨hxy.1, ?_, ?_⟩)
      (iht.mono fun k x y hxy => ⟨hxy.1, ?_, ?_⟩)
    · refine mem_occurrences.mpr (.inr ⟨z.2.1, mem_children_record.mpr (.inl ?_), hxy.2.1⟩)
      exact ⟨_, mem_map_of_mem hz, rfl⟩
    · refine mem_occurrences.mpr (.inr ⟨z.2.2, mem_children_record.mpr (.inl ?_), hxy.2.2⟩)
      exact ⟨_, mem_map_of_mem hz, rfl⟩
    · exact mem_occurrences.mpr (.inr ⟨a, mem_children_record.mpr (.inr rfl), hxy.2.1⟩)
    · exact mem_occurrences.mpr (.inr ⟨b, mem_children_record.mpr (.inr rfl), hxy.2.2⟩)

/-- What occurs in one type has a partner in the other one. -/
theorem exists_right (h : Like R k t u) {x : TyVar} (hx : x ∈ t.occurrences) :
    ∃ k y, R k x y ∧ y ∈ u.occurrences := by
  induction h with
  | @var k _ y h =>
    obtain rfl : x = _ := by simpa [occurrences] using hx
    exact ⟨k, y, h, by simp [occurrences]⟩
  | con hc _ ih =>
    obtain ⟨t, ht, hxt⟩ := (mem_occurrences.mp hx).resolve_left (by simp)
    obtain ⟨p, hp, rfl⟩ := mem_map.mp ht
    obtain ⟨k, y, hxy, hy⟩ := ih p hp hxt
    exact ⟨k, y, hxy, mem_occurrences.mpr (.inr ⟨p.2, mem_map_of_mem hp, hy⟩)⟩
  | emptyRow => simp [occurrences, occurrencesList] at hx
  | record _ _ ihf iht =>
    obtain ⟨t, ht, hxt⟩ := (mem_occurrences.mp hx).resolve_left (by simp)
    rcases mem_children_record.mp ht with ⟨e, he, rfl⟩ | rfl
    · obtain ⟨z, hz, rfl⟩ := mem_map.mp he
      obtain ⟨k, y, hxy, hy⟩ := ihf z hz hxt
      refine ⟨k, y, hxy, mem_occurrences.mpr (.inr ⟨z.2.2, mem_children_record.mpr (.inl ?_), hy⟩)⟩
      exact ⟨_, mem_map_of_mem hz, rfl⟩
    · obtain ⟨k, y, hxy, hy⟩ := iht hxt
      exact ⟨k, y, hxy, mem_occurrences.mpr (.inr ⟨_, mem_children_record.mpr (.inr rfl), hy⟩)⟩

theorem exists_left (h : Like R k t u) {y : TyVar} (hy : y ∈ u.occurrences) :
    ∃ k x, R k x y ∧ x ∈ t.occurrences :=
  h.symm.exists_right hy

/-- A row is a variable, the empty row or a record, and so is its partner. -/
theorem asRow (h : Like R .row t u) : ∃ zs : Table (Ty × Ty),
    t.asRow.fields = zs.mapValues Prod.fst ∧ u.asRow.fields = zs.mapValues Prod.snd ∧
      (∀ z ∈ zs, Like R .type z.2.1 z.2.2) ∧ Like R .row t.asRow.tail u.asRow.tail := by
  cases h with
  | var h => exact ⟨[], rfl, rfl, by simp, .var h⟩
  | emptyRow => exact ⟨[], rfl, rfl, by simp, .emptyRow⟩
  | record hfields htail => exact ⟨_, rfl, rfl, hfields, htail⟩

/-- Fields in front of a row. -/
theorem prepend {zs : Table (Ty × Ty)} (hzs : ∀ z ∈ zs, Like R .type z.2.1 z.2.2)
    (h : Like R .row t u) : Like R k (prepend (zs.mapValues Prod.fst) t.asRow).toRecord
      (prepend (zs.mapValues Prod.snd) u.asRow).toRecord := by
  obtain ⟨ws, ht, hu, hws, htail⟩ := h.asRow
  have hunion : ∀ f : Ty × Ty → Ty, (union [] (zs.mapValues f)).union (ws.mapValues f) =
      ((union [] zs).union ws).mapValues f := by
    intro f
    rw [mapValues_union, mapValues_union]
    rfl
  rw [Row.prepend, Row.prepend, ht, hu, hunion, hunion]
  refine .record (fun z hz => ?_) htail
  rcases mem_union hz with hz | hz
  · rcases mem_union hz with hz | hz
    · cases hz
    · exact hzs z hz
  · exact hws z hz

/-- The second type is the first one with other variables. -/
theorem exists_rename (h : Like R k t u)
    (hgen : ∀ k x y, R k x y → ∃ v w, x = .flex v ∧ y = .flex w)
    (hunique : ∀ k k' x y y', R k x y → R k' x y' → y = y')
    (hinj : ∀ k k' x x' y, R k x y → R k' x' y → x = x') :
    ∃ f : Nat → Nat, Set.InjOn f {v | t.Mentions v} ∧ u = t.subst (fill fun v => .flex (f v)) := by
  classical
  let f : Nat → Nat := fun v =>
    if h : ∃ k w, R k (.flex v) (.flex w) then h.choose_spec.choose else 0
  have hf : ∀ k v w, R k (.flex v) (.flex w) → f v = w := by
    intro k v w hvw
    have hex : ∃ k w, R k (.flex v) (.flex w) := ⟨k, w, hvw⟩
    have hchosen := hex.choose_spec.choose_spec
    have heq : f v = hex.choose_spec.choose := dif_pos hex
    rw [heq]
    cases hunique _ _ _ _ _ hchosen hvw
    rfl
  refine ⟨f, fun v hv w hw heq => ?_, ?_⟩
  · obtain ⟨k, y, hy, -⟩ := h.exists_right hv
    obtain ⟨k', y', hy', -⟩ := h.exists_right hw
    obtain ⟨-, v', -, rfl⟩ := hgen _ _ _ hy
    obtain ⟨-, w', -, rfl⟩ := hgen _ _ _ hy'
    rw [hf _ _ _ hy, hf _ _ _ hy'] at heq
    subst heq
    cases hinj _ _ _ _ _ hy hy'
    rfl
  · induction h with
    | var h =>
      obtain ⟨v, w, rfl, rfl⟩ := hgen _ _ _ h
      simp [subst, fill, hf _ _ _ h]
    | con hc _ ih =>
      simp only [subst, substList_eq, map_map]
      exact congrArg _ (map_congr_left fun p hp => ih p hp)
    | emptyRow => rfl
    | record _ _ ihf iht =>
      simp only [subst, substFields_eq, mapValues, map_map]
      refine congrArg₂ _ (map_congr_left fun z hz => ?_) iht
      exact congrArg (Prod.mk z.1) (ihf z hz)

end Like

end Ty

/-! ## Reading -/

namespace Registry

variable {r r' e : Registry} {t a u : Ty}

namespace Extends

section

variable {f : TyVar → Ty} (hext : r.Extends r') (hr : r.Acyclic) (hr' : r'.Acyclic)
  (hflex : ∀ v, f (.flex v) = .flex v) (hfix : ∀ v u, r.binding? v = some u → u.subst f = u)
include hext hr hr' hflex hfix

/-- Bindings that a substitution does not change can be followed before it. -/
theorem resolve_subst (t : Ty) : r'.resolve ((r.resolve t).subst f) = r'.resolve (t.subst f) := by
  induction t using resolve_induct hr with
  | bound v u hv ih =>
    rw [resolve_some hr hv, ih, hfix v u hv, subst, hflex, resolve_some hr' (hext.binding v u hv)]
  | done t hdone => rw [hdone.resolve]

/-- A row goes on from what it ended in before. -/
theorem row_subst (t : Ty) : r'.row (t.subst f) =
    .prepend (mapValues (subst f) (r.row t).fields) (r'.row ((r.row t).tail.subst f)) := by
  refine row_induct hr (motive := fun t row => r'.row (t.subst f) =
    .prepend (mapValues (subst f) row.fields) (r'.row (row.tail.subst f))) ?_ ?_ t
  · intro t fs tail heq ih
    have hres : r'.resolve (t.subst f) = .record (mapValues (subst f) fs) (tail.subst f) := by
      rw [← hext.resolve_subst hr hr' hflex hfix, heq, subst_record, resolve_record]
    rw [row_record hr' hres]
    refine eq_of_lookup ((Sorted.nil.union _).union _) (prepend_sorted _ _) ?_ ?_
    · simp [ih, prepend, mapValues_union, Option.or_assoc]
    · rw [ih]
      rfl
  · intro t _
    show _ = prepend [] _
    rw [prepend_nil (row_sorted hr' _), ← row_resolve hr' (t.subst f),
      ← row_resolve hr' ((r.resolve t).subst f), hext.resolve_subst hr hr' hflex hfix]

/-- What was read before is read on. -/
theorem resolveDeep_subst (t : Ty) :
    r'.resolveDeep ((r.resolveDeep t).subst f) = r'.resolveDeep (t.subst f) := by
  induction t using part_induct hr with
  | step t ih =>
    have hres : ∀ u, r.resolve t = u → (∀ v, u.subst f ≠ .flex v) →
        r'.resolve (t.subst f) = u.subst f := by
      intro u heq hu
      rw [← hext.resolve_subst hr hr' hflex hfix, heq, resolve_of_not_flex hu]
    cases heq : r.resolve t with
    | var x => rw [resolveDeep_var hr heq, ← resolveDeep_resolve hr' ((var x).subst f), ← heq,
        hext.resolve_subst hr hr' hflex hfix, resolveDeep_resolve hr']
    | con c args =>
      have ht := hres _ heq (by simp [subst])
      rw [subst, substList_eq] at ht
      rw [resolveDeep_con hr heq, resolveDeep_con hr' ht, subst, substList_eq,
        resolveDeep_con hr' resolve_con, map_map,
        map_map, map_map]
      exact congrArg _ (map_congr_left fun u hu => ih u (.inl (heq ▸ hu)))
    | record fs tail =>
      have ht := hres _ heq (by simp [subst])
      have hfields : mapValues r'.resolveDeep (mapValues (subst f)
          (mapValues r.resolveDeep (r.row t).fields)) =
          mapValues r'.resolveDeep (mapValues (subst f) (r.row t).fields) := by
        simp only [mapValues_mapValues]
        exact mapValues_congr fun e he => ih e.2 (.inr ⟨e, he, rfl⟩)
      rw [resolveDeep_record hr heq, resolveDeep_record hr' ht, subst_record,
        resolveDeep_record hr' resolve_record,
        row_record hr' resolve_record,
        hext.row_subst hr hr' hflex hfix t]
      refine congrArg₂ record ?_ rfl
      simp only [prepend, mapValues_union, hfields]
    | synonym id labels params target =>
      have ht := hres _ heq (by simp [subst])
      rw [subst, substList_eq] at ht
      rw [resolveDeep_synonym hr heq, resolveDeep_synonym hr' ht, subst, substList_eq,
        resolveDeep_synonym hr' resolve_synonym,
        map_map, map_map, map_map, ih target (.inl (by simp [heq, children]))]
      refine congrArg (synonym id labels · _) (map_congr_left fun u hu => ?_)
      exact ih u (.inl (by simp [heq, children, hu]))
    | module name members =>
      have ht := hres _ heq (by simp [subst])
      rw [resolveDeep_module hr heq, resolveDeep_module hr' ht, subst,
        resolveDeep_module hr' resolve_module]

end

variable (hext : r.Extends r') (hr : r.Acyclic) (hr' : r'.Acyclic)
include hext hr hr'

theorem resolveDeep_resolveDeep (t : Ty) : r'.resolveDeep (r.resolveDeep t) = r'.resolveDeep t := by
  have hsubst := hext.resolveDeep_subst hr hr' (fun _ => rfl)
    (fun _ u _ => u.subst_var) t
  rwa [subst_var, subst_var] at hsubst

/-- A type of which nothing more is known is read as before. -/
theorem resolveDeep_of_open
    (hopen : ∀ v, .flex v ∈ (r.resolveDeep t).occurrences → r'.binding? v = none) :
    r'.resolveDeep t = r.resolveDeep t := by
  rw [← hext.resolveDeep_resolveDeep hr hr']
  exact ((flat_resolveDeep hr t).mono fun v hv _ => hopen v hv).resolveDeep

end Extends

/-- A record is read as its fields in front of what it goes on with. -/
theorem resolveDeep_record_of_like {R : Kind → TyVar → TyVar → Prop} (hr : r.Acyclic)
    (fs : Table Ty) (h : Like R .row (r.resolveDeep a) u) :
    r.resolveDeep (.record fs a) =
      (prepend (mapValues r.resolveDeep fs) (r.resolveDeep a).asRow).toRecord := by
  have hrow : (r.resolveDeep a).asRow =
      ⟨mapValues r.resolveDeep (r.row a).fields, (r.row a).tail⟩ := by
    cases heq : r.resolve a with
    | var x =>
      rw [resolveDeep_var hr heq, row_other (by simp [heq]), heq]
      rfl
    | con c args =>
      rw [resolveDeep_con hr heq] at h ⊢
      rw [row_other (by simp [heq]), heq]
      generalize hargs : args.map r.resolveDeep = us at h
      cases h with
      | emptyRow =>
        cases map_eq_nil_iff.mp hargs
        rfl
    | record gs b =>
      rw [resolveDeep_record hr heq]
      rfl
    | synonym id labels params target =>
      rw [resolveDeep_synonym hr heq] at h
      cases h
    | module name members =>
      rw [resolveDeep_module hr heq] at h
      cases h
  rw [resolveDeep_record hr resolve_record, row_record hr resolve_record, hrow]
  refine congrArg₂ record ?_ rfl
  simp only [mapValues_union]
  rfl

/-- Types that are alike are read alike if what stands in the place of their
variables is. -/
theorem like_resolveDeep_subst {R R' : Kind → TyVar → TyVar → Prop} {f g : TyVar → Ty}
    (hr : r.Acyclic) (he : e.Acyclic)
    (hR : ∀ k x y, R k x y → Like R' k (r.resolveDeep (f x)) (e.resolveDeep (g y)))
    {k : Kind} (h : Like R k t u) :
    Like R' k (r.resolveDeep (t.subst f)) (e.resolveDeep (u.subst g)) := by
  induction h with
  | var h => exact hR _ _ _ h
  | con hc _ ih =>
    simp only [subst, substList_eq]
    rw [resolveDeep_con hr resolve_con, resolveDeep_con he resolve_con]
    simp only [map_map]
    exact .con_map hc _ _ _ ih
  | emptyRow =>
    simp only [subst, substList_eq]
    rw [resolveDeep_con hr resolve_con, resolveDeep_con he resolve_con]
    exact .emptyRow
  | @record k zs a b _ _ ihf iht =>
    have hzs : ∀ z ∈ mapValues (Prod.map (r.resolveDeep ∘ subst f)
        (e.resolveDeep ∘ subst g)) zs, Like R' .type z.2.1 z.2.2 :=
      forall_mem_map.mpr ihf
    have hfields := Like.prepend (k := k) hzs iht
    rw [subst_record, subst_record, resolveDeep_record_of_like hr _ iht,
      resolveDeep_record_of_like he _ iht.symm]
    simpa [mapValues, comp_def] using hfields

theorem like_resolveDeep {R R' : Kind → TyVar → TyVar → Prop} (hr : r.Acyclic) (he : e.Acyclic)
    (hR : ∀ k x y, R k x y → Like R' k (r.resolveDeep (.var x)) (e.resolveDeep (.var y)))
    {k : Kind} (h : Like R k t u) : Like R' k (r.resolveDeep t) (e.resolveDeep u) := by
  have hsubst := like_resolveDeep_subst hr he hR h
  rwa [subst_var, subst_var] at hsubst

end Registry

end RowTyping
