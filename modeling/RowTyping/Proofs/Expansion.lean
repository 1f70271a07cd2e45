import Mathlib.Logic.Equiv.Basic
import RowTyping.Proofs.Kinds
import RowTyping.Proofs.Shown

/-!
# Expanded synonyms

`Ty.expand` puts the target of every synonym in its place. A registry and another
one without synonyms read alike when their types unfold to the same tree, up to a
permutation of the open variables. Two types that read alike are searched and
flattened alike, and they still read alike after a variable is issued, solved on
both sides, or solved by its partner the other way around.
-/

namespace RowTyping

variable {r : Registry} {t : Ty}

open Table Ty Function List Option

namespace Ty

mutual

/-- The type with its synonyms replaced by their targets. The members of a module
stay as they are. -/
def expand : Ty → Ty
  | .var x => .var x
  | .con c args => .con c (expandList args)
  | .record fs tail => .record (expandFields fs) tail.expand
  | .synonym _ _ _ target => target.expand
  | .module name members => .module name members

def expandList : List Ty → List Ty
  | [] => []
  | t :: ts => t.expand :: expandList ts

def expandFields : List (String × Ty) → List (String × Ty)
  | [] => []
  | (l, t) :: fs => (l, t.expand) :: expandFields fs

end

theorem expandList_eq (ts : List Ty) : expandList ts = ts.map expand := by
  induction ts with
  | nil => rfl
  | cons t ts ih => rw [expandList, ih, map_cons]

theorem expandFields_eq (fs : Table Ty) : expandFields fs = mapValues expand fs := by
  induction fs with
  | nil => rfl
  | cons e fs ih =>
    rw [expandFields, ih]
    rfl

@[simp] theorem expand_var (x : TyVar) : (var x).expand = .var x := by rw [expand]

@[simp] theorem expand_con (c : Con) (args : List Ty) :
    (con c args).expand = .con c (args.map expand) := by rw [expand, expandList_eq]

@[simp] theorem expand_record (fs : Table Ty) (tail : Ty) :
    (record fs tail).expand = .record (mapValues expand fs) tail.expand := by
  rw [expand, expandFields_eq]

@[simp] theorem expand_synonym (id : Nat) (labels : List String) (params : List Ty) (target : Ty) :
    (synonym id labels params target).expand = target.expand := by rw [expand]

@[simp] theorem expand_module (name : String) (members : Env) :
    (module name members).expand = .module name members := by rw [expand]

theorem expand_bare (t : Ty) : t.bare.expand = t.expand := by
  induction t with
  | var x => rfl
  | con c args ih =>
    rw [bare_con, expand_con, expand_con, List.map_map]
    exact congrArg _ (map_congr_left ih)
  | record fs tail ihf iht =>
    rw [bare_record, expand_record, expand_record, iht, mapValues_mapValues]
    rw [mapValues_congr ihf]
  | synonym id labels params target _ iht => simpa using iht
  | module name members => rfl

theorem mentions_expand {t : Ty} {v : Nat} (h : t.expand.Mentions v) : t.Mentions v := by
  induction t with
  | var x => simpa using h
  | con c args ih =>
    rw [expand_con] at h
    obtain ⟨u, hu, hv⟩ := (mem_occurrences.mp h).resolve_left (by simp)
    obtain ⟨t, ht, rfl⟩ := mem_map.mp hu
    exact (ih t ht hv).of_child (show t ∈ (con c args).children from ht)
  | record fs tail ihf iht =>
    rw [expand_record] at h
    obtain ⟨u, hu, hv⟩ := (mem_occurrences.mp h).resolve_left (by simp)
    rcases mem_children_record.mp hu with ⟨e, he, rfl⟩ | rfl
    · obtain ⟨f, hf, rfl⟩ := mem_map.mp he
      exact (ihf f hf hv).of_child (mem_children_record.mpr (.inl ⟨f, hf, rfl⟩))
    · exact (iht hv).of_child (mem_children_record.mpr (.inr rfl))
  | synonym id labels params target _ iht =>
    exact (iht h).of_child (by simp [children])
  | module name members => simpa using h

end Ty

namespace Registry

/-- The registry with the synonyms in its bindings expanded. -/
def expand (r : Registry) : Registry :=
  { r with cells := r.cells.map fun c => { c with binding := c.binding.map Ty.expand } }

variable {r e : Registry}

@[simp] theorem varCount_expand (r : Registry) : r.expand.varCount = r.varCount := by
  simp [expand, varCount]

@[simp] theorem binding?_expand (r : Registry) (v : Nat) :
    r.expand.binding? v = (r.binding? v).map Ty.expand := by
  simp only [expand, binding?, Array.getElem?_map]
  cases r.cells[v]? <;> rfl

theorem bare_expand (r : Registry) : r.bare.expand = r.expand := by
  simp [bare, expand, comp_def, expand_bare]

theorem acyclic_expand (hr : r.Acyclic) : r.expand.Acyclic := by
  intro v hv
  refine hr v (hv.lift id fun x y hxy => ?_)
  obtain ⟨t, ht, hy⟩ := hxy
  rw [binding?_expand] at ht
  obtain ⟨u, hu, rfl⟩ := map_eq_some_iff.mp ht
  exact ⟨u, hu, mentions_expand hy⟩

/-- A binding changes what a type is resolved to only if that was the variable. -/
theorem resolve_setBinding_of_ne (hr : r.Acyclic) {v : Nat} {t b : Ty}
    (hb : (r.setBinding v b).Acyclic) (hv : r.binding? v = none) (ht : r.resolve t ≠ .flex v) :
    (r.setBinding v b).resolve t = r.resolve t := by
  have hother : ∀ {w}, w ≠ v → (r.setBinding v b).binding? w = r.binding? w := by
    intro w hw
    rw [binding?_setBinding, if_neg fun h => hw h.1.symm]
  induction t using resolve_induct hr with
  | bound w u hw ih =>
    have hwv : w ≠ v := by
      rintro rfl
      rw [hv] at hw
      cases hw
    rw [resolve_some hr hw] at ht ⊢
    rw [resolve_some hb ((hother hwv).trans hw), ih ht]
  | done t hdone =>
    rw [hdone.resolve] at ht ⊢
    refine Resolved.resolve fun w hw => ?_
    rw [hother fun h => ht (h ▸ hw)]
    exact hdone w hw

theorem resolve_setBinding_of_eq (hr : r.Acyclic) {v : Nat} {t b : Ty}
    (hb : (r.setBinding v b).Acyclic) (hv : r.binding? v = none) (hlt : v < r.varCount)
    (ht : r.resolve t = .flex v) : (r.setBinding v b).resolve t = (r.setBinding v b).resolve b := by
  induction t using resolve_induct hr with
  | bound w u hw ih =>
    have hwv : w ≠ v := by
      rintro rfl
      rw [hv] at hw
      cases hw
    rw [resolve_some hr hw] at ht
    rw [← ih ht]
    exact resolve_some hb (by rw [binding?_setBinding, if_neg fun h => hwv h.1.symm, hw])
  | done t hdone =>
    rw [hdone.resolve] at ht
    rw [ht]
    exact resolve_some hb (by rw [binding?_setBinding, if_pos ⟨rfl, hlt⟩])

/-- Reading an expanded type goes on from what the type is resolved to. -/
theorem resolve_expand (hr : r.Acyclic) (t : Ty) :
    r.expand.resolve t.expand = r.expand.resolve (r.resolve t).expand := by
  induction t using resolve_induct hr with
  | bound v u hv ih =>
    rw [resolve_some hr hv, ← ih]
    exact resolve_some (acyclic_expand hr) (by rw [binding?_expand, hv]; rfl)
  | done t hdone => rw [hdone.resolve]

end Registry

/-! ## Reading alike -/

/-- The two types unfold to the same tree, the first one through synonyms. The open
variables correspond by `π`, and each stands for what `K` says. If `G`, no synonym
stands for an open variable. -/
inductive ReadAlike (G : Prop) (K : Nat → Kind) (π : Equiv.Perm Nat) (r e : Registry) :
    Kind → Ty → Ty → Prop where
  | flex {k : Kind} {t u : Ty} {v : Nat} (ht : r.resolve t = .flex v)
      (hu : e.resolve u = .flex (π v)) (hv : v < r.varCount) (hk : K v = k) :
      ReadAlike G K π r e k t u
  | gen {k : Kind} {t u : Ty} {g : Nat} (ht : r.resolve t = .gen g) (hu : e.resolve u = .gen g) :
      ReadAlike G K π r e k t u
  | con {k : Kind} {t u : Ty} {c : Con} {ps : List (Ty × Ty)}
      (ht : r.resolve t = .con c (ps.map Prod.fst)) (hu : e.resolve u = .con c (ps.map Prod.snd))
      (hk : k = .row → c = .emptyRow) (hempty : c = .emptyRow → ps = [])
      (hargs : ∀ p ∈ ps, ReadAlike G K π r e .type p.1 p.2) : ReadAlike G K π r e k t u
  | record {k : Kind} {t u : Ty} {zs : Table (Ty × Ty)} {a b : Ty}
      (ht : r.resolve t = .record (zs.mapValues Prod.fst) a)
      (hu : e.resolve u = .record (zs.mapValues Prod.snd) b)
      (hfields : ∀ z ∈ zs, ReadAlike G K π r e .type z.2.1 z.2.2)
      (htail : ReadAlike G K π r e .row a b) :
      ReadAlike G K π r e k t u
  | synonym {t u : Ty} {id : Nat} {labels : List String} {params : List Ty} {target : Ty}
      (ht : r.resolve t = .synonym id labels params target)
      (htarget : ReadAlike G K π r e .type target u) (hfirm : G → ∀ v, e.resolve u ≠ .flex v) :
      ReadAlike G K π r e .type t u
  | module {t u : Ty} {name : String} {members : Env} (ht : r.resolve t = .module name members)
      (hu : e.resolve u = .module name members) : ReadAlike G K π r e .type t u

namespace ReadAlike

open Registry

variable {G : Prop} {K : Nat → Kind} {π : Equiv.Perm Nat} {r r₁ e e₁ : Registry} {k : Kind}
  {t t' u u' : Ty} {v : Nat}

/-- Only what the types are resolved to matters. -/
theorem congr (h : ReadAlike G K π r e k t u) (ht : r.resolve t' = r.resolve t)
    (hu : e.resolve u' = e.resolve u) : ReadAlike G K π r e k t' u' := by
  induction h generalizing t' u' with
  | flex ht' hu' hv hk => exact .flex (ht.trans ht') (hu.trans hu') hv hk
  | gen ht' hu' => exact .gen (ht.trans ht') (hu.trans hu')
  | con ht' hu' hk hempty hargs => exact .con (ht.trans ht') (hu.trans hu') hk hempty hargs
  | record ht' hu' hfields htail => exact .record (ht.trans ht') (hu.trans hu') hfields htail
  | synonym ht' _ hfirm ih => exact .synonym (ht.trans ht') (ih rfl hu) fun hG => hu ▸ hfirm hG
  | module ht' hu' => exact .module (ht.trans ht') (hu.trans hu')

theorem resolve (h : ReadAlike G K π r e k t u) (hr : r.Acyclic) (he : e.Acyclic) :
    ReadAlike G K π r e k (r.resolve t) (e.resolve u) :=
  h.congr (resolve_resolve hr t) (resolve_resolve he u)

/-- Registries that resolve every type as others do read alike where those do. -/
theorem reread (h : ReadAlike G K π r e k t u) (hr : ∀ t, r₁.resolve t = r.resolve t)
    (he : ∀ u, e₁.resolve u = e.resolve u) (hcount : r.varCount ≤ r₁.varCount) :
    ReadAlike G K π r₁ e₁ k t u := by
  induction h with
  | flex ht hu hv hk => exact .flex ((hr _).trans ht) ((he _).trans hu) (hv.trans_le hcount) hk
  | gen ht hu => exact .gen ((hr _).trans ht) ((he _).trans hu)
  | con ht hu hk hempty _ ih => exact .con ((hr _).trans ht) ((he _).trans hu) hk hempty ih
  | record ht hu _ _ ihf iht => exact .record ((hr _).trans ht) ((he _).trans hu) ihf iht
  | synonym ht _ hfirm ih =>
    exact .synonym ((hr _).trans ht) ih fun hG v => (he _).symm ▸ hfirm hG v
  | module ht hu => exact .module ((hr _).trans ht) ((he _).trans hu)

/-! ## What a type is, the other one is -/

theorem of_flex (h : ReadAlike G K π r e k t u) (ht : r.resolve t = .flex v) :
    e.resolve u = .flex (π v) ∧ v < r.varCount ∧ K v = k := by
  cases h <;> simp_all

theorem of_con {c : Con} {ts : List Ty} (h : ReadAlike G K π r e k t u)
    (ht : r.resolve t = .con c ts) :
    ∃ ps : List (Ty × Ty), ts = ps.map Prod.fst ∧ e.resolve u = .con c (ps.map Prod.snd) ∧
      (c = .emptyRow → ps = []) ∧ ∀ p ∈ ps, ReadAlike G K π r e .type p.1 p.2 := by
  cases h with
  | con ht' hu _ hempty hargs =>
    rw [ht] at ht'
    cases ht'
    exact ⟨_, rfl, hu, hempty, hargs⟩
  | _ => simp_all

theorem of_record {fs : Table Ty} {a : Ty} (h : ReadAlike G K π r e k t u)
    (ht : r.resolve t = .record fs a) :
    ∃ (zs : Table (Ty × Ty)) (b : Ty), fs = zs.mapValues Prod.fst ∧
      e.resolve u = .record (zs.mapValues Prod.snd) b ∧
      (∀ z ∈ zs, ReadAlike G K π r e .type z.2.1 z.2.2) ∧ ReadAlike G K π r e .row a b := by
  cases h with
  | record ht' hu hfields htail =>
    rw [ht] at ht'
    cases ht'
    exact ⟨_, _, rfl, hu, hfields, htail⟩
  | _ => simp_all

theorem of_synonym {id : Nat} {labels : List String} {params : List Ty} {target : Ty}
    (h : ReadAlike G K π r e k t u) (ht : r.resolve t = .synonym id labels params target) :
    k = .type ∧ ReadAlike G K π r e .type target u ∧ (G → ∀ v, e.resolve u ≠ .flex v) := by
  cases h with
  | synonym ht' htarget hfirm =>
    rw [ht] at ht'
    cases ht'
    exact ⟨rfl, htarget, hfirm⟩
  | _ => simp_all

/-- A record or the empty row is also the rest of a record. -/
theorem asRow (h : ReadAlike G K π r e k t u) (hform : (r.resolve t).IsRowForm) :
    ReadAlike G K π r e .row t u := by
  rcases hform with hrec | ⟨ts, hempty⟩
  · obtain ⟨fs, a, heq⟩ := eq_record_of_isRecord hrec
    obtain ⟨zs, b, rfl, hu, hfields, htail⟩ := h.of_record heq
    exact .record heq hu hfields htail
  · obtain ⟨ps, rfl, hu, hnil, hargs⟩ := h.of_con hempty
    exact .con hempty hu (fun _ => rfl) hnil hargs

/-- The variable that a type stands for occurs in its partner. -/
theorem occurs_of_flex (h : ReadAlike G K π r e k t u) (hr : r.Acyclic) {w : Nat}
    (hu : e.resolve u = .flex w) :
    ∃ v, w = π v ∧ r.occurs v t = true ∧ v < r.varCount ∧ K v = k := by
  induction h with
  | flex ht hu' hv hk =>
    rw [hu'] at hu
    cases hu
    exact ⟨_, rfl, by rw [occurs_eq hr, occursStep, ht]; simp, hv, hk⟩
  | synonym ht _ _ ih =>
    obtain ⟨v, hw, hocc, hv, hk⟩ := ih hu
    exact ⟨v, hw, by rw [occurs_eq hr, occursStep, ht]; exact hocc, hv, hk⟩
  | _ => simp_all

/-- Both are searched alike. -/
theorem occurs_eq (h : ReadAlike G K π r e k t u) (hr : r.Acyclic) (he : e.Acyclic) (v : Nat) :
    e.occurs (π v) u = r.occurs v t := by
  induction h with
  | flex ht hu hv hk =>
    rw [Registry.occurs_eq hr, Registry.occurs_eq he, occursStep, occursStep, ht, hu]
    simp
  | gen ht hu =>
    rw [Registry.occurs_eq hr, Registry.occurs_eq he, occursStep, occursStep, ht, hu]
  | con ht hu _ _ _ ih =>
    rw [Registry.occurs_eq hr, Registry.occurs_eq he, occursStep, occursStep, ht, hu]
    simp only [List.any_map]
    exact any_congr_mem fun p hp => ih p hp
  | record ht hu _ _ ihf iht =>
    rw [Registry.occurs_eq hr, Registry.occurs_eq he, occursStep, occursStep, ht, hu]
    simp only [mapValues, List.any_map, iht]
    exact congrArg (· || _) (any_congr_mem fun z hz => ihf z hz)
  | synonym ht _ _ ih =>
    rw [ih]
    conv_rhs => rw [Registry.occurs_eq hr, occursStep, ht]
  | module ht hu =>
    rw [Registry.occurs_eq hr, Registry.occurs_eq he, occursStep, occursStep, ht, hu]

/-! ## Steps -/

section

variable {b b' : Ty} (hr : r.Acyclic) (he : e.Acyclic) (hb : (r.setBinding v b).Acyclic)
  (hb' : (e.setBinding (π v) b').Acyclic) (hv : r.binding? v = none)
  (hv' : e.binding? (π v) = none)
include hr he hb hb' hv hv'

/-- What reads alike still does so if, where the variable is met, its solutions do. -/
theorem setBinding_of (h : ReadAlike G K π r e k t u) (hlt' : π v < e.varCount)
    (hsol : r.occurs v t = true →
      ReadAlike G K π (r.setBinding v b) (e.setBinding (π v) b') (K v) b b') :
    ReadAlike G K π (r.setBinding v b) (e.setBinding (π v) b') k t u := by
  have hleft := fun {t : Ty} => resolve_setBinding_of_ne hr (t := t) hb hv
  have hright := fun {u : Ty} => resolve_setBinding_of_ne he (t := u) hb' hv'
  induction h with
  | @flex _ _ _ w ht hu hw hk =>
    rw [Registry.occurs_eq hr, occursStep, ht] at hsol
    by_cases hwv : w = v
    · subst hwv
      rw [← hk]
      exact (hsol (by simp)).congr (resolve_setBinding_of_eq hr hb hv hw ht)
        (resolve_setBinding_of_eq he hb' hv' hlt' hu)
    · exact .flex ((hleft (by simpa [ht] using hwv)).trans ht)
        ((hright (by simpa [hu] using hwv)).trans hu) (by simpa using hw) hk
  | gen ht hu =>
    exact .gen ((hleft (by simp [ht])).trans ht) ((hright (by simp [hu])).trans hu)
  | con ht hu hk hempty _ ih =>
    rw [Registry.occurs_eq hr, occursStep, ht] at hsol
    refine .con ((hleft (by simp [ht])).trans ht) ((hright (by simp [hu])).trans hu) hk hempty ?_
    exact fun p hp => ih p hp fun hocc => hsol (any_eq_true.mpr ⟨_, mem_map_of_mem hp, hocc⟩)
  | record ht hu _ _ ihf iht =>
    rw [Registry.occurs_eq hr, occursStep, ht, Bool.or_eq_true] at hsol
    refine .record ((hleft (by simp [ht])).trans ht) ((hright (by simp [hu])).trans hu) ?_
      (iht fun hocc => hsol (.inr hocc))
    exact fun z hz => ihf z hz
      fun hocc => hsol (.inl (any_eq_true.mpr ⟨_, mem_map_of_mem hz, hocc⟩))
  | synonym ht _ hfirm ih =>
    rw [Registry.occurs_eq hr, occursStep, ht] at hsol
    refine .synonym ((hleft (by simp [ht])).trans ht) (ih hsol) fun hG w => ?_
    rw [hright (hfirm hG _)]
    exact hfirm hG w
  | module ht hu =>
    exact .module ((hleft (by simp [ht])).trans ht) ((hright (by simp [hu])).trans hu)

/-- A variable and its partner are solved by types that read alike. -/
theorem setBinding (h : ReadAlike G K π r e k t u) (hbb : ReadAlike G K π r e (K v) b b')
    (hocc : r.occurs v b = false) (hlt' : π v < e.varCount) :
    ReadAlike G K π (r.setBinding v b) (e.setBinding (π v) b') k t u := by
  have hsolution := setBinding_of hr he hb hb' hv hv' hbb hlt' fun h => by simp [hocc] at h
  exact setBinding_of hr he hb hb' hv hv' h hlt' fun _ => hsolution

end

/-- Of two variables that are made equal, either one can be bound to the other. -/
theorem reorient {x y : Nat} (he : e.Acyclic) (hxy : (e.setBinding x (.flex y)).Acyclic)
    (hyx : (e.setBinding y (.flex x)).Acyclic) (hx : e.binding? x = none)
    (hy : e.binding? y = none) (hltx : x < e.varCount) (hlty : y < e.varCount) (hne : x ≠ y)
    (h : ReadAlike G K π r (e.setBinding x (.flex y)) k t u) :
    ReadAlike G K (π.trans (Equiv.swap x y)) r (e.setBinding y (.flex x)) k t u := by
  have hopenx : (e.setBinding y (.flex x)).resolve (.flex x) = .flex x := by
    refine resolve_none ?_
    rw [binding?_setBinding, if_neg fun h => hne h.1.symm, hx]
  have hopeny : (e.setBinding x (.flex y)).resolve (.flex y) = .flex y := by
    refine resolve_none ?_
    rw [binding?_setBinding, if_neg fun h => hne h.1, hy]
  have hread : ∀ u, ((e.setBinding x (.flex y)).resolve u = .flex y ∧
        (e.setBinding y (.flex x)).resolve u = .flex x) ∨
      (e.setBinding x (.flex y)).resolve u ≠ .flex x ∧
        (e.setBinding x (.flex y)).resolve u ≠ .flex y ∧
        (e.setBinding y (.flex x)).resolve u = (e.setBinding x (.flex y)).resolve u := by
    intro u
    by_cases hux : e.resolve u = .flex x
    · rw [resolve_setBinding_of_eq he hxy hx hltx hux,
        resolve_setBinding_of_ne he hyx hy (by simpa [hux] using hne), hux]
      exact .inl ⟨hopeny, rfl⟩
    · by_cases huy : e.resolve u = .flex y
      · rw [resolve_setBinding_of_eq he hyx hy hlty huy,
          resolve_setBinding_of_ne he hxy hx hux, huy]
        exact .inl ⟨rfl, hopenx⟩
      · rw [resolve_setBinding_of_ne he hxy hx hux, resolve_setBinding_of_ne he hyx hy huy]
        exact .inr ⟨hux, huy, rfl⟩
  have hsame : ∀ {u}, (∀ w, (e.setBinding x (.flex y)).resolve u ≠ .flex w) →
      (e.setBinding y (.flex x)).resolve u = (e.setBinding x (.flex y)).resolve u := by
    intro u hu
    rcases hread u with ⟨huy, -⟩ | ⟨-, -, heq⟩
    · exact absurd huy (hu y)
    · exact heq
  induction h with
  | @flex _ _ u v ht hu hv hk =>
    refine .flex ht ?_ hv hk
    rcases hread u with ⟨huy, hux⟩ | ⟨hnx, hny, heq⟩
    · rw [hu] at huy
      cases huy
      simpa using hux
    · rw [heq, hu, Equiv.trans_apply, Equiv.swap_apply_of_ne_of_ne]
      · rintro rfl
        exact hnx hu
      · rintro rfl
        exact hny hu
  | gen ht hu => exact .gen ht ((hsame (by simp [hu])).trans hu)
  | con ht hu hk hempty _ ih => exact .con ht ((hsame (by simp [hu])).trans hu) hk hempty ih
  | record ht hu _ _ ihf iht => exact .record ht ((hsame (by simp [hu])).trans hu) ihf iht
  | synonym ht _ hfirm ih =>
    exact .synonym ht ih fun hG w => (hsame (hfirm hG)).symm ▸ hfirm hG w
  | module ht hu => exact .module ht ((hsame (by simp [hu])).trans hu)

/-! ## Rows and solutions -/

/-- Two rows have the same labels, with fields and ends that read alike. -/
def Rows (G : Prop) (K : Nat → Kind) (π : Equiv.Perm Nat) (r e : Registry) (mine theirs : Row) :
    Prop :=
  ∃ zs : Table (Ty × Ty), mine.fields = zs.mapValues Prod.fst ∧
    theirs.fields = zs.mapValues Prod.snd ∧ (∀ z ∈ zs, ReadAlike G K π r e .type z.2.1 z.2.2) ∧
    ReadAlike G K π r e .row mine.tail theirs.tail

/-- Both are flattened alike. -/
theorem row (h : ReadAlike G K π r e .row t u) (hr : r.Acyclic) (he : e.Acyclic) :
    Rows G K π r e (r.row t) (e.row u) := by
  generalize hk : Kind.row = k at h
  have hother : ∀ {t u : Ty}, ReadAlike G K π r e .row t u →
      (∀ fs a, r.resolve t ≠ .record fs a) → (∀ fs a, e.resolve u ≠ .record fs a) →
      Rows G K π r e (r.row t) (e.row u) := by
    intro t u h ht hu
    rw [row_other ht, row_other hu]
    exact ⟨[], rfl, rfl, by simp, h.resolve hr he⟩
  induction h with
  | flex ht hu hv hK =>
    subst hk
    exact hother (.flex ht hu hv hK) (by simp [ht]) (by simp [hu])
  | gen ht hu => exact hother (.gen ht hu) (by simp [ht]) (by simp [hu])
  | con ht hu hc hempty hargs =>
    subst hk
    exact hother (.con ht hu hc hempty hargs) (by simp [ht]) (by simp [hu])
  | @record _ _ _ zs _ _ ht hu hfields _ _ iht =>
    obtain ⟨ws, hmine, htheirs, hws, htail⟩ := iht rfl
    rw [row_record hr ht, row_record he hu, hmine, htheirs]
    refine ⟨(union [] zs).union ws, ?_, ?_, fun z hz => ?_, htail⟩
    · rw [mapValues_union, mapValues_union]
      rfl
    · rw [mapValues_union, mapValues_union]
      rfl
    · rcases mem_union hz with hz | hz
      · rcases mem_union hz with hz | hz
        · simp at hz
        · exact hfields z hz
      · exact hws z hz
  | synonym => cases hk
  | module => cases hk

/-- The substitution of variables by others. -/
def relabel (π : Equiv.Perm Nat) : TyVar → Ty := Ty.fill fun v => .flex (π v)

/-- What rows end in is the same, up to the permutation. -/
theorem expand_end (h : ReadAlike G K π r e .row t u) (ht : r.resolve t = t) (hu : e.resolve u = u)
    (hrec : t.isRecord = false) : u.expand = t.expand.subst (relabel π) := by
  cases h with
  | flex ht' hu' =>
    rw [← ht, ← hu, ht', hu']
    simp [subst, relabel, fill]
  | gen ht' hu' =>
    rw [← ht, ← hu, ht', hu']
    simp [subst, relabel, fill]
  | con ht' hu' hc hempty =>
    rw [hempty (hc rfl)] at ht' hu'
    rw [← ht, ← hu, ht', hu']
    simp [subst, substList_eq]
  | record ht' =>
    rw [← ht, ht'] at hrec
    cases hrec

/-- What both are resolved to is the same, synonyms apart and up to the permutation
of open variables. -/
theorem resolveDeep (h : ReadAlike G K π r e k t u) (hr : r.Acyclic) (he : e.Acyclic) :
    (e.resolveDeep u).expand = ((r.resolveDeep t).expand).subst (relabel π) := by
  induction t using part_induct hr generalizing k u with
  | step t ih =>
    cases h with
    | flex ht hu hv hk =>
      rw [resolveDeep_var hr ht, resolveDeep_var he hu]
      simp [Ty.subst, relabel, Ty.fill]
    | gen ht hu =>
      rw [resolveDeep_var hr ht, resolveDeep_var he hu]
      simp [Ty.subst, relabel, Ty.fill]
    | con ht hu _ _ hargs =>
      rw [resolveDeep_con hr ht, resolveDeep_con he hu, Ty.expand_con, Ty.expand_con, Ty.subst,
        Ty.substList_eq]
      simp only [List.map_map]
      refine congrArg _ (map_congr_left fun p hp => ?_)
      refine ih p.1 (.inl ?_) (hargs p hp)
      rw [ht]
      exact mem_map_of_mem hp
    | record ht hu hfields htail =>
      obtain ⟨zs, hmine, htheirs, hzs, hend⟩ := (ReadAlike.record ht hu hfields htail).row hr he
      rw [resolveDeep_record hr ht, resolveDeep_record he hu, Ty.expand_record, Ty.expand_record,
        Ty.subst, Ty.substFields_eq, htheirs, hmine]
      obtain ⟨hresolved, hrec⟩ := row_tail hr t
      refine congrArg₂ Ty.record ?_
        (hend.expand_end hresolved.resolve (row_tail he u).1.resolve hrec)
      simp only [Table.mapValues, List.map_map]
      refine List.map_congr_left fun z hz => congrArg (Prod.mk z.1) ?_
      refine ih z.2.1 (.inr ⟨(z.1, z.2.1), ?_, rfl⟩) (hzs z hz)
      rw [hmine]
      exact mem_map_of_mem hz
    | synonym ht htarget _ =>
      rw [resolveDeep_synonym hr ht]
      exact ih _ (.inl (by rw [ht]; simp [Ty.children])) htarget
    | module ht hu =>
      rw [resolveDeep_module hr ht, resolveDeep_module he hu]
      simp [Ty.subst]

end ReadAlike

/-! ## Expanding reads alike -/

/-- No synonym that reading the type comes to stands for an open variable. -/
def Registry.Firm (r : Registry) (t : Ty) : Prop :=
  ∀ u, Relation.ReflTransGen (fun x y => r.Part y x) t u → ∀ id labels params target,
    r.resolve u = .synonym id labels params target → ∀ v, r.expand.resolve target.expand ≠ .flex v

open Registry

theorem Registry.firm_of_all {P : Ty → Prop} (hr : r.Acyclic) (hb : r.AllBindings (All P))
    (hP : ∀ {id labels params target}, P (.synonym id labels params target) →
      ∀ v, r.expand.resolve target.expand ≠ .flex v)
    (ht : t.All P) : r.Firm t := by
  intro u hu id labels params target heq
  have hall : u.All P := by
    clear heq
    induction hu with
    | refl => exact ht
    | tail _ hpart ih =>
      rcases hpart with hchild | ⟨f, hf, rfl⟩
      · exact (hb.resolve hr ih).child hchild
      · exact (hb.row hr (fun h hu => h.child hu) (fun h => h) ih).1 f hf
  have hhere := (hb.resolve hr hall).here
  rw [heq] at hhere
  exact hP hhere

theorem Registry.Kinded.resolve {E : Prop} {K : Nat → Kind} (h : r.Kinded E K) (hr : r.Acyclic)
    {k : Kind} (ht : t.HasKind E K k) : (r.resolve t).HasKind E K k := by
  induction t using resolve_induct hr with
  | bound v u hv ih =>
    rw [resolve_some hr hv]
    exact ih (hasKind_flex.mp ht ▸ h v u hv)
  | done t hdone => rwa [hdone.resolve]

/-- A type and its expansion read alike. -/
theorem readAlike_expand {G E : Prop} {K : Nat → Kind} (hr : r.Acyclic) (hscope : r.Scoped)
    (hkinded : r.Kinded E K) {k : Kind} (hk : t.HasKind E K k) (ht : t.Scoped r.varCount)
    (hG : G → r.Firm t) : ReadAlike G K (Equiv.refl Nat) r r.expand k t t.expand := by
  induction t using part_induct hr generalizing k with
  | step t ih =>
    have hk' := hkinded.resolve hr hk
    have hscope' : (r.resolve t).Scoped r.varCount :=
      AllBindings.resolve hscope hr ht
    have hread := resolve_expand hr t
    -- the parts of what the type is resolved to read alike
    have hpart : ∀ {k u}, u ∈ (r.resolve t).children → u.HasKind E K k →
        ReadAlike G K (Equiv.refl Nat) r r.expand k u u.expand := fun {k u} hu hku =>
      ih u (.inl hu) hku (fun v hv => hscope' v (hv.of_child hu))
        fun g w hw => hG g w (hw.head (.inl hu))
    cases heq : r.resolve t with
    | var x =>
      rw [heq] at hk' hscope' hread
      cases x with
      | flex v =>
        refine .flex heq (hread.trans (resolve_none ?_)) (hscope' v (mentions_flex.mpr rfl))
          (hasKind_flex.mp hk')
        rw [binding?_expand, binding?_of_resolve hr heq]
        rfl
      | gen g => exact .gen heq (hread.trans resolve_gen)
    | con c args =>
      rw [heq] at hk' hread
      have hargs : ∀ p ∈ args.map fun a => (a, a.expand),
          ReadAlike G K (Equiv.refl Nat) r r.expand .type p.1 p.2 := by
        refine forall_mem_map.mpr fun a ha => hpart (by rw [heq]; exact ha) ?_
        cases hk' with
        | con _ hargs => exact hargs a ha
        | emptyRow => cases ha
      refine .con (c := c) ?_ ?_ ?_ ?_ hargs
      · simp [heq, comp_def]
      · rw [hread, expand_con, List.map_map]
        exact resolve_con
      · rintro rfl
        cases hk'
        rfl
      · rintro rfl
        cases hk' with
        | con hc => exact absurd rfl hc
        | emptyRow => rfl
    | record fs tail =>
      rw [heq] at hk' hread
      cases hk' with
      | record hfields htail =>
        have hrest := hpart (by rw [heq]; exact mem_children_record.mpr (.inr rfl)) htail
        have hparts : ∀ z ∈ mapValues (fun a => (a, a.expand)) fs,
            ReadAlike G K (Equiv.refl Nat) r r.expand .type z.2.1 z.2.2 := by
          refine forall_mem_map.mpr fun f hf => ?_
          exact hpart (by rw [heq]; exact mem_children_record.mpr (.inl ⟨f, hf, rfl⟩))
            (hfields f hf)
        refine .record ?_ ?_ hparts hrest
        · rw [heq, mapValues_mapValues]
          exact congrArg₂ record (by simp [mapValues]) rfl
        · rw [hread, expand_record, mapValues_mapValues]
          exact resolve_record
    | synonym id labels params target =>
      rw [heq] at hk' hread
      cases hk' with
      | synonym htarget =>
        refine .synonym heq ((hpart (by simp [heq, children]) htarget).congr rfl hread) ?_
        intro g v
        rw [hread]
        exact hG g t .refl id labels params target heq v
    | module name members =>
      rw [heq] at hk' hread
      cases hk'
      exact .module heq (hread.trans resolve_module)

end RowTyping
