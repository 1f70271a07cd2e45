import RowTyping.Proofs.Chains
import RowTyping.Proofs.Shown

/-!
# Rigid solutions

What a registry determines is shown by one solution: every type is resolved, and
each variable that is still open gets a generalized variable of its own. No label
repeats along a row-coherent record, so this is a solution indeed.
-/

namespace RowTyping

open Row Table Ty Finset List Option

theorem Ty.ground_subst {f : TyVar → Ty} (hf : ∀ x, (f x).Ground) (t : Ty) :
    (t.subst f).Ground := by
  intro v hv
  induction t with
  | var x => exact hf x v hv
  | con c args ih =>
    obtain ⟨u, hu, hv⟩ := (mem_occurrences.mp hv).resolve_left (by simp [subst])
    simp only [subst, substList_eq, children, List.mem_map] at hu
    obtain ⟨t, ht, rfl⟩ := hu
    exact ih t ht hv
  | record fs tail ihf iht =>
    obtain ⟨u, hu, hv⟩ := (mem_occurrences.mp hv).resolve_left (by simp [subst])
    rw [subst, mem_children_record, substFields_eq] at hu
    rcases hu with ⟨e, he, rfl⟩ | rfl
    · obtain ⟨e', he', rfl⟩ := List.mem_map.mp he
      exact ihf e' he' hv
    · exact iht hv
  | synonym id labels params target ihp iht =>
    obtain ⟨u, hu, hv⟩ := (mem_occurrences.mp hv).resolve_left (by simp [subst])
    simp only [subst, substList_eq, children, List.mem_append, List.mem_map,
      List.mem_singleton] at hu
    rcases hu with ⟨t, ht, rfl⟩ | rfl
    · exact ihp t ht hv
    · exact iht hv
  | module name members =>
    obtain ⟨u, hu, -⟩ := (mem_occurrences.mp hv).resolve_left (by simp [subst])
    simp [subst, children] at hu

/-- Generalized variables in the place of variables, counted from `N` on. -/
def stiff (N v : Nat) : Ty := .gen (N + v)

/-- The assignment that resolves every variable, with generalized variables in the
place of those that are open. -/
def Registry.rigid (r : Registry) (N v : Nat) : Ty := (r.solution v).subst (Ty.fill (stiff N))

namespace Registry

variable {E : Prop} {K : Nat → Kind} {φ : Nat → Finset String} {r : Registry} {N n : Nat} {k : Kind}
  {t : Ty} {v : Nat}

theorem ground_rigid (r : Registry) (N v : Nat) : (r.rigid N v).Ground := by
  refine ground_subst (fun x w hw => ?_) _
  cases x with
  | flex v => simp [fill, stiff, Mentions, occurrences] at hw
  | gen g => simp [fill, Mentions, occurrences] at hw

theorem value_rigid (hr : r.WellFormed (SimpleKind E K n)) (ht : SimpleKind E K n k t) :
    t.value (r.rigid N) = (r.resolveDeep t).value (stiff N) := by
  have hcomp : t.subst (fill (r.rigid N)) = (t.subst (fill r.solution)).subst (fill (stiff N)) := by
    rw [subst_subst]
    congr
    funext x
    cases x <;> rfl
  have hdeep : (t.subst (fill r.solution)).norm = (r.resolveDeep t).norm :=
    value_solution (kinding_simple E K n) (fun h => h.1) hr ht
  rw [value, hcomp, ← norm_subst, hdeep, norm_subst, value]

theorem value_rigid_open (hr : r.Acyclic) (hv : r.binding? v = none) :
    (flex v).value (r.rigid N) = .gen (N + v) := by
  rw [value_flex, rigid, solution, resolveDeep_var hr (resolve_none hv)]
  rfl

theorem satisfies_rigid (hr : r.WellFormed (SimpleKind E K n))
    (hbindings : ∀ v t, r.binding? v = some t → SimpleKind E K n (K v) t) :
    r.Satisfies K (r.rigid N) := by
  intro v t hv
  have hdeep : r.resolveDeep (.flex v) = r.resolveDeep t := by
    rw [← resolveDeep_resolve hr.acyclic, resolve_some hr.acyclic hv,
      resolveDeep_resolve hr.acyclic]
  have heq : (flex v).value (r.rigid N) = t.value (r.rigid N) := by
    rw [value_rigid hr (hbindings v t hv), ← hdeep]
    rfl
  rw [heq]
  exact .refl _ _

/-- What a row ends in adds no field. -/
theorem asRow_rigid_end (hr : r.Acyclic) (hend : t.IsEnd) (hres : r.Resolved t) :
    (t.value (r.rigid N)).asRow.fields = [] := by
  rcases hend with ⟨x, rfl⟩ | rfl
  · cases x with
    | flex v =>
      rw [value_rigid_open hr (hres v rfl)]
      rfl
    | gen g => rfl
  · rfl

/-- A row variable gets a finite row. -/
theorem isRow_rigid (hr : r.WellFormed (SimpleKind E K n)) (ht : SimpleKind E K n .row (.flex v)) :
    (r.rigid N v).IsRow := by
  have hends : ∀ {u : Ty}, u.IsEnd → (u.subst (fill (stiff N))).IsRow := by
    rintro u (⟨x, rfl⟩ | rfl)
    · cases x <;> exact .gen _
    · exact .emptyRow
  have hP := kinding_simple E K n
  have htail := hr.isEnd_tail hP (fun h => h.1) ht
  by_cases hrec : ∃ fs tail, r.resolve (.flex v) = .record fs tail
  · obtain ⟨fs, tail, heq⟩ := hrec
    rw [rigid, solution, resolveDeep_record hr.acyclic heq]
    exact .record (hends htail)
  · rw [row_other fun fs tail h => hrec ⟨fs, tail, h⟩] at htail
    replace htail : (r.resolve (.flex v)).IsEnd := htail
    have hdeep : r.resolveDeep (.flex v) = r.resolve (.flex v) := by
      rcases htail with ⟨x, hx⟩ | hx
      · rw [resolveDeep_var hr.acyclic hx, hx]
      · rw [resolveDeep_con hr.acyclic hx, hx, map_nil]
    rw [rigid, solution, hdeep]
    exact hends htail

namespace RowCoherent

variable {k : Role} {front : Finset String}

theorem satisfies_rigid (h : r.RowCoherent E K φ) (N : Nat) : r.Satisfies K (r.rigid N) := by
  refine Registry.satisfies_rigid (h.wellFormed le_rfl) fun v t hv => ?_
  obtain ⟨front, ht⟩ := h.bindings v t hv
  simpa using ht.simple

/-- The labels in front of a row are not among its own. -/
theorem lookup_front (h : r.RowCoherent E K φ) (ht : t.HasRole E K φ r (.rest front)) {l : String}
    (hl : l ∈ front) (N : Nat) : (t.value (r.rigid N)).asRow.fields.lookup l = none := by
  have hr := h.wellFormed le_rfl
  have hP := kinding_simple E K r.varCount
  obtain ⟨hfields, -⟩ := ht.row h.acyclic
  have hnone : (r.row t).fields.lookup l = none := by
    rw [← not_isSome_iff_eq_none, ← mem_names_iff_lookup, mem_names]
    rintro ⟨e, he, rfl⟩
    exact (hfields e he).1 hl
  rw [(h.satisfies_rigid N).row hP hr (fun h => h.1) ht.simple, lookup_prepend,
    lookup_mapValues, hnone, asRow_rigid_end h.acyclic
      (hr.isEnd_tail hP (fun h => h.1) ht.simple) (row_tail h.acyclic t).1]
  rfl

theorem apart_rigid (h : r.RowCoherent E K φ) (ht : t.HasRole E K φ r k) (N : Nat) :
    t.Apart (r.rigid N) := by
  induction ht with
  | bound | free | gen => exact (all_var _).mpr trivial
  | con _ _ ih => exact (all_con _ _).mpr ⟨trivial, ih⟩
  | emptyRow => exact (all_con _ _).mpr ⟨trivial, by simp⟩
  | record _ _ _ htail ihf iht =>
    refine (all_record _ _).mpr ⟨fun l hl => h.lookup_front htail ?_ N, ihf, iht⟩
    exact mem_union_right _ (mem_names_iff_lookup.mpr hl)
  | module name members => exact all_iff.mpr ⟨trivial, by simp [children]⟩

theorem posed_rigid (h : r.RowCoherent E K φ) (hlater : ∀ v, r.varCount ≤ v → K v = .row)
    (N : Nat) :
    r.Posed K (r.rigid N) where
  later := hlater
  wellFormed := h.plain
  solution := by
    refine ⟨fun v _ => ground_rigid r N v, fun v hv hk => ?_, h.satisfies_rigid N, fun v t hv => ?_⟩
    · exact isRow_rigid (h.wellFormed le_rfl) ⟨.flex hk, (all_var _).mpr hv⟩
    · obtain ⟨front, ht⟩ := h.bindings v t hv
      exact h.apart_rigid ht N

end RowCoherent

end Registry

end RowTyping
