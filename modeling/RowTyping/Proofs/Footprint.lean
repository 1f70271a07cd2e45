import RowTyping.Proofs.Sight

/-!
# What inference touches

Unification binds only variables that the two types lead to. Inference binds no
variable that was there before, unless the environment leaves it open, and the
open variables of its result are open in the environment or new.

The variables that an environment leaves open are read off its types by deep
resolution, which takes the end of a record as it is. They are all the variables
that are seen as long as records end in rows; a record that ends in a function
type can hide a variable from the reader that unification finds.
-/

namespace RowTyping

open Check Registry Table Ty Env Finset List Option

namespace Registry

variable {r r' : Registry} {front : Finset String} {t u : Ty} {v : Nat}

/-- What is seen is led to. -/
theorem Sees.reaches (h : r.Sees front t u) (hu : u = .flex v) : r.Reaches t v := by
  induction h with
  | unbound _ =>
    cases hu
    exact ⟨v, mentions_flex.mpr rfl, .refl⟩
  | bound hb _ ih =>
    obtain ⟨x, hx, hxv⟩ := ih hu
    exact ⟨_, mentions_flex.mpr rfl, .head ⟨_, hb, hx⟩ hxv⟩
  | arg h _ ih =>
    obtain ⟨x, hx, hxv⟩ := ih hu
    exact ⟨x, hx.of_child h, hxv⟩
  | field _ h _ ih =>
    obtain ⟨x, hx, hxv⟩ := ih hu
    refine ⟨x, hx.of_child ?_, hxv⟩
    exact mem_children_record.mpr (.inl ⟨_, mem_of_lookup h, rfl⟩)
  | tail _ ih =>
    obtain ⟨x, hx, hxv⟩ := ih hu
    exact ⟨x, hx.of_child (mem_children_record.mpr (.inr rfl)), hxv⟩
  | param h _ ih =>
    obtain ⟨x, hx, hxv⟩ := ih hu
    exact ⟨x, hx.of_child (by simp [children, h]), hxv⟩
  | target _ ih =>
    obtain ⟨x, hx, hxv⟩ := ih hu
    exact ⟨x, hx.of_child (by simp [children]), hxv⟩
  | module _ _ => cases hu

theorem sees_resolve (hr : r.Acyclic) (h : r.Sees front t u) : r.Sees front (r.resolve t) u := by
  induction t using resolve_induct hr with
  | bound v t hb ih =>
    rw [resolve_some hr hb]
    cases h with
    | unbound hv =>
      rw [hb] at hv
      cases hv
    | bound hb' h =>
      rw [hb] at hb'
      cases hb'
      exact ih h
  | done t ht => rwa [ht.resolve]

/-! ## Records that end in rows -/

/-- The type can come behind the fields of a record: it is a record, the empty row
or a variable, as far as the bindings say. -/
def IsRow (r : Registry) (t : Ty) : Prop :=
  (r.resolve t).isRecord = true ∨ r.resolve t = .emptyRow ∨ ∃ x, r.resolve t = .var x

/-- What comes behind the fields of a record is a row. -/
def EndsInRow (r : Registry) : Ty → Prop
  | .record _ tail => r.IsRow tail
  | _ => True

/-- All records of the type end in rows. -/
abbrev RowKinded (r : Registry) (t : Ty) : Prop := t.All r.EndsInRow

/-- What is seen of a row is seen in one of its fields, or is its end. -/
theorem Sees.row (hr : r.Acyclic) (hb : r.AllBindings r.RowKinded) (h : r.Sees front t u)
    (hu : u = .flex v) (hrow : r.IsRow t) (ht : r.RowKinded t) :
    (∃ l a, l ∉ front ∧ (r.row t).fields.lookup l = some a ∧ r.Sees ∅ a u) ∨
      (r.row t).tail = u := by
  induction h with
  | unbound hv =>
    refine .inr ?_
    rw [row_other (by simp [resolve_none hv]), resolve_none hv]
  | bound hv _ ih =>
    have hres := resolve_some hr hv
    rw [← row_resolve hr, hres, row_resolve hr]
    refine ih hu ?_ (hb _ _ hv)
    unfold IsRow at hrow ⊢
    rwa [← hres]
  | arg h _ _ =>
    rcases hrow with hrow | hrow | ⟨x, hrow⟩ <;> rw [resolve_con] at hrow
    · cases hrow
    · cases hrow
      simp at h
    · cases hrow
  | field hl h hu' _ =>
    refine .inl ⟨_, _, hl, ?_, hu'⟩
    rw [row_record hr resolve_record]
    simp [h]
  | tail _ ih =>
    have htail := ih hu ht.here (ht.child (mem_children_record.mpr (.inr rfl)))
    rw [row_record hr resolve_record]
    rcases htail with ⟨l, a, hl, ha, hseen⟩ | hend
    · obtain ⟨hl, hnew⟩ := not_or.mp fun h => hl (mem_union.mpr h)
      rw [mem_names_iff_lookup, not_isSome_iff_eq_none] at hnew
      refine .inl ⟨l, a, hl, ?_, hseen⟩
      simp [hnew, ha]
    · exact .inr hend
  | param _ _ _ =>
    rcases hrow with hrow | hrow | ⟨x, hrow⟩ <;> rw [resolve_synonym] at hrow <;> cases hrow
  | target _ _ =>
    rcases hrow with hrow | hrow | ⟨x, hrow⟩ <;> rw [resolve_synonym] at hrow <;> cases hrow
  | module _ _ => cases hu

/-! ## What stays in sight

What an early registry shows of a type and what is open later is still shown
later: bindings are only added, and a field in front stays in front. -/

section

variable (hext : r.Extends r')
include hext

theorem Extends.follow {n m : Nat} (hnm : n ≤ m)
    (hopen : ∀ w, r.follow n t = .flex w → r'.binding? w = none) :
    r'.follow m t = r.follow n t := by
  induction n generalizing m t with
  | zero =>
    by_cases ht : ∃ w, t = .flex w
    · obtain ⟨w, rfl⟩ := ht
      have hw := hopen w rfl
      cases m <;> simp [follow, hw]
    · exact follow_of_not_flex (fun w hw => ht ⟨w, hw⟩) m
  | succ n ih =>
    obtain ⟨m, rfl⟩ := Nat.exists_eq_add_one.mpr (Nat.lt_of_lt_of_le n.succ_pos hnm)
    by_cases ht : ∃ w, t = .flex w
    · obtain ⟨w, rfl⟩ := ht
      cases hb : r.binding? w with
      | none =>
        have hw := hopen w (by simp [follow, hb])
        simp [follow, hb, hw]
      | some u =>
        simp only [follow, hb] at hopen
        simp only [follow, hb, hext.binding w u hb]
        exact ih (Nat.le_of_succ_le_succ hnm) hopen
    · have ht' : ∀ w, t ≠ .flex w := fun w hw => ht ⟨w, hw⟩
      rw [follow_of_not_flex ht', follow_of_not_flex ht']

theorem Extends.resolve (hopen : ∀ w, r.resolve t = .flex w → r'.binding? w = none) :
    r'.resolve t = r.resolve t :=
  hext.follow hext.varCount_le hopen

theorem Extends.maxHeight_le : r.maxHeight ≤ r'.maxHeight :=
  maxHeight_le_iff.mpr fun v t hv => height_le_maxHeight (hext.binding v t hv)

theorem Extends.fuel_le (t : Ty) : r.fuel t ≤ r'.fuel t := by
  have := Nat.mul_le_mul hext.varCount_le hext.maxHeight_le
  unfold fuel
  omega

omit hext in
theorem lookup_collect {n : Nat} {fields : Table Ty} {l : String} {a : Ty}
    (h : fields.lookup l = some a) : (r.collect n fields t).fields.lookup l = some a := by
  induction n generalizing fields t with
  | zero => exact h
  | succ n ih =>
    rw [collect]
    split
    · exact ih (by rw [lookup_union, h]; rfl)
    · exact h

/-- The fields of a row stay, and so does its end if it stays open. -/
theorem Extends.collect {n m : Nat} (hnm : n ≤ m) (fields : Table Ty) (t : Ty) :
    (∀ l a, (r.collect n fields t).fields.lookup l = some a →
      (r'.collect m fields t).fields.lookup l = some a) ∧
    ∀ v, (r.collect n fields t).tail = .flex v → r'.binding? v = none →
      (r'.collect m fields t).tail = .flex v := by
  have hend : ∀ v, r.resolve t = .flex v → r'.binding? v = none →
      (r'.collect m fields t).tail = .flex v := by
    intro v hv hopen
    have hres : r'.resolve t = .flex v := by
      rw [hext.resolve fun w hw => ?_, hv]
      rw [hv] at hw
      cases hw
      exact hopen
    cases m <;> simp [Registry.collect, hres]
  induction n generalizing m fields t with
  | zero => exact ⟨fun l a h => lookup_collect h, hend⟩
  | succ n ih =>
    obtain ⟨m, rfl⟩ := Nat.exists_eq_add_one.mpr (Nat.lt_of_lt_of_le n.succ_pos hnm)
    by_cases hrec : ∃ fs tail, r.resolve t = .record fs tail
    · obtain ⟨fs, tail, heq⟩ := hrec
      have hres : r'.resolve t = .record fs tail := by
        rw [hext.resolve (by simp [heq]), heq]
      rw [Registry.collect, Registry.collect, heq, hres]
      refine ih (Nat.le_of_succ_le_succ hnm) _ _ fun v hv hopen => ?_
      have hres : r'.resolve tail = .flex v := by
        rw [hext.resolve fun w hw => ?_, hv]
        rw [hv] at hw
        cases hw
        exact hopen
      cases m <;> simp [Registry.collect, hres]
    · have hfields : (r.collect (n + 1) fields t) = ⟨fields, r.resolve t⟩ := by
        rw [Registry.collect]
        split
        · next fs tail heq => exact absurd ⟨fs, tail, heq⟩ hrec
        · rfl
      rw [hfields]
      exact ⟨fun l a h => lookup_collect h, hend⟩

/-- An open variable that is seen early is found by deep resolution later. -/
theorem Sees.mem_resolveDeepN (hr : r.Acyclic) (hb : r.AllBindings r.RowKinded)
    (hopen : r'.binding? v = none) {d m : Nat} (hd : r.Within d t) (hdm : d < m)
    (ht : r.RowKinded t) (h : r.Sees ∅ t (.flex v)) :
    .flex v ∈ (r'.resolveDeepN m t).occurrences := by
  induction m generalizing t d with
  | zero => omega
  | succ m ih =>
    have hseen := sees_resolve hr h
    have hkinded := AllBindings.resolve hb hr ht
    -- a part is seen one step deeper
    have part : ∀ a, r.Part a t → r.RowKinded a → r.Sees ∅ a (.flex v) →
        .flex v ∈ (r'.resolveDeepN m a).occurrences := by
      intro a ha hka hsa
      obtain ⟨k, rfl, hk⟩ := hd.part hr ha
      exact ih hk (by omega) hka hsa
    have hres : r'.resolve t = r.resolve t := by
      refine hext.resolve fun w hw => ?_
      rw [hw] at hseen
      cases hseen with
      | unbound _ => exact hopen
      | bound hbw _ =>
        rw [binding?_of_resolve hr hw] at hbw
        cases hbw
    rw [resolveDeepN, hres]
    cases heq : r.resolve t with
    | var x =>
      rw [heq] at hseen
      cases hseen with
      | unbound _ => simp [occurrences]
      | bound hbw _ =>
        rw [binding?_of_resolve hr heq] at hbw
        cases hbw
    | con c args =>
      rw [heq] at hseen hkinded
      cases hseen with
      | arg ha hs =>
        have hin := part _ (.inl (heq ▸ ha)) (hkinded.child ha) hs
        rw [occurrences, occurrencesList_eq, mem_flatMap]
        exact ⟨_, mem_map_of_mem ha, hin⟩
    | record fs tail =>
      rw [heq] at hseen hkinded
      have hrow : r.row (.record fs tail) = r.row t := by rw [← heq, row_resolve hr]
      obtain ⟨hfields, hend⟩ := hext.collect (hext.fuel_le (.record fs tail)) [] (.record fs tail)
      rw [occurrences, occurrencesFields_eq, mem_append]
      rcases hseen.row hr hb rfl (.inl (by rw [resolve_record]; rfl)) hkinded with
        ⟨l, a, -, ha, hs⟩ | htail
      · have hmem := mem_of_lookup ha
        have hka : r.RowKinded a :=
          (AllBindings.row hb hr (fun h hu => h.child hu) id hkinded).1 _ hmem
        have hin := part a (.inr ⟨_, hrow ▸ hmem, rfl⟩) hka hs
        refine .inl (mem_flatMap.mpr ⟨(l, r'.resolveDeepN m a), ?_, hin⟩)
        exact mem_map.mpr ⟨_, mem_of_lookup (hfields l a ha), rfl⟩
      · refine .inr ?_
        rw [show (r'.row (.record fs tail)).tail = .flex v from hend v htail hopen]
        simp [occurrences]
    | synonym id labels params target =>
      rw [heq] at hseen hkinded
      rw [occurrences, occurrencesList_eq, mem_append, mem_flatMap]
      cases hseen with
      | param ha hs =>
        have hmem : _ ∈ (synonym id labels params target).children :=
          mem_append_left _ ha
        exact .inl ⟨_, mem_map_of_mem ha, part _ (.inl (heq ▸ hmem)) (hkinded.child hmem) hs⟩
      | target hs =>
        have hmem : target ∈ (synonym id labels params target).children := by
          simp [children]
        exact .inr (part _ (.inl (heq ▸ hmem)) (hkinded.child hmem) hs)
    | module name members =>
      rw [heq] at hseen
      cases hseen

end

/-- An open variable that is seen in a value of the environment is free in it,
then and later. -/
theorem Sees.mem_freeVars (hr : r.Acyclic) (hb : r.AllBindings r.RowKinded) (hext : r.Extends r')
    (hopen : r'.binding? v = none) {env : Env} {e : String × Scheme} (he : e ∈ env.values)
    (hkinded : r.RowKinded e.2.body) (h : r.Sees ∅ e.2.body (.flex v)) :
    v ∈ env.freeVars r' := by
  have hin := h.mem_resolveDeepN hext hr hb hopen (within_fuel hr e.2.body)
    (Nat.lt_of_succ_le (hext.fuel_le e.2.body)) hkinded
  rw [freeVars, mem_distinct, mem_flatMap]
  refine ⟨e, he, mem_filterMap.mpr ⟨.flex v, ?_, rfl⟩⟩
  rw [vars, mem_distinct]
  exact hin

theorem Sees.unbound_of (h : r.Sees front t u) (hu : u = .flex v) : r.binding? v = none := by
  induction h with
  | unbound hv =>
    cases hu
    exact hv
  | module _ _ => cases hu
  | bound _ _ ih => exact ih hu
  | arg _ _ ih => exact ih hu
  | field _ _ _ ih => exact ih hu
  | tail _ ih => exact ih hu
  | param _ _ ih => exact ih hu
  | target _ ih => exact ih hu

/-- A confined type shows only what is allowed, also through the bindings that
were added. -/
theorem Grown.allowed {r₀ : Registry} {L : Ty → Prop} (h : r₀.Grown L r) (hu : r.Sees front t u)
    (ht : r₀.Confined L front t) : L u := by
  induction hu with
  | unbound hv => exact (Confined.unbound (h.unbound hv)).mp ht
  | bound hv _ ih => exact ih (h.confined_binding ht hv)
  | arg ha _ ih => exact ih (Confined.con.mp ht _ ha)
  | field hl ha _ ih => exact ih ((Confined.record.mp ht).1 _ _ hl ha)
  | tail _ ih => exact ih (Confined.record.mp ht).2
  | param ha _ ih => exact ih ((Confined.synonym.mp ht).1 _ ha)
  | target _ ih => exact ih (Confined.synonym.mp ht).2
  | module name members => exact Confined.module.mp ht

theorem Grown.extends {r₀ : Registry} {L : Ty → Prop} (h : r₀.Grown L r) : r₀.Extends r :=
  ⟨h.varCount_le, fun _ _ hv => h.kept hv⟩

end Registry

/-- Unification binds only variables that are seen in one of the types, or new
ones. -/
theorem unify_binds_seen {s : State} (hr : s.registry.Acyclic) {a b : Ty} {v : Nat} {t : Ty}
    (hv : s.registry.binding? v = none)
    (hbound : (after (unify a b) s).registry.binding? v = some t) :
    s.registry.Sees ∅ a (.flex v) ∨ s.registry.Sees ∅ b (.flex v) ∨ s.registry.varCount ≤ v := by
  let L : Ty → Prop := fun u => ∀ w, u = .flex w →
    s.registry.Sees ∅ a u ∨ s.registry.Sees ∅ b u ∨ s.registry.varCount ≤ w
  have hL : Fresh s.registry L := by
    intro w hw w' heq
    cases heq
    exact .inr (.inr hw)
  have hgrown := (hL.unifying.keeps_unify (fun u hu w _ => .inl hu)
    (fun u hu w _ => .inr (.inl hu)) s (.refl hr.bare) (Nat.zero_le _)).1
  rcases hgrown.made hbound with hold | ⟨-, hin, -⟩
  · rw [hv] at hold
    cases hold
  · exact hin v rfl

/-- An environment as inference is to find it: its types, read through the
registry, are made of records that end in rows, and its type names and the
modules that are seen in it mention no variable of the registry. -/
structure Registry.Fit (r : Registry) (env : Env) : Prop where
  values : ∀ e ∈ env.values, r.RowKinded e.2.body
  bindings : r.AllBindings r.RowKinded
  types : ∀ e ∈ env.types, e.2.body.Sealed
  modules : ∀ e ∈ env.values, ∀ name members, r.Sees ∅ e.2.body (.module name members) →
    members.Sealed

/-- The variables that inference may bind: those that are seen in the values of
the environment, and new ones. -/
def Registry.InSight (r : Registry) (env : Env) (v : Nat) : Prop :=
  (∃ e ∈ env.values, r.Sees ∅ e.2.body (.flex v)) ∨ r.varCount ≤ v

theorem Registry.Fit.confined {r : Registry} {env : Env} (h : r.Fit env) :
    env.Obeys (r.Confined (Allowed (r.InSight env))) Sealed := by
  refine ⟨fun e he u hu => ?_, h.types⟩
  cases u with
  | var x =>
    cases x with
    | flex v => exact .inl ⟨e, he, hu⟩
    | gen g => trivial
  | module name members => exact h.modules e he name members hu
  | _ => trivial

/-- Whatever becomes of it, unification binds only variables that the two types
lead to, and new ones. Inference binds only variables that are free in the
environment, and new ones; the open variables of the type that it yields are
free in the environment at the end, or new. -/
theorem inference_stays_in_sight {s : State} (hr : s.registry.Acyclic) :
    (∀ a b v t, s.registry.binding? v = none →
      (after (unify a b) s).registry.binding? v = some t →
        s.registry.Reaches a v ∨ s.registry.Reaches b v ∨ s.registry.varCount ≤ v) ∧
    ∀ env e, s.registry.Fit env →
      (∀ v t, s.registry.binding? v = none →
        (after (Expr.inferHead env e) s).registry.binding? v = some t →
          v ∈ env.freeVars s.registry ∨ s.registry.varCount ≤ v) ∧
      ∀ t s', (Expr.inferHead env e).run s = .ok t s' → ∀ v,
        s'.registry.Sees ∅ t (.flex v) →
          v ∈ env.freeVars s'.registry ∨ s.registry.varCount ≤ v := by
  refine ⟨fun a b v t hv hbound => ?_, fun env e hfit => ?_⟩
  · rcases unify_binds_seen hr hv hbound with h | h | h
    · exact .inl (h.reaches rfl)
    · exact .inr (.inl (h.reaches rfl))
    · exact .inr (.inr h)
  · have hL : Fresh s.registry (Allowed (s.registry.InSight env)) := fun v hv => .inr hv
    obtain ⟨hgrown, -, hyield⟩ :=
      hL.discipline.keeps_inferHead e 0 hfit.confined s (.refl hr.bare) (Nat.zero_le _)
    refine ⟨fun v t hv hbound => ?_, fun t s' hrun v hseen => ?_⟩
    · rcases hgrown.made hbound with hold | ⟨-, hin, -⟩
      · rw [hv] at hold
        cases hold
      · refine hin.imp_left fun ⟨e, he, hseen⟩ => ?_
        exact hseen.mem_freeVars hr hfit.bindings (.refl _) hv he (hfit.values e he)
    · rw [after_ok hrun] at hgrown
      have hopen := hseen.unbound_of rfl
      have hin : s.registry.InSight env v := hgrown.allowed hseen (hyield t s' hrun)
      refine hin.imp_left fun ⟨e, he, hearly⟩ => ?_
      exact hearly.mem_freeVars hr hfit.bindings hgrown.extends hopen he (hfit.values e he)

/-- A record of which one field is known. Selecting another one binds its open end,
which is free in the environment, and yields a new variable. -/
theorem inference_of_field_stays_in_sight :
    let s : State :=
      ⟨({} : Registry).addVar.addVar.addVar.setBinding 2 (.record [("x", .flex 0)] (.flex 1)), #[]⟩
    let env := Env.empty.addValue "r" (.mono (.flex 2))
    let e := Expr.field {} (.var {} "r") "y"
    s.registry.Acyclic ∧ s.registry.Fit env ∧ env.freeVars s.registry = [0, 1] ∧
      (after (e.inferHead env) s).registry.binding? 1 = some (.record [("y", .flex 3)] (.flex 5)) ∧
      (1 ∈ env.freeVars s.registry ∨ s.registry.varCount ≤ 1) := by
  intro s env e
  have hb :
      ∀ v t, s.registry.binding? v = some t → v = 2 ∧ t = .record [("x", .flex 0)] (.flex 1) :=
    fun v t hv => (Registry.binding?_setBinding_inv hv).resolve_right (by simp)
  have hr : s.registry.Acyclic :=
    Registry.acyclic_setBinding (by simp) (by simp [Ty.Scoped, Ty.Mentions, Ty.occurrences])
  have hvalue : ∀ e ∈ env.values, e.2.body = .flex 2 := by
    intro e he
    simp only [env, Env.addValue, Env.empty, Table.insert, List.mem_singleton] at he
    rw [he]
    rfl
  have hend : s.registry.resolve (.flex 1) = .flex 1 := by decide +kernel
  have hfit : s.registry.Fit env := by
    refine ⟨fun e he => ?_, fun v t hv => ?_, fun e he => ?_, fun e he name members hseen => ?_⟩
    · rw [hvalue e he]
      exact (Ty.all_var _).mpr trivial
    · obtain ⟨rfl, rfl⟩ := hb v t hv
      simp [Registry.EndsInRow, Registry.IsRow, hend]
    · cases he
    · -- nothing but the two open variables is seen
      rw [hvalue e he] at hseen
      cases hseen with
      | bound hv hseen =>
        obtain ⟨-, rfl⟩ := hb _ _ hv
        cases hseen with
        | field _ hl hseen =>
          obtain ⟨-, rfl⟩ : _ ∧ _ = Ty.flex 0 := by simpa using Table.mem_of_lookup hl
          cases hseen with
          | bound hv _ => cases (hb _ _ hv).1
        | tail hseen =>
          cases hseen with
          | bound hv _ => cases (hb _ _ hv).1
  have hrun : (after (e.inferHead env) s).registry.binding? 1 =
      some (.record [("y", .flex 3)] (.flex 5)) := by decide +kernel
  exact ⟨hr, hfit, by decide +kernel, hrun,
    ((inference_stays_in_sight hr).2 env e hfit).1 1 _ (by decide +kernel) hrun⟩

/-- A record that ends in a function type. Deep resolution does not look into its
end, so the environment is said to leave open the variable `1`, which is bound,
and not the variable `0` that it stands for; but unification binds `0`. -/
theorem inference_leaves_sight_behind_function :
    let s : State := ⟨({} : Registry).addVar.addVar.addVar.setBinding 1 (.flex 0), #[]⟩
    let record := fun v => Ty.record [("l", .int)] (.arrow (.flex v) .int)
    let env := (Env.empty.addValue "x" (.mono (record 1))).addValue "y" (.mono (record 2))
    let e := Expr.ifThenElse {} (.lit {} .bool) (.var {} "y") (.var {} "x")
    s.registry.Scoped ∧ s.registry.Acyclic ∧ env.types = [] ∧ s.registry.binding? 0 = none ∧
      (after (e.inferHead env) s).registry.binding? 0 = some (.flex 2) ∧
      s.registry.varCount = 3 ∧ env.freeVars s.registry = [1, 2] := by
  intro s record env e
  have hone : (Ty.flex 0).Scoped 1 := by simp [Ty.Scoped, Ty.Mentions, Ty.occurrences]
  exact ⟨Registry.forall_setBinding (by simp) fun w hw => (hone w hw).trans (by decide),
    Registry.acyclic_setBinding (by simp) hone, rfl, by decide +kernel, by decide +kernel,
    by decide +kernel, by decide +kernel⟩

end RowTyping
