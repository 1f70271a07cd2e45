import RowTyping.Proofs.Programs
import RowTyping.Proofs.Sight
import RowTyping.Proofs.Translation

/-!
# Environments stay sealed

A declaration that is checked in a sealed environment works with variables that
it issues itself: no binding leads from one of them to an older one. What it
introduces is quantified over all variables that it leaves open, so it is sealed
again. An argument that a synonym does not use can close a cycle among the new
bindings, but no cycle through what types show; so what has been read of a type, to
whatever depth, is read alike a second time.
-/

namespace RowTyping

open Check Registry Table Ty Env List Subst

/-! ## Types over certain variables -/

namespace Ty

/-- The type mentions only variables among `W`, and its modules are sealed. -/
abbrev Over (W : Nat → Prop) : Ty → Prop := All (Allowed W)

variable {W : Nat → Prop} {t : Ty}

theorem over_module {name : String} {members : Env} :
    (module name members).Over W ↔ members.Sealed := by
  rw [Over, all_iff]
  simp [children, Allowed]

theorem Sealed.over (h : t.Sealed) (W : Nat → Prop) : t.Over W := by
  induction h with
  | gen g => exact (all_var _).mpr trivial
  | con _ ih => exact (all_con _ _).mpr ⟨trivial, ih⟩
  | record _ _ ihfs ih => exact (all_record _ _).mpr ⟨trivial, ihfs, ih⟩
  | synonym _ _ ihp ih => exact (all_synonym _ _ _ _).mpr ⟨trivial, ihp, ih⟩
  | module hvalues htypes _ _ => exact over_module.mpr ⟨hvalues, htypes⟩

theorem Over.sealed (h : t.Over W) (hv : ∀ v, ¬ t.Mentions v) : t.Sealed := by
  induction t with
  | var x =>
    cases x with
    | flex v => exact absurd (mentions_flex.mpr rfl) (hv v)
    | gen g => exact .gen g
  | con c args ih =>
    exact .con fun t ht => ih t ht (h.child ht) fun v hm => hv v (hm.of_child ht)
  | record fs tail ihfs ih =>
    refine .record (fun e he => ?_) ?_
    · have hmem : e.2 ∈ (record fs tail).children := mem_children_record.mpr (.inl ⟨e, he, rfl⟩)
      exact ihfs e he (h.child hmem) fun v hm => hv v (hm.of_child hmem)
    · have hmem : tail ∈ (record fs tail).children := mem_children_record.mpr (.inr rfl)
      exact ih (h.child hmem) fun v hm => hv v (hm.of_child hmem)
  | synonym id labels params target ihp ih =>
    obtain ⟨-, hparams, htarget⟩ := (all_synonym _ _ _ _).mp h
    refine .synonym (fun t ht => ihp t ht (hparams t ht) fun v hm => hv v ?_)
      (ih htarget fun v hm => hv v ?_)
    · exact hm.of_child (mem_append_left _ ht)
    · exact hm.of_child (by simp [children])
  | module name members =>
    obtain ⟨hvalues, htypes⟩ := over_module.mp h
    exact .module hvalues htypes

theorem Over.mentions (h : t.Over W) {v : Nat} (hv : t.Mentions v) : W v := by
  induction t using induct_children with
  | step t ih =>
    rcases mem_occurrences.mp hv with rfl | ⟨u, hu, hvu⟩
    · exact h.here
    · exact ih u hu (h.child hu) hvu

theorem over_rebuilds (W W' : Nat → Prop) : Rebuilds (Over W) (Over W') where
  child := All.child
  con _ _ h := (all_con _ _).mpr ⟨trivial, h⟩
  record h htail := (all_record _ _).mpr ⟨trivial, h, htail⟩
  synonym _ h htarget := (all_synonym _ _ _ _).mpr ⟨trivial, h, htarget⟩
  module h := over_module.mpr (over_module.mp h)

theorem Over.subst {f : TyVar → Ty} (h : t.Over W) (hf : ∀ x, f x = .var x ∨ (f x).Over W) :
    (t.subst f).Over W :=
  (over_rebuilds W W).subst h fun x _ hx => (hf x).elim (fun heq => heq ▸ hx) id

end Ty

namespace Registry

variable {W : Nat → Prop} {r : Registry}

/-- No binding leads from the variables among `W` to another one. -/
def Closed (W : Nat → Prop) (r : Registry) : Prop :=
  ∀ v t, W v → r.binding? v = some t → t.Over W

section

variable {r : Registry} {W : Nat → Prop} (hr : r.Closed W) {t : Ty}
include hr

theorem Closed.passes : r.Passes (Over W) := fun v u hv hb => hr v u hv.here hb

theorem Closed.resolve (ht : t.Over W) : (r.resolve t).Over W := hr.passes.follow ht _

theorem Closed.row (ht : t.Over W) : (∀ e ∈ (r.row t).fields, e.2.Over W) ∧ (r.row t).tail.Over W :=
  hr.passes.row (over_rebuilds W W) ht

theorem Closed.resolveDeep (ht : t.Over W) : (r.resolveDeep t).Over W :=
  hr.passes.resolveDeepN (over_rebuilds W W) ((all_con _ _).mpr ⟨trivial, by simp⟩) ht _

end

/-- A sealed environment leaves no variable open. -/
theorem freeVars_of_sealed {env : Env} (henv : env.Sealed) (r : Registry) :
    env.freeVars r = [] := by
  rw [eq_nil_iff_forall_not_mem]
  intro v hv
  rw [freeVars, mem_distinct, mem_flatMap] at hv
  obtain ⟨e, he, hv⟩ := hv
  obtain ⟨x, hx, heq⟩ := mem_filterMap.mp hv
  cases x with
  | gen g => cases heq
  | flex w =>
    rw [vars, mem_distinct] at hx
    have hclosed : r.Closed fun _ => False := fun _ _ h => h.elim
    exact (hclosed.resolveDeep ((henv.values e he).over _)).mentions hx

/-- Inference keeps to variables that lead only to each other. -/
theorem Closed.discipline {I : Registry → Prop} (hclosed : ∀ {r}, I r → r.Closed W)
    (haddVar : ∀ {r}, I r → I r.addVar ∧ W r.varCount)
    (hset : ∀ {r v t}, I r → r.binding? v = none → r.occurs v t = false → W v → t.Over W →
      I (r.setBinding v t))
    (haddGen : ∀ {r}, I r → I r.addGen) (haddType : ∀ {r}, I r → I r.addType) :
    Discipline (inRegistry I) (fun _ t => t.Over W) Sealed where
  addVar h := ⟨(haddVar h).1, (all_var _).mpr (haddVar h).2⟩
  push h _ := h
  setBinding h hopen hocc _ hv ht := hset h hopen hocc hv.here ht
  resolve h ht := (hclosed h).resolve ht
  row h ht := (hclosed h).row ht
  ends h ht _ := (hclosed h).resolve ht
  con _ h := (all_con _ _).mpr ⟨trivial, h⟩
  args h := ((all_con _ _).mp h).2
  target h := ((all_synonym _ _ _ _).mp h).2.2
  record hfs htail := (all_record _ _).mpr ⟨trivial, hfs, htail⟩
  naming := Sealed.naming
  addGen h := haddGen h
  addType h := haddType h
  resolveDeep h ht := (hclosed h).resolveDeep ht
  subst h hf := h.subst hf
  ofNamed h := h.over _
  members h := (over_module.mp h).values

theorem Closed.addVar (h : r.Closed W) : r.addVar.Closed W :=
  fun v t hv hb => h v t hv (by simpa using hb)

theorem Closed.setBinding (h : r.Closed W) {v : Nat} {t : Ty} (ht : t.Over W) :
    (r.setBinding v t).Closed W := by
  intro w u hw hb
  rcases binding?_setBinding_inv hb with ⟨-, rfl⟩ | hb
  · exact ht
  · exact h w u hw hb

/-! ## Cutting off older variables -/

/-- The registry without the bindings of the first `n` variables. -/
def cut (n : Nat) (r : Registry) : Registry :=
  { r with cells := r.cells.mapIdx fun i c => if i < n then { c with binding := none } else c }

@[simp] theorem varCount_cut (n : Nat) (r : Registry) : (r.cut n).varCount = r.varCount := by
  simp [cut, varCount]

@[simp] theorem binding?_cut (n : Nat) (r : Registry) (v : Nat) :
    (r.cut n).binding? v = if v < n then none else r.binding? v := by
  simp only [cut, binding?, Array.getElem?_mapIdx]
  cases r.cells[v]? <;> by_cases hv : v < n <;> simp [hv]

theorem maxHeight_cut (n : Nat) (r : Registry) : (r.cut n).maxHeight ≤ r.maxHeight := by
  refine maxHeight_le_iff.mpr fun v t hv => ?_
  rw [binding?_cut] at hv
  split at hv
  · cases hv
  · exact height_le_maxHeight hv

theorem fuel_cut (n : Nat) (r : Registry) (t : Ty) : (r.cut n).bare.fuel t.bare ≤ r.fuel t := by
  rw [fuel, fuel, varCount_bare, varCount_cut]
  exact Nat.succ_le_succ (Nat.add_le_add t.height_bare
    (Nat.mul_le_mul_left _ ((maxHeight_bare _).trans (maxHeight_cut n r))))

section

variable {r : Registry} {n : Nat} (hr : r.Closed (n ≤ ·)) {t : Ty}
include hr

theorem Closed.follow_cut (ht : t.Over (n ≤ ·)) (m : Nat) :
    (r.cut n).follow m t = r.follow m t := by
  induction m generalizing t with
  | zero => rfl
  | succ m ih =>
    by_cases hflex : ∃ v, t = .flex v
    · obtain ⟨v, rfl⟩ := hflex
      have hv : ¬ v < n := Nat.not_lt.mpr ht.here
      simp only [follow, binding?_cut, if_neg hv]
      cases hb : r.binding? v with
      | none => rfl
      | some u => exact ih (hr v u ht.here hb)
    · have hne : ∀ v, t ≠ .flex v := fun v hv => hflex ⟨v, hv⟩
      rw [follow_of_not_flex hne, follow_of_not_flex hne]

theorem Closed.resolve_cut (ht : t.Over (n ≤ ·)) : (r.cut n).resolve t = r.resolve t := by
  unfold Registry.resolve
  rw [varCount_cut]
  exact hr.follow_cut ht _

theorem Closed.collect_cut (ht : t.Over (n ≤ ·)) (m : Nat) (fields : Table Ty) :
    (r.cut n).collect m fields t = r.collect m fields t := by
  induction m generalizing fields t with
  | zero => rw [collect, collect, hr.resolve_cut ht]
  | succ m ih =>
    have hres := hr.resolve ht
    rw [collect, collect, hr.resolve_cut ht]
    cases heq : r.resolve t with
    | record fs tail =>
      rw [heq, Over, all_record] at hres
      exact ih hres.2.2 _
    | _ => rfl

theorem Closed.occursN_cut (ht : t.Over (n ≤ ·)) (v m : Nat) :
    (r.cut n).occursN v m t = r.occursN v m t := by
  induction m generalizing t with
  | zero => rfl
  | succ m ih =>
    have hres := hr.resolve ht
    rw [occursN, occursN, hr.resolve_cut ht]
    cases heq : r.resolve t with
    | con c args =>
      rw [heq] at hres
      exact any_congr_mem fun u hu => ih (hres.child hu)
    | record fs tail =>
      rw [heq, Over, all_record] at hres
      simp only [ih hres.2.2, any_congr_mem fun e he => ih (hres.2.1 e he)]
    | synonym id labels params target =>
      rw [heq, Over, all_synonym] at hres
      exact ih hres.2.2
    | var x => cases x <;> rfl
    | module name members => rfl

theorem Closed.occurs_cut (h : (r.cut n).bare.Acyclic) (ht : t.Over (n ≤ ·)) (v : Nat) :
    (r.cut n).occurs v t = r.occurs v t := by
  rw [← occurs_bare h, occurs, occurs, ← hr.occursN_cut ht, ← occursN_bare (r := r.cut n)]
  exact occursN_stable (within_fuel h t.bare)
    ((within_fuel h t.bare).mono (Nat.le_of_succ_le_succ (fuel_cut n r t)))

theorem Closed.row_cut (h : (r.cut n).bare.Acyclic) (ht : t.Over (n ≤ ·)) :
    (r.cut n).row t = r.row t := by
  rw [← collect_of_le h (fuel_cut n r t)]
  exact hr.collect_cut ht _ _

theorem Closed.resolveDeepN_cut (h : (r.cut n).bare.Acyclic) (ht : t.Over (n ≤ ·)) (m : Nat) :
    (r.cut n).resolveDeepN m t = r.resolveDeepN m t := by
  induction m generalizing t with
  | zero => rfl
  | succ m ih =>
    have hres := hr.resolve ht
    rw [Registry.resolveDeepN, Registry.resolveDeepN, hr.resolve_cut ht]
    cases heq : r.resolve t with
    | con c args =>
      rw [heq] at hres
      exact congrArg _ (map_congr_left fun u hu => ih (hres.child hu))
    | record fs tail =>
      rw [heq] at hres
      simp only [hr.row_cut h hres]
      congr 1
      exact map_congr_left fun e he => Prod.ext rfl (ih ((hr.row hres).1 e he))
    | synonym id labels params target =>
      rw [heq, Over, all_synonym] at hres
      simp only [ih hres.2.2, map_congr_left fun u hu => ih (hres.2.1 u hu)]
    | var x => rfl
    | module name members => rfl

end

/-! ## New variables -/

/-- The variables from the `n`th on lead only to each other, and what they show leads
nowhere back. -/
structure Apart (n : Nat) (r : Registry) : Prop where
  varCount_le : n ≤ r.varCount
  closed : r.Closed (n ≤ ·)
  acyclic : (r.cut n).bare.Acyclic

theorem Apart.refl (r : Registry) : r.Apart r.varCount where
  varCount_le := le_rfl
  closed _ _ hv hb := absurd (lt_varCount_of_binding? hb) (Nat.not_lt.mpr hv)
  acyclic v hcycle := by
    obtain ⟨w, ⟨t, ht, -⟩, -⟩ := Relation.TransGen.head'_iff.mp hcycle
    rw [binding?_bare, binding?_cut] at ht
    split at ht
    · cases ht
    · next hv =>
      obtain ⟨u, hu, -⟩ := Option.map_eq_some_iff.mp ht
      exact hv (lt_varCount_of_binding? hu)

theorem Apart.addVar {n : Nat} (h : r.Apart n) : r.addVar.Apart n where
  varCount_le := by simpa using h.varCount_le.trans (Nat.le_succ _)
  closed := h.closed.addVar
  acyclic := h.acyclic.of_binding? fun v t hb => by simpa using hb

theorem Apart.setBinding {n v : Nat} {t : Ty} (h : r.Apart n) (hopen : r.binding? v = none)
    (hocc : r.occurs v t = false) (ht : t.Over (n ≤ ·)) :
    (r.setBinding v t).Apart n where
  varCount_le := by simpa using h.varCount_le
  closed := h.closed.setBinding ht
  acyclic := by
    have hcut : ((r.cut n).setBinding v t).bare.Acyclic :=
      acyclic_bare_setBinding h.acyclic (by simp [hopen])
        ((h.closed.occurs_cut h.acyclic ht v).trans hocc)
    refine hcut.of_binding? fun w u hw => ?_
    by_cases hlt : w < n
    · simp [hlt] at hw
    · simpa [hlt, binding?_setBinding] using hw

/-- Inference that starts with variables from the `n`th on keeps to them. -/
theorem Apart.discipline (n : Nat) :
    Discipline (inRegistry (Apart n)) (fun _ t => t.Over (n ≤ ·)) Sealed :=
  Closed.discipline (fun h => h.closed) (fun h => ⟨h.addVar, h.varCount_le⟩)
    (fun h hopen hocc _ ht => h.setBinding hopen hocc ht)
    (fun h => ⟨h.varCount_le, h.closed, h.acyclic⟩) fun h => ⟨h.varCount_le, h.closed, h.acyclic⟩

/-! ## Flat types

What deep resolution gives need not be free of bound variables: the end of a
record is taken as it is, and may be a type with parts. But resolving it again
changes nothing. -/

/-- Deep resolution has nothing to do. -/
inductive Flat (r : Registry) : Ty → Prop where
  | var {x : TyVar} (h : r.Resolved (.var x)) : Flat r (.var x)
  | con {c : Con} {args : List Ty} (h : ∀ t ∈ args, Flat r t) : Flat r (.con c args)
  | record {fs : Table Ty} {tail : Ty} (hsorted : fs.Sorted) (hfs : ∀ e ∈ fs, Flat r e.2)
      (htail : r.Resolved tail) (hend : tail.isRecord = false) : Flat r (.record fs tail)
  | synonym {id : Nat} {labels : List String} {params : List Ty} {target : Ty}
      (hparams : ∀ t ∈ params, Flat r t) (htarget : Flat r target) :
      Flat r (.synonym id labels params target)
  | module (name : String) (members : Env) : Flat r (.module name members)

theorem flat_resolveDeepN (hr : r.bare.Acyclic) (n : Nat) (t : Ty) :
    r.Flat (r.resolveDeepN n t) := by
  induction n generalizing t with
  | zero => exact .con (by simp)
  | succ n ih =>
    rw [resolveDeepN]
    cases heq : r.resolve t with
    | var x => exact .var fun v hv => open_of_resolve hr (heq.trans hv)
    | con c args => exact .con (forall_mem_map.mpr fun u _ => ih u)
    | record fs tail =>
      obtain ⟨htail, hend⟩ := row_tail_of_bare hr (.record fs tail)
      exact .record ((row_sorted_of_bare hr _).mapValues _) (forall_mem_map.mpr fun e _ => ih e.2)
        htail hend
    | synonym id labels params target =>
      exact .synonym (forall_mem_map.mpr fun u _ => ih u) (ih target)
    | module name members => exact .module name members

theorem flat_resolveDeep (hr : r.Acyclic) (t : Ty) : r.Flat (r.resolveDeep t) :=
  flat_resolveDeepN hr.bare _ t

namespace Flat

variable {r r' : Registry} {t : Ty}

/-- A flat type stays flat while its variables stay open. -/
theorem mono (h : r.Flat t)
    (hb : ∀ v, t.Mentions v → r.binding? v = none → r'.binding? v = none) : r'.Flat t := by
  induction h with
  | var hx =>
    refine .var fun v hv => hb v ?_ (hx v hv)
    cases hv
    exact mentions_flex.mpr rfl
  | con _ ih => exact .con fun u hu => ih u hu fun v hv => hb v (hv.of_child hu)
  | record hsorted _ htail hend ih =>
    refine .record hsorted (fun e he => ih e he fun v hv => hb v (hv.of_child ?_))
      (fun v hv => hb v ?_ (htail v hv)) hend
    · exact mem_children_record.mpr (.inl ⟨e, he, rfl⟩)
    · subst hv
      exact (mentions_flex.mpr rfl).of_child (mem_children_record.mpr (.inr rfl))
  | synonym _ _ ihp ih =>
    exact .synonym (fun u hu => ihp u hu fun v hv => hb v (hv.of_child (by simp [children, hu])))
      (ih fun v hv => hb v (hv.of_child (by simp [children])))
  | module name members => exact .module name members

theorem resolveDeepN (h : r.Flat t) {n : Nat} (hn : t.height < n) : r.resolveDeepN n t = t := by
  induction n generalizing t with
  | zero => omega
  | succ n ih =>
    have hchild : ∀ u ∈ t.children, r.Flat u → r.resolveDeepN n u = u := fun u hu hflat =>
      ih hflat (Nat.lt_of_lt_of_le (height_lt_of_mem_children hu) (Nat.le_of_lt_succ hn))
    rw [resolveDeepN]
    cases h with
    | var hx => rw [hx.resolve]
    | @con c args hargs =>
      rw [resolve_con]
      exact congrArg (Ty.con c) ((map_congr_left fun u hu => hchild u hu (hargs u hu)).trans
        (map_id args))
    | @record fs tail hsorted hfs htail hend =>
      rw [resolve_record]
      simp only [row_eq_self hsorted htail hend]
      rw [map_congr_left (g := id) fun e he => by
        rw [hchild e.2 (mem_children_record.mpr (.inl ⟨e, he, rfl⟩)) (hfs e he)]; rfl, map_id]
    | @synonym id labels params target hparams htarget =>
      rw [resolve_synonym]
      have hps : params.map (r.resolveDeepN n) = params :=
        (map_congr_left fun u hu => hchild u (mem_append_left _ hu) (hparams u hu)).trans
          (map_id params)
      simp only [hps, hchild target (by simp [children]) htarget]
    | module name members => rw [resolve_module]

theorem resolveDeep (h : r.Flat t) : r.resolveDeep t = t :=
  h.resolveDeepN (by unfold fuel; omega)

/-- Generalized variables in the place of others leave the type flat. -/
theorem applyGens (h : r.Flat t) (gens : List (TyVar × Nat)) : r.Flat ((ofGens gens).apply t) := by
  -- an image of a variable is the variable or a generalized one
  have himage : ∀ x, r.Resolved (.var x) → ∃ y, (ofGens gens).image x = .var y ∧
      r.Resolved (.var y) := by
    intro x hx
    rcases image_ofGens gens x with ⟨heq, -⟩ | ⟨g, -, heq⟩
    · exact ⟨x, heq, hx⟩
    · exact ⟨.gen g, heq, fun v hv => by cases hv⟩
  unfold apply
  induction h with
  | var hx =>
    obtain ⟨y, heq, hy⟩ := himage _ hx
    rw [subst, heq]
    exact .var hy
  | con _ ih =>
    rw [subst, substList_eq]
    exact .con (forall_mem_map.mpr ih)
  | @record fs tail hsorted _ htail hend ih =>
    rw [subst, substFields_eq]
    refine .record (hsorted.mapValues (subst _)) (forall_mem_map.mpr ih) ?_ ?_
    · intro v hv
      obtain ⟨x, rfl, himg⟩ := eq_var_of_subst hv
      obtain ⟨y, heq, hy⟩ := himage x htail
      exact hy v (heq.symm.trans himg)
    · cases tail with
      | var x =>
        obtain ⟨y, heq, -⟩ := himage x htail
        rw [subst, heq]
        rfl
      | record gs u => cases hend
      | _ => rfl
  | synonym _ _ ihp ih =>
    rw [subst, substList_eq]
    exact .synonym (forall_mem_map.mpr ihp) ih
  | module name members => exact .module name members

/-- What is known of the type is the type. -/
theorem resolveDeep_applyGens (h : r.Flat t) (gens : List (TyVar × Nat)) (n : Nat) :
    Registry.resolveDeep { r with nextGen := n } ((ofGens gens).apply t) =
      (ofGens gens).apply t := by
  apply Flat.resolveDeep
  exact (h.applyGens gens).mono fun _ _ => id

end Flat

end Registry

namespace Ty

theorem occurrences_subst (f : TyVar → Ty) (t : Ty) :
    (t.subst f).occurrences = t.occurrences.flatMap fun x => (f x).occurrences := by
  induction t with
  | var x => simp [subst, occurrences]
  | con c args ih =>
    simp only [subst, substList_eq, occurrences, occurrencesList_eq, flatMap_map, flatMap_assoc]
    exact flatMap_congr ih
  | record fs tail ihf iht =>
    simp only [subst, substFields_eq, occurrences, occurrencesFields_eq, flatMap_map,
      flatMap_append, flatMap_assoc, iht]
    rw [flatMap_congr ihf]
  | synonym id labels params target ihp iht =>
    simp only [subst, substList_eq, occurrences, occurrencesList_eq, flatMap_map,
      flatMap_append, flatMap_assoc, iht]
    rw [flatMap_congr ihp]
  | module name members => simp [subst, occurrences]

theorem tailOccurrences_subset (t : Ty) : t.tailOccurrences ⊆ t.occurrences := by
  intro x hx
  induction t with
  | var y => simp [tailOccurrences] at hx
  | con c args ih =>
    rw [tailOccurrences, tailOccurrencesList_eq, mem_flatMap] at hx
    obtain ⟨t, ht, hx⟩ := hx
    exact mem_occurrences.mpr (.inr ⟨t, ht, ih t ht hx⟩)
  | record fs tail ihf iht =>
    rw [tailOccurrences, tailOccurrencesFields_eq, mem_append, mem_append, mem_flatMap] at hx
    have htail : tail ∈ (record fs tail).children := mem_children_record.mpr (.inr rfl)
    rcases hx with (⟨e, he, hx⟩ | hx) | hx
    · have hmem : e.2 ∈ (record fs tail).children :=
        mem_children_record.mpr (.inl ⟨e, he, rfl⟩)
      exact mem_occurrences.mpr (.inr ⟨e.2, hmem, ihf e he hx⟩)
    · refine mem_occurrences.mpr (.inr ⟨tail, htail, ?_⟩)
      cases tail <;> simp_all [varSelf, occurrences]
    · exact mem_occurrences.mpr (.inr ⟨tail, htail, iht hx⟩)
  | synonym id labels params target _ iht =>
    exact mem_occurrences.mpr (.inr ⟨target, by simp [children], iht hx⟩)
  | module name members => simp [tailOccurrences] at hx

end Ty

/-! ## Generalization -/

section

variable {ε α β : Type}

/-- The scheme quantifies `t` over its open variables that are not `fixed`: `f` puts
in their place the numbers that they are paired with in `es`. -/
structure Scheme.Closes (σ : Scheme) (fixed : List Nat) (t : Ty) (es : List (TyVar × Nat))
    (f : TyVar → Ty) : Prop where
  keys : ∀ x, x ∈ es.map (·.1) ↔ x ∈ t.occurrences ∧ x.isFree fixed = true
  distinct_keys : (es.map (·.1)).Nodup
  numbers : (es.map (·.2)).Nodup
  vars : σ.vars = es.map (·.2)
  body : σ.body = t.subst f
  image : ∀ x, f x = .var x ∧ x ∉ es.map (·.1) ∨ ∃ g, (x, g) ∈ es ∧ f x = .gen g

/-- The second round finds the open variables that the first one left. -/
theorem mem_secondRound {fixed : List Nat} {t : Ty} {rows : List (TyVar × Nat)} {x : TyVar} :
    x ∈ ((ofGens rows).apply t).vars.filter (·.isFree fixed) ↔
      (x ∈ t.occurrences ∧ x.isFree fixed = true) ∧ x ∉ rows.map (·.1) := by
  rw [mem_filter, vars, mem_distinct, apply, occurrences_subst, mem_flatMap]
  constructor
  · rintro ⟨⟨y, hy, hx⟩, hfree⟩
    rcases image_ofGens rows y with ⟨heq, hnot⟩ | ⟨g, -, heq⟩
    · obtain rfl : x = y := by simpa [heq, occurrences] using hx
      exact ⟨⟨hy, hfree⟩, hnot⟩
    · obtain rfl : x = .gen g := by simpa [heq, occurrences] using hx
      cases hfree
  · rintro ⟨⟨hx, hfree⟩, hnot⟩
    refine ⟨⟨x, hx, ?_⟩, hfree⟩
    rcases image_ofGens rows x with ⟨heq, -⟩ | ⟨g, hin, -⟩
    · simp [heq, occurrences]
    · exact absurd (mem_map_of_mem hin) hnot

/-- What takes the place of a variable in two rounds of renaming. -/
theorem image_ofGens_ofGens (rows : List (TyVar × Nat)) {rest : List (TyVar × Nat)}
    (hrest : ∀ e ∈ rest, e.1.isGen = false) (x : TyVar) :
    (((Subst.ofGens rows).image x).subst (Subst.ofGens rest).image = .var x ∧
        x ∉ (rows ++ rest).map (·.1)) ∨
      ∃ g, (x, g) ∈ rows ++ rest ∧
        ((Subst.ofGens rows).image x).subst (Subst.ofGens rest).image = .gen g := by
  rcases Subst.image_ofGens rows x with ⟨heq, hnot⟩ | ⟨g, hin, heq⟩
  · rcases Subst.image_ofGens rest x with ⟨heq', hnot'⟩ | ⟨g, hin, heq'⟩
    · refine .inl ⟨by rw [heq, subst, heq'], ?_⟩
      rw [map_append, mem_append]
      exact fun h => h.elim hnot hnot'
    · exact .inr ⟨g, mem_append_right _ hin, by rw [heq, subst, heq']⟩
  · refine .inr ⟨g, mem_append_left _ hin, ?_⟩
    rcases Subst.image_ofGens rest (.gen g) with ⟨heq', -⟩ | ⟨g', hin', -⟩
    · rw [heq, subst, heq']
    · cases hrest _ hin'

/-- Quantifying always succeeds, and the numbers are those that come next. -/
theorem closes_generalizeIn {s : State} {t : Ty} (env : Env)
    (hflat : s.registry.Flat (s.registry.resolveDeep t)) :
    ∃ σ s' es f, (generalizeIn env t : Check ε Scheme).run s = .ok σ s' ∧
      σ.Closes (env.freeVars s.registry) (s.registry.resolveDeep t) es f ∧
      es.map (·.2) = range' s.registry.nextGen es.length ∧
      s'.registry = { s.registry with nextGen := s.registry.nextGen + es.length } := by
  unfold generalizeIn generalizeOver
  rw [run_bind_ok (run_registry s), run_bind_ok (run_registry s), run_bind_ok (run_freshGens _ s),
    run_bind_ok (run_registry _), run_bind_ok (run_freshGens _ _)]
  generalize s.registry.resolveDeep t = u at *
  generalize env.freeVars s.registry = fixed
  set xs := u.openTails.filter (·.isFree fixed)
  set n := s.registry.nextGen
  set rows := xs.zip (range' n xs.length)
  simp only [hflat.resolveDeep_applyGens]
  set ys := ((ofGens rows).apply u).vars.filter (·.isFree fixed)
  set rest := ys.zip (range' (n + xs.length) ys.length)
  have hkeys₁ : rows.map (·.1) = xs := map_fst_zip (by simp)
  have hkeys₂ : rest.map (·.1) = ys := map_fst_zip (by simp)
  have hnumbers : (rows ++ rest).map (·.2) = range' n (xs.length + ys.length) := by
    rw [map_append, map_snd_zip (by simp), map_snd_zip (by simp), range'_append_1]
  have hrest : ∀ e ∈ rest, e.1.isGen = false := by
    intro e he
    have hmem := mem_map_of_mem (f := (·.1)) he
    rw [hkeys₂] at hmem
    have hfree := (mem_filter.mp hmem).2
    cases hx : e.1 with
    | flex v => rfl
    | gen g => simp [hx, TyVar.isFree] at hfree
  refine ⟨_, _, rows ++ rest, fun x => ((ofGens rows).image x).subst (ofGens rest).image,
    rfl, ⟨fun x => ?_, ?_, ?_, by rw [map_append], subst_subst _ _ _,
      image_ofGens_ofGens rows hrest⟩, ?_, ?_⟩
  · rw [map_append, mem_append, hkeys₂, mem_secondRound]
    have htail : x ∈ rows.map (·.1) → x ∈ u.occurrences ∧ x.isFree fixed = true := by
      intro hx
      rw [hkeys₁, mem_filter, openTails, mem_distinct] at hx
      exact ⟨u.tailOccurrences_subset hx.1, hx.2⟩
    by_cases hx : x ∈ rows.map (·.1) <;> simp [hx, htail]
  · rw [map_append, nodup_append']
    refine ⟨hkeys₁ ▸ (nodup_distinct _).filter _, hkeys₂ ▸ (nodup_distinct _).filter _, ?_⟩
    intro x hx hx'
    rw [hkeys₂] at hx'
    exact (mem_secondRound.mp hx').2 hx
  · rw [hnumbers]
    exact nodup_range'
  · rw [hnumbers]
    simp [rows, rest]
  · simp [rows, rest, Nat.add_assoc]

/-- In a sealed environment a type that keeps to the variables from the `n`th on is
quantified over all of them that it leaves open. -/
theorem generalizeIn_sealed {n : Nat} {env : Env} {s s' : State} {t : Ty} {σ : Scheme}
    (henv : env.Sealed) (hs : s.registry.Apart n) (ht : t.Over (n ≤ ·))
    (hrun : (generalizeIn env t : Check ε Scheme).run s = .ok σ s') : σ.body.Sealed := by
  have hdeep := hs.closed.resolveDeep ht
  have hflat : s.registry.Flat (s.registry.resolveDeep t) := by
    have hcut := flat_resolveDeepN hs.acyclic (s.registry.fuel t) t
    rw [hs.closed.resolveDeepN_cut hs.acyclic ht] at hcut
    refine hcut.mono fun v hv hb => ?_
    rwa [binding?_cut, if_neg (Nat.not_lt.mpr (hdeep.mentions hv))] at hb
  obtain ⟨τ, s₁, es, f, hrun', hσ, -⟩ := closes_generalizeIn (ε := ε) env hflat
  cases hrun'.symm.trans hrun
  rw [freeVars_of_sealed henv] at hσ
  have hnone : σ.body.Over fun _ => False := by
    rw [hσ.body]
    refine (over_rebuilds _ _).subst hdeep fun x hx _ => ?_
    rcases hσ.image x with ⟨heq, hnot⟩ | ⟨g, -, heq⟩
    · cases x with
      | flex v => exact absurd ((hσ.keys _).mpr ⟨hx, rfl⟩) hnot
      | gen g =>
        rw [heq]
        exact (all_var _).mpr trivial
    · rw [heq]
      exact (all_var _).mpr trivial
  exact hnone.sealed fun v hv => hnone.mentions hv

/-! ## Declarations -/

theorem run_bind_inv {σ : Type} {x : EStateM ε σ α} {f : α → EStateM ε σ β} {s s' : σ} {b : β}
    (h : (x >>= f).run s = .ok b s') :
    ∃ a s₁, x.run s = .ok a s₁ ∧ (f a).run s₁ = .ok b s' := by
  cases hx : x.run s with
  | ok a s₁ =>
    rw [run_bind_ok hx] at h
    exact ⟨a, s₁, rfl, h⟩
  | error e s₁ =>
    rw [run_bind_error hx] at h
    cases h

end

/-- Whatever is done, bindings are only added. -/
theorem Registry.Extends.discipline (r₀ : Registry) :
    Discipline (inRegistry r₀.Extends) (fun _ _ => True) fun _ => True :=
  .of_registry (fun _ h => h.trans (.addVar _)) (fun _ _ _ h hv => h.trans (.setBinding hv _))
    (fun _ h => ⟨h.varCount_le, h.binding⟩) fun _ h => ⟨h.varCount_le, h.binding⟩

namespace Decl

variable {I : State → Prop}

mutual

/-- Whatever is done keeps a property of states that asks nothing of types. -/
theorem keeps_any (D : Discipline I (fun _ _ => True) fun _ => True) :
    ∀ (d : Decl) (n : Nat) {env : Env}, Keeps (watching I) n (d.check env) fun _ _ => True
  | .value span name isRec ann body, n, env => by
    rw [check]
    exact (D.keeps_inferBinding (D.obeys (by simp) (by simp)) span name isRec ann
      fun env m h => D.keeps_inferHead body m h).bind fun _ _ _ _ => keeps_pure fun _ _ => trivial
  | .type span name params definition, n, env => by
    rw [check]
    exact (D.keeps_declareType (by simp) (by simp) span name params).imp fun _ _ _ _ => trivial
  | .module _ name decls, n, env => by
    rw [check]
    exact (keeps_anyMembers D decls n).bind fun _ _ _ _ => keeps_pure fun _ _ => trivial
  | .expr _ body, n, env => by
    rw [check]
    exact (D.keeps_infer (D.obeys (by simp) (by simp)) body).bind fun _ _ _ ht =>
      (D.keeps_generalizeIn env ht).bind fun _ _ _ _ => keeps_pure fun _ _ => trivial

theorem keeps_anyMembers (D : Discipline I (fun _ _ => True) fun _ => True) :
    ∀ (ds : List Decl) (n : Nat) {env members : Env},
      Keeps (watching I) n (checkMembers env members ds) fun _ _ => True
  | [], n, env, members => by
    rw [checkMembers]
    exact keeps_pure fun _ _ => trivial
  | d :: ds, n, env, members => by
    rw [checkMembers]
    exact (keeps_any D d n).bind fun r m _ _ => keeps_anyMembers D ds m

end

mutual

/-- A declaration introduces sealed schemes only. -/
theorem introduces_sealed : ∀ (d : Decl) {env : Env} {s s' : State} {r : Env × Declared},
    env.Sealed → (d.check env).run s = .ok r s' → Introduces Sealed env r
  | .value span name isRec ann body, env, s, s', r, henv, hrun => by
    rw [check, inferBinding_eq] at hrun
    obtain ⟨σ, s₂, hσ, hpure⟩ := run_bind_inv hrun
    obtain ⟨t, s₁, ht, hgen⟩ := run_bind_inv hσ
    cases hpure
    have D := Apart.discipline s.registry.varCount
    obtain ⟨hapart, -, hyield⟩ := D.keeps_boundType (D.obeys henv.values henv.types) span
      name isRec ann (fun env m h => D.keeps_inferHead body m h) s (.refl _) (Nat.zero_le _)
    rw [after_ok ht] at hapart
    exact .value (generalizeIn_sealed henv hapart (hyield t s₁ ht) hgen)
  | .type span name params definition, env, s, s', r, henv, hrun => by
    rw [check] at hrun
    have D := Apart.discipline s.registry.varCount
    exact ((D.keeps_declareType (fun _ => .synonym) henv.types span name params s (.refl _)
      (Nat.zero_le _)).2.2 r s' hrun).1
  | .module _ name decls, env, s, s', r, henv, hrun => by
    rw [check] at hrun
    obtain ⟨members, s₁, hmembers, hpure⟩ := run_bind_inv hrun
    cases hpure
    have hsealed := members_sealed decls henv ⟨by simp [Env.empty], by simp [Env.empty]⟩ hmembers
    exact .value (.module hsealed.values hsealed.types)
  | .expr _ body, env, s, s', r, henv, hrun => by
    rw [check] at hrun
    obtain ⟨t, s₁, ht, hrest⟩ := run_bind_inv hrun
    obtain ⟨σ, s₂, hσ, hpure⟩ := run_bind_inv hrest
    cases hpure
    have D := Apart.discipline s.registry.varCount
    obtain ⟨hapart, -, hyield⟩ :=
      D.keeps_infer (D.obeys henv.values henv.types) body s (.refl _) (Nat.zero_le _)
    rw [after_ok ht] at hapart
    have hσ := generalizeIn_sealed henv hapart (hyield t s₁ ht) hσ
    exact ⟨fun _ => .inl, fun _ => .inl, by simpa using hσ, by simp⟩

theorem members_sealed : ∀ (ds : List Decl) {env members : Env} {s s' : State} {members' : Env},
    env.Sealed → members.Sealed → (checkMembers env members ds).run s = .ok members' s' →
      members'.Sealed
  | [], env, members, s, s', members', _, hmembers, hrun => by
    rw [checkMembers] at hrun
    cases hrun
    exact hmembers
  | d :: ds, env, members, s, s', members', henv, hmembers, hrun => by
    rw [checkMembers] at hrun
    obtain ⟨⟨env', declared⟩, s₁, hd, hds⟩ := run_bind_inv hrun
    have hintro := introduces_sealed d henv hd
    obtain ⟨hvalues, htypes⟩ := hintro.obeys henv.values henv.types
    refine members_sealed ds ⟨hvalues, htypes⟩ ⟨?_, ?_⟩ hds
    · exact Declared.exportTo_values hintro.values hmembers.values
    · exact Declared.exportTo_types hintro.types hmembers.types

end

end Decl

/-! ## Programs -/

theorem checkDecls_sealed (ds : List Decl) {report : Report} {s : State}
    (henv : report.env.Sealed) (hdeclared : ∀ e ∈ report.declared, e.2.body.Sealed) :
    (checkDecls ds report s).1.env.Sealed ∧
      ∀ e ∈ (checkDecls ds report s).1.declared, e.2.body.Sealed := by
  induction ds generalizing report s with
  | nil => exact ⟨henv, hdeclared⟩
  | cons d ds ih =>
    cases hrun : (d.check report.env).run s with
    | ok r s₁ =>
      have hintro := d.introduces_sealed henv hrun
      obtain ⟨hvalues, htypes⟩ := hintro.obeys henv.values henv.types
      rw [checkDecls_ok hrun]
      exact ih ⟨hvalues, htypes⟩ (forall_mem_append.mpr ⟨hdeclared, hintro.values⟩)
    | error e s₁ =>
      rw [checkDecls_error hrun]
      exact ih henv hdeclared

/-- A program that is checked in a sealed environment leaves a sealed environment,
and what it declares is sealed: no scheme mentions a variable of the registry, bound
or open, also not one of a member of a module. -/
theorem checkProgram_sealed {env : Env} (henv : env.Sealed) (ds : List Decl) (s : State) :
    (checkProgram env ds s).1.env.Sealed ∧
      ∀ e ∈ (checkProgram env ds s).1.declared, e.2.body.Sealed :=
  checkDecls_sealed ds henv (by simp)

/-- A variant, a module whose member selects a field, and an expression that uses
both. -/
def boxedSelector : List Decl :=
  [.type {} "box" ["a"] (.variant [("Box", some (.var "a"))]),
    .module {} "m" [.value {} "get" false none (.lam {} "r" none (.field {} (.var {} "r") "x"))],
    .expr {} (.construct {} "Box" (some (.path {} "m" "get")))]

theorem boxedSelector_sealed :
    Env.empty.Sealed ∧
      (checkProgram .empty boxedSelector {}).1.declared.map (·.1) = ["Box", "m", "-"] ∧
      ((checkProgram .empty boxedSelector {}).2.registry.binding? 0).isSome ∧
      (checkProgram .empty boxedSelector {}).1.env.Sealed ∧
      ∀ e ∈ (checkProgram .empty boxedSelector {}).1.declared, e.2.body.Sealed := by
  have henv : Env.empty.Sealed := ⟨by simp [Env.empty], by simp [Env.empty]⟩
  exact ⟨henv, by decide +kernel, by decide +kernel, checkProgram_sealed henv boxedSelector {}⟩

end RowTyping
