import RowTyping.Proofs.Footprint
import RowTyping.Proofs.Generalization
import RowTyping.Proofs.Sealing

/-!
# Instances of a generalized type

Generalizing a type quantifies it over the open variables that its surroundings do
not know, each under a number of its own. An instance puts new variables in their
place. What comes out is the type that went in, resolved, with these variables
renamed apart, so two instances have nothing in common but what the surroundings
know.
-/

namespace RowTyping

open Check Registry Table Ty List Subst

/-! ## The variables of a resolved type -/

namespace Registry

variable {r r' : Registry} {t : Ty}

/-- A variable of a resolved type is what the type resolves to, or comes from a part
of it, or stands in the end of its row. -/
theorem mem_occurrences_resolveDeep (hr : r.Acyclic) {x : TyVar}
    (hx : x ∈ (r.resolveDeep t).occurrences) :
    r.resolve t = .var x ∨ (∃ u, r.Part u t ∧ x ∈ (r.resolveDeep u).occurrences) ∨
      ∃ fs tail, r.resolve t = .record fs tail ∧ x ∈ (r.row t).tail.occurrences := by
  cases heq : r.resolve t with
  | var y =>
    rw [resolveDeep_var hr heq] at hx
    obtain rfl : x = y := by simpa [occurrences] using hx
    exact .inl rfl
  | con c args =>
    rw [resolveDeep_con hr heq, occurrences, occurrencesList_eq, flatMap_map, mem_flatMap] at hx
    obtain ⟨u, hu, hx⟩ := hx
    exact .inr (.inl ⟨u, .inl (heq ▸ hu), hx⟩)
  | record fs tail =>
    rw [resolveDeep_record hr heq, occurrences, occurrencesFields_eq, mapValues,
      flatMap_map, mem_append, mem_flatMap] at hx
    rcases hx with ⟨e, he, hx⟩ | hx
    · exact .inr (.inl ⟨e.2, .inr ⟨e, he, rfl⟩, hx⟩)
    · exact .inr (.inr ⟨fs, tail, rfl, hx⟩)
  | synonym id labels params target =>
    rw [resolveDeep_synonym hr heq, occurrences, occurrencesList_eq, flatMap_map,
      mem_append, mem_flatMap] at hx
    rcases hx with ⟨u, hu, hx⟩ | hx
    · exact .inr (.inl ⟨u, .inl (by simp [heq, children, hu]), hx⟩)
    · exact .inr (.inl ⟨target, .inl (by simp [heq, children]), hx⟩)
  | module name members =>
    rw [resolveDeep_module hr heq] at hx
    simp [occurrences] at hx

section

variable {P : Ty → Prop} (hb : r.AllBindings P) (hr : r.Acyclic)
  (child : ∀ {t u : Ty}, P t → u ∈ t.children → P u)
include hb hr child

theorem AllBindings.part {u : Ty} (ht : P t) (hu : r.Part u t) : P u := by
  rcases hu with hu | ⟨e, he, rfl⟩
  · exact child (hb.resolve hr ht) hu
  · exact (hb.row hr child id ht).1 e he

/-- What holds of a type, of its parts and of all bindings holds of the variables
that the type resolves to. -/
theorem AllBindings.of_mem_resolveDeep (ht : P t) {x : TyVar}
    (hx : x ∈ (r.resolveDeep t).occurrences) : P (.var x) := by
  have inside : ∀ {u : Ty}, P u → x ∈ u.occurrences → P (.var x) := by
    intro u
    induction u using induct_children with
    | step u ih =>
      intro hu hx
      rcases mem_occurrences.mp hx with rfl | ⟨w, hw, hxw⟩
      · exact hu
      · exact ih w hw (child hu hw) hxw
  induction t using part_induct hr with
  | step t ih =>
    rcases mem_occurrences_resolveDeep hr hx with heq | ⟨u, hu, hx⟩ | ⟨fs, tail, -, hx⟩
    · exact heq ▸ hb.resolve hr ht
    · exact ih u hu (hb.part hr child ht hu) hx
    · exact inside (hb.row hr child id ht).2 hx

end

theorem scoped_resolveDeep (hr : r.Acyclic) (hscoped : r.Scoped) (ht : t.Scoped r.varCount) :
    (r.resolveDeep t).Scoped r.varCount := by
  intro v hv
  have hvar : (flex v).Scoped r.varCount :=
    AllBindings.of_mem_resolveDeep hscoped hr
      (fun ht hu v hv => ht v (Mentions.of_child hv hu)) ht hv
  exact hvar v (mentions_flex.mpr rfl)

/-- A row ends in a variable or in the empty row. -/
theorem RowKinded.row_end (hr : r.Acyclic) (hb : r.AllBindings r.RowKinded) (ht : r.RowKinded t)
    (hrow : r.IsRow t) : (r.row t).tail = .emptyRow ∨ ∃ x, (r.row t).tail = .var x := by
  refine row_induct hr (motive := fun t row => r.RowKinded t → r.IsRow t →
    row.tail = .emptyRow ∨ ∃ x, row.tail = .var x) ?_ ?_ t ht hrow
  · intro t fs tail heq ih ht _
    have hrec := heq ▸ hb.resolve hr ht
    exact ih (hrec.child (mem_children_record.mpr (.inr rfl))) hrec.here
  · intro t hne _ hrow
    rcases hrow with hrec | hend
    · cases heq : r.resolve t <;> simp_all [isRecord]
    · exact hend

/-- If all records end in rows, the variables of a resolved type are open. -/
theorem RowKinded.unbound (hr : r.Acyclic) (hb : r.AllBindings r.RowKinded) (ht : r.RowKinded t)
    {v : Nat} (hv : .flex v ∈ (r.resolveDeep t).occurrences) : r.binding? v = none := by
  induction t using part_induct hr with
  | step t ih =>
    rcases mem_occurrences_resolveDeep hr hv with heq | ⟨u, hu, hv⟩ | ⟨fs, tail, heq, hv⟩
    · exact binding?_of_resolve hr heq
    · exact ih u hu (AllBindings.part hb hr (fun h hu => h.child hu) ht hu) hv
    · rcases ht.row_end hr hb (.inl (by rw [heq]; rfl)) with hend | ⟨x, hend⟩
      · simp [hend, occurrences] at hv
      · obtain rfl : TyVar.flex v = x := by simpa [hend, occurrences] using hv
        exact (row_tail hr t).1 v hend

end Registry

/-! ## Generalization -/

section

variable {ε β : Type} {s : State} {t : Ty} {σ : Scheme} {fixed : List Nat}

namespace Scheme.Closes

variable {es : List (TyVar × Nat)} {f : TyVar → Ty} (h : σ.Closes fixed t es f)
include h

theorem image_of_mem {v : Nat} (hv : t.Mentions v) :
    v ∈ fixed ∧ f (.flex v) = .flex v ∨
      v ∉ fixed ∧ ∃ g, (.flex v, g) ∈ es ∧ f (.flex v) = .gen g := by
  have hfree : TyVar.isFree fixed (.flex v) = true ↔ v ∉ fixed := by simp [TyVar.isFree]
  rcases h.image (.flex v) with ⟨heq, hnot⟩ | ⟨g, hin, heq⟩
  · refine .inl ⟨?_, heq⟩
    by_contra hv'
    exact hnot ((h.keys _).mpr ⟨hv, hfree.mpr hv'⟩)
  · exact .inr ⟨hfree.mp ((h.keys _).mp (mem_map_of_mem hin)).2, g, hin, heq⟩

/-- The quantifiers are the generalized variables of the body. -/
theorem mem_vars_iff (hgens : ∀ g, .gen g ∉ t.occurrences) {g : Nat} :
    g ∈ σ.vars ↔ .gen g ∈ σ.body.occurrences := by
  rw [h.vars, h.body, occurrences_subst, mem_flatMap]
  constructor
  · intro hg
    obtain ⟨⟨x, g⟩, hin, rfl⟩ := mem_map.mp hg
    obtain ⟨hx, hfree⟩ := (h.keys x).mp (mem_map_of_mem hin)
    refine ⟨x, hx, ?_⟩
    rcases h.image x with ⟨-, hnot⟩ | ⟨g', hin', heq⟩
    · exact absurd (mem_map_of_mem hin) hnot
    · have hpair := inj_on_of_nodup_map h.distinct_keys hin hin' rfl
      simp [heq, occurrences, (Prod.mk.inj hpair).2]
  · rintro ⟨x, hx, hg⟩
    cases x with
    | gen g' => exact absurd hx (hgens g')
    | flex v =>
      rcases h.image_of_mem hx with ⟨-, heq⟩ | ⟨-, g', hin, heq⟩
      · simp [heq, occurrences] at hg
      · obtain rfl : g = g' := by simpa [heq, occurrences] using hg
        exact mem_map_of_mem hin

theorem mem_fixed {v : Nat} (hv : .flex v ∈ σ.body.occurrences) : t.Mentions v ∧ v ∈ fixed := by
  rw [h.body, occurrences_subst, mem_flatMap] at hv
  obtain ⟨x, hx, hv⟩ := hv
  rcases h.image x with ⟨heq, hnot⟩ | ⟨g, -, heq⟩
  · obtain rfl : .flex v = x := by simpa [heq, occurrences] using hv
    rcases h.image_of_mem hx with ⟨hfixed, -⟩ | ⟨-, g, hin, -⟩
    · exact ⟨hx, hfixed⟩
    · exact absurd (mem_map_of_mem hin) hnot
  · simp [heq, occurrences] at hv

end Scheme.Closes

/-! ## Instances -/

/-- `f` puts new variables in the place of the quantifiers and the open rows, numbered
from `n` to `m` and all of them different. -/
structure Scheme.Opened (σ : Scheme) (f : TyVar → Ty) (n m : Nat) : Prop where
  flex : ∀ v, f (.flex v) = .flex v
  kept : ∀ {g}, ¬ σ.Opens (.gen g) → f (.gen g) = .gen g
  gen : ∀ {g}, σ.Opens (.gen g) → ∃ w, f (.gen g) = .flex w ∧ n ≤ w ∧ w < m
  injective : ∀ {g h}, σ.Opens (.gen g) → σ.Opens (.gen h) → f (.gen g) = f (.gen h) → g = h

theorem Scheme.Opened.var {f : TyVar → Ty} {n m : Nat} (h : σ.Opened f n m) (x : TyVar) :
    ∃ y, f x = .var y := by
  cases x with
  | flex v => exact ⟨_, h.flex v⟩
  | gen g =>
    by_cases hg : σ.Opens (.gen g)
    · obtain ⟨w, hw, -⟩ := h.gen hg
      exact ⟨_, hw⟩
    · exact ⟨_, h.kept hg⟩

theorem opened_instantiate (σ : Scheme) (s : State) :
    ∃ f s', (instantiate σ : Check ε Ty).run s = .ok (σ.body.subst f) s' ∧
      s.registry.varCount ≤ s'.registry.varCount ∧
      σ.Opened f s.registry.varCount s'.registry.varCount := by
  obtain ⟨es, s', hrun, hkeys, hvars, hcount⟩ := run_freshVars σ.replaced s
  have hfills := Scheme.fills_image hkeys
  have hnodup : (es.map (·.2)).Nodup := by
    rw [hvars]
    exact Nodup.map (fun v w h => TyVar.flex.inj (var.inj h)) nodup_range'
  have hnew : ∀ {e}, e ∈ es →
      ∃ w, e.2 = .flex w ∧ s.registry.varCount ≤ w ∧ w < s'.registry.varCount := by
    intro e he
    have hmem := mem_map_of_mem (f := (·.2)) he
    rw [hvars] at hmem
    obtain ⟨w, hw, heq⟩ := mem_map.mp hmem
    rw [mem_range'_1] at hw
    exact ⟨w, heq.symm, hw.1, by omega⟩
  refine ⟨(ofList es).image, s', ?_, by omega, hfills.flex, hfills.kept,
    fun hg => hnew (hfills.opened hg), fun hg hh heq => ?_⟩
  · rw [instantiate_eq, run_bind_ok hrun]
    rfl
  · have hpair := inj_on_of_nodup_map hnodup (hfills.opened hg) (hfills.opened hh) heq
    exact TyVar.gen.inj (congrArg Prod.fst hpair)

/-- Different new variables, numbered from `n` to `m`, in the place of the variables
of the type except the `fixed` ones. -/
structure Ty.Renews (t : Ty) (fixed : List Nat) (f : Nat → Nat) (n m : Nat) : Prop where
  kept : ∀ v ∈ fixed, f v = v
  issued : ∀ v, t.Mentions v → v ∉ fixed → n ≤ f v ∧ f v < m
  injective : Set.InjOn f {v | t.Mentions v}

/-- A new variable is none of the old ones, so only the new ones have to differ. -/
theorem Ty.renews_of_new {f : Nat → Nat} {n m : Nat} (hkept : ∀ v ∈ fixed, f v = v)
    (hissued : ∀ v, t.Mentions v → v ∉ fixed → n ≤ f v ∧ f v < m)
    (hold : ∀ v ∈ fixed, t.Mentions v → v < n)
    (hinj : ∀ v w, t.Mentions v → t.Mentions w → v ∉ fixed → w ∉ fixed → f v = f w → v = w) :
    t.Renews fixed f n m := by
  have hlt : ∀ v, t.Mentions v → v ∈ fixed → f v < n :=
    fun v hv hfixed => (hkept v hfixed).symm ▸ hold v hfixed hv
  refine ⟨hkept, hissued, fun v hv w hw heq => ?_⟩
  by_cases hv' : v ∈ fixed <;> by_cases hw' : w ∈ fixed
  · rwa [hkept v hv', hkept w hw'] at heq
  · exact absurd (hissued w hw hw').1 (Nat.not_le.mpr (heq ▸ hlt v hv hv'))
  · exact absurd (hissued v hv hv').1 (Nat.not_le.mpr (heq ▸ hlt w hw hw'))
  · exact hinj v w hv hw hv' hw' heq

/-- An instance of a quantified type is the type with its quantified variables
renewed. -/
theorem Scheme.Closes.exists_renews {es : List (TyVar × Nat)} {f g : TyVar → Ty} {n m : Nat}
    (h : σ.Closes fixed t es f) (hg : σ.Opened g n m) (hscoped : t.Scoped n)
    (hgens : ∀ g, .gen g ∉ t.occurrences) :
    ∃ ρ, σ.body.subst g = t.subst (fill fun v => .flex (ρ v)) ∧ t.Renews fixed ρ n m := by
  have hopens : ∀ {x : TyVar} {k : Nat}, (x, k) ∈ es → σ.Opens (.gen k) := fun {x k} hin => by
    have hk : k ∈ σ.vars := h.vars ▸ mem_map_of_mem hin
    exact .inl hk
  have hρ : ∀ v, ∃ w, (v ∈ fixed → w = v) ∧ (t.Mentions v → (f (.flex v)).subst g = .flex w) ∧
      (t.Mentions v → v ∉ fixed → n ≤ w ∧ w < m) := by
    intro v
    by_cases hv : t.Mentions v
    · rcases h.image_of_mem hv with ⟨hfixed, heq⟩ | ⟨hfree, k, hin, heq⟩
      · refine ⟨v, fun _ => rfl, fun _ => ?_, fun _ hfree => absurd hfixed hfree⟩
        rw [heq]
        exact hg.flex v
      · obtain ⟨w, hw, hrange⟩ := hg.gen (hopens hin)
        refine ⟨w, fun hfixed => absurd hfixed hfree, fun _ => ?_, fun _ _ => hrange⟩
        rw [heq]
        exact hw
    · exact ⟨v, fun _ => rfl, fun hv' => absurd hv' hv, fun hv' => absurd hv' hv⟩
  choose ρ hkept himage hissued using hρ
  refine ⟨ρ, ?_, renews_of_new hkept hissued (fun v _ hv => hscoped v hv) ?_⟩
  · rw [h.body, subst_subst]
    refine subst_congr fun x hx => ?_
    cases x with
    | flex v => exact himage v hx
    | gen k => exact absurd hx (hgens k)
  · intro v w hv hw hv' hw' heq
    -- two quantifiers have two numbers
    obtain ⟨k, hk, hfk⟩ := ((h.image_of_mem hv).resolve_left fun h => hv' h.1).2
    obtain ⟨l, hl, hfl⟩ := ((h.image_of_mem hw).resolve_left fun h => hw' h.1).2
    have hsame : g (.gen k) = g (.gen l) := by
      have := (himage v hv).trans ((congrArg flex heq).trans (himage w hw).symm)
      rwa [hfk, hfl] at this
    obtain rfl := hg.injective (hopens hk) (hopens hl) hsame
    have hpair := inj_on_of_nodup_map h.numbers hk hl rfl
    exact TyVar.flex.inj (congrArg Prod.fst hpair)

/-- Two instances that were made one after the other share only fixed variables. -/
theorem Ty.Renews.shared {ρ π : Nat → Nat} {n m k l v : Nat} (h : t.Renews fixed ρ n m)
    (h' : t.Renews fixed π k l) (hmk : m ≤ k) (hgens : ∀ g, .gen g ∉ t.occurrences)
    (hv : (t.subst (fill fun v => .flex (ρ v))).Mentions v)
    (hv' : (t.subst (fill fun v => .flex (π v))).Mentions v) : v ∈ fixed := by
  have hsource : ∀ {ρ : Nat → Nat}, (t.subst (fill fun v => .flex (ρ v))).Mentions v →
      ∃ w, t.Mentions w ∧ v = ρ w := by
    intro ρ hv
    rw [Mentions, occurrences_subst, mem_flatMap] at hv
    obtain ⟨x, hx, hv⟩ := hv
    cases x with
    | flex w => exact ⟨w, hx, by simpa [fill, occurrences] using hv⟩
    | gen g => exact absurd hx (hgens g)
  obtain ⟨w, hw, rfl⟩ := hsource hv
  obtain ⟨w', hw', heq⟩ := hsource hv'
  by_cases hfixed : w ∈ fixed
  · rwa [h.kept w hfixed]
  · have hlt := (h.issued w hw hfixed).2
    by_cases hfixed' : w' ∈ fixed
    · rw [h'.kept w' hfixed'] at heq
      exact heq ▸ hfixed'
    · have := (h'.issued w' hw' hfixed').1
      omega

/-- Generalizing a type that resolves to one without generalized variables yields a
scheme whose quantifiers are new, all different and just the generalized variables
of its body; what stays open in the body is known to the environment, and not bound if
the records of the type end in rows. In range, the quantifiers are words. Each instance
is the resolved type with its other variables renewed, and two instances share only
variables that are free in the environment. -/
theorem instances_of_generalized_renew (env : Env) (hr : s.registry.Acyclic)
    (hscoped : s.registry.Scoped) (hrows : s.registry.AllBindings s.registry.RowKinded)
    (ht : t.Scoped s.registry.varCount)
    (hgens : ∀ g, .gen g ∉ (s.registry.resolveDeep t).occurrences) :
    ∃ σ s', (generalizeIn env t : Check ε Scheme).run s = .ok σ s' ∧
      σ.vars.Nodup ∧ (∀ g ∈ σ.vars, s.registry.nextGen ≤ g ∧ g < s'.registry.nextGen) ∧
      (s'.registry.InRange → ∀ g ∈ σ.vars, Registry.word g = g) ∧
      (∀ g, g ∈ σ.vars ↔ .gen g ∈ σ.body.occurrences) ∧
      (∀ v, .flex v ∈ σ.body.occurrences → v ∈ env.freeVars s.registry ∧
        (s.registry.RowKinded t → s'.registry.binding? v = none)) ∧
      (∀ s₁ : State, s.registry.varCount ≤ s₁.registry.varCount → ∃ ρ s₂,
        (instantiate σ : Check ε Ty).run s₁ =
          .ok ((s.registry.resolveDeep t).subst (Ty.fill fun v => .flex (ρ v))) s₂ ∧
        (s.registry.resolveDeep t).Renews (env.freeVars s.registry) ρ s₁.registry.varCount
          s₂.registry.varCount) ∧
      ∀ (s₁ s₂ s₃ s₄ : State) (a b : Ty), s.registry.varCount ≤ s₁.registry.varCount →
        (instantiate σ : Check ε Ty).run s₁ = .ok a s₂ →
        s₂.registry.varCount ≤ s₃.registry.varCount →
        (instantiate σ : Check ε Ty).run s₃ = .ok b s₄ →
        ∀ v, a.Mentions v → b.Mentions v → v ∈ env.freeVars s.registry := by
  obtain ⟨σ, s', es, f, hrun, hcloses, hnumbers, hstays⟩ :=
    closes_generalizeIn (ε := ε) env (flat_resolveDeep hr t)
  have hnew : ∀ g ∈ σ.vars, s.registry.nextGen ≤ g ∧ g < s'.registry.nextGen := by
    intro g hg
    rw [hcloses.vars, hnumbers, mem_range'_1] at hg
    rwa [hstays]
  have hdeep := Registry.scoped_resolveDeep hr hscoped ht
  generalize env.freeVars s.registry = fixed at *
  have hinstance : ∀ s₁ : State, s.registry.varCount ≤ s₁.registry.varCount → ∃ ρ s₂,
      (instantiate σ : Check ε Ty).run s₁ =
        .ok ((s.registry.resolveDeep t).subst (Ty.fill fun v => .flex (ρ v))) s₂ ∧
      s₁.registry.varCount ≤ s₂.registry.varCount ∧
      (s.registry.resolveDeep t).Renews fixed ρ s₁.registry.varCount s₂.registry.varCount := by
    intro s₁ hle
    obtain ⟨g, s₂, hrun, hmore, hopened⟩ := opened_instantiate σ s₁
    have hold : (s.registry.resolveDeep t).Scoped s₁.registry.varCount := fun v hv =>
      (hdeep v hv).trans_le hle
    obtain ⟨ρ, hbody, hrenews⟩ := hcloses.exists_renews hopened hold hgens
    exact ⟨ρ, s₂, hbody ▸ hrun, hmore, hrenews⟩
  refine ⟨σ, s', hrun, hcloses.vars ▸ hcloses.numbers, hnew,
    fun hrange g hg => Registry.word_of_lt ((hnew g hg).2.trans hrange.gens),
    fun g => hcloses.mem_vars_iff hgens, fun v hv => ?_, fun s₁ hle => ?_, ?_⟩
  · obtain ⟨hmem, hfixed⟩ := hcloses.mem_fixed hv
    exact ⟨hfixed, fun hkinded =>
      (congrArg (·.binding? v) hstays).trans (hkinded.unbound hr hrows hmem)⟩
  · obtain ⟨ρ, s₂, hrun, -, hrenews⟩ := hinstance s₁ hle
    exact ⟨ρ, s₂, hrun, hrenews⟩
  · intro s₁ s₂ s₃ s₄ a b hle₁ ha hle₃ hb v hva hvb
    obtain ⟨ρ, s₂', hrun₁, hmore, hρ⟩ := hinstance s₁ hle₁
    obtain ⟨rfl, rfl⟩ := EStateM.Result.ok.inj (ha.symm.trans hrun₁)
    obtain ⟨π, s₄', hrun₃, -, hπ⟩ := hinstance s₃ (hle₁.trans (hmore.trans hle₃))
    obtain ⟨rfl, rfl⟩ := EStateM.Result.ok.inj (hb.symm.trans hrun₃)
    exact hρ.shared hπ hle₃ hgens hva hvb

/-- The environment knows the variable `0`. The type of the variable `3`, a function
from there to a record, is quantified over the field of the record and its end. -/
theorem instances_of_open_record_renew :
    let u := Ty.arrow (.flex 0) (.record [("l", .flex 1)] (.flex 2))
    let s : State := ⟨({} : Registry).addVar.addVar.addVar.addVar.setBinding 3 u, #[]⟩
    let env := Env.empty.addValue "x" (.mono (.flex 0))
    s.registry.Acyclic ∧ s.registry.Scoped ∧ s.registry.AllBindings s.registry.RowKinded ∧
      s.registry.resolveDeep (.flex 3) = u ∧ env.freeVars s.registry = [0] ∧
      ∃ σ s', (generalizeIn env (.flex 3) : Check TypeError Scheme).run s = .ok σ s' ∧
        σ.vars.Nodup ∧ (∀ g, g ∈ σ.vars ↔ .gen g ∈ σ.body.occurrences) ∧
        ∃ v w s₂, (instantiate σ : Check TypeError Ty).run s =
            .ok (.arrow (.flex 0) (.record [("l", .flex v)] (.flex w))) s₂ ∧
          v ≠ w ∧ 4 ≤ v ∧ 4 ≤ w := by
  intro u s env
  have hu : u.Scoped 3 := by
    simp only [Ty.Scoped, Ty.Mentions, u, Ty.occurrences, Ty.occurrencesList, Ty.occurrencesFields]
    simp
  have hr : s.registry.Acyclic := Registry.acyclic_setBinding (by simp) hu
  have hcount : s.registry.varCount = 4 := by decide +kernel
  have hscoped : s.registry.Scoped :=
    Registry.forall_setBinding (by simp) fun w hw => (hu w hw).trans (by omega)
  have hend : s.registry.resolve (.flex 2) = .flex 2 := by decide +kernel
  have hrows : s.registry.AllBindings s.registry.RowKinded :=
    Registry.forall_setBinding (by simp) (by simp [u, Registry.EndsInRow, Registry.IsRow, hend])
  have hdeep : s.registry.resolveDeep (.flex 3) = u := by decide +kernel
  have hfree : env.freeVars s.registry = [0] := by decide +kernel
  refine ⟨hr, hscoped, hrows, hdeep, hfree, ?_⟩
  obtain ⟨σ, s', hrun, hnodup, -, -, hvars, -, hinstance, -⟩ :=
    instances_of_generalized_renew env hr hscoped hrows (t := .flex 3)
      (by simp [Ty.Scoped, Ty.mentions_flex, hcount]) (by simp [hdeep, u, Ty.occurrences])
  refine ⟨σ, s', hrun, hnodup, hvars, ?_⟩
  obtain ⟨ρ, s₂, hrun₂, hρ⟩ := hinstance s le_rfl
  rw [hdeep] at hrun₂ hρ
  rw [hfree, hcount] at hρ
  have hzero : ρ 0 = 0 := hρ.kept 0 (by simp)
  have hone : u.Mentions 1 := by simp [u, Ty.Mentions, Ty.occurrences]
  have htwo : u.Mentions 2 := by simp [u, Ty.Mentions, Ty.occurrences]
  refine ⟨ρ 1, ρ 2, s₂, ?_, fun heq => ?_, (hρ.issued 1 hone (by simp)).1,
    (hρ.issued 2 htwo (by simp)).1⟩
  · rw [hrun₂]
    simp [u, Ty.subst, Ty.fill, hzero]
  · cases hρ.injective hone htwo heq

/-- Where a record goes on with a function, a variable in there stays although it is
bound, if the environment has it in such a place too. -/
theorem generalized_keeps_bound_variable :
    let u : Ty := .record [("l", .int)] (.arrow (.flex 0) .int)
    let s : State := ⟨({} : Registry).addVar.setBinding 0 .int, #[]⟩
    let env := Env.empty.addValue "x" (.mono u)
    s.registry.Acyclic ∧ s.registry.Scoped ∧ s.registry.AllBindings s.registry.RowKinded ∧
      u.Scoped s.registry.varCount ∧ (∀ g, .gen g ∉ (s.registry.resolveDeep u).occurrences) ∧
      ∃ σ s', (generalizeIn env u : Check TypeError Scheme).run s = .ok σ s' ∧
        .flex 0 ∈ σ.body.occurrences ∧ s'.registry.binding? 0 = some .int := by
  intro u s env
  have hdeep : s.registry.resolveDeep u = u := by decide +kernel
  have hcount : s.registry.varCount = 1 := by decide +kernel
  have hr : s.registry.Acyclic :=
    Registry.acyclic_setBinding (by simp) (by simp [Ty.Scoped, Ty.Mentions, Ty.occurrences])
  refine ⟨hr,
    Registry.forall_setBinding (by simp) (by simp [Ty.Scoped, Ty.Mentions, Ty.occurrences]),
    Registry.forall_setBinding (by simp) (by simp [Registry.EndsInRow]), ?_, ?_, ?_⟩
  · simp [u, hcount, Ty.Scoped, Ty.Mentions, Ty.occurrences]
  · simp [hdeep, u, Ty.occurrences]
  · obtain ⟨σ, s', es, f, hrun, hcloses, -, hstays⟩ :=
      closes_generalizeIn (ε := TypeError) env (flat_resolveDeep hr u)
    rw [hdeep] at hcloses
    have hmem : u.Mentions 0 := by simp [u, Ty.Mentions, Ty.occurrences]
    have hkept : f (.flex 0) = .flex 0 := by
      rcases hcloses.image_of_mem hmem with ⟨-, heq⟩ | ⟨hfree, -⟩
      · exact heq
      · exact absurd (by decide +kernel) hfree
    have hbound : s.registry.binding? 0 = some .int := by decide +kernel
    refine ⟨σ, s', hrun, ?_, (congrArg (·.binding? 0) hstays).trans hbound⟩
    simp [hcloses.body, u, Ty.subst, Ty.occurrences, hkept]

end

end RowTyping
