import Mathlib.Order.Filter.AtTopBot.Basic
import RowTyping.Proofs.Instances
import RowTyping.Proofs.Sealing

/-!
# Quantified types and their contexts

Generalizing a type resolves it and puts a generalized variable of the same role
in the place of every variable that the surroundings leave free. Under an
assignment, the scheme stands for all the types that the value can have: the
quantified variables may be read as names of the type system that the context
does not know.

`Env.Under` relates an environment to the context that it stands for under an
assignment.
-/

namespace RowTyping

open Check Registry Row Table Ty List

namespace Ty

variable {t : Ty} {x : TyVar}

theorem mem_shown_asRow : x ∈ t.shown ↔
    (∃ e ∈ t.asRow.fields, x ∈ e.2.shown) ∨ x ∈ t.asRow.tail.shown := by
  cases t with
  | record => exact mem_shown_record
  | var | con | synonym | module => simp [asRow]

/-- A normal form shows nothing new. -/
theorem mem_shown_of_norm (h : x ∈ t.norm.shown) : x ∈ t.shown := by
  induction t with
  | var y => exact h
  | con c args ih =>
    by_cases hc : c = .emptyRow
    · subst hc
      simp [norm] at h
    · rw [norm_con hc] at h
      obtain ⟨u, hu, hx⟩ := mem_shown_con.mp h
      obtain ⟨a, ha, rfl⟩ := mem_map.mp hu
      exact mem_shown_con.mpr ⟨a, ha, ih a ha hx⟩
  | record fs tail ihf iht =>
    rw [norm_record] at h
    have htail : x ∈ tail.norm.shown → x ∈ (record fs tail).shown := fun hx =>
      mem_shown_record.mpr (.inr (iht hx))
    rcases mem_shown_record.mp h with ⟨e, he, hx⟩ | hx
    · rcases mem_union he with he | he
      · rcases mem_union he with he | he
        · simp at he
        · obtain ⟨e', he', rfl⟩ := mem_map.mp he
          exact mem_shown_record.mpr (.inl ⟨e', he', ihf e' he' hx⟩)
      · exact htail (mem_shown_asRow.mpr (.inl ⟨e, he, hx⟩))
    · exact htail (mem_shown_asRow.mpr (.inr hx))
  | synonym id labels params target _ ih => exact mem_shown_synonym.mpr (ih h)
  | module name members => simp [norm] at h

/-- Where no label repeats, a normal form shows everything. -/
theorem Fits.mem_shown_norm {G : Prop} {H V : TyVar → Role → Prop} {k : Role}
    (h : t.Fits G H V k) (hx : x ∈ t.shown) : x ∈ t.norm.shown := by
  induction h with
  | var => exact hx
  | con hc _ _ ih =>
    rw [norm_con hc.1]
    obtain ⟨u, hu, hx⟩ := mem_shown_con.mp hx
    exact mem_shown_con.mpr ⟨u.norm, mem_map_of_mem hu, ih u hu hx⟩
  | emptyRow => simp at hx
  | @record _ k fs tail hs hfront hfields htail ihf iht =>
    rw [norm_record, prepend, union_nil (Sorted.mapValues hs _)]
    have hrest : (Ty.record tail.norm.asRow.fields tail.norm.asRow.tail).Fits G H _ (k.behind fs) :=
      htail.norm.asRow
    cases hrest with
    | record hs' hfront' hfields' htail' =>
      rcases mem_shown_record.mp hx with ⟨e, he, hx⟩ | hx
      · refine mem_shown_record.mpr (.inl ⟨(e.1, e.2.norm), mem_of_lookup ?_, ihf e he hx⟩)
        rw [lookup_union, lookup_mapValues, hs.lookup_of_mem he]
        rfl
      · refine mem_shown_record.mpr ((mem_shown_asRow.mp (iht hx)).imp ?_ id)
        rintro ⟨e, he, hx⟩
        refine ⟨e, mem_of_lookup ?_, hx⟩
        have hnew : fs.lookup e.1 = none := by
          rw [← Option.not_isSome_iff_eq_none, ← mem_names_iff_lookup]
          exact fun hmem => hfront' e he (Finset.mem_union_right _ hmem)
        rw [lookup_union, lookup_mapValues, hnew, Option.map_none]
        exact hs'.lookup_of_mem he
  | synonym _ _ _ _ iht => exact iht (mem_shown_synonym.mp hx)
  | module => exact absurd hx mem_shown_module

end Ty

theorem Registry.resolveDeep_open {r : Registry} {v : Nat} (h : r.binding? v = none) :
    r.resolveDeep (.flex v) = .flex v := by
  rw [resolveDeep, fuel, resolveDeepN, resolve_none h]

namespace Stage

variable {G : Prop} {S S' : Stage G} {V : TyVar → Role → Prop} {k : Role} {t : Ty} {σ : Scheme}
  {κ : Nat → Role} {θ : Nat → Ty} {v : Nat} {fixed : List Nat} {close : Nat → Option Nat}

/-! ## Quantifying -/

/-- The scheme quantifies a type over the variables that it shows, except the
fixed ones. -/
structure Quantifies (S S' : Stage G) (fixed : List Nat) (t : Ty) (σ : Scheme)
    (close : Nat → Option Nat) : Prop where
  body : σ.body = (S.registry.resolveDeep t).subst (Ty.closing close)
  free : ∀ {v g : Nat}, close v = some g → v ∉ fixed
  vars : ∀ {v g : Nat}, close v = some g → g ∈ σ.vars
  injective : ∀ {v w g : Nat}, close v = some g → close w = some g → v = w
  role : ∀ {v g : Nat} {k : Role}, close v = some g → S.role.Has (.flex v) k →
    S'.role.Has (.gen g) k
  closed : ∀ {v : Nat}, .flex v ∈ (S.registry.resolveDeep t).shown → v ∉ fixed → close v ≠ none
  stays : ∀ w, S'.registry.binding? w = S.registry.binding? w

theorem Quantifies.fits_closing (h : S.Quantifies S' fixed t σ close) (hle : S ≤ S') {x : TyVar}
    (hx : S.role.HasFlex x k) : (closing close x).Fits G S'.role.Has (S'.Shows σ) k := by
  obtain ⟨hx, v, rfl⟩ := hx
  rw [closing, fill]
  cases hv : close v with
  | none => exact .var ⟨hle.role hx, trivial⟩
  | some g => exact .var ⟨h.role hv hx, .inl (h.vars hv)⟩

theorem Quantifies.fits_body (h : S.Quantifies S' fixed t σ close) (hle : S ≤ S')
    (ht : S.Fits .type t) : σ.body.Fits G S'.role.Has (S'.Shows σ) .type := by
  rw [h.body]
  refine Fits.subst ht.resolveDeep (fun _ _ => h.fits_closing hle) (fun x k hx => ?_)
    fun _ _ => hle.role
  cases x with
  | flex v => exact (h.fits_closing hle ⟨hx, v, rfl⟩).mono (fun _ _ hx => hx.1) (fun _ _ => id) id
  | gen g => exact .var (hle.role hx)

theorem Quantifies.fitsScheme (h : S.Quantifies S' fixed t σ close) (hle : S ≤ S')
    (ht : S.Fits .type t) : S'.FitsScheme σ := by
  have hbody := h.fits_body hle ht
  refine ⟨.of_value hbody hbody.parts_eq, ?_⟩
  intro name args heq
  rw [heq] at hbody
  cases hbody with
  | con hc => exact absurd rfl (hc.2 name)

theorem exists_generalizeIn {ε : Type} (env : Env) (t : Ty) {s : State} (hs : S.At s) :
    ∃ σ s' S' close, (generalizeIn env t : Check ε Scheme).run s = .ok σ s' ∧ S'.At s' ∧ S ≤ S' ∧
      S.Quantifies S' (env.freeVars S.registry) t σ close := by
  obtain ⟨σ, s', es, f, hrun, hσ, hnumbers, hs'⟩ :=
    closes_generalizeIn (ε := ε) env (hs ▸ flat_resolveDeepN S.acyclic _ t)
  -- the numbers are those of the variables in order
  have hfresh : (freshFor freshGen (es.map (·.1)) : Check ε _).run s = .ok es
      { s with registry := { s.registry with nextGen := s.registry.nextGen + es.length } } := by
    rw [run_freshGens, length_map, ← hnumbers, zip_map', map_id']
  obtain ⟨S', hle, hat, hes⟩ := leads_freshGens (ε := ε) S.roleOf (es.map (·.1)) s hs
  obtain ⟨-, -, hrole⟩ := hes _ _ hfresh
  rw [after_ok hfresh] at hat
  rw [show s.registry = S.registry from hs] at hσ hat
  have hclose : ∀ v, ∃ c : Option Nat, f (.flex v) = c.elim (.flex v) .gen ∧
      (∀ g, c = some g → (.flex v, g) ∈ es) ∧ (c = none → .flex v ∉ es.map (·.1)) := by
    intro v
    rcases hσ.image (.flex v) with ⟨heq, hnot⟩ | ⟨g, hin, heq⟩
    · exact ⟨none, heq, by simp, fun _ => hnot⟩
    · exact ⟨some g, heq, by simpa using hin, by simp⟩
  choose close himage hmem hnone using hclose
  refine ⟨σ, s', S', close, hrun, (hs ▸ hs').trans hat, hle, ?_, fun hv => ?_, fun hv => ?_,
    fun hv hw => ?_, fun hv hk => ?_, fun hv hfixed hclosed => ?_,
    fun w => (congrArg (·.binding? w) hat).symm⟩
  · rw [hσ.body]
    refine congrArg (fun f => (S.registry.resolveDeep t).subst f) (funext fun x => ?_)
    cases x with
    | flex v => exact himage v
    | gen g =>
      rcases hσ.image (.gen g) with ⟨heq, -⟩ | ⟨g', hin, -⟩
      · exact heq
      · cases ((hσ.keys _).mp (mem_map_of_mem hin)).2
  · simpa [TyVar.isFree] using ((hσ.keys _).mp (mem_map_of_mem (hmem _ _ hv))).2
  · exact hσ.vars ▸ mem_map_of_mem (hmem _ _ hv)
  · have heq := inj_on_of_nodup_map hσ.numbers (hmem _ _ hv) (hmem _ _ hw) rfl
    exact TyVar.flex.inj (congrArg Prod.fst heq)
  · exact roleOf_eq hk ▸ (hrole _ (hmem _ _ hv)).1
  · exact hnone _ hclosed ((hσ.keys _).mpr ⟨shown_subset hv, by simpa [TyVar.isFree] using hfixed⟩)

/-! ## Environments at a stage -/

/-- The schemes of an environment fit. -/
structure FitsEnv (S : Stage G) (env : Env) : Prop where
  values : ∀ e ∈ env.values, S.FitsScheme e.2
  types : ∀ e ∈ env.types, S.FitsType e.2

namespace FitsEnv

variable {env : Env}

theorem mono (h : S.FitsEnv env) (hle : S ≤ S') : S'.FitsEnv env :=
  ⟨fun e he => (h.values e he).mono hle, fun e he => (h.types e he).mono hle⟩

theorem value? (h : S.FitsEnv env) {x : String} (hx : env.value? x = some σ) : S.FitsScheme σ :=
  h.values _ (mem_of_lookup hx)

theorem addValue (h : S.FitsEnv env) (x : String) (hσ : S.FitsScheme σ) :
    S.FitsEnv (env.addValue x σ) := by
  refine ⟨fun e he => ?_, h.types⟩
  rcases mem_insert he with rfl | he
  · exact hσ
  · exact h.values e he

theorem addMonos {bs : Table Ty} (h : S.FitsEnv env) (hbs : ∀ b ∈ bs, S.Fits .type b.2) :
    S.FitsEnv (env.addMonos bs) := by
  induction bs generalizing env with
  | nil => exact h
  | cons b bs ih =>
    obtain ⟨hb, hbs⟩ := forall_mem_cons.mp hbs
    exact ih (h.addValue b.1 (fitsScheme_mono hb)) hbs

end FitsEnv

end Stage

/-- The context stands for the environment under an assignment. The schemes under
the names `ok` are the same. -/
structure Env.Under (θ : Nat → Ty) (ok : String → Prop) (env Γ : Env) : Prop where
  types : Γ.types = env.types
  value? : ∀ {x : String} {σ : Scheme}, env.value? x = some σ →
    ∃ σ', Γ.value? x = some σ' ∧ σ'.body.norm = σ.body.value θ ∧
      (ok x → σ' = σ ∧ ∀ v, .flex v ∉ σ.body.shown)

namespace Env.Under

variable {θ θ' : Nat → Ty} {ok : String → Prop} {env Γ : Env} {σ σ' : Scheme}

theorem addValue (h : Env.Under θ ok env Γ) (x : String) (hσ : σ'.body.norm = σ.body.value θ) :
    Env.Under θ (fun y => ok y ∧ y ≠ x) (env.addValue x σ) (Γ.addValue x σ') := by
  refine ⟨h.types, fun {y τ} hy => ?_⟩
  rw [value?_addValue] at hy
  rw [value?_addValue]
  split at hy
  · next hyx =>
    cases hy
    exact ⟨σ', by rw [if_pos hyx], hσ, fun hok => absurd hyx hok.2⟩
  · next hyx =>
    obtain ⟨τ', hτ', hbody, hok⟩ := h.value? hy
    exact ⟨τ', by rw [if_neg hyx]; exact hτ', hbody, fun h => hok h.1⟩

theorem addMono (h : Env.Under θ ok env Γ) (x : String) (t : Ty) :
    Env.Under θ (fun y => ok y ∧ y ≠ x) (env.addValue x (.mono t))
      (Γ.addValue x (.mono (t.value θ))) :=
  h.addValue x (norm_norm _)

theorem congr (h : Env.Under θ ok env Γ)
    (hθ : ∀ e ∈ env.values, e.2.body.value θ' = e.2.body.value θ) : Env.Under θ' ok env Γ := by
  refine ⟨h.types, fun {x σ} hx => ?_⟩
  obtain ⟨σ', hσ', hbody, hok⟩ := h.value? hx
  exact ⟨σ', hσ', hbody.trans (hθ _ (mem_of_lookup hx)).symm, hok⟩

end Env.Under

/-- There are variables of every role beyond any bound. -/
def Rich (κ : Nat → Role) : Prop := ∀ k n, ∃ v, n ≤ v ∧ κ v = k

theorem Rich.exists_names {κ : Nat → Role} (h : Rich κ) (role : Nat → Role) (N : Nat) :
    ∃ name : Nat → Nat, Function.Injective name ∧ ∀ v, N ≤ name v ∧ κ (name v) = role v := by
  have hfreq : ∀ v, ∃ᶠ m in Filter.atTop, N ≤ m ∧ κ m = role v := by
    intro v
    refine Filter.frequently_atTop.mpr fun n => ?_
    obtain ⟨m, hm, hκ⟩ := h (role v) (max N n)
    exact ⟨m, (le_max_right _ _).trans hm, (le_max_left _ _).trans hm, hκ⟩
  obtain ⟨name, hmono, hname⟩ := Filter.extraction_forall_of_frequently hfreq
  exact ⟨name, hmono.injective, hname⟩

theorem exists_bound (l : List TyVar) : ∃ N, ∀ n, .flex n ∈ l → n < N := by
  induction l with
  | nil => exact ⟨0, by simp⟩
  | cons x l ih =>
    obtain ⟨N, hN⟩ := ih
    cases x with
    | gen g => exact ⟨N, fun n hn => hN n (by simpa using hn)⟩
    | flex m =>
      refine ⟨max N (m + 1), fun n hn => ?_⟩
      rcases mem_cons.mp hn with heq | hn
      · cases heq
        omega
      · have := hN n hn
        omega

namespace Stage

variable {G : Prop} {S S' : Stage G} {t : Ty} {σ : Scheme} {κ : Nat → Role} {θ h : Nat → Ty}
  {ok : String → Prop} {env Γ : Env}

theorem solves_through (hh : S.Assigns κ h) : S.Solves κ (S.through h) := by
  refine ⟨fun v k hv => ?_, S.satisfies_through h⟩
  have hfits : S.Fits k (.flex v) := fits_flex.mpr hv
  exact hh.rowed_subst hfits.resolveDeep

/-- Another assignment to variables that the scheme does not know changes nothing
about it. -/
theorem FitsScheme.value_through (hσ : S.FitsScheme σ) (sat : S.Satisfies θ)
    (hh : ∀ v, .flex v ∈ (S.registry.resolveDeep σ.body).shown → h v = θ v) :
    σ.body.value (S.through h) = σ.body.value θ := by
  by_cases hctor : ∃ name args, σ.body = .con (.ctor name) args
  · obtain ⟨name, args, heq⟩ := hctor
    refine norm_subst_congr fun x hx => ?_
    cases x with
    | flex v => exact absurd hx (hσ.closed heq v)
    | gen g => rfl
  · have hparts := parts_eq_self fun name args heq => hctor ⟨name, args, heq⟩
    have hbody := hσ.body.parts σ.body (by simp [hparts])
    rw [Stage.value_through (S.allows_shows σ) hbody]
    refine Eq.trans ?_ (sat.resolveDeep (S.allows_shows σ) hbody)
    refine norm_subst_congr fun x hx => ?_
    cases x with
    | flex v => rw [fill, fill, hh v hx]
    | gen g => rfl

/-- The assignment with names in the place of the quantified variables. -/
def naming (close : Nat → Option Nat) (name : Nat → Nat) (θ : Nat → Ty) (v : Nat) : Ty :=
  (close v).elim (θ v) fun _ => .flex (name v)

/-- The generalized variables of the names. -/
noncomputable def ofName (close : Nat → Option Nat) (name : Nat → Nat) (n : Nat) : Option Nat :=
  (Function.partialInv name n).bind close

theorem ofName_eq_some {close : Nat → Option Nat} {name : Nat → Nat}
    (hinj : Function.Injective name) {n g : Nat} :
    ofName close name n = some g ↔ ∃ v, name v = n ∧ close v = some g := by
  rw [ofName, Option.bind_eq_some_iff]
  refine exists_congr fun v => and_congr_left fun _ => ?_
  exact hinj.isPartialInv v n

/-- The assignment may be changed at the variables that a scheme quantifies, to
names that the context does not know. -/
theorem Quantifies.generalizes {close : Nat → Option Nat}
    (hq : S.Quantifies S' (env.freeVars S.registry) t σ close) (henv : S.FitsEnv env)
    (ht : S.Fits .type t) (hκ : Rich κ) (hθ : S.Solves κ θ) (hΓ : env.Under θ ok Γ) :
    ∃ θ' σ', S.Solves κ θ' ∧ env.Under θ' ok Γ ∧ Generalizes Γ (t.value θ') σ' ∧
      σ'.body.norm = σ.body.value θ := by
  obtain ⟨N, hN⟩ := exists_bound ((range S.registry.varCount).flatMap (fun v => (θ v).shown) ++
    Γ.values.flatMap fun e => e.2.body.shown)
  obtain ⟨name, hinj, hname⟩ := hκ.exists_names (fun v => S.roleOf (.flex v)) N
  have hassigns : S.Assigns κ (naming close name θ) := by
    intro v k hv
    rw [naming]
    cases close v with
    | none => exact hθ.rowed v k hv
    | some g => exact .var ⟨name v, rfl, (hname v).2.trans (roleOf_eq hv)⟩
  have hnew : ∀ v n, v < S.registry.varCount → .flex n ∈ (θ v).shown →
      ofName close name n = none := by
    intro v n hv hn
    have hlt := hN n (mem_append_left _ (mem_flatMap.mpr ⟨v, mem_range.mpr hv, hn⟩))
    cases hof : ofName close name n with
    | none => rfl
    | some g =>
      obtain ⟨w, rfl, -⟩ := (ofName_eq_some hinj).mp hof
      exact absurd (hname w).1 (by omega)
  refine ⟨S.through (naming close name θ),
    ⟨σ.vars, (t.value (S.through (naming close name θ))).subst
    (closing (ofName close name))⟩, solves_through hassigns, hΓ.congr fun e he => ?_,
    ⟨ofName close name, ?_, ?_, rfl⟩, ?_⟩
  · refine (henv.values e he).value_through hθ.satisfies fun v hv => ?_
    have hfixed : v ∈ env.freeVars S.registry := by
      rw [Env.freeVars, mem_distinct, mem_flatMap]
      refine ⟨e, he, mem_filterMap.mpr ⟨.flex v, ?_, rfl⟩⟩
      rw [Ty.vars, mem_distinct]
      exact shown_subset hv
    rw [naming]
    cases hc : close v with
    | none => rfl
    | some g => exact absurd hfixed (hq.free hc)
  · intro n g hn
    obtain ⟨v, rfl, hv⟩ := (ofName_eq_some hinj).mp hn
    refine ⟨?_, hq.vars hv⟩
    rintro ⟨e, he, hmem⟩
    have hlt := hN _ (mem_append_right _ (mem_flatMap.mpr ⟨e, he, hmem⟩))
    exact absurd (hname v).1 (by omega)
  · intro n m g hn hm
    obtain ⟨v, rfl, hv⟩ := (ofName_eq_some hinj).mp hn
    obtain ⟨w, rfl, hw⟩ := (ofName_eq_some hinj).mp hm
    rw [hq.injective hv hw]
  · rw [Stage.value_through S.role.allows_hasFlex ht, hq.body, value, value, norm_subst,
      subst_subst, subst_subst]
    refine norm_subst_congr fun x hx => ?_
    obtain ⟨k, hk, v, rfl⟩ := Fits.role_of_shown ht.resolveDeep hx
    change ((naming close name θ v).subst _).norm =
      (((close v).elim (flex v) gen).subst (fill θ)).norm
    rw [naming]
    cases hc : close v with
    | some g =>
      have hof : ofName close name (name v) = some g := (ofName_eq_some hinj).mpr ⟨v, rfl, hc⟩
      simp [subst, closing, fill, hof]
    | none =>
      -- what other variables stand for has none of the names
      change ((θ v).subst _).norm = (θ v).norm
      conv_rhs => rw [← subst_var (θ v)]
      refine norm_subst_congr fun y hy => ?_
      obtain ⟨k', n, rfl, -⟩ := (hθ.rowed v k hk).role_of_shown hy
      rw [closing, fill, hnew v n (S.issued hk) hy]
      rfl

end Stage

end RowTyping
