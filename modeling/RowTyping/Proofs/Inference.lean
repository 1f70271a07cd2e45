import RowTyping.Proofs.Patterns

/-!
# Inference at a stage

What inference finds for an expression fits the stage that it leads to. Under
every assignment that solves this stage it is a type of the expression, in the
context that the environment stands for under the assignment.
-/

namespace RowTyping

open Check Registry Row Table Ty List Option

namespace Expr

mutual

/-- The modules that members are taken from have names among `ok`, as long as no
binder hides them. -/
def Paths (ok : String → Prop) : Expr → Prop
  | .lit _ _ => True
  | .var _ _ => True
  | .path _ owner _ => ok owner
  | .lam _ x _ body => Paths (fun y => ok y ∧ y ≠ x) body
  | .app _ func arg => Paths ok func ∧ Paths ok arg
  | .letIn _ x isRec _ value body =>
      Paths (fun y => ok y ∧ (isRec = true → y ≠ x)) value ∧ Paths (fun y => ok y ∧ y ≠ x) body
  | .ifThenElse _ cond thenE elseE => Paths ok cond ∧ Paths ok thenE ∧ Paths ok elseE
  | .tuple _ items => PathsList ok items
  | .record _ fields => PathsFields ok fields
  | .field _ whole _ => Paths ok whole
  | .update _ whole changes => Paths ok whole ∧ PathsFields ok changes
  | .construct _ _ none => True
  | .construct _ _ (some arg) => Paths ok arg
  | .cases _ scrutinee arms => Paths ok scrutinee ∧ PathsArms ok arms
  | .annotate _ inner _ => Paths ok inner

def PathsList (ok : String → Prop) : List Expr → Prop
  | [] => True
  | e :: es => Paths ok e ∧ PathsList ok es

def PathsFields (ok : String → Prop) : List (String × Expr) → Prop
  | [] => True
  | (_, e) :: es => Paths ok e ∧ PathsFields ok es

def PathsArms (ok : String → Prop) : List (Pattern × Expr) → Prop
  | [] => True
  | (p, body) :: arms => Paths (fun y => ok y ∧ y ∉ p.names) body ∧ PathsArms ok arms

end

end Expr

theorem Env.Under.imp {θ : Nat → Ty} {ok ok' : String → Prop} {env Γ : Env}
    (h : env.Under θ ok Γ) (hok : ∀ x, ok' x → ok x) : env.Under θ ok' Γ := by
  refine ⟨h.types, fun {x σ} hx => ?_⟩
  obtain ⟨σ', hσ', hbody, hsame⟩ := h.value? hx
  exact ⟨σ', hσ', hbody, fun hx => hsame (hok x hx)⟩

theorem Env.Under.addMonos {θ : Nat → Ty} {ok : String → Prop} {env Γ : Env}
    (h : env.Under θ ok Γ) (bs : Table Ty) :
    (env.addMonos bs).Under θ (fun y => ok y ∧ ∀ b ∈ bs, b.1 ≠ y) (Γ.addMonos (valuesOf θ bs)) := by
  induction bs generalizing env Γ ok with
  | nil => exact h.imp fun _ hx => hx.1
  | cons b bs ih =>
    refine (ih (h.addMono b.1 b.2)).imp fun y hy => ?_
    obtain ⟨hb, hbs⟩ := forall_mem_cons.mp hy.2
    exact ⟨⟨hy.1, fun heq => hb heq.symm⟩, hbs⟩

theorem Ty.IsBody.of_ctor?_eq_none {P : Ty → Prop} {t : Ty} (h : t.IsBody P)
    (hc : t.ctor? = none) : P t := by
  have hparts : t.parts = [t] := by
    have hsize := h.size.1
    unfold Ty.parts at hsize ⊢
    split
    · next name args =>
      cases args with
      | nil => exact absurd rfl hsize
      | cons => cases hc
    · rfl
  exact h.parts t (by simp [hparts])

namespace Stage

variable {G : Prop} {S S' : Stage G} {κ : Nat → Role} {θ : Nat → Ty} {ok : String → Prop}
  {env Γ : Env} {e : Expr} {t : Ty}

/-- The context stands for the environment under an assignment that solves the
stage. -/
structure Models (S : Stage G) (κ : Nat → Role) (θ : Nat → Ty) (ok : String → Prop)
    (env Γ : Env) : Prop where
  rich : Rich κ
  solves : S.Solves κ θ
  closed : ∀ x, ok x → G
  under : env.Under θ ok Γ

namespace Models

theorem mono (h : S'.Models κ θ ok env Γ) (hle : S ≤ S') : S.Models κ θ ok env Γ :=
  ⟨h.rich, h.solves.mono hle, h.closed, h.under⟩

theorem addMono (h : S.Models κ θ ok env Γ) (x : String) (t : Ty) :
    S.Models κ θ (fun y => ok y ∧ y ≠ x) (env.addValue x (.mono t))
      (Γ.addValue x (.mono (t.value θ))) :=
  ⟨h.rich, h.solves, fun y hy => h.closed y hy.1, h.under.addMono x t⟩

theorem addMonos (h : S.Models κ θ ok env Γ) {names : List String} {bs : Table Ty}
    (hbs : bs.map (·.1) = names) :
    S.Models κ θ (fun y => ok y ∧ y ∉ names) (env.addMonos bs) (Γ.addMonos (valuesOf θ bs)) := by
  refine ⟨h.rich, h.solves, fun y hy => h.closed y hy.1, (h.under.addMonos bs).imp ?_⟩
  rintro y ⟨hy, hnot⟩
  exact ⟨hy, fun b hb heq => hnot (heq ▸ hbs ▸ mem_map_of_mem hb)⟩

end Models

/-- The type of an expression. -/
structure Types (S : Stage G) (env : Env) (e : Expr) (t : Ty) : Prop where
  fits : S.Fits .type t
  typed : ∀ {κ θ ok Γ}, S.Models κ θ ok env Γ → e.Paths ok → HasType κ Γ e.tidy (t.value θ)

theorem Types.mono (h : S.Types env e t) (hle : S ≤ S') : S'.Types env e t :=
  ⟨h.fits.mono hle, fun hm => h.typed (hm.mono hle)⟩

/-! ## Names -/

theorem fits_asValue {H V : TyVar → Role → Prop} (h : t.IsBody fun u => u.Fits G H V .type) :
    t.asValue.Fits G H V .type := by
  cases hc : t.ctor? with
  | none =>
    have ht : t.asValue = t := by simp only [asValue, hc]
    rw [ht]
    exact h.of_ctor?_eq_none hc
  | some c =>
    obtain ⟨-, howner, harg⟩ := h.ctor? hc
    obtain ⟨name, owner, arg⟩ := c
    cases arg with
    | none =>
      have ht : t.asValue = owner := by simp only [asValue, hc]
      rwa [ht]
    | some arg =>
      have ht : t.asValue = .arrow arg owner := by simp only [asValue, hc]
      rw [ht]
      exact .arrow (harg arg rfl) howner

theorem value_asValue {P : Ty → Prop} (h : t.IsBody P) (hP : ∀ u, P u → (u.value θ).IsMono κ) :
    t.asValue.value θ = (t.value θ).asValue := by
  cases hc : t.ctor? with
  | none =>
    have hvalue := (hP t (h.of_ctor?_eq_none hc)).rowed.ctor?_eq_none
    simp only [asValue, hc, hvalue]
  | some c =>
    obtain ⟨heq, -⟩ := h.ctor? hc
    have hvalue : (t.value θ).ctor? = some ⟨c.name, c.owner.value θ, c.arg.map (value θ)⟩ := by
      rw [heq, value_ctor, ctor?_ctor]
    obtain ⟨name, owner, arg⟩ := c
    cases arg with
    | none => simp only [asValue, hc, hvalue, map_none]
    | some arg => simp only [asValue, hc, hvalue, map_some, value_arrow]

theorem leads_var (henv : S.FitsEnv env) (span : Span) (x : String) :
    Leads At S (Expr.inferHead env (.var span x)) fun S' t => S'.Types env (.var span x) t := by
  refine leads_find_bind fun σ hσ => (leads_instantiate S σ).bind fun S' t hle ht => leads_pure ?_
  obtain ⟨f, hf, rfl⟩ := ht
  have hbody := (henv.value? hσ).body
  refine ⟨fits_asValue (hf.isBody hle hbody), fun {κ θ ok Γ} hm _ => ?_⟩
  obtain ⟨σ', hσ', hnorm, -⟩ := hm.under.value? hσ
  rw [value_asValue (hf.isBody hle hbody) fun _ => hm.solves.rowed.isMono]
  exact .var hσ' (hf.isInstance hle hbody hm.solves hnorm)

/-- Only the scheme of a module has a module for an instance. -/
theorem Opening.eq_module {σ : Scheme} {f : TyVar → Ty} (h : Opening S S' σ f)
    (hclosed : ∀ v, .flex v ∉ σ.body.shown) {name : String} {members : Env}
    (hres : S'.registry.resolve (σ.body.subst f) = .module name members) :
    σ.body = .module name members := by
  cases heq : σ.body with
  | var x =>
    exfalso
    rw [heq, subst] at hres
    cases x with
    | flex v => exact hclosed v (by rw [heq]; simp)
    | gen g =>
      by_cases hopen : σ.Opens (.gen g)
      · obtain ⟨u, hu, hnone, -⟩ := h.opened hopen
        rw [hu, resolve_none hnone] at hres
        cases hres
      · rw [h.kept hopen, resolve_gen] at hres
        cases hres
  | module =>
    rw [heq, subst, resolve_module] at hres
    exact hres
  | con | record | synonym =>
    rw [heq, subst, resolve_of_not_flex (by simp)] at hres
    cases hres

theorem leads_inferPath (henv : S.FitsEnv env) (span : Span) (owner x : String) :
    Leads At S (inferPath env span owner x) fun S' t =>
      S'.Types env (.path span owner x) t := by
  refine leads_find_bind fun σ hσ => (leads_instantiate S σ).bind fun S₁ t hle₁ ht =>
    leads_registry_bind ?_
  obtain ⟨f, hf, rfl⟩ := ht
  cases hres : S₁.registry.resolve (σ.body.subst f) with
  | module name members =>
    have hmodule : S₁.Fits .type (.module name members) := by
      rw [← hres]
      refine S₁.obeys.resolve
        ((hf.isBody hle₁ (henv.value? hσ).body).of_ctor?_eq_none ?_)
      cases hc : (σ.body.subst f).ctor? with
      | none => rfl
      | some c =>
        obtain ⟨rest, heq, -⟩ := eq_ctor hc
        rw [heq, resolve_con] at hres
        cases hres
    cases hmodule with
    | module hparts hvalues htypes hclosed =>
      refine leads_find_bind fun σm hσm => (leads_instantiate S₁ σm).bind
        fun S₂ t hle₂ ht => leads_pure ?_
      obtain ⟨f', hf', rfl⟩ := ht
      have hmem := mem_of_lookup hσm
      have hbody : S₁.FitsBody σm := ⟨hparts _ hmem, hvalues _ hmem⟩
      refine ⟨fits_asValue (hf'.isBody hle₂ hbody), fun {κ θ ok Γ} hm hok => ?_⟩
      obtain ⟨σ', hσ', -, hsame⟩ := hm.under.value? hσ
      obtain ⟨rfl, hopen⟩ := hsame hok
      have hbodyEq := hf.eq_module hopen hres
      obtain ⟨vars, body⟩ := σ'
      subst hbodyEq
      have hmember : σm.body.norm = σm.body.value θ :=
        (value_of_closed (hclosed (hm.closed owner hok) _ hmem) θ).symm
      rw [value_asValue (hf'.isBody hle₂ hbody) fun _ => hm.solves.rowed.isMono]
      exact .path hσ' hσm (hf'.isInstance hle₂ hbody hm.solves hmember)
  | var | con | record | synonym => exact leads_throw _

/-! ## Constructors -/

theorem leads_apply {c : Ctor} {a : Arity} {x : String} (hc : S.CtorUse env x c a) (span : Span)
    {infer : Check Located Ty} {arg : Expr}
    (harg : Leads At S infer fun S' t => S'.Types env arg t) :
    Leads At S (c.apply span (some infer)) fun S' t => t = c.owner ∧ S'.CtorUse env x c a ∧
      ∃ u s, c.arg = some s ∧ S'.Types env arg u ∧ S'.Agree .type u s := by
  unfold Ctor.apply
  refine harg.bind fun S₁ u hle₁ hu => ?_
  rw [pure_bind]
  refine leads_registry_bind ((leads_checkArity c span _).bind fun S₂ _ hle₂ hagrees => ?_)
  cases hs : c.arg with
  | none =>
    rw [hs] at hagrees
    exact absurd (Arity.zero_agrees.mp hagrees) (arity_ne_zero hu.fits)
  | some s =>
    refine (leads_unifyAt span (hu.fits.mono hle₂)
      ((hc.arg s hs).mono (hle₁.trans hle₂))).bind fun S₃ _ hle₃ hagree => leads_pure ?_
    exact ⟨rfl, hc.mono (hle₁.trans (hle₂.trans hle₃)), u, s, rfl, hu.mono (hle₂.trans hle₃),
      hagree⟩

theorem leads_apply_none {c : Ctor} {x : String}
    (hc : S.CtorUse env x c (S.registry.arity c.arg)) (span : Span) :
    Leads At S (c.apply span none) fun _ t => t = c.owner ∧ c.arg = none := by
  unfold Ctor.apply
  dsimp only
  rw [pure_bind]
  refine leads_registry_bind ((leads_checkArity c span _).bind fun S₂ _ hle₂ hagrees => ?_)
  cases hs : c.arg with
  | none => exact leads_pure ⟨rfl, rfl⟩
  | some s =>
    rw [hs] at hagrees
    exact absurd (Arity.agrees_zero.mp hagrees) (arity_ne_zero (hc.arg s hs))

/-- A constructor that is applied by name. -/
theorem leads_callee (henv : S.FitsEnv env) (func : Expr) :
    Leads At S (env.callee func) fun S' r => ∀ c, r = some c → ∃ x a, S'.CtorUse env x c a ∧
      ((∃ span, func = .var span x) ∨ ∃ span, func = .construct span x none) := by
  unfold Env.callee
  split
  · next σ hσ =>
    refine (leads_instantiate S σ).bind fun S' t hle ht => leads_pure fun c hc => ?_
    obtain ⟨f, hf, rfl⟩ := ht
    have happlied := (filter_eq_some_iff.mp hσ).1
    have huse : ∀ x, env.value? x = some σ → S'.CtorUse env x c (S'.registry.arity c.arg) :=
      fun x hx => hf.ctorUse hle (henv.value? hx) hx hc
    unfold Env.applied? at happlied
    split at happlied
    · exact ⟨_, _, huse _ happlied, .inl ⟨_, rfl⟩⟩
    · exact ⟨_, _, huse _ happlied, .inr ⟨_, rfl⟩⟩
    · cases happlied
  · exact leads_pure fun c hc => by cases hc

/-! ## Bindings -/

theorem leads_paramType (henv : S.FitsEnv env) (span : Span) (ann : Option TypeExpr) :
    Leads At S (paramType env span ann) fun S' t => S'.Fits .type t ∧
      ∀ κ θ Γ, S'.Solves κ θ → Γ.types = env.types → ∀ e ∈ ann, e.Annotates κ Γ (t.value θ) := by
  cases ann with
  | none =>
    refine (leads_freshVar .type).imp fun S' t _ ht => ?_
    obtain ⟨v, rfl, hv, -⟩ := ht
    exact ⟨fits_flex.mpr hv, by simp⟩
  | some e =>
    refine (TypeExpr.leads_annotated henv.types span e).imp fun S' t _ ht => ⟨ht.1, ?_⟩
    intro κ θ Γ hθ hΓ e' he'
    cases he'
    exact ht.2 κ θ Γ hθ hΓ

/-- The scheme of a bound name quantifies the type of its value. -/
structure Binding (S : Stage G) (env : Env) (x : String) (isRec : Bool) (ann : Option TypeExpr)
    (value : Expr) (σ : Scheme) : Prop where
  fits : S.FitsScheme σ
  quantifies : ∃ S₁ t close, S₁ ≤ S ∧ S₁.Fits .type t ∧
    S₁.Quantifies S (env.freeVars S₁.registry) t σ close
  typed : ∀ {κ θ ok Γ}, S.Models κ θ ok env Γ →
    value.Paths (fun y => ok y ∧ (isRec = true → y ≠ x)) → ∃ s σ', s.IsMono κ ∧
      HasType κ (if isRec then Γ.addValue x (.mono s) else Γ) value.tidy s ∧
      (∀ e ∈ ann, e.Annotates κ Γ s) ∧ Generalizes Γ s σ' ∧ σ'.body.norm = σ.body.value θ

/-- The scheme quantifies a type that meets the annotation. -/
def Quantified (S S' : Stage G) (env : Env) (t : Ty) (ann : Option TypeExpr) (σ : Scheme) : Prop :=
  ∃ S₁ close, S ≤ S₁ ∧ S₁ ≤ S' ∧ S₁.Quantifies S' (env.freeVars S₁.registry) t σ close ∧
    ∀ κ θ Γ, S₁.Solves κ θ → Γ.types = env.types → ∀ e ∈ ann, e.Annotates κ Γ (t.value θ)

theorem leads_quantified (env : Env) (t : Ty) :
    Leads At S (generalizeIn env t : Check Located Scheme)
      fun S' σ => S.Quantified S' env t none σ := by
  intro s hs
  obtain ⟨σ, s', S', close, hrun, hat, hle, hclose⟩ := exists_generalizeIn (ε := Located) env t hs
  refine ⟨S', hle, by rwa [after_ok hrun], fun τ s₁ h => ?_⟩
  cases hrun.symm.trans h
  exact ⟨S, close, le_rfl, hle, hclose, by simp⟩

theorem leads_quantified_some (henv : S.FitsEnv env) (span : Span) (e : TypeExpr)
    (ht : S.Fits .type t) :
    Leads At S (do unifyAt span t (← e.annotated env span); generalizeIn env t)
      fun S' σ => S.Quantified S' env t (some e) σ := by
  refine (TypeExpr.leads_annotated henv.types span e).bind fun S₁ u hle₁ hu =>
    (leads_unifyAt span (ht.mono hle₁) hu.1).bind fun S₂ _ hle₂ hagree => ?_
  refine (leads_quantified env t).imp fun S' σ hle hσ => ?_
  obtain ⟨S₃, close, hle₃, hle₄, hclose, -⟩ := hσ
  refine ⟨S₃, close, hle₁.trans (hle₂.trans hle₃), hle₄, hclose, fun κ θ Γ hθ hΓ e' he' => ?_⟩
  cases he'
  rw [hagree.value_eq (hθ.mono hle₃).satisfies]
  exact hu.2 κ θ Γ (hθ.mono (hle₂.trans hle₃)) hΓ

/-- The type of the value makes the binding. -/
theorem Quantified.binding {S₀ : Stage G} {ann : Option TypeExpr} {σ : Scheme} {value : Expr}
    {x : String} {isRec : Bool} (h : S.Quantified S' env t ann σ) (henv : S₀.FitsEnv env)
    (hle : S₀ ≤ S) (ht : S.Fits .type t)
    (htyped : ∀ {κ θ ok Γ}, S.Models κ θ ok env Γ →
      value.Paths (fun y => ok y ∧ (isRec = true → y ≠ x)) →
      HasType κ (if isRec then Γ.addValue x (.mono (t.value θ)) else Γ) value.tidy (t.value θ)) :
    S'.Binding env x isRec ann value σ := by
  obtain ⟨S₁, close, hle₁, hle₂, hclose, hann⟩ := h
  refine ⟨hclose.fitsScheme hle₂ (ht.mono hle₁), ⟨S₁, t, close, hle₂, ht.mono hle₁, hclose⟩,
    fun {κ θ ok Γ} hm hpaths => ?_⟩
  -- the quantified variables are read as names that the context does not know
  obtain ⟨θ', σ', hθ', hunder, hgen, hbody⟩ := hclose.generalizes (henv.mono (hle.trans hle₁))
    (ht.mono hle₁) hm.rich (hm.solves.mono hle₂) hm.under
  have hm' : S₁.Models κ θ' ok env Γ := ⟨hm.rich, hθ', hm.closed, hunder⟩
  exact ⟨t.value θ', σ', hθ'.rowed.isMono (ht.mono hle₁), htyped (hm'.mono hle₁) hpaths,
    hann κ θ' Γ hθ' hunder.types, hgen, hbody⟩

theorem leads_inferBinding (henv : S.FitsEnv env) (span : Span) (x : String) (isRec : Bool)
    (ann : Option TypeExpr) {value : Expr}
    (hvalue : ∀ {S : Stage G} {env : Env}, S.FitsEnv env →
      Leads At S (value.inferHead env) fun S' t => S'.Types env value t) :
    Leads At S (inferBinding env span x isRec ann fun env => value.inferHead env)
      fun S' σ => S'.Binding env x isRec ann value σ := by
  unfold inferBinding
  cases isRec with
  | false =>
    refine (hvalue henv).bind fun S₁ t hle₁ ht => ?_
    have htyped : ∀ {κ θ ok Γ}, S₁.Models κ θ ok env Γ →
        value.Paths (fun y => ok y ∧ (false = true → y ≠ x)) →
          HasType κ Γ value.tidy (t.value θ) := by
      intro κ θ ok Γ hm hpaths
      simp only [Bool.false_eq_true, false_implies, and_true] at hpaths
      exact ht.typed hm hpaths
    cases ann with
    | none => exact (leads_quantified env _).imp fun _ _ _ hσ =>
        hσ.binding henv hle₁ ht.fits htyped
    | some e => exact (leads_quantified_some (henv.mono hle₁) span e ht.fits).imp fun _ _ _ hσ =>
        hσ.binding henv hle₁ ht.fits htyped
  | true =>
    refine (leads_freshVar .type).bind fun S₁ self hle₁ hself => ?_
    obtain ⟨v, rfl, hv, -⟩ := hself
    have hself : S₁.Fits .type (.flex v) := fits_flex.mpr hv
    refine (hvalue ((henv.mono hle₁).addValue x (fitsScheme_mono hself))).bind
      fun S₂ t hle₂ ht => (leads_unifyAt span ht.fits (hself.mono hle₂)).bind
      fun S₃ _ hle₃ hagree => ?_
    have hle := hle₁.trans (hle₂.trans hle₃)
    have htyped : ∀ {κ θ ok Γ}, S₃.Models κ θ ok env Γ →
        value.Paths (fun y => ok y ∧ (true = true → y ≠ x)) →
        HasType κ (Γ.addValue x (.mono (t.value θ))) value.tidy (t.value θ) := by
      intro κ θ ok Γ hm hpaths
      simp only [true_implies] at hpaths
      have htyped := ht.typed ((hm.mono hle₃).addMono x (.flex v)) hpaths
      rwa [← hagree.value_eq hm.solves.satisfies] at htyped
    have ht := ht.fits.mono hle₃
    rw [pure_bind]
    cases ann with
    | none => exact (leads_quantified env _).imp fun _ _ _ hσ => hσ.binding henv hle ht htyped
    | some e => exact (leads_quantified_some (henv.mono hle) span e ht).imp fun _ _ _ hσ =>
        hσ.binding henv hle ht htyped

end Stage

namespace Expr

open Stage

variable {G : Prop}

mutual

theorem leads_inferHead : ∀ (e : Expr) {S : Stage G} {env : Env}, S.FitsEnv env →
    Leads At S (e.inferHead env) fun S' t => S'.Types env e t
  | .lit span b, S, env, henv => by
    rw [inferHead]
    refine leads_pure ⟨.base b, fun _ _ => ?_⟩
    rw [value_base]
    exact .lit b
  | .var span x, S, env, henv => leads_var henv span x
  | .path span owner x, S, env, henv => by
    rw [inferHead]
    exact leads_inferPath henv span owner x
  | .lam span x ann body, S, env, henv => by
    rw [inferHead]
    refine (leads_paramType henv span ann).bind fun S₁ t hle₁ ht =>
      (leads_inferHead body ((henv.mono hle₁).addValue x (fitsScheme_mono ht.1))).bind
      fun S₂ u hle₂ hu =>
        leads_pure ⟨.arrow (ht.1.mono hle₂) hu.fits, fun {κ θ ok Γ} hm hpaths => ?_⟩
    rw [value_arrow]
    exact .lam (hm.solves.rowed.isMono (ht.1.mono hle₂))
      (ht.2 κ θ Γ (hm.solves.mono hle₂) hm.under.types) (hu.typed (hm.addMono x t) hpaths)
  | .app span func arg, S, env, henv => by
    rw [inferHead]
    refine (leads_callee henv func).bind fun S₁ r hle₁ hr => ?_
    cases r with
    | some c =>
      obtain ⟨x, a, huse, hfunc⟩ := hr c rfl
      refine (leads_apply huse span (leads_inferHead arg (henv.mono hle₁))).imp
        fun S₂ t hle₂ ht => ?_
      obtain ⟨rfl, huse, u, s, hs, hu, hagree⟩ := ht
      refine ⟨huse.owner, fun {κ θ ok Γ} hm hpaths => ?_⟩
      obtain ⟨σ', hσ', hinst, -⟩ := huse.typed hm.solves hm.under
      have harg := hu.typed hm hpaths.2
      rw [hagree.value_eq hm.solves.satisfies] at harg
      rw [hs] at hinst
      rcases hfunc with ⟨span', rfl⟩ | ⟨span', rfl⟩
      · exact .app (.var hσ' hinst) harg
      · exact .applyConstructor hσ' hinst harg
    | none =>
      refine (leads_inferHead func (henv.mono hle₁)).bind fun S₂ tf hle₂ htf =>
        (leads_inferHead arg (henv.mono (hle₁.trans hle₂))).bind fun S₃ ta hle₃ hta =>
        (leads_freshVar .type).bind fun S₄ tr hle₄ htr => ?_
      obtain ⟨v, rfl, hv, -⟩ := htr
      have hresult : S₄.Fits .type (.flex v) := fits_flex.mpr hv
      refine (leads_unifyAt span (.arrow (hta.fits.mono hle₄) hresult)
        (htf.fits.mono (hle₃.trans hle₄))).bind fun S₅ _ hle₅ hagree =>
        leads_pure ⟨hresult.mono hle₅, fun {κ θ ok Γ} hm hpaths => ?_⟩
      have hfunc := (htf.mono (hle₃.trans (hle₄.trans hle₅))).typed hm hpaths.1
      rw [← hagree.value_eq hm.solves.satisfies, value_arrow] at hfunc
      exact .app hfunc ((hta.mono (hle₄.trans hle₅)).typed hm hpaths.2)
  | .letIn span x isRec ann value body, S, env, henv => by
    rw [inferHead]
    refine (leads_inferBinding henv span x isRec ann
      fun henv => leads_inferHead value henv).bind fun S₁ σ hle₁ hσ =>
      (leads_inferHead body ((henv.mono hle₁).addValue x hσ.fits)).imp
      fun S₂ t hle₂ ht => ⟨ht.fits, fun {κ θ ok Γ} hm hpaths => ?_⟩
    obtain ⟨s, σ', hs, hvalue, hann, hgen, hbody⟩ := hσ.typed (hm.mono hle₂) hpaths.1
    refine .letIn hs hvalue hann hgen (ht.typed ⟨hm.rich, hm.solves, fun y hy => hm.closed y hy.1,
      hm.under.addValue x hbody⟩ hpaths.2)
  | .ifThenElse span cond thenE elseE, S, env, henv => by
    rw [inferHead]
    refine (leads_inferHead cond henv).bind fun S₁ tc hle₁ htc =>
      (leads_unifyAt cond.span htc.fits (.base .bool)).bind fun S₂ _ hle₂ hbool =>
      (leads_inferHead thenE (henv.mono (hle₁.trans hle₂))).bind fun S₃ tt hle₃ htt =>
      (leads_inferHead elseE (henv.mono (hle₁.trans (hle₂.trans hle₃)))).bind
      fun S₄ te hle₄ hte => (leads_unifyAt span hte.fits (htt.fits.mono hle₄)).bind
      fun S₅ _ hle₅ hsame => leads_pure ⟨htt.fits.mono (hle₄.trans hle₅),
        fun {κ θ ok Γ} hm hpaths => ?_⟩
    have hle₂₅ := hle₃.trans (hle₄.trans hle₅)
    have hcond := (htc.mono (hle₂.trans hle₂₅)).typed hm hpaths.1
    rw [hbool.value_eq (hm.solves.mono hle₂₅).satisfies, value_base] at hcond
    have helse := (hte.mono hle₅).typed hm hpaths.2.2
    rw [hsame.value_eq hm.solves.satisfies] at helse
    exact .ifThenElse hcond ((htt.mono (hle₄.trans hle₅)).typed hm hpaths.2.1) helse
  | .tuple span items, S, env, henv => by
    rw [inferHead]
    refine (leads_inferList items henv).bind fun S₁ ts hle₁ hts =>
      leads_pure ⟨.tuple hts.1, fun {κ θ ok Γ} hm hpaths => ?_⟩
    rw [value_tuple]
    exact .tuple (hts.2 hm hpaths)
  | .record span fields, S, env, henv => by
    rw [inferHead]
    refine (leads_inferFields fields span [] henv (by simp)).bind fun S₁ row hle₁ hrow => ?_
    obtain ⟨entries, rfl, hnodup, hfits, htyped⟩ := hrow
    rw [nil_append] at hnodup ⊢
    refine leads_pure ⟨.closedRecord (sorted_ofList _)
      fun e he => hfits e (mem_ofList he), fun {κ θ ok Γ} hm hpaths => ?_⟩
    rw [value_ofList]
    exact .record (htyped hm hpaths) (by rwa [map_fst_valuesOf])
  | .field span whole label, S, env, henv => by
    rw [inferHead]
    refine (leads_inferHead whole henv).bind fun S₁ tr hle₁ htr =>
      (leads_freshVar .type).bind fun S₂ t hle₂ ht =>
      (leads_freshVar (Role.type.behind [(label, t)])).bind fun S₃ tail hle₃ htail => ?_
    obtain ⟨v, rfl, hv, -⟩ := ht
    obtain ⟨w, rfl, hw, -⟩ := htail
    have hfield : S₃.Fits .type (.flex v) := fits_flex.mpr (hle₃.role hv)
    have hrecord : S₃.Fits .type (.record [(label, .flex v)] (.flex w)) :=
      .record (.cons (by simp) .nil) (by simp [Role.front]) (forall_mem_singleton.mpr hfield)
        (fits_flex.mpr hw)
    refine (leads_unifyAt span (htr.fits.mono (hle₂.trans hle₃)) hrecord).bind
      fun S₄ _ hle₄ hagree => leads_pure ⟨hfield.mono hle₄, fun {κ θ ok Γ} hm hpaths => ?_⟩
    have hwhole := (htr.mono (hle₂.trans (hle₃.trans hle₄))).typed hm hpaths
    rw [hagree.value_eq hm.solves.satisfies, value_record] at hwhole
    refine .field hwhole ?_
    rw [lookup_prepend]
    simp [mapValues]
  | .update span whole changes, S, env, henv => by
    rw [inferHead]
    refine (leads_inferHead whole henv).bind fun S₁ tr hle₁ htr =>
      (leads_inferFields changes span [] (henv.mono hle₁) (by simp)).bind
      fun S₂ row hle₂ hrow => ?_
    obtain ⟨entries, rfl, hnodup, hfits, htyped⟩ := hrow
    rw [nil_append] at hnodup ⊢
    refine (leads_freshVar (Role.type.behind (ofList entries))).bind fun S₃ tail hle₃ htail => ?_
    obtain ⟨w, rfl, hw, -⟩ := htail
    have hrecord : S₃.Fits .type (.record (ofList entries) (.flex w)) :=
      .record (sorted_ofList _) (by simp [Role.front])
        (fun e he => (hfits e (mem_ofList he)).mono hle₃) (fits_flex.mpr hw)
    refine (leads_unifyAt span (htr.fits.mono (hle₂.trans hle₃)) hrecord).bind
      fun S₄ _ hle₄ hagree => leads_pure ⟨htr.fits.mono (hle₂.trans (hle₃.trans hle₄)),
        fun {κ θ ok Γ} hm hpaths => ?_⟩
    have hwhole := (htr.mono (hle₂.trans (hle₃.trans hle₄))).typed hm hpaths.1
    rw [hagree.value_eq hm.solves.satisfies, value_record] at hwhole ⊢
    have hlabels : ((valuesOf θ entries).map (·.1)).Nodup := by rwa [map_fst_valuesOf]
    refine .update hwhole (htyped (hm.mono (hle₃.trans hle₄)) hpaths.2) hlabels fun e he => ?_
    rw [lookup_prepend, mapValues_ofList_value, lookup_ofList hlabels he]
    rfl
  | .construct span x none, S, env, henv => by
    rw [inferHead]
    refine (leads_constructor henv span x).bind fun S₁ c hle₁ hc =>
      (leads_apply_none hc span).imp fun S₂ t hle₂ ht => ?_
    obtain ⟨rfl, harg⟩ := ht
    refine ⟨hc.owner.mono hle₂, fun {κ θ ok Γ} hm hpaths => ?_⟩
    obtain ⟨σ', hσ', hinst, -⟩ := (hc.mono hle₂).typed hm.solves hm.under
    rw [harg] at hinst
    exact .constant hσ' hinst
  | .construct span x (some arg), S, env, henv => by
    rw [inferHead]
    refine (leads_constructor henv span x).bind fun S₁ c hle₁ hc =>
      (leads_apply hc span (leads_inferHead arg (henv.mono hle₁))).imp fun S₂ t hle₂ ht => ?_
    obtain ⟨rfl, huse, u, s, hs, hu, hagree⟩ := ht
    refine ⟨huse.owner, fun {κ θ ok Γ} hm hpaths => ?_⟩
    obtain ⟨σ', hσ', hinst, -⟩ := huse.typed hm.solves hm.under
    have harg := hu.typed hm hpaths
    rw [hagree.value_eq hm.solves.satisfies] at harg
    rw [hs] at hinst
    exact .construct hσ' hinst harg
  | .cases span scrutinee arms, S, env, henv => by
    rw [inferHead]
    refine (leads_inferHead scrutinee henv).bind fun S₁ t hle₁ ht =>
      (leads_freshVar .type).bind fun S₂ result hle₂ hresult => ?_
    obtain ⟨v, rfl, hv, -⟩ := hresult
    have hresult : S₂.Fits .type (.flex v) := fits_flex.mpr hv
    refine (leads_inferArms arms span (henv.mono (hle₁.trans hle₂)) (ht.fits.mono hle₂)
      hresult).bind fun S₃ _ hle₃ harms => leads_pure ⟨hresult.mono hle₃, fun hm hpaths => ?_⟩
    exact .cases ((ht.mono (hle₂.trans hle₃)).typed hm hpaths.1)
      (hm.solves.rowed.isMono (hresult.mono hle₃)) (harms hm hpaths.2)
  | .annotate span inner ann, S, env, henv => by
    rw [inferHead]
    refine (leads_inferHead inner henv).bind fun S₁ t hle₁ ht =>
      (TypeExpr.leads_annotated (henv.mono hle₁).types span ann).bind fun S₂ u hle₂ hu =>
      (leads_unifyAt span (ht.fits.mono hle₂) hu.1).bind fun S₃ _ hle₃ hagree =>
      leads_pure ⟨hu.1.mono hle₃, fun {κ θ ok Γ} hm hpaths => ?_⟩
    have hinner := (ht.mono (hle₂.trans hle₃)).typed hm hpaths
    rw [hagree.value_eq hm.solves.satisfies] at hinner
    exact .annotate hinner (hu.2 κ θ Γ (hm.solves.mono hle₃) hm.under.types)

theorem leads_inferList : ∀ (es : List Expr) {S : Stage G} {env : Env}, S.FitsEnv env →
    Leads At S (inferList env es) fun S' ts => (∀ t ∈ ts, S'.Fits .type t) ∧
      ∀ {κ θ ok Γ}, S'.Models κ θ ok env Γ → PathsList ok es →
        HasTypes κ Γ (tidyList es) (ts.map (value θ))
  | [], S, env, henv => by
    rw [inferList]
    exact leads_pure ⟨by simp, fun _ _ => .nil⟩
  | e :: es, S, env, henv => by
    rw [inferList]
    refine (leads_inferHead e henv).bind fun S₁ t hle₁ ht =>
      (leads_inferList es (henv.mono hle₁)).bind fun S₂ ts hle₂ hts => leads_pure ?_
    exact ⟨forall_mem_cons.mpr ⟨ht.fits.mono hle₂, hts.1⟩,
      fun hm hpaths => .cons ((ht.mono hle₂).typed hm hpaths.1) (hts.2 hm hpaths.2)⟩

theorem leads_inferFields : ∀ (es : List (String × Expr)) (span : Span)
    (done : Table Ty) {S : Stage G} {env : Env}, S.FitsEnv env → (done.map (·.1)).Nodup →
      Leads At S (inferFields env span es (.ofList done)) fun S' fields => ∃ entries,
        fields = .ofList (done ++ entries) ∧ ((done ++ entries).map (·.1)).Nodup ∧
        (∀ e ∈ entries, S'.Fits .type e.2) ∧
        ∀ {κ θ ok Γ}, S'.Models κ θ ok env Γ → PathsFields ok es →
          HasFields κ Γ (tidyFields es) (valuesOf θ entries)
  | [], span, done, S, env, henv, hdone => by
    rw [inferFields]
    exact leads_pure ⟨[], by simp, by simpa using hdone, by simp, fun _ _ => .nil⟩
  | (l, e) :: es, span, done, S, env, henv, hdone => by
    rw [inferFields]
    refine (leads_inferHead e henv).bind fun S₁ t hle₁ ht => ?_
    split
    · exact leads_throw _
    · next hnew =>
      rw [← ofList_concat]
      refine (leads_inferFields es span _ (henv.mono hle₁) (nodup_concat hdone hnew t)).imp
        fun S₂ fields hle₂ hfields => ?_
      obtain ⟨entries, hfields, hnodup, hfits, htyped⟩ := hfields
      rw [append_assoc, singleton_append] at hfields hnodup
      exact ⟨(l, t) :: entries, hfields, hnodup,
        forall_mem_cons.mpr ⟨ht.fits.mono hle₂, hfits⟩,
        fun hm hpaths => .cons ((ht.mono hle₂).typed hm hpaths.1) (htyped hm hpaths.2)⟩

theorem leads_inferArms : ∀ (arms : List (Pattern × Expr)) (span : Span) {S : Stage G} {env : Env}
    {scrutinee result : Ty}, S.FitsEnv env → S.Fits .type scrutinee → S.Fits .type result →
      Leads At S (inferArms env span scrutinee result arms) fun S' _ =>
        ∀ {κ θ ok Γ}, S'.Models κ θ ok env Γ → PathsArms ok arms →
          HasArms κ Γ (scrutinee.value θ) (result.value θ) (tidyArms arms)
  | [], span, S, env, scrutinee, result, henv, hs, hr => by
    rw [inferArms]
    exact leads_pure fun _ _ => .nil
  | (p, body) :: arms, span, S, env, scrutinee, result, henv, hs, hr => by
    rw [inferArms]
    refine (p.leads_check span henv hs).bind fun S₁ bs hle₁ hbs =>
      (leads_inferHead body ((henv.mono hle₁).addMonos hbs.fits)).bind fun S₂ t hle₂ ht =>
      (leads_unifyAt body.span ht.fits (hr.mono (hle₁.trans hle₂))).bind
      fun S₃ _ hle₃ hagree => ?_
    have hle := hle₁.trans (hle₂.trans hle₃)
    refine (leads_inferArms arms span (henv.mono hle) (hs.mono hle) (hr.mono hle)).imp
      fun S₄ _ hle₄ harms {κ θ ok Γ} hm hpaths => ?_
    have hm₂ := hm.mono (hle₃.trans hle₄)
    have hbody := ht.typed (hm₂.addMonos hbs.names) hpaths.1
    rw [hagree.value_eq (hm.mono hle₄).solves.satisfies] at hbody
    exact .cons (hbs.typed (hm₂.mono hle₂).solves hm.under) hbody (harms hm hpaths.2)

end

end Expr

end RowTyping
