import RowTyping.Proofs.Denotation

/-!
# Constructors and patterns

A use of a constructor is an instance of its scheme, and the components that it
is found to take are those that were declared. A pattern that is checked against
a type matches, under every assignment that solves the stage, values of that type
and binds names to the types that it found.
-/

namespace RowTyping

open Check Registry Table Ty Option

namespace Ty

variable {G : Prop} {H V : TyVar → Role → Prop} {k : Role} {t : Ty} {θ : Nat → Ty} {t : Ty}
  {c : Ctor}

theorem Fits.ctor?_eq_none (h : t.Fits G H V k) : t.ctor? = none := by
  cases h with
  | @con _ c args hc =>
    cases c with
    | ctor name => exact absurd rfl (hc.2 name)
    | _ => rfl
  | _ => rfl

/-- A type of values has at least one component. -/
theorem Fits.width_ne_zero (h : t.Fits G H V .type) : t.width ≠ .count 0 := by
  cases h with
  | @con _ c args _ htuple =>
    cases c with
    | tuple => simpa [width] using htuple rfl
    | _ => simp [width]
  | _ => simp [width]

theorem ctor?_subst (f : TyVar → Ty) (h : t.ctor? = some c) :
    (t.subst f).ctor? = some ⟨c.name, c.owner.subst f, c.arg.map (subst f)⟩ := by
  unfold ctor? at h
  split at h
  · cases h
    simp [subst, substList_eq, ctor?]
  · cases h

/-- Only the type of a constructor becomes the type of a constructor when variables
are renamed. -/
theorem ctor?_of_subst {f : TyVar → Ty} (hf : ∀ x, ∃ y, f x = .var y)
    (hc : (t.subst f).ctor? = some c) :
    ∃ d, t.ctor? = some d ∧ c = ⟨d.name, d.owner.subst f, d.arg.map (subst f)⟩ := by
  cases ht : t.ctor? with
  | some d =>
    refine ⟨d, rfl, ?_⟩
    rw [ctor?_subst f ht] at hc
    exact (some.inj hc).symm
  | none =>
    exfalso
    cases t with
    | var x =>
      obtain ⟨y, hy⟩ := hf x
      rw [subst, hy] at hc
      cases hc
    | con c' args =>
      cases c' with
      | ctor name =>
        cases args with
        | nil => cases hc
        | cons owner rest => cases ht
      | _ => cases hc
    | record | synonym | module => cases hc

theorem eq_ctor (h : t.ctor? = some c) :
    ∃ rest, t = .con (.ctor c.name) (c.owner :: rest) ∧ c.arg = rest.head? := by
  unfold ctor? at h
  split at h
  · cases h
    exact ⟨_, rfl, rfl⟩
  · cases h

theorem value_ctor (θ : Nat → Ty) (name : String) (owner : Ty) (arg : Option Ty) :
    (ctor name owner arg).value θ = .ctor name (owner.value θ) (arg.map (value θ)) := by
  unfold ctor
  cases arg <;> rfl

theorem ctor?_ctor (name : String) (owner : Ty) (arg : Option Ty) :
    (ctor name owner arg).ctor? = some ⟨name, owner, arg⟩ := by
  cases arg <;> rfl

theorem IsBody.ctor? {P : Ty → Prop} (h : t.IsBody P) (hc : t.ctor? = some c) :
    t = .ctor c.name c.owner c.arg ∧ P c.owner ∧ ∀ u ∈ c.arg, P u := by
  obtain ⟨rest, rfl, harg⟩ := eq_ctor hc
  have hshort := h.size.2
  have hparts := h.parts
  rw [Ty.parts] at hshort hparts
  cases rest with
  | nil =>
    rw [harg]
    exact ⟨rfl, hparts _ (by simp), by simp⟩
  | cons u rest =>
    cases rest with
    | nil =>
      rw [harg]
      exact ⟨rfl, hparts _ (by simp), by simpa using hparts u (by simp)⟩
    | cons => simp at hshort

/-- A type that shows nothing to be solved is what it is under every
assignment. -/
theorem value_of_closed (h : ∀ v, .flex v ∉ t.shown) (θ : Nat → Ty) : t.value θ = t.norm := by
  conv_rhs => rw [← subst_var t]
  refine norm_subst_congr fun x hx => ?_
  cases x with
  | flex v => exact absurd hx (h v)
  | gen g => rfl

end Ty

/-- Nothing has no components. -/
theorem Arity.agrees_zero {a : Arity} : a.agrees (.count 0) = true ↔ a = .count 0 := by
  cases a <;> simp [agrees]

theorem Arity.zero_agrees {a : Arity} : (Arity.count 0).agrees a = true ↔ a = .count 0 := by
  cases a with
  | any => simp [agrees]
  | count n => cases n <;> simp [agrees]

namespace Registry

variable {r : Registry}

theorem arity_some {t : Ty} (h : ∀ g, r.head t ≠ .gen g) : r.arity (some t) = (r.head t).width := by
  rw [arity]
  generalize r.head t = u at *
  cases u with
  | var x =>
    cases x with
    | flex v => rfl
    | gen g => exact absurd rfl (h g)
  | con c args => cases c <;> rfl
  | record | synonym | module => rfl

/-- The components of a use are those that were declared, as long as the variables
that it puts in are open. -/
theorem width_headN {t : Ty} {f : TyVar → Ty}
    (hopen : ∀ x ∈ t.shown, ∃ u, f x = .flex u ∧ r.binding? u = none) {n : Nat}
    (hn : (t.subst f).height ≤ n) : (r.headN n (t.subst f)).width = t.components := by
  induction t generalizing n with
  | var x =>
    obtain ⟨u, hu, hopen⟩ := hopen x (by simp)
    have hres : r.headN n (.flex u) = .flex u := by
      cases n <;> simp only [headN, resolve_none hopen]
    rw [subst, hu, hres]
    rfl
  | con c args =>
    have hres : r.headN n ((con c args).subst f) = (con c args).subst f := by
      cases n <;> simp [headN, subst, resolve_of_not_flex]
    rw [hres]
    cases c <;> simp [subst, substList_eq, width, components, Ty.norm, Con.plain, normList_eq]
  | record fs tail =>
    have hres : r.headN n ((record fs tail).subst f) = (record fs tail).subst f := by
      cases n <;> simp [headN, subst, resolve_of_not_flex]
    rw [hres]
    rfl
  | synonym id labels params target _ ih =>
    cases n with
    | zero => simp [subst, height] at hn
    | succ n =>
      rw [subst, headN, resolve_synonym]
      refine ih (fun x hx => hopen x (mem_shown_synonym.mpr hx)) ?_
      rw [subst, height] at hn
      omega
  | module name members =>
    have hres : r.headN n ((module name members).subst f) = .module name members := by
      cases n <;> simp [headN, subst, resolve_of_not_flex]
    rw [hres]
    rfl

namespace Obeys

variable {G : Prop} {H V : TyVar → Role → Prop} {t : Ty} (hV : r.Obeys G H V)
include hV

theorem headN (h : t.Fits G H V .type) (n : Nat) : (r.headN n t).Fits G H V .type := by
  induction n generalizing t with
  | zero => exact hV.resolve h
  | succ n ih =>
    have hres := hV.resolve h
    rw [Registry.headN]
    split
    · next heq =>
      rw [heq] at hres
      cases hres with
      | synonym _ htarget => exact ih htarget
    · exact hres

variable (hflex : ∀ x k, V x k → ∃ v, x = .flex v)
include hflex

theorem arity_eq_width (h : t.Fits G H V .type) : r.arity (some t) = (r.head t).width := by
  refine arity_some fun g hg => ?_
  have hhead : (r.head t).Fits G H V .type := hV.headN h _
  rw [hg] at hhead
  obtain ⟨v, hv⟩ := hflex _ _ (Fits.var_iff.mp hhead)
  cases hv

theorem arity_ne_zero (h : t.Fits G H V .type) : r.arity (some t) ≠ .count 0 := by
  rw [hV.arity_eq_width hflex h]
  exact (hV.headN h _).width_ne_zero

end Obeys

end Registry

namespace Stage

variable {G : Prop} {S S' : Stage G} {V : TyVar → Role → Prop} {t : Ty} {σ : Scheme}
  {f : TyVar → Ty}

theorem arity_eq_width (h : S.Fits .type t) :
    S.registry.arity (some t) = (S.registry.head t).width :=
  S.obeys.arity_eq_width (fun _ _ hx => hx.2) h

theorem arity_ne_zero (h : S.Fits .type t) : S.registry.arity (some t) ≠ .count 0 :=
  S.obeys.arity_ne_zero (fun _ _ hx => hx.2) h

/-- A use of the constructor `x`, which takes so many components. -/
structure CtorUse (S : Stage G) (env : Env) (x : String) (c : Ctor) (a : Arity) : Prop where
  owner : S.Fits .type c.owner
  arg : ∀ t ∈ c.arg, S.Fits .type t
  typed : ∀ {κ θ ok Γ}, S.Solves κ θ → env.Under θ ok Γ → ∃ σ', Γ.value? x = some σ' ∧
    σ'.Instance κ (.ctor c.name (c.owner.value θ) (c.arg.map (Ty.value θ))) ∧
    (c.arg.isSome → ∃ d declared, σ'.body.norm.ctor? = some d ∧ d.arg = some declared ∧
      declared.components = a)

theorem CtorUse.mono {env : Env} {x : String} {c : Ctor} {a : Arity} (h : S.CtorUse env x c a)
    (hle : S ≤ S') : S'.CtorUse env x c a where
  owner := h.owner.mono hle
  arg t ht := (h.arg t ht).mono hle
  typed hθ hΓ := h.typed (hθ.mono hle) hΓ

theorem Opening.isVar (h : Opening S S' σ f) (x : TyVar) : ∃ y, f x = .var y := by
  cases x with
  | flex v => exact ⟨_, h.flex v⟩
  | gen g =>
    by_cases hopen : σ.Opens (.gen g)
    · obtain ⟨u, hu, -⟩ := h.opened hopen
      exact ⟨_, hu⟩
    · exact ⟨_, h.kept hopen⟩

theorem Opening.ctorUse (h : Opening S S' σ f) (hle : S ≤ S') (hσ : S.FitsScheme σ) {env : Env}
    {x : String} (hx : env.value? x = some σ) {c : Ctor}
    (hc : (σ.body.subst f).ctor? = some c) : S'.CtorUse env x c (S'.registry.arity c.arg) := by
  obtain ⟨heq, howner, harg⟩ := (h.isBody hle hσ.body).ctor? hc
  refine ⟨howner, harg, fun {κ θ ok Γ} hθ hΓ => ?_⟩
  obtain ⟨σ', hσ', hbody, -⟩ := hΓ.value? hx
  refine ⟨σ', hσ', ?_, fun hsome => ?_⟩
  · rw [← value_ctor, ← heq]
    exact h.isInstance hle hσ.body hθ hbody
  · obtain ⟨d, hd, rfl⟩ := ctor?_of_subst h.isVar hc
    obtain ⟨heq', -, harg'⟩ := IsBody.ctor? hσ.body hd
    obtain ⟨t, ht⟩ := isSome_iff_exists.mp hsome
    obtain ⟨declared, hdeclared, rfl⟩ := map_eq_some_iff.mp ht
    have hclosed : ∀ v, .flex v ∉ σ.body.shown := hσ.closed (heq'.trans rfl)
    rw [heq', value_ctor] at hbody
    refine ⟨_, declared.value θ, by rw [hbody, ctor?_ctor], by rw [hdeclared]; rfl, ?_⟩
    have hshown : ∀ v, .flex v ∉ declared.shown := by
      intro v hv
      refine hclosed v (heq' ▸ mem_shown_con.mpr ⟨declared, ?_, hv⟩)
      simp [hdeclared]
    have hopen : ∀ x ∈ declared.shown, ∃ u, f x = .flex u ∧ S'.registry.binding? u = none := by
      intro x hx
      obtain ⟨k, hk⟩ := (harg' _ hdeclared).role_of_shown hx
      cases x with
      | flex v => exact absurd hx (hshown v)
      | gen g =>
        obtain ⟨u, hu, hopen, -⟩ := h.opened hk.2
        exact ⟨u, hu, hopen⟩
    have hfits : S'.Fits .type (declared.subst f) := harg _ (by simp [hdeclared])
    rw [hdeclared, map_some, arity_eq_width hfits, head,
      width_headN hopen (by unfold fuel; omega), value_of_closed hshown, components, components,
        norm_norm]

/-! ## Operations -/

variable {α : Type} {env : Env} {Q : Stage G → α → Prop}

theorem leads_find_bind {span : Span} {x : String} {g : Scheme → Check Located α}
    (h : ∀ σ, env.value? x = some σ → Leads At S (g σ) Q) :
    Leads At S (env.find span x >>= g) Q := by
  cases hx : env.value? x with
  | some σ =>
    have hfind : env.find span x = pure σ := by
      simp only [Env.find, Env.value, hx, fromExcept]
      rfl
    rw [hfind]
    exact h σ hx
  | none =>
    have hfind : env.find span x = throw ⟨.unboundName x, span⟩ := by
      simp only [Env.find, Env.value, hx, fromExcept]
      rfl
    rw [hfind]
    exact leads_throw _

theorem leads_checkArity (c : Ctor) (span : Span) (found : Arity) :
    Leads At S (c.checkArity span found) fun _ _ =>
      (S.registry.arity c.arg).agrees found = true := by
  refine leads_registry_bind ?_
  dsimp only
  split
  · next h => exact leads_pure h
  · exact leads_throw _

theorem leads_constructor (henv : S.FitsEnv env) (span : Span) (x : String) :
    Leads At S (env.constructor span x) fun S' c =>
      S'.CtorUse env x c (S'.registry.arity c.arg) := by
  refine leads_find_bind fun σ hσ => (leads_instantiate S σ).bind fun S' t hle ht => ?_
  obtain ⟨f, hf, rfl⟩ := ht
  split
  · next hc => exact leads_pure (hf.ctorUse hle (henv.value? hσ) hσ hc)
  · exact leads_throw _

/-- A constructor pattern without its argument. -/
theorem leads_destruct (henv : S.FitsEnv env) (span : Span) (x : String) (found : Arity)
    {expected : Ty} (hexpected : S.Fits .type expected) :
    Leads At S (env.destruct span x found expected) fun S' arg => ∃ c a,
      S'.CtorUse env x c a ∧ arg = c.arg ∧ a.agrees found = true ∧
      (c.arg = none ∧ a = .count 0 ∨ c.arg.isSome ∧ a ≠ .count 0) ∧
      S'.Agree .type c.owner expected := by
  refine (leads_constructor henv span x).bind fun S₁ c hle₁ hc =>
    (leads_checkArity c span found).bind fun S₂ _ hle₂ hagrees =>
    (leads_unifyAt span (hc.owner.mono hle₂) (hexpected.mono (hle₁.trans hle₂))).bind
      fun S₃ _ hle₃ hagree => leads_pure ?_
  refine ⟨c, _, hc.mono (hle₂.trans hle₃), rfl, hagrees, ?_, hagree⟩
  cases harg : c.arg with
  | none => exact .inl ⟨rfl, rfl⟩
  | some t => exact .inr ⟨rfl, arity_ne_zero (hc.arg t harg)⟩

/-- A new variable for each label. -/
theorem leads_freshFields (span : Span) (ls : List String) (done : Table Ty)
    (hdone : (done.map (·.1)).Nodup) :
    Leads At S (freshFields span ls (.ofList done)) fun S' r => r.1.length = ls.length ∧
      r.2 = .ofList (done ++ ls.zip r.1) ∧ ((done ++ ls.zip r.1).map (·.1)).Nodup ∧
      ∀ t ∈ r.1, S'.Fits .type t := by
  induction ls generalizing S done with
  | nil => exact leads_pure ⟨rfl, by simp, by simpa using hdone, by simp⟩
  | cons l ls ih =>
    refine (leads_freshVar .type).bind fun S₁ t hle₁ ht => ?_
    split
    · exact leads_throw _
    · next hnew =>
      rw [← ofList_concat]
      refine (ih _ (nodup_concat hdone hnew t)).bind fun S₂ r hle₂ hr => leads_pure ?_
      obtain ⟨v, rfl, hv, -⟩ := ht
      obtain ⟨hlen, hrow, hnodup, hfits⟩ := hr
      rw [List.append_assoc] at hrow hnodup
      refine ⟨by simp [hlen], hrow, hnodup, List.forall_mem_cons.mpr ⟨?_, hfits⟩⟩
      exact fits_flex.mpr (hle₂.role hv)

end Stage

/-! ## Patterns -/

namespace Pattern

mutual

/-- The names that a pattern binds. -/
def names : Pattern → List String
  | .wild => []
  | .var x => [x]
  | .lit _ => []
  | .tuple ps => namesList ps
  | .construct _ none => []
  | .construct _ (some p) => names p
  | .record ps _ => namesFields ps

def namesList : List Pattern → List String
  | [] => []
  | p :: ps => names p ++ namesList ps

def namesFields : List (String × Pattern) → List String
  | [] => []
  | (_, p) :: ps => names p ++ namesFields ps

end

end Pattern

/-- Only an empty tuple has no components. -/
theorem ofPattern_eq_zero {p : Pattern} (h : Arity.ofPattern (some p) = .count 0) :
    p = .tuple [] := by
  cases p with
  | tuple ps =>
    rw [Arity.ofPattern, Arity.count.injEq, List.length_eq_zero_iff] at h
    rw [h]
  | wild | var | lit | construct | record => cases h

theorem Pattern.length_tidyList (ps : List Pattern) : (tidyList ps).length = ps.length := by
  induction ps with
  | nil => rfl
  | cons p ps ih => rw [tidyList, List.length_cons, List.length_cons, ih]

theorem ofPattern_tidy {p : Pattern} :
    Arity.ofPattern (some p.tidy) = Arity.ofPattern (some p) := by
  cases p with
  | tuple ps => exact congrArg Arity.count (Pattern.length_tidyList ps)
  | construct c arg =>
    unfold Pattern.tidy
    split <;> simp_all [Arity.ofPattern]
  | wild | var | lit | record => rfl

namespace Stage

variable {G : Prop} {S S' : Stage G}

/-- The names that are bound have types, under every assignment those that the
type system gives them. -/
structure Binds (S : Stage G) (env : Env) (names : List String) (bs : List (String × Ty))
    (Holds : (Nat → Role) → Env → (Nat → Ty) → Prop) : Prop where
  fits : ∀ b ∈ bs, S.Fits .type b.2
  names : bs.map (·.1) = names
  typed : ∀ {κ θ ok Γ}, S.Solves κ θ → env.Under θ ok Γ → Holds κ Γ θ

theorem Binds.mono {env : Env} {names : List String} {bs : Table Ty}
    {Holds : (Nat → Role) → Env → (Nat → Ty) → Prop} (h : S.Binds env names bs Holds)
    (hle : S ≤ S') : S'.Binds env names bs Holds where
  fits b hb := (h.fits b hb).mono hle
  names := h.names
  typed hθ hΓ := h.typed (hθ.mono hle) hΓ

theorem Binds.append {env : Env} {names names' : List String} {bs bs' : Table Ty}
    {Holds Holds' Both : (Nat → Role) → Env → (Nat → Ty) → Prop} (h : S.Binds env names bs Holds)
    (h' : S.Binds env names' bs' Holds')
    (hboth : ∀ {κ Γ θ}, Holds κ Γ θ → Holds' κ Γ θ → Both κ Γ θ) :
    S.Binds env (names ++ names') (bs ++ bs') Both where
  fits := List.forall_mem_append.mpr ⟨h.fits, h'.fits⟩
  names := by rw [List.map_append, h.names, h'.names]
  typed hθ hΓ := hboth (h.typed hθ hΓ) (h'.typed hθ hΓ)

end Stage

namespace Pattern

open Stage

variable {G : Prop} {env : Env}

mutual

theorem leads_check (span : Span) : ∀ (p : Pattern) {S : Stage G} {expected : Ty},
    S.FitsEnv env → S.Fits .type expected →
      Leads At S (p.check env span expected) fun S' bs => S'.Binds env p.names bs
        fun κ Γ θ => p.tidy.Matches κ Γ (expected.value θ) (valuesOf θ bs)
  | .wild, S, expected, henv, h => by
    rw [check]
    exact leads_pure ⟨by simp, rfl, fun _ _ => .wild _⟩
  | .var x, S, expected, henv, h => by
    rw [check]
    exact leads_pure ⟨by simpa using h, rfl, fun _ _ => .var x _⟩
  | .lit b, S, expected, henv, h => by
    rw [check]
    refine (leads_unifyAt span (.base b) h).bind fun S₁ _ hle₁ hagree => leads_pure ?_
    refine ⟨by simp, rfl, fun {κ θ ok Γ} hθ hΓ => ?_⟩
    rw [← hagree.value_eq hθ.satisfies, value_base]
    exact .lit b
  | .tuple ps, S, expected, henv, h => by
    rw [check]
    refine (leads_freshVars (fun _ => .type) ps).bind fun S₁ es hle₁ hes => ?_
    obtain ⟨hkeys, -, hes⟩ := hes
    have htypes : ∀ t ∈ es.map (·.2), S₁.Fits .type t := by
      refine List.forall_mem_map.mpr fun e he => ?_
      obtain ⟨v, hv, hrole, -⟩ := hes e he
      rw [hv]
      exact fits_flex.mpr hrole
    have hlen : ps.length = (es.map (·.2)).length := by
      rw [← hkeys, List.length_map, List.length_map]
    generalize es.map (·.2) = ts at *
    refine (leads_unifyAt span (.tuple htypes) (h.mono hle₁)).bind fun S₂ _ hle₂ hagree =>
      (leads_checkList span ps (henv.mono (hle₁.trans hle₂))
        (fun t ht => (htypes t ht).mono hle₂) hlen).imp fun S₃ bs hle₃ hbs => ?_
    refine ⟨hbs.fits, hbs.names, fun {κ θ ok Γ} hθ hΓ => ?_⟩
    rw [← hagree.value_eq (hθ.mono hle₃).satisfies, value_tuple]
    exact .tuple (hbs.typed hθ hΓ)
  | .construct c none, S, expected, henv, h => by
    rw [check]
    refine (leads_destruct henv span c _ h).bind fun S₁ arg hle₁ harg => leads_pure ?_
    obtain ⟨ctor, a, huse, rfl, hagrees, hcount, hagree⟩ := harg
    refine ⟨by simp, rfl, fun {κ θ ok Γ} hθ hΓ => ?_⟩
    obtain ⟨σ', hσ', hinst, -⟩ := huse.typed hθ hΓ
    have hnone : ctor.arg = none := by
      rcases hcount with ⟨hnone, -⟩ | ⟨-, hne⟩
      · exact hnone
      · exact absurd (Arity.agrees_zero.mp hagrees) hne
    rw [hnone] at hinst
    rw [← hagree.value_eq hθ.satisfies]
    exact .constant hσ' hinst
  | .construct c (some p), S, expected, henv, h => by
    rw [check]
    refine (leads_destruct henv span c _ h).bind fun S₁ arg hle₁ harg => ?_
    obtain ⟨ctor, a, huse, rfl, hagrees, hcount, hagree⟩ := harg
    cases harg : ctor.arg with
    | some t =>
      refine (leads_check span p (henv.mono hle₁) (huse.arg t harg)).imp fun S₂ bs hle₂ hbs => ?_
      refine ⟨hbs.fits, hbs.names, fun {κ θ ok Γ} hθ hΓ => ?_⟩
      obtain ⟨σ', hσ', hinst, hdeclared⟩ := huse.typed (hθ.mono hle₂) hΓ
      obtain ⟨d, declared, hd, harg', rfl⟩ := hdeclared (by rw [harg]; rfl)
      rw [harg] at hinst
      rw [← hagree.value_eq (hθ.mono hle₂).satisfies]
      have hne : p ≠ .tuple [] := by
        rintro rfl
        rcases hcount with ⟨hnone, -⟩ | ⟨-, hne⟩
        · rw [harg] at hnone
          cases hnone
        · exact hne (Arity.agrees_zero.mp hagrees)
      rw [← ofPattern_tidy] at hagrees
      rw [tidy]
      · exact .construct hσ' hd harg' hagrees hinst (hbs.typed hθ hΓ)
      · exact hne
    | none =>
      have hempty : p = .tuple [] := by
        rcases hcount with ⟨-, rfl⟩ | ⟨hsome, -⟩
        · exact ofPattern_eq_zero (Arity.zero_agrees.mp hagrees)
        · rw [harg] at hsome
          cases hsome
      subst hempty
      refine leads_pure ⟨by simp, rfl, fun {κ θ ok Γ} hθ hΓ => ?_⟩
      obtain ⟨σ', hσ', hinst, -⟩ := huse.typed hθ hΓ
      rw [harg] at hinst
      rw [← hagree.value_eq hθ.satisfies]
      exact .constant hσ' hinst
  | .record fields isOpen, S, expected, henv, h => by
    rw [check]
    refine (leads_freshFields span _ [] (by simp)).bind fun S₁ r hle₁ hr => ?_
    obtain ⟨ts, row⟩ := r
    obtain ⟨hlen, hrow, hnodup, hts⟩ := hr
    rw [List.nil_append] at hrow hnodup
    rw [List.length_map] at hlen
    dsimp only at hlen hrow hnodup hts ⊢
    have hfields : ∀ {S' : Stage G}, S₁ ≤ S' → ∀ e ∈ row, S'.Fits .type e.2 := by
      intro S' hle e he
      rw [hrow] at he
      exact (hts _ (List.of_mem_zip (mem_ofList he)).2).mono hle
    have hsorted : row.Sorted := hrow ▸ sorted_ofList _
    have hlabels : ∀ θ, ((valuesOf θ ((fields.map (·.1)).zip ts)).map (·.1)).Nodup := by
      intro θ
      rwa [map_fst_valuesOf]
    cases isOpen with
    | true =>
      refine (leads_freshVar (Role.type.behind row)).bind fun S₂ tail hle₂ htail => ?_
      obtain ⟨v, rfl, hv, -⟩ := htail
      have hrecord : S₂.Fits .type (.record row (.flex v)) :=
        .record hsorted (by simp [Role.front]) (hfields hle₂) (fits_flex.mpr hv)
      refine (leads_unifyAt span hrecord (h.mono (hle₁.trans hle₂))).bind fun S₃ _ hle₃ hagree =>
        (leads_checkFields span fields (henv.mono (hle₁.trans (hle₂.trans hle₃)))
          (fun t ht => (hts t ht).mono (hle₂.trans hle₃)) hlen.symm).imp fun S₄ bs hle₄ hbs => ?_
      refine ⟨hbs.fits, hbs.names, fun {κ θ ok Γ} hθ hΓ => ?_⟩
      rw [← hagree.value_eq (hθ.mono hle₄).satisfies, hrow, value_ofList_tail]
      refine .openRecord (hbs.typed hθ hΓ) (hlabels θ) ?_
      rw [← mapValues_ofList_value, Role.behind_mapValues, ← hrow]
      exact hθ.rowed v _ ((hle₃.trans hle₄).role hv)
    | false =>
      refine (leads_unifyAt span (.closedRecord hsorted (hfields le_rfl)) (h.mono hle₁)).bind
        fun S₂ _ hle₂ hagree => (leads_checkFields span fields (henv.mono (hle₁.trans hle₂))
          (fun t ht => (hts t ht).mono hle₂) hlen.symm).imp fun S₃ bs hle₃ hbs => ?_
      refine ⟨hbs.fits, hbs.names, fun {κ θ ok Γ} hθ hΓ => ?_⟩
      rw [← hagree.value_eq (hθ.mono hle₃).satisfies, hrow, value_ofList]
      exact .record (hbs.typed hθ hΓ) (hlabels θ)

theorem leads_checkList (span : Span) : ∀ (ps : List Pattern) {S : Stage G} {ts : List Ty},
    S.FitsEnv env → (∀ t ∈ ts, S.Fits .type t) → ps.length = ts.length →
      Leads At S (checkList env span ps ts) fun S' bs => S'.Binds env (namesList ps) bs
        fun κ Γ θ => MatchesList κ Γ (tidyList ps) (ts.map (value θ)) (valuesOf θ bs)
  | [], S, [], henv, h, hlen => by
    rw [checkList]
    · exact leads_pure ⟨by simp, rfl, fun _ _ => .nil⟩
    · simp
  | p :: ps, S, t :: ts, henv, h, hlen => by
    rw [checkList]
    obtain ⟨ht, hts⟩ := List.forall_mem_cons.mp h
    refine (leads_check span p henv ht).bind fun S₁ bs hle₁ hbs =>
      (leads_checkList span ps (henv.mono hle₁) (fun t ht => (hts t ht).mono hle₁)
        (Nat.succ.inj hlen)).bind fun S₂ cs hle₂ hcs => leads_pure ?_
    refine (hbs.mono hle₂).append hcs fun hp hps => ?_
    rw [valuesOf_append]
    exact .cons hp hps

theorem leads_checkFields (span : Span) : ∀ (ps : List (String × Pattern)) {S : Stage G}
    {ts : List Ty}, S.FitsEnv env → (∀ t ∈ ts, S.Fits .type t) → ps.length = ts.length →
      Leads At S (checkFields env span ps ts) fun S' bs => S'.Binds env (namesFields ps) bs
        fun κ Γ θ => MatchesFields κ Γ (tidyFields ps) (valuesOf θ ((ps.map (·.1)).zip ts))
          (valuesOf θ bs)
  | [], S, [], henv, h, hlen => by
    rw [checkFields]
    · exact leads_pure ⟨by simp, rfl, fun _ _ => .nil⟩
    · simp
  | (l, p) :: ps, S, t :: ts, henv, h, hlen => by
    rw [checkFields]
    obtain ⟨ht, hts⟩ := List.forall_mem_cons.mp h
    refine (leads_check span p henv ht).bind fun S₁ bs hle₁ hbs =>
      (leads_checkFields span ps (henv.mono hle₁) (fun t ht => (hts t ht).mono hle₁)
        (Nat.succ.inj hlen)).bind fun S₂ cs hle₂ hcs => leads_pure ?_
    refine (hbs.mono hle₂).append hcs fun hp hps => ?_
    rw [valuesOf_append]
    exact .cons hp hps

end

end Pattern

end RowTyping
