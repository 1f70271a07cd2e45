import RowTyping.Proofs.Inference
import RowTyping.Proofs.Programs

/-!
# Declarations at a stage

Every declaration leads to a stage at which the environment that it leaves fits,
and so does one that fails. The labels of a type declaration stand for
generalized variables, and the rows that it leaves open for further ones.

Where synonyms are solid and use their parameters, a declared value leaves
nothing to be solved: all the variables of its type are quantified.
-/

namespace RowTyping

open Check Registry Table Ty List

/-! ## Closed environments -/

/-- In a faithful type nothing is hidden. -/
theorem Ty.Faithful.mem_shown {t : Ty} (h : t.Faithful) {x : TyVar} (hx : x ∈ t.occurrences) :
    x ∈ t.shown := by
  induction h with
  | var y => exact hx
  | con _ ih =>
    simp only [occurrences, occurrencesList_eq, mem_flatMap] at hx
    obtain ⟨t, ht, hx⟩ := hx
    exact mem_shown_con.mpr ⟨t, ht, ih t ht hx⟩
  | record _ _ ihf iht =>
    simp only [occurrences, occurrencesFields_eq, mem_append, mem_flatMap] at hx
    rcases hx with ⟨e, he, hx⟩ | hx
    · exact mem_shown_record.mpr (.inl ⟨e, he, ihf e he hx⟩)
    · exact mem_shown_record.mpr (.inr (iht hx))
  | synonym _ _ hshows _ iht =>
    simp only [occurrences, occurrencesList_eq, mem_append, mem_flatMap] at hx
    refine mem_shown_synonym.mpr (iht ?_)
    rcases hx with ⟨p, hp, hx⟩ | hx
    · exact (hshows p hp).mem_occurrences hx
    · exact hx
  | module => simp [occurrences] at hx

/-- The type has no variable that can be solved. -/
def Ty.Settled (t : Ty) : Prop := ∀ v, .flex v ∉ t.occurrences

namespace Registry

variable {r : Registry} {t : Ty}

theorem settled_rebuilds : Rebuilds Settled Settled where
  child h hu v hv := h v (mem_occurrences.mpr (.inr ⟨_, hu, hv⟩))
  con _ _ hus v hv := by
    obtain ⟨u, hu, hv⟩ := (mem_occurrences.mp hv).resolve_left (by simp)
    exact hus u hu v hv
  record hfs htail v hv := by
    obtain ⟨u, hu, hv⟩ := (mem_occurrences.mp hv).resolve_left (by simp)
    rcases mem_children_record.mp hu with ⟨e, he, rfl⟩ | rfl
    · exact hfs e he v hv
    · exact htail v ‹_›
  synonym _ hqs htarget v hv := by
    obtain ⟨u, hu, hv⟩ := (mem_occurrences.mp hv).resolve_left (by simp)
    rcases mem_append.mp hu with hu | hu
    · exact hqs u hu v hv
    · exact htarget v (mem_singleton.mp hu ▸ hv)
  module h := h

/-- Nothing comes into a type without variables to solve. -/
theorem settled_resolveDeepN (h : t.Settled) (n : Nat) : (r.resolveDeepN n t).Settled :=
  Passes.resolveDeepN (fun v _ hv _ => absurd (by simp [occurrences]) (hv v)) settled_rebuilds
    (by simp [Settled, occurrences]) h n

end Registry

/-- No value's scheme shows a variable that can be solved. -/
def Env.Closed (env : Env) : Prop := ∀ e ∈ env.values, ∀ v, .flex v ∉ e.2.body.shown

theorem Env.Closed.freeVars {env : Env} (h : env.Closed)
    (hfaithful : ∀ e ∈ env.values, e.2.body.Faithful) (r : Registry) : env.freeVars r = [] := by
  refine eq_nil_iff_forall_not_mem.mpr fun v hv => ?_
  rw [Env.freeVars, mem_distinct, mem_flatMap] at hv
  obtain ⟨e, he, hv⟩ := hv
  obtain ⟨x, hx, hxv⟩ := mem_filterMap.mp hv
  rw [vars, mem_distinct] at hx
  cases x with
  | gen g => cases hxv
  | flex w =>
    have hsettled : e.2.body.Settled := fun w hw => h e he w ((hfaithful e he).mem_shown hw)
    exact settled_resolveDeepN hsettled _ w hx

/-- A value constructor belongs to a variant, which has the quantifiers of its
scheme for parameters. -/
def Scheme.Nominal (σ : Scheme) : Prop :=
  ∀ c, σ.body.ctor? = some c → ∃ id labels, c.owner = .con (.variant id labels) (σ.vars.map Ty.gen)

/-- A type of values is that of no constructor. -/
theorem Scheme.nominal_of_fits {G : Prop} {H V : TyVar → Role → Prop} {k : Role} {σ : Scheme}
    (h : σ.body.Fits G H V k) : σ.Nominal := by
  intro c hc
  rw [h.ctor?_eq_none] at hc
  cases hc

namespace Stage

variable {G : Prop} {S S' : Stage G} {σ : Scheme} {env : Env} {t : Ty}
  {numbered : List (String × Nat)}

/-- The scheme of a declared value. If `G`, all that it shows is quantified. -/
structure IsDeclared (S : Stage G) (σ : Scheme) : Prop where
  fits : S.FitsScheme σ
  closed : G → ∀ v, .flex v ∉ σ.body.shown
  nominal : σ.Nominal

theorem IsDeclared.mono (h : S.IsDeclared σ) (hle : S ≤ S') : S'.IsDeclared σ :=
  ⟨h.fits.mono hle, h.closed, h.nominal⟩

/-- The environment has only declared values and types. -/
structure DeclaredEnv (S : Stage G) (env : Env) : Prop where
  values : ∀ e ∈ env.values, S.IsDeclared e.2
  types : ∀ e ∈ env.types, S.FitsType e.2

namespace DeclaredEnv

theorem fitsEnv (h : S.DeclaredEnv env) : S.FitsEnv env :=
  ⟨fun e he => (h.values e he).fits, h.types⟩

theorem closed (h : S.DeclaredEnv env) (hG : G) : env.Closed :=
  fun e he => (h.values e he).closed hG

theorem empty (S : Stage G) : S.DeclaredEnv .empty := ⟨by simp [Env.empty], by simp [Env.empty]⟩

theorem mono (h : S.DeclaredEnv env) (hle : S ≤ S') : S'.DeclaredEnv env :=
  ⟨fun e he => (h.values e he).mono hle, fun e he => (h.types e he).mono hle⟩

theorem addValue (h : S.DeclaredEnv env) (x : String) (hσ : S.IsDeclared σ) :
    S.DeclaredEnv (env.addValue x σ) := by
  refine ⟨fun e he => ?_, h.types⟩
  rcases mem_insert he with rfl | he
  · exact hσ
  · exact h.values e he

theorem addType (h : S.DeclaredEnv env) (x : String) (hσ : S.FitsType σ) :
    S.DeclaredEnv (env.addType x σ) := by
  refine ⟨h.values, fun e he => ?_⟩
  rcases mem_insert he with rfl | he
  · exact hσ
  · exact h.types e he

end DeclaredEnv

/-- What a declaration introduces. -/
structure FitsDeclared (S : Stage G) (d : Declared) : Prop where
  values : ∀ v ∈ d.values, S.IsDeclared v.2
  types : ∀ t ∈ d.types, S.FitsType t.2

theorem FitsDeclared.exportTo {d : Declared} {members : Env} (h : S.FitsDeclared d)
    (hmembers : S.DeclaredEnv members) : S.DeclaredEnv (d.exportTo members) := by
  have hvalues : ∀ (vs : List (String × Scheme)) {m : Env}, S.DeclaredEnv m →
      (∀ v ∈ vs, S.IsDeclared v.2) →
        S.DeclaredEnv (vs.foldl (fun m v => m.addValue v.1 v.2) m) := by
    intro vs
    induction vs with
    | nil => exact fun hm _ => hm
    | cons v vs ih =>
      intro m hm hvs
      obtain ⟨hv, hvs⟩ := forall_mem_cons.mp hvs
      exact ih (hm.addValue v.1 hv) hvs
  have htypes : ∀ (ts : List (String × Scheme)) {m : Env}, S.DeclaredEnv m →
      (∀ t ∈ ts, S.FitsType t.2) → S.DeclaredEnv (ts.foldl (fun m t => m.addType t.1 t.2) m) := by
    intro ts
    induction ts with
    | nil => exact fun hm _ => hm
    | cons t ts ih =>
      intro m hm hts
      obtain ⟨ht, hts⟩ := forall_mem_cons.mp hts
      exact ih (hm.addType t.1 ht) hts
  exact htypes _ (hvalues _ hmembers fun v hv => h.values v (mem_filter.mp hv).1) h.types

/-! ## Schemes of declared types -/

theorem Has.hasGen {gens : List Nat} {g : Nat} (hg : S.role.Has (.gen g) .type) (hmem : g ∈ gens) :
    S.role.HasGen gens (.gen g) .type :=
  ⟨hg, g, rfl, fun _ => hmem⟩

/-- A scheme that shows its quantifiers, and other generalized variables only as
rows. -/
theorem isDeclared_of_gens
    (h : σ.body.IsBody fun u => u.Fits G S.role.Has (S.role.HasGen σ.vars) .type)
    (hnominal : σ.Nominal) : S.IsDeclared σ := by
  have hclosed : ∀ v, .flex v ∉ σ.body.shown := by
    intro v hv
    obtain ⟨u, hu, hv⟩ := mem_shown_parts.mp hv
    obtain ⟨k, -, g, hg, -⟩ := (h.parts u hu).role_of_shown hv
    cases hg
  refine ⟨⟨⟨h.size, fun u hu => ?_⟩, fun _ => hclosed⟩, fun _ => hclosed, hnominal⟩
  have hfits := h.parts u hu
  refine hfits.restrict.mono (fun x k hx => ⟨hx.1.1, ?_⟩) (fun _ _ => id) id
  obtain ⟨⟨hk, g, rfl, hg⟩, hshown⟩ := hx
  cases k with
  | type => exact .inl (hg rfl)
  | rest front =>
    have hrow : ¬ S.role.HasGen σ.vars (.gen g) .type := fun h => by cases hk.eq h.1
    rcases hfits.mem_tailOccurrences hshown with rfl | htype | htail
    · exact absurd (Fits.var_iff.mp hfits) hrow
    · exact absurd htype hrow
    · refine .inr ?_
      revert hu
      generalize σ.body = body
      intro hu
      unfold parts at hu
      split at hu
      · rw [tailOccurrences, tailOccurrencesList_eq]
        exact mem_flatMap.mpr ⟨u, hu, htail⟩
      · cases mem_singleton.mp hu
        exact htail

/-- The type of a nominal declaration. -/
theorem fits_nominal {c : Con} (gens : List Nat) (hc : c.IsFormer) (htuple : c ≠ .tuple)
    (hgens : ∀ g ∈ gens, S.role.Has (.gen g) .type) :
    (con c (gens.map gen)).Fits G S.role.Has (S.role.HasGen gens) .type :=
  .con hc (fun h => absurd h htuple)
    (forall_mem_map.mpr fun g hg => .var (Has.hasGen (hgens g hg) hg))

theorem fitsType_nominal {c : Con} (gens : List Nat) (hc : c.IsFormer) (htuple : c ≠ .tuple)
    (hnodup : gens.Nodup) (hgens : ∀ g ∈ gens, S.role.Has (.gen g) .type) :
    S.FitsType ⟨gens, .con c (gens.map gen)⟩ :=
  ⟨hnodup, hgens, by simp, fits_nominal gens hc htuple hgens⟩

/-- A constructor of a declared type. -/
theorem isDeclared_ctor {gens : List Nat} {id : Nat} {labels : List String} {arg : Option Ty}
    (howner : (con (.variant id labels) (gens.map gen)).Fits G S.role.Has
      (S.role.HasGen gens) .type)
    (harg : ∀ t ∈ arg, t.Fits G S.role.Has (S.role.HasGen gens) .type) (name : String) :
    S.IsDeclared ⟨gens, .ctor name (.con (.variant id labels) (gens.map gen)) arg⟩ := by
  refine isDeclared_of_gens ⟨?_, ?_⟩ fun c hc => ?_
  · cases arg <;> simp [ctor, parts]
  · exact forall_mem_cons.mpr ⟨howner, fun t ht => harg t (Option.mem_toList.mp ht)⟩
  · cases hc
    exact ⟨id, labels, rfl⟩

/-! ## Type declarations -/

/-- The parameters of a type declaration. -/
structure Numbers (S : Stage G) (numbered : List (String × Nat)) : Prop where
  nodup : (numbered.map (·.2)).Nodup
  role : ∀ g ∈ numbered.map (·.2), S.role.Has (.gen g) .type

/-- The types that the parameters stand for. -/
def paramTypes (numbered : List (String × Nat)) : List (String × Ty) :=
  numbered.map fun e => (e.1, Ty.gen e.2)

theorem Numbers.mono (h : S.Numbers numbered) (hle : S ≤ S') : S'.Numbers numbered :=
  ⟨h.nodup, fun g hg => hle.role (h.role g hg)⟩

theorem mem_ofParams {e : String × Ty} (he : e ∈ ofList (paramTypes numbered)) :
    ∃ g ∈ numbered.map (·.2), e.2 = .gen g := by
  obtain ⟨d, hd, rfl⟩ := mem_map.mp (mem_ofList he)
  exact ⟨d.2, mem_map_of_mem hd, rfl⟩

theorem map_snd_paramTypes (numbered : List (String × Nat)) :
    (paramTypes numbered).map (·.2) = (numbered.map (·.2)).map gen := by
  simp [paramTypes, Function.comp_def]

/-- A written type under the parameters of a declaration. -/
theorem leads_denoteDeclared (henv : S.DeclaredEnv env) (hnum : S.Numbers numbered) (span : Span)
    (e : TypeExpr) :
    Leads At S (located span (e.denote env (.ofParams (paramTypes numbered)))) fun S' t =>
      t.Fits G S'.role.Has (S'.role.HasGen (numbered.map (·.2))) .type ∧
        ∀ x, t = .var x → e.IsLabel := by
  have hscope : S.FitsScope (.ofParams (paramTypes numbered)) := by
    intro d hd
    obtain ⟨g, hg, heq⟩ := mem_ofParams hd
    exact ⟨g, heq, hnum.role g hg⟩
  refine leads_located ((TypeExpr.leads_denote henv.types hscope e).imp fun S' t hle ht => ?_) span
  obtain ⟨q, rfl, hq, ht⟩ := ht
  refine ⟨?_, ht.solid⟩
  have hfits := ht.fits
  cases hqs : q.scope with
  | flexible labels =>
    rw [hqs] at hq
    exact absurd hq id
  | fixed params =>
    rw [hqs] at hq
    cases hq
    rw [hqs] at hfits
    refine Ty.Fits.mono hfits (fun x k hx => ?_) (fun _ _ => id) id
    obtain ⟨hk, g, rfl, hg⟩ := hx
    refine ⟨hk, g, rfl, fun htype => ?_⟩
    obtain ⟨d, hd, hdg⟩ := mem_filterMap.mp (hg htype)
    obtain ⟨g', hg', heq⟩ := mem_ofParams hd
    rw [heq] at hdg
    cases hdg
    exact hg'

theorem leads_declareCases {i : Nat} {labels : List String} (span : Span)
    (cases : List (String × Option TypeExpr)) (henv : S.DeclaredEnv env) (hnum : S.Numbers numbered)
    (howner : (con (.variant i labels) ((numbered.map (·.2)).map gen)).Fits G S.role.Has
      (S.role.HasGen (numbered.map (·.2))) .type) :
    Leads At S (declareCases span (.ofParams (paramTypes numbered)) (numbered.map (·.2))
        (.con (.variant i labels) ((numbered.map (·.2)).map gen)) cases env)
          fun S' r => S'.DeclaredEnv r.1 ∧ ∀ v ∈ r.2, S'.IsDeclared v.2 := by
  have hmono : ∀ {S S' : Stage G} {u : Ty}, S ≤ S' →
      u.Fits G S.role.Has (S.role.HasGen (numbered.map (·.2))) .type →
        u.Fits G S'.role.Has (S'.role.HasGen (numbered.map (·.2))) .type :=
    fun hle hu => hu.mono (fun _ _ hx => ⟨hle.role hx.1, hx.2⟩) (fun _ _ => hle.role) id
  induction cases generalizing env S with
  | nil => exact leads_pure ⟨henv, by simp⟩
  | cons c cases ih =>
    have harg : Leads At S (caseArg env span (.ofParams (paramTypes numbered)) c.2) fun S' arg =>
        ∀ t ∈ arg, t.Fits G S'.role.Has (S'.role.HasGen (numbered.map (·.2))) .type := by
      cases c.2 with
      | none => exact leads_pure (by simp)
      | some e =>
        refine (leads_denoteDeclared henv hnum span e).bind fun S₁ t _ ht => leads_pure ?_
        simpa using ht.1
    refine harg.bind fun S₁ arg hle₁ harg => ?_
    have hs := isDeclared_ctor (hmono hle₁ howner) harg c.1
    refine (ih ((henv.mono hle₁).addValue c.1 hs) (hnum.mono hle₁) (hmono hle₁ howner)).bind
      fun S₂ r hle₂ hr => leads_pure ⟨hr.1, ?_⟩
    exact forall_mem_cons.mpr ⟨hs.mono hle₂, hr.2⟩

theorem leads_declareType (henv : S.DeclaredEnv env) (span : Span) (name : String)
    (params : List String) {definition : TypeDef}
    (hdef : ∀ target, definition = .synonym target → G → ¬ target.IsLabel) :
    Leads At S (declareType env span name params definition) fun S' r =>
      S'.DeclaredEnv r.1 ∧ S'.FitsDeclared r.2 := by
  refine leads_freshType.bind fun S₁ id hle₁ _ => (leads_freshGens (fun _ => .type) params).bind
    fun S₂ numbered hle₂ hnumbered => ?_
  obtain ⟨-, hnodup, hrole⟩ := hnumbered
  have hnum : S₂.Numbers numbered := ⟨hnodup, forall_mem_map.mpr fun e he => (hrole e he).1⟩
  have henv := henv.mono (hle₁.trans hle₂)
  -- a type name without values
  have htype : ∀ {S' : Stage G} {s : Scheme}, S₂ ≤ S' → S'.FitsType s →
      Leads At S' (do
        emit (.typeDeclared name (Declared.mk [] [(name, s)]).values.length)
        return (env.addType name s, Declared.mk [] [(name, s)]) : Check Located _)
        fun S' r => S'.DeclaredEnv r.1 ∧ S'.FitsDeclared r.2 := by
    intro S' s hle hs
    exact leads_emit_bind (leads_pure ⟨(henv.mono hle).addType name hs, by simp,
      forall_mem_singleton.mpr hs⟩)
  cases definition with
  | variant cases =>
    have howner : variant id (paramTypes numbered) = .con
        (.variant id ((paramTypes numbered).map (·.1))) ((numbered.map (·.2)).map gen) := by
      rw [variant, map_snd_paramTypes]
    have hs : S₂.FitsType ⟨numbered.map (·.2), .con
        (.variant id ((paramTypes numbered).map (·.1))) ((numbered.map (·.2)).map gen)⟩ :=
      fitsType_nominal _ (by simp [Con.IsFormer]) (by simp) hnum.nodup hnum.role
    dsimp only
    rw [show (numbered.map fun e => (e.1, gen e.2)) = paramTypes numbered from rfl, howner]
    refine (leads_declareCases span cases (henv.addType name hs) hnum hs.body).bind
      fun S₃ r hle₃ hr => ?_
    obtain ⟨env', values⟩ := r
    exact leads_emit_bind (leads_pure ⟨hr.1, hr.2, forall_mem_singleton.mpr (hs.mono hle₃)⟩)
  | synonym target =>
    refine (leads_denoteDeclared henv hnum span target).bind fun S₃ t hle₃ ht => ?_
    refine htype hle₃ ⟨hnum.nodup, (hnum.mono hle₃).role, by simp [synonymOf], ?_⟩
    refine .synonym ?_ ht.1 fun hG x hx => hdef target rfl hG (ht.2 x hx)
    rw [show (numbered.map fun e => (e.1, gen e.2)) = paramTypes numbered from rfl,
      map_snd_paramTypes]
    exact forall_mem_map.mpr fun g hg => .var ((hnum.mono hle₃).role g hg)
  | abstract =>
    dsimp only
    refine htype le_rfl ?_
    rw [abstract, show (numbered.map fun e => (e.1, gen e.2)) = paramTypes numbered from rfl,
      map_snd_paramTypes]
    exact fitsType_nominal _ (by simp [Con.IsFormer]) (by simp) hnum.nodup hnum.role

/-! ## Declarations -/

/-- The state is at the stage, and sound if `G`. -/
def SoundAt (S : Stage G) (s : State) : Prop := S.At s ∧ (G → s.Sound)

/-- What is kept along sound states is known at the stage that is reached. -/
theorem leads_keeping {ε α : Type} {A : Stage G → State → Prop} {x : Check ε α}
    {Q : Stage G → α → Prop} {R : Nat → α → Prop} (hA : ∀ S s, S.SoundAt s → A S s)
    (hAt : ∀ S s, A S s → S.At s) (hx : Leads A S x Q)
    (hk : G → Keeps checking S.registry.nextGen x R) :
    Leads SoundAt S x fun S' a => Q S' a ∧ (G → R S'.registry.nextGen a) := by
  intro s hs
  obtain ⟨S', hle, hat, hyield⟩ := hx s (hA S s hs)
  have hkeeps : G → _ := fun hG => hk hG s (hs.2 hG) (congrArg nextGen hs.1).ge
  refine ⟨S', hle, ⟨hAt S' _ hat, fun hG => (hkeeps hG).1⟩, fun a s' hrun => ?_⟩
  refine ⟨hyield a s' hrun, fun hG => ?_⟩
  have hreg := hAt S' _ hat
  rw [after_ok hrun] at hreg
  have hR := (hkeeps hG).2.2 a s' hrun
  rwa [show checking.count s' = S'.registry.nextGen from congrArg nextGen hreg] at hR

theorem leads_soundAt {ε α : Type} {x : Check ε α} {Q : Stage G → α → Prop} {R : Nat → α → Prop}
    (hx : Leads At S x Q) (hk : G → Keeps checking S.registry.nextGen x R) :
    Leads SoundAt S x fun S' a => Q S' a ∧ (G → R S'.registry.nextGen a) :=
  leads_keeping (fun _ _ h => h.1) (fun _ _ h => h) hx hk

theorem Quantifies.closed_of_closed {close : Nat → Option Nat}
    (hq : S.Quantifies S' (env.freeVars S.registry) t σ close) (henv : env.Closed)
    (hfaithful : ∀ e ∈ env.values, e.2.body.Faithful) (v : Nat) : .flex v ∉ σ.body.shown := by
  rw [hq.body]
  intro hv
  obtain ⟨x, hx, hxv⟩ := mem_shown_subst.mp hv
  cases x with
  | gen g => cases mem_shown_var.mp hxv
  | flex w =>
    have hclosed := hq.closed hx (by simp [henv.freeVars hfaithful])
    obtain ⟨g, hg⟩ := Option.ne_none_iff_exists'.mp hclosed
    rw [closing, fill, hg] at hxv
    cases mem_shown_var.mp hxv

/-- The scheme of a value that is declared at the top. -/
theorem Quantifies.isDeclared {S₀ : Stage G} {close : Nat → Option Nat}
    (hq : S.Quantifies S' (env.freeVars S.registry) t σ close) (hle : S ≤ S')
    (ht : S.Fits .type t) (henv : S₀.DeclaredEnv env)
    (hsound : G → env.Sound S₀.registry.nextGen) : S'.IsDeclared σ :=
  ⟨hq.fitsScheme hle ht, fun hG => hq.closed_of_closed (henv.closed hG) (hsound hG).values,
    Scheme.nominal_of_fits (hq.fits_body hle ht)⟩

end Stage

theorem Expr.leads_infer {G : Prop} {S : Stage G} {env : Env} (e : Expr) (henv : S.FitsEnv env) :
    Leads Stage.At S (e.infer env) fun S' t =>
      ∃ u, S'.Types env e u ∧ t = S'.registry.resolveDeep u := by
  exact (e.leads_inferHead henv).bind fun S' u _ hu =>
    Stage.leads_registry_bind (leads_pure ⟨u, hu, rfl⟩)

namespace Decl

mutual

/-- No synonym that is declared, also in modules, is just a name for one of its
parameters. -/
def Solid : Decl → Prop
  | .type _ _ _ (.synonym target) => ¬ target.IsLabel
  | .module _ _ decls => SolidList decls
  | _ => True

def SolidList : List Decl → Prop
  | [] => True
  | d :: ds => Solid d ∧ SolidList ds

end

open Stage

variable {G : Prop}

mutual

theorem leads_check : ∀ (d : Decl) {S : Stage G} {env : Env}, S.DeclaredEnv env →
    (G → env.Sound S.registry.nextGen) → (G → d.UsesParams ∧ d.Solid) →
      Leads SoundAt S (d.check env) fun S' r => S'.DeclaredEnv r.1 ∧ S'.FitsDeclared r.2
  | .value span name isRec ann body, S, env, henv, hsound, htidy => by
    refine (leads_soundAt ?_
      fun hG => keeps_check _ (hsound hG) (htidy hG).1).imp fun _ _ _ h => h.1
    rw [check]
    refine (leads_inferBinding henv.fitsEnv span name isRec ann fun henv =>
      body.leads_inferHead henv).bind fun S₁ σ hle hσ => leads_pure ?_
    obtain ⟨S₀, t, close, hle₀, ht, hq⟩ := hσ.quantifies
    have hdeclared := hq.isDeclared hle₀ ht henv hsound
    exact ⟨(henv.mono hle).addValue name hdeclared, forall_mem_singleton.mpr hdeclared, by simp⟩
  | .type span name params definition, S, env, henv, hsound, htidy => by
    refine (leads_soundAt ?_
      fun hG => keeps_check _ (hsound hG) (htidy hG).1).imp fun _ _ _ h => h.1
    rw [check]
    refine leads_declareType henv span name params fun target heq hG => ?_
    subst heq
    exact (htidy hG).2
  | .module span name decls, S, env, henv, hsound, htidy => by
    rw [check]
    refine (leads_checkMembers decls henv hsound (.empty S) htidy).bind fun S₁ members hle hm =>
      leads_pure ?_
    have hmodule : S₁.Fits .type (.module name members) := by
      refine .module (fun e he => ?_) (fun e he => ?_) (fun e he => ?_) hm.closed
      · exact (hm.values e he).fits.body.size
      · exact (hm.values e he).fits.body.parts
      · exact (hm.types e he).body.mono (fun _ _ hx => hx.1) (fun _ _ => id) id
    have hdeclared : S₁.IsDeclared (.mono (.module name members)) :=
      ⟨fitsScheme_mono hmodule, fun _ _ => mem_shown_module, Scheme.nominal_of_fits hmodule⟩
    exact ⟨(henv.mono hle).addValue name hdeclared, forall_mem_singleton.mpr hdeclared, by simp⟩
  | .expr span body, S, env, henv, hsound, htidy => by
    refine (leads_soundAt ?_
      fun hG => keeps_check _ (hsound hG) (htidy hG).1).imp fun _ _ _ h => h.1
    rw [check]
    refine (body.leads_infer henv.fitsEnv).bind fun S₁ t hle ht => ?_
    obtain ⟨u, hu, rfl⟩ := ht
    refine (leads_quantified env _).bind fun S₂ σ hle' hσ => leads_pure ?_
    obtain ⟨S₀, close, hle₀, hle₀', hq, -⟩ := hσ
    have hdeclared := hq.isDeclared hle₀' (hu.fits.resolveDeep.mono hle₀) henv hsound
    exact ⟨henv.mono (hle.trans hle'), forall_mem_singleton.mpr hdeclared, by simp⟩

theorem leads_checkMembers : ∀ (ds : List Decl) {S : Stage G} {env members : Env},
    S.DeclaredEnv env → (G → env.Sound S.registry.nextGen) → S.DeclaredEnv members →
      (G → UsesParamsList ds ∧ SolidList ds) →
      Leads SoundAt S (checkMembers env members ds) fun S' members => S'.DeclaredEnv members
  | [], S, env, members, henv, hsound, hmembers, _ => by
    rw [checkMembers]
    exact leads_pure hmembers
  | d :: ds, S, env, members, henv, hsound, hmembers, htidy => by
    rw [checkMembers]
    have hd := leads_check d henv hsound fun hG => ⟨(htidy hG).1.1, (htidy hG).2.1⟩
    refine (leads_keeping (fun _ _ h => h) (fun _ _ h => h.1) hd fun hG =>
      d.keeps_check (hsound hG) (htidy hG).1.1).bind fun S₁ r hle hr => ?_
    obtain ⟨env', declared⟩ := r
    obtain ⟨⟨henv', hdeclared⟩, hkept⟩ := hr
    exact leads_checkMembers ds henv' (fun hG => (hkept hG).1)
      (hdeclared.exportTo (hmembers.mono hle)) fun hG => ⟨(htidy hG).1.2, (htidy hG).2.2⟩

end

end Decl

/-! ## Programs -/

namespace Stage

variable {G : Prop} {S S' : Stage G} {env : Env} {s : State} {σ : Scheme}

/-- The stage at which generalized variables for types and identities are issued, and
nothing else. -/
def opening (gens ids : Nat) : Stage G where
  role
    | .gen g => if g < gens then some .type else none
    | .flex _ => none
  registry := { nextGen := gens, nextType := ids }
  issued h := by cases h
  issuedGen {g k} h := by
    by_contra hlt
    simp [Roles.Has, hlt] at h
  fits h := by simp [Registry.binding?] at h
  acyclic := Registry.acyclic_of_scoped fun v t hv => by
    simp [Registry.binding?, Registry.bare] at hv

/-- What the stage knows between two declarations. -/
structure Describes (S : Stage G) (env : Env) (s : State) : Prop where
  state : S.SoundAt s
  declared : S.DeclaredEnv env
  sound : G → env.Sound S.registry.nextGen

/-- A declaration leads from one description to a later one, also where it
fails. -/
theorem Describes.check (h : S.Describes env s) {d : Decl} (htidy : G → d.UsesParams ∧ d.Solid) :
    ∃ S', S ≤ S' ∧ S'.Describes env (after (d.check env) s) ∧
      ∀ r s', (d.check env).run s = .ok r s' → S'.Describes r.1 s' := by
  obtain ⟨S', hle, hat, hyield⟩ := leads_keeping (fun _ _ h => h) (fun _ _ h => h.1)
    (d.leads_check h.declared h.sound htidy) (fun hG => d.keeps_check (h.sound hG) (htidy hG).1) s
      h.state
  refine ⟨S', hle, ⟨hat, h.declared.mono hle, fun hG => (h.sound hG).mono hle.nextGen⟩, ?_⟩
  intro r s' hrun
  obtain ⟨⟨henv, -⟩, hkept⟩ := hyield r s' hrun
  rw [after_ok hrun] at hat
  exact ⟨hat, henv, fun hG => (hkept hG).1⟩

theorem Describes.emit (h : S.Describes env s) {e : Event} (he : ∀ v t, e ≠ .bind v t) :
    S.Describes env (s.emit e) :=
  ⟨⟨h.state.1, fun hG => (h.state.2 hG).push he⟩, h.declared, h.sound⟩

theorem Describes.emitValues (h : S.Describes env s) (vs : List (String × Scheme)) :
    S.Describes env (vs.foldl (fun s v => s.emit (.valueDeclared v.1 v.2.body)) s) := by
  induction vs generalizing s with
  | nil => exact h
  | cons v vs ih => exact ih (h.emit (by simp))

theorem Describes.checkDecls (ds : List Decl) (report : Report) (h : S.Describes report.env s)
    (htidy : G → ∀ d ∈ ds, d.UsesParams ∧ d.Solid) :
    ∃ S', S ≤ S' ∧ S'.Describes (checkDecls ds report s).1.env (checkDecls ds report s).2 := by
  induction ds generalizing report s S with
  | nil => exact ⟨S, le_rfl, h⟩
  | cons d ds ih =>
    have htidy' : G → ∀ d ∈ ds, d.UsesParams ∧ d.Solid :=
      fun hG d hd => htidy hG d (mem_cons_of_mem _ hd)
    obtain ⟨S₁, hle, hfailed, hyield⟩ := h.check fun hG => htidy hG d mem_cons_self
    rw [RowTyping.checkDecls]
    cases hrun : (d.check report.env).run s with
    | ok r s' =>
      obtain ⟨S₂, hle', h₂⟩ := ih
        { report with env := r.1, declared := report.declared ++ r.2.values }
        ((hyield r s' hrun).emitValues r.2.values) htidy'
      exact ⟨S₂, hle.trans hle', h₂⟩
    | error e s' =>
      rw [after_error hrun] at hfailed
      obtain ⟨S₂, hle', h₂⟩ := ih { report with errors := report.errors ++ [e] }
        (hfailed.emit (e := .rejected e.error) (by simp)) htidy'
      exact ⟨S₂, hle.trans hle', h₂⟩

theorem Describes.checkProgram (ds : List Decl) (h : S.Describes env s)
    (htidy : G → ∀ d ∈ ds, d.UsesParams ∧ d.Solid) :
    ∃ S', S ≤ S' ∧ S'.Describes (checkProgram env ds s).1.env (checkProgram env ds s).2 := by
  obtain ⟨S₁, hle, h₁⟩ := Describes.checkDecls ds { env } h htidy
  have hreg := h₁.state.1
  refine ⟨S₁.rebase _ (fun v => binding?_assignNames S₁.registry v) (by simp) le_rfl,
    hle.trans (S₁.le_rebase _ _ _), ⟨?_, fun hG => ((h₁.state.2 hG).assignNames)⟩,
    h₁.declared.mono (S₁.le_rebase _ _ _), h₁.sound⟩
  exact congrArg assignNames hreg

theorem declaredEnv_elementary {gens ids : Nat} (h : env.Elementary gens ids) :
    (opening gens ids : Stage G).DeclaredEnv env := by
  have hrole : ∀ g < gens, (opening gens ids : Stage G).role.Has (.gen g) .type :=
    fun g hg => if_pos hg
  have hformer : ∀ {c : Con}, c.isElementary ids = true → c.IsFormer := by
    intro c hc
    cases c <;> simp_all [Con.isElementary, Con.IsFormer]
  refine ⟨fun e he => ?_, fun e he => ?_⟩
  · obtain ⟨hvars, hbody, hnominal⟩ := h.value he
    refine isDeclared_of_gens (hbody.imp fun u hu => ?_) hnominal
    refine elementary_induct (fun g hg => .var (Has.hasGen (hrole g (hvars g hg)) hg))
      (fun c args hc htuple => .con (hformer hc) fun heq => ?_) hu
    rintro rfl
    simpa using htuple heq
  · obtain ⟨c, vars, heq, hc, htuple, hnodup, hvars⟩ := h.type he
    rw [heq]
    exact fitsType_nominal vars (hformer hc) htuple hnodup fun g hg => hrole g (hvars g hg)

/-- A program starts at a stage. -/
theorem describes_start (h : Start env s) : ∃ S : Stage G, S.Describes env s := by
  obtain ⟨hs, henv⟩ := h.sound
  obtain ⟨gens, ids, rfl, helementary⟩ := h.elementary
  exact ⟨opening gens ids, ⟨rfl, fun _ => hs⟩, declaredEnv_elementary helementary, fun _ => henv⟩

end Stage

end RowTyping
