import RowTyping.Proofs.Destructuring
import RowTyping.Proofs.Exports

/-!
# Principal types

Inference is complete: whatever type the declarative system gives an expression,
inference succeeds, and that type is an instance of the one it finds. This holds
for the core language in closed environments, and for the whole language in the
environments that programs build. There the synonyms of the program have to use
their parameters and must not be mere names for them, and members are taken of
modules only by names that are not bound on the way.
-/

namespace RowTyping

open Check List Function Option

namespace Point

variable {κ : Nat → Role} {p q : Point κ} {T : Prop} {ok : String → Prop} {env Γ : Env}
  {σ σ' : Scheme}
  {r s t : Ty} {x : String} {ann : Option TypeExpr}

/-! ## Bindings -/

theorem finds_paramType (h : p.Realizes T ok env Γ) (span : Span) (hT : ann = none ∨ T)
    (hs : s.IsMono κ) (hann : ∀ e ∈ ann, e.Annotates κ Γ s) :
    Finds At p (paramType env span ann) fun q t => q.Value t s := by
  cases ann with
  | none => exact finds_freshValue hs
  | some e =>
    have hT := hT.resolve_left (by simp)
    exact TypeExpr.finds_annotated (h.types hT) (h.types_eq hT) (hann e rfl) span

/-- A type that meets its annotation is quantified. -/
theorem finds_quantified (h : p.Realizes T ok env Γ) (span : Span) (ht : p.Value t s)
    (hT : ann = none ∨ T) (hann : ∀ e ∈ ann, e.Annotates κ Γ s) (hσ' : Generalizes Γ s σ') :
    Finds At p (do
      match ann with
      | some e => do unifyAt span t (← e.annotated env span)
      | none => pure ()
      generalizeIn env t) fun q σ => σ.body.ctor? = none ∧ q.CoversScheme σ σ' := by
  cases ann with
  | none => exact finds_generalizeIn h.knows ht hσ'
  | some e =>
    have hT := hT.resolve_left (by simp)
    refine (TypeExpr.finds_annotated (h.types hT) (h.types_eq hT) (hann e rfl) span).bind
      fun p₁ u hle₁ hu => (finds_unifyAt span (ht.mono hle₁) hu).bind fun p₂ _ hle₂ _ => ?_
    have hle := hle₁.trans hle₂
    exact finds_generalizeIn (h.mono hle).knows (ht.mono hle) hσ'

theorem finds_binding (h : p.Realizes T ok env Γ) (span : Span) (x : String) (isRec : Bool)
    {value : Env → Check Located Ty} (hT : ann = none ∨ T) (hs : s.IsMono κ)
    (hann : ∀ e ∈ ann, e.Annotates κ Γ s) (hσ' : Generalizes Γ s σ')
    (hvalue : ∀ (q : Point κ) (env' : Env),
      q.Realizes T (fun y => ok y ∧ (isRec = true → y ≠ x)) env'
        (if isRec then Γ.addValue x (.mono s) else Γ) →
      Finds At q (value env') fun q' t => q'.Value t s) :
    Finds At p (inferBinding env span x isRec ann value) fun q σ =>
      σ.body.ctor? = none ∧ q.CoversScheme σ σ' := by
  unfold inferBinding
  cases isRec with
  | false =>
    refine (hvalue p env (h.imp fun _ hy => hy.1)).bind fun q t hle ht => ?_
    exact finds_quantified (h.mono hle) span ht hT hann hσ'
  | true =>
    refine (finds_freshValue hs).bind fun p₁ self hle₁ hself => ?_
    have hself' : p₁.Value self s.norm := by rwa [hs.normal]
    refine (hvalue p₁ _ (((h.mono hle₁).addMono x hself').imp fun y hy => ⟨hy.1, hy.2 rfl⟩)).bind
      fun p₂ t hle₂ ht => (finds_unifyAt span ht (hself.mono hle₂)).bind fun p₃ _ hle₃ _ => ?_
    exact finds_quantified (h.mono (hle₁.trans (hle₂.trans hle₃))) span (ht.mono hle₃) hT hann hσ'

/-! ## Members of modules -/

theorem finds_inferPath (h : p.Realizes T ok env Γ) (span : Span) {m name : String}
    {vars : List Nat}
    {members : Env} (hok : ok m) (hm : Γ.value? m = some ⟨vars, .module name members⟩)
    (hx : members.value? x = some σ) (hs : σ.Instance κ s) :
    Finds At p (inferPath env span m x) fun q t => q.Value t s.asValue := by
  obtain ⟨hm, hmembers⟩ := h.members hok hm
  -- nothing in a module is opened, so any values do for the variables of its scheme
  refine finds_find_bind hm span ((finds_instantiate _ (fun _ => .type) .var).bind
    fun p₁ t hle₁ ht => finds_registry_bind ?_)
  obtain ⟨f, -, rfl⟩ := ht
  rw [Ty.subst, Registry.resolve_module]
  refine finds_find_bind hx span (((hmembers x σ hx).uses p₁ hle₁ s hs).bind fun p₂ t _ ht => ?_)
  exact finds_pure ht.value_asValue

end Point

/-! ## Instances of constructors -/

namespace Scheme

variable {κ : Nat → Role} {σ : Scheme} {name : String} {owner s : Ty} {arg : Option Ty}

/-- The parts of an instance come from those of the constructor. -/
theorem Instance.ctor? {c : Ctor} (h : σ.Instance κ s) (hc : σ.body.ctor? = some c) :
    ∃ f, s.ctor? = some ⟨c.name, (c.owner.subst (Ty.fillGens f)).norm,
      c.arg.map fun u => (u.subst (Ty.fillGens f)).norm⟩ := by
  obtain ⟨f, -, rfl⟩ := h
  obtain ⟨rest, hbody, harg⟩ := Ty.eq_ctor hc
  refine ⟨f, ?_⟩
  rw [Ty.norm_subst, hbody, Ty.subst, harg]
  cases rest <;> rfl

/-- A declared constructor belongs to a variant, and the parameters of the variant
determine the instance. -/
theorem Nominal.instance_eq {c : Ctor} (hn : σ.Nominal) (hc : σ.body.ctor? = some c)
    (h : σ.Instance κ (.ctor name owner arg)) : ∃ id f,
      owner = .con (.variant id []) (σ.vars.map fun g => Ty.norm (f g)) ∧
      arg = c.arg.map fun u => (u.subst (Ty.fillGens f)).norm := by
  obtain ⟨id, labels, howner⟩ := hn c hc
  obtain ⟨f, hf⟩ := h.ctor? hc
  rw [Ty.ctor?_ctor, howner, Ty.subst, Ty.norm_con (by simp)] at hf
  obtain ⟨-, howner, harg⟩ := Ctor.mk.inj (some.inj hf)
  refine ⟨id, f, howner.trans ?_, harg⟩
  simp [Con.plain, Ty.subst, Ty.fillGens, comp_def]

theorem Nominal.owner_ne_arrow (hn : σ.Nominal) (hc : σ.body.ctor?.isSome) {a r : Ty} :
    ¬ σ.Instance κ (.ctor name (.arrow a r) arg) := by
  obtain ⟨c, hc⟩ := isSome_iff_exists.mp hc
  intro h
  obtain ⟨id, f, howner, -⟩ := hn.instance_eq hc h
  cases howner

end Scheme

/-! ## Applied constructors -/

namespace Point

variable {κ : Nat → Role} {p : Point κ} {T : Prop} {ok : String → Prop} {env Γ : Env} {σ : Scheme}
  {r s t : Ty} {x : String}

/-- A use of a constructor is one, also in its value. -/
theorem Use.exists_ctor (h : p.Use σ t s) (hctor : σ.body.ctor?.isSome) :
    ∃ name owner arg, s = .ctor name owner arg := by
  obtain ⟨f, rfl⟩ := h.form
  obtain ⟨d, hd⟩ := isSome_iff_exists.mp hctor
  obtain ⟨heq, -⟩ := h.body.ctor? (Ty.ctor?_subst f hd)
  have hvalue := h.value
  rw [heq, Point.value, Ty.value_ctor] at hvalue
  exact ⟨_, _, _, hvalue.symm⟩

theorem Realizes.constructor (h : p.Realizes T ok env Γ) (hx : env.value? x = some σ)
    (hctor : σ.body.ctor?.isSome) :
    Γ.value? x = some σ ∧ p.CoversScheme σ σ ∧ σ.Nominal := by
  obtain ⟨σ', hx', hcovers, hsame⟩ := h.bound x σ hx
  obtain ⟨rfl, hnominal⟩ := hsame hctor
  exact ⟨hx', hcovers, hnominal⟩

/-- A constructor that is a function builds its result out of what it is applied to. -/
theorem finds_call (h : p.CoversScheme σ σ) (hnominal : σ.Nominal)
    (hctor : σ.body.ctor?.isSome) (hs : σ.Instance κ t) (ht : t.asValue = .arrow s r) :
    Finds At p (do return (← instantiate σ).ctor? : Check Located (Option Ctor)) fun q c =>
      ∃ c', c = some c' ∧ q.Builds c' r (some s) := by
  refine (h.uses p le_rfl t hs).bind fun q u _ hu => ?_
  obtain ⟨name, owner, arg, rfl⟩ := hu.exists_ctor hctor
  obtain ⟨c, hc, hbuilds⟩ := hu.builds
  cases arg with
  | none =>
    cases ht
    exact absurd hs (hnominal.owner_ne_arrow hctor)
  | some a =>
    cases ht
    exact finds_pure ⟨c, hc, hbuilds⟩

/-- The expression is a function, or names a constructor that takes an argument. -/
def Applicable (κ : Nat → Role) (Γ : Env) (func : Expr) (s r : Ty) : Prop :=
  HasType κ Γ func.tidy (.arrow s r) ∨ ∃ span c σ name, func = .construct span c none ∧
    Γ.value? c = some σ ∧ σ.Instance κ (.ctor name r (some s))

/-- The scheme of what is applied, if it is that of a constructor, has an instance
that takes the argument. -/
theorem Applicable.exists_instance {func : Expr} (hfunc : Applicable κ Γ func s r)
    (h : p.Realizes T ok env Γ) (hσ : env.applied? func = some σ) (hctor : σ.body.ctor?.isSome) :
    p.CoversScheme σ σ ∧ σ.Nominal ∧ ∃ t, σ.Instance κ t ∧ t.asValue = .arrow s r := by
  unfold Env.applied? at hσ
  split at hσ
  · obtain ⟨hx, hcovers, hnominal⟩ := h.constructor hσ hctor
    rcases hfunc with hfunc | ⟨span, c, σ', name, hfunc, -⟩
    · generalize Ty.arrow s r = u at hfunc
      cases hfunc with
      | @var _ _ _ _ t hx' ht =>
        rw [hx] at hx'
        cases hx'
        exact ⟨hcovers, hnominal, t, ht, rfl⟩
    · cases hfunc
  · obtain ⟨hx, hcovers, hnominal⟩ := h.constructor hσ hctor
    rcases hfunc with hfunc | ⟨span, c, σ', name, hfunc, hx', ht⟩
    · cases hfunc with
      | constant hx' ht =>
        rw [hx] at hx'
        cases hx'
        exact absurd ht (hnominal.owner_ne_arrow hctor)
    · cases hfunc
      rw [hx] at hx'
      cases hx'
      exact ⟨hcovers, hnominal, _, ht, by simp only [Ty.asValue, Ty.ctor?_ctor]⟩
  · cases hσ

/-- What is applied is a constructor that takes the argument, unless it has the type
of a function. -/
theorem finds_callee (h : p.Realizes T ok env Γ) {func : Expr} (hfunc : Applicable κ Γ func s r) :
    Finds At p (env.callee func) fun q c =>
      (∃ c', c = some c' ∧ q.Builds c' r (some s)) ∨ c = none ∧ HasType κ Γ
        func.tidy (.arrow s r) := by
  unfold Env.callee
  split
  · next σ hσ =>
    obtain ⟨hσ, hctor⟩ := filter_eq_some_iff.mp hσ
    obtain ⟨hcovers, hnominal, t, ht, hr⟩ := hfunc.exists_instance h hσ hctor
    exact (finds_call hcovers hnominal hctor ht hr).imp fun _ _ _ hc => .inl hc
  · next hnone =>
    rcases hfunc with hfunc | ⟨span, c, σ', name, rfl, hx, ht⟩
    · exact finds_pure (.inr ⟨rfl, hfunc⟩)
    · obtain ⟨σ, hσ, hcovers, -⟩ := h.value? hx
      intro st hst
      obtain ⟨u, _, q, _, _, _, hu⟩ := hcovers.uses p le_rfl _ ht st hst
      obtain ⟨c', hc', -⟩ := hu.builds
      have hctor := hu.ctor (by rw [hc']; rfl)
      exact absurd hctor (by simpa using filter_eq_none_iff.mp hnone σ hσ)

end Point

/-! ## The whole language -/

namespace Expr

open Point

variable {κ : Nat → Role} {T : Prop}

theorem eq_construct_of_tidy {e : Expr} {span : Span} {c : String}
    (h : e.tidy = .construct span c none) : e = .construct span c none := by
  cases e with
  | construct span' c' arg =>
    cases arg with
    | none => exact h
    | some arg => cases h
  | _ => cases h

mutual

/-- Inference finds whatever type an expression has. -/
theorem finds_type : ∀ (e : Expr) {p : Point κ} {ok : String → Prop} {env Γ : Env} {s : Ty},
    e.Core ∨ T ∧ e.Paths ok → HasType κ Γ e.tidy s → p.Realizes T ok env Γ →
      Finds At p (e.inferHead env) fun q t => q.Value t s
  | .lit span b, p, ok, env, Γ, s, _, htype, _ => by
    rw [inferHead]
    cases htype with
    | lit => exact finds_pure (.base p b)
  | .var span x, p, ok, env, Γ, s, _, htype, h => by
    rw [inferHead]
    cases htype with
    | var hx hs =>
      obtain ⟨σ, hσ, hcovers, -⟩ := h.value? hx
      refine finds_find_bind hσ span ((hcovers.uses p le_rfl _ hs).bind fun q t _ ht => ?_)
      exact finds_pure ht.value_asValue
  | .path span m x, p, ok, env, Γ, s, hok, htype, h => by
    rw [inferHead]
    cases htype with
    | path hm hx hs => exact finds_inferPath h span (hok.resolve_left id).2 hm hx hs
  | .lam span x ann body, p, ok, env, Γ, s, hok, htype, h => by
    rw [inferHead]
    cases htype with
    | lam hs hann hr =>
      refine (finds_paramType h span (hok.imp (·.1) (·.1)) hs hann).bind fun p₁ t hle₁ ht => ?_
      have ht' := ht
      rw [← hs.normal] at ht'
      refine (finds_type body (hok.imp_left (·.2)) hr ((h.mono hle₁).addMono x ht')).bind
        fun p₂ u hle₂ hu => ?_
      exact finds_pure ((ht.mono hle₂).arrow hu)
  | .app span func arg, p, ok, env, Γ, s, hok, htype, h => by
    rw [inferHead]
    obtain ⟨a, hfunc, harg⟩ : ∃ a, Applicable κ Γ func a s ∧ HasType κ Γ arg.tidy a := by
      rw [tidy] at htype
      generalize htidy : func.tidy = f at htype
      cases htype with
      | app hfunc harg => exact ⟨_, .inl (htidy ▸ hfunc), harg⟩
      | applyConstructor hc hs harg =>
        exact ⟨_, .inr ⟨_, _, _, _, eq_construct_of_tidy htidy, hc, hs⟩, harg⟩
    have harg' : arg.Core ∨ T ∧ arg.Paths ok := hok.imp (·.2) (.imp_right (·.2))
    refine (finds_callee h hfunc).bind fun p₁ c hle₁ hc => ?_
    have h₁ := h.mono hle₁
    rcases hc with ⟨c, rfl, hc⟩ | ⟨rfl, hfunc⟩
    · exact finds_apply hc (finds_type arg harg' harg h₁)
    · exact finds_application span
        (fun q hle => finds_type func (hok.imp (·.1) (.imp_right (·.1))) hfunc (h₁.mono hle))
        fun q hle => finds_type arg harg' harg (h₁.mono hle)
  | .letIn span x isRec ann value body, p, ok, env, Γ, s, hok, htype, h => by
    rw [inferHead]
    cases htype with
    | letIn hs hvalue hann hσ hbody =>
      refine (finds_binding h span x isRec (hok.imp (·.1) (·.1)) hs hann hσ fun q env' hq =>
        finds_type value (hok.imp (·.2.1) (.imp_right (·.1))) hvalue hq).bind fun p₁ σ hle₁ hσ => ?_
      exact finds_type body (hok.imp (·.2.2) (.imp_right (·.2))) hbody
        ((h.mono hle₁).addValue x hσ.1 hσ.2)
  | .ifThenElse span cond thenE elseE, p, ok, env, Γ, s, hok, htype, h => by
    rw [inferHead]
    cases htype with
    | ifThenElse hcond hthen helse =>
      exact finds_conditional cond.span span
        (fun q hle => finds_type cond (hok.imp (·.1) (.imp_right (·.1))) hcond (h.mono hle))
        (fun q hle => finds_type thenE (hok.imp (·.2.1) (.imp_right (·.2.1))) hthen (h.mono hle))
        fun q hle => finds_type elseE (hok.imp (·.2.2) (.imp_right (·.2.2))) helse (h.mono hle)
  | .tuple span items, p, ok, env, Γ, s, hok, htype, h => by
    rw [inferHead]
    cases htype with
    | tuple hitems =>
      refine (finds_types items hok hitems h).bind fun p₁ ts _ hts => ?_
      exact finds_pure (.tuple hts)
  | .record span fields, p, ok, env, Γ, s, hok, htype, h => by
    rw [inferHead]
    cases htype with
    | record hfields hnodup =>
      refine (finds_fields fields span [] hok hfields hnodup h).bind fun p₁ row _ hrow => ?_
      obtain ⟨bs, rfl, hbs⟩ := hrow
      exact finds_pure hbs.closedRecord
  | .field span whole label, p, ok, env, Γ, s, hok, htype, h => by
    rw [inferHead]
    cases htype with
    | field hwhole hs =>
      exact finds_selection span (fun q hle => finds_type whole hok hwhole (h.mono hle)) hs
  | .update span whole changes, p, ok, env, Γ, s, hok, htype, h => by
    rw [inferHead]
    cases htype with
    | update hwhole hchanges hnodup hfs =>
      exact finds_change span
        (fun q hle => finds_type whole (hok.imp (·.1) (.imp_right (·.1))) hwhole (h.mono hle))
        (fun q hle => finds_fields changes span [] (hok.imp (·.2) (.imp_right (·.2))) hchanges
          hnodup (h.mono hle)) hfs
  | .construct span c none, p, ok, env, Γ, s, _, htype, h => by
    rw [inferHead]
    cases htype with
    | constant hc hs =>
      exact (finds_constructor h hc hs).bind fun p₁ c _ hc => finds_apply_none hc.1
  | .construct span c (some arg), p, ok, env, Γ, s, hok, htype, h => by
    rw [inferHead]
    cases htype with
    | construct hc hs harg =>
      refine (finds_constructor h hc hs).bind fun p₁ c hle₁ hc => ?_
      exact finds_apply hc.1 (finds_type arg (.inr (hok.resolve_left id)) harg (h.mono hle₁))
  | .cases span scrutinee arms, p, ok, env, Γ, s, hok, htype, h => by
    rw [inferHead]
    cases htype with
    | cases hscrutinee hr harms =>
      obtain ⟨hT, hscrutinee', harms'⟩ := hok.resolve_left id
      refine (finds_type scrutinee (.inr ⟨hT, hscrutinee'⟩) hscrutinee h).bind fun p₁ t hle₁ ht =>
        (finds_freshValue hr).bind fun p₂ result hle₂ hresult => ?_
      refine (finds_arms arms span hT harms' harms (h.mono (hle₁.trans hle₂)) (ht.mono hle₂)
        hresult).bind fun p₃ _ hle₃ _ => ?_
      exact finds_pure (hresult.mono hle₃)
  | .annotate span inner ann, p, ok, env, Γ, s, hok, htype, h => by
    rw [inferHead]
    cases htype with
    | annotate hinner hann =>
      replace hok := hok.resolve_left id
      refine (finds_type inner (.inr hok) hinner h).bind fun p₁ t hle₁ ht => ?_
      have h₁ := h.mono hle₁
      refine (TypeExpr.finds_annotated (h₁.types hok.1) (h₁.types_eq hok.1) hann span).bind
        fun p₂ u hle₂ hu =>
        (finds_unifyAt span (ht.mono hle₂) hu).bind fun p₃ _ hle₃ _ => ?_
      exact finds_pure (hu.mono hle₃)

theorem finds_types : ∀ (es : List Expr) {p : Point κ} {ok : String → Prop} {env Γ : Env}
    {ss : List Ty}, CoreList es ∨ T ∧ PathsList ok es → HasTypes κ Γ (tidyList es) ss →
      p.Realizes T ok env Γ → Finds At p (inferList env es) fun q ts => Forall₂ q.Value ts ss
  | [], p, ok, env, Γ, ss, _, htypes, _ => by
    rw [inferList]
    cases htypes with
    | nil => exact finds_pure .nil
  | e :: es, p, ok, env, Γ, ss, hok, htypes, h => by
    rw [inferList]
    cases htypes with
    | cons he hes =>
      refine (finds_type e (hok.imp (·.1) (.imp_right (·.1))) he h).bind fun p₁ t hle₁ ht =>
        (finds_types es (hok.imp (·.2) (.imp_right (·.2))) hes (h.mono hle₁)).bind
          fun p₂ ts hle₂ hts => ?_
      exact finds_pure (.cons (ht.mono hle₂) hts)

theorem finds_fields : ∀ (es : List (String × Expr)) (span : Span) (done : Table Ty)
    {p : Point κ} {ok : String → Prop} {env Γ : Env} {entries : Table Ty},
    CoreFields es ∨ T ∧ PathsFields ok es → HasFields κ Γ (tidyFields es) entries →
      (done.map (·.1) ++ entries.map (·.1)).Nodup → p.Realizes T ok env Γ →
      Finds At p (inferFields env span es (.ofList done)) fun q fields =>
        ∃ bs, fields = .ofList (done ++ bs) ∧ q.Values bs entries
  | [], span, done, p, ok, env, Γ, entries, _, hfields, _, _ => by
    rw [inferFields]
    cases hfields with
    | nil => exact finds_pure ⟨[], by simp, .nil⟩
  | (l, e) :: es, span, done, p, ok, env, Γ, entries, hok, hfields, hnodup, h => by
    rw [inferFields]
    cases hfields with
    | cons he hes =>
      refine (finds_type e (hok.imp (·.1) (.imp_right (·.1))) he h).bind fun p₁ t hle₁ ht => ?_
      rw [if_neg (Table.not_isSome_lookup_ofList hnodup), ← Table.ofList_concat]
      refine (finds_fields es span _ (hok.imp (·.2) (.imp_right (·.2))) hes (by simpa using hnodup)
        (h.mono hle₁)).imp
        fun p₂ fields hle₂ hfields => ?_
      obtain ⟨bs, rfl, hbs⟩ := hfields
      exact ⟨(l, t) :: bs, by simp, .cons ⟨rfl, ht.mono hle₂⟩ hbs⟩

theorem finds_arms : ∀ (arms : List (Pattern × Expr)) (span : Span) {p : Point κ}
    {ok : String → Prop} {env Γ : Env} {t result s r : Ty}, T → PathsArms ok arms →
      HasArms κ Γ s r (tidyArms arms) → p.Realizes T ok env Γ → p.Value t s → p.Value result r →
      Finds At p (inferArms env span t result arms) fun _ _ => True
  | [], span, p, ok, env, Γ, t, result, s, r, _, _, _, _, _, _ => by
    rw [inferArms]
    exact finds_pure trivial
  | (pat, body) :: arms, span, p, ok, env, Γ, t, result, s, r, hT, hok, harms, h, ht, hresult => by
    rw [inferArms]
    cases harms with
    | cons hpat hbody harms =>
      have ht' := ht
      rw [← ht.isMono.normal] at ht'
      refine (Pattern.finds_check span pat h ht' hpat).bind fun p₁ bs hle₁ hbs => ?_
      refine (finds_type body (.inr ⟨hT, hok.1⟩) hbody ((h.mono hle₁).addMonos hbs)).bind
        fun p₂ u hle₂ hu =>
        (finds_unifyAt body.span hu (hresult.mono (hle₁.trans hle₂))).bind fun p₃ _ hle₃ _ => ?_
      have hle := hle₁.trans (hle₂.trans hle₃)
      exact finds_arms arms span hT hok.2 harms (h.mono hle) (ht.mono hle) (hresult.mono hle)

end

end Expr

/-! ## Principal types -/

namespace Point

variable {κ : Nat → Role} {env : Env} {σ : Scheme}

end Point

namespace Env

variable {env : Env}

theorem sorted_foldl_addValue (vs : List (String × Scheme)) (h : Table.Sorted env.values) :
    Table.Sorted (vs.foldl (fun m v => m.addValue v.1 v.2) env).values := by
  induction vs generalizing env with
  | nil => exact h
  | cons v vs ih => exact ih (h.insert v.1 v.2)

end Env

theorem Decl.sorted_check {d : Decl} {env : Env} {r : Env × Declared} {s s' : State}
    (h : Table.Sorted env.values) (hrun : (d.check env).run s = .ok r s') :
    Table.Sorted r.1.values := by
  rcases d.check_extends hrun with hext | ⟨-, -, heq, -⟩
  · rw [hext.env_eq]
    exact Env.sorted_foldl_addValue _ (by rwa [Declared.values_foldl_addType])
  · rwa [heq]

theorem sorted_checkDecls (ds : List Decl) {report : Report} {s : State}
    (h : Table.Sorted report.env.values) : Table.Sorted (checkDecls ds report s).1.env.values := by
  induction ds generalizing report s with
  | nil => exact h
  | cons d ds ih =>
    rw [checkDecls]
    split
    · next hrun => exact ih (d.sorted_check h hrun)
    · exact ih h

theorem sorted_checkProgram {env : Env} {s : State} (h : Start env s) (ds : List Decl) :
    Table.Sorted (checkProgram env ds s).1.env.values := by
  obtain ⟨gens, ids, -, helementary⟩ := h.elementary
  exact sorted_checkDecls ds helementary.sorted

namespace Point

variable {κ : Nat → Role} {p : Point κ} {env : Env}

/-- An environment that declarations have built is realized by itself, and members of
all its modules may be used. -/
theorem realizes_declared {S : Stage True} {n : Nat} (hp : p.Meets S) (h : S.DeclaredEnv env)
    (hsound : env.Sound n) (hsorted : Table.Sorted env.values) :
    p.Realizes True (fun _ => True) env env where
  sorted := hsorted
  unbound _ hx := hx
  bound x σ hx := by
    obtain ⟨hfits, hclosed, hnominal⟩ := h.values _ (Table.mem_of_lookup hx)
    exact ⟨σ, hx, coversScheme_declared hp hfits.body (hsound.value? hx) (hclosed trivial),
      fun _ => ⟨rfl, hnominal⟩⟩
  members {x vars name members} _ hm := by
    refine ⟨hm, fun y τ hy => ?_⟩
    have hmem := Table.mem_of_lookup hy
    have hfits := (h.values _ (Table.mem_of_lookup hm)).fits.body.parts _ (mem_singleton_self _)
    have hfaithful := hsound.value? hm
    cases hfits with
    | module hparts hvalues _ hclosed =>
      cases hfaithful with
      | module hmembers =>
        exact coversScheme_declared hp ⟨hparts _ hmem, hvalues _ hmem⟩ (hmembers _ hmem)
          (hclosed trivial _ hmem)
  types _ := ⟨S, hp, fun e he => ⟨h.types e he, n, hsound.types e he⟩⟩
  types_eq _ := rfl

end Point

end RowTyping
