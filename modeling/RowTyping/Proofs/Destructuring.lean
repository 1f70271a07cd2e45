import RowTyping.Proofs.Annotations
import RowTyping.Proofs.Principality
import RowTyping.Proofs.TypeSoundness

/-!
# Constructors and patterns at a point

An environment realizes a context when its schemes cover those of the context.
Then a constructor is found with every instance that the context has of it, and
what it is given passes the count of components, since types with the same value
cannot be told apart by their components. A pattern is found to match whatever
type it may match, and binds its names to types with the values that it gives
them.
-/

namespace RowTyping

open Check Registry Row Table Ty Env List Option

/-- Where the number of components is known, it is the same. -/
theorem Arity.agrees_of {a b c : Arity} (ha : a = .any ∨ a = c) (hb : b = .any ∨ b = c)
    (ha₀ : a ≠ .count 0) (hb₀ : b ≠ .count 0) : a.agrees b = true := by
  rcases ha with rfl | rfl
  · cases b with
    | any => rfl
    | count n => simpa [agrees] using hb₀
  · rcases hb with rfl | rfl
    · cases a with
      | any => rfl
      | count n => simpa [agrees] using ha₀
    · cases b <;> simp [agrees]

namespace Point

variable {κ : Nat → Role} {p q : Point κ} {T : Prop} {ok ok' : String → Prop} {env Γ : Env}
  {σ σ' : Scheme} {a b s t : Ty} {x : String}

/-! ## Contexts -/

/-- Every name has a scheme on both sides, and the one covers the other. A
constructor has the same scheme on both, and so has a module whose name is `ok`;
its members may then be used. Type names, if there are to be any, are shared. -/
structure Realizes (p : Point κ) (T : Prop) (ok : String → Prop) (env Γ : Env) : Prop where
  sorted : Table.Sorted env.values
  unbound : ∀ x, env.value? x = none → Γ.value? x = none
  bound : ∀ x σ, env.value? x = some σ → ∃ σ', Γ.value? x = some σ' ∧ p.CoversScheme σ σ' ∧
    (σ.body.ctor?.isSome → σ' = σ ∧ σ.Nominal)
  members : ∀ {x vars name members}, ok x → Γ.value? x = some ⟨vars, .module name members⟩ →
    env.value? x = some ⟨vars, .module name members⟩ ∧
      ∀ y τ, members.value? y = some τ → p.CoversScheme τ τ
  types : T → p.NamesTypes env.types
  types_eq : T → Γ.types = env.types

/-- Names from the list are bound to types with these values. -/
def Binds (p : Point κ) (names : List String) (bs ss : List (String × Ty)) : Prop :=
  List.Forall₂ (fun b s => b.1 ∈ names ∧ b.1 = s.1 ∧ p.Value b.2 s.2.norm) bs ss

theorem Binds.mono {names : List String} {bs ss : Table Ty} (h : p.Binds names bs ss)
    (hle : p ≤ q) : q.Binds names bs ss :=
  h.imp fun _ _ h => ⟨h.1, h.2.1, h.2.2.mono hle⟩

theorem Binds.append {names names' : List String} {bs bs' ss ss' : Table Ty}
    (h : p.Binds names bs ss) (h' : p.Binds names' bs' ss') :
    p.Binds (names ++ names') (bs ++ bs') (ss ++ ss') :=
  rel_append (h.imp fun _ _ h => ⟨mem_append_left _ h.1, h.2⟩)
    (h'.imp fun _ _ h => ⟨mem_append_right _ h.1, h.2⟩)

namespace Realizes

theorem mono (h : p.Realizes T ok env Γ) (hle : p ≤ q) : q.Realizes T ok env Γ where
  sorted := h.sorted
  unbound := h.unbound
  bound x σ hx := by
    obtain ⟨σ', hσ', hcovers, hctor⟩ := h.bound x σ hx
    exact ⟨σ', hσ', hcovers.mono hle, hctor⟩
  members hx hm := (h.members hx hm).imp_right fun hall y τ hy => (hall y τ hy).mono hle
  types hT := (h.types hT).mono hle
  types_eq := h.types_eq

theorem imp (h : p.Realizes T ok env Γ) (hok : ∀ x, ok' x → ok x) : p.Realizes T ok' env Γ :=
  { h with members := fun hx => h.members (hok _ hx) }

theorem addValue (h : p.Realizes T ok env Γ) (x : String) (hctor : σ.body.ctor? = none)
    (hσ : p.CoversScheme σ σ') :
    p.Realizes T (fun y => ok y ∧ y ≠ x) (env.addValue x σ) (Γ.addValue x σ') where
  sorted := h.sorted.insert x σ
  unbound y hy := by
    rw [value?_addValue] at hy ⊢
    split at hy
    · cases hy
    · next hne => rw [if_neg hne, h.unbound y hy]
  bound y τ hy := by
    rw [value?_addValue] at hy ⊢
    split at hy
    · next heq =>
      cases hy
      exact ⟨σ', by rw [if_pos heq], hσ, by simp [hctor]⟩
    · next hne =>
      rw [if_neg hne]
      exact h.bound y τ hy
  members hy hm := by
    rw [value?_addValue, if_neg hy.2] at hm ⊢
    exact h.members hy.1 hm
  types := h.types
  types_eq := h.types_eq

theorem addMono (h : p.Realizes T ok env Γ) (x : String) (ht : p.Value t s.norm) :
    p.Realizes T (fun y => ok y ∧ y ≠ x) (env.addValue x (.mono t)) (Γ.addValue x (.mono s)) :=
  h.addValue x (Fits.ctor?_eq_none ht.fits) (coversScheme_mono ht)

theorem addMonos {names : List String} {bs ss : Table Ty} (h : p.Realizes T ok env Γ)
    (hbs : p.Binds names bs ss) :
    p.Realizes T (fun y => ok y ∧ y ∉ names) (env.addMonos bs) (Γ.addMonos ss) := by
  induction hbs generalizing ok env Γ with
  | nil => exact h.imp fun _ hy => hy.1
  | @cons b s _ _ hb _ ih =>
    obtain ⟨hmem, hname, hvalue⟩ := hb
    rw [addMonos, addMonos, foldl_cons, foldl_cons, ← hname]
    refine (ih (h.addMono b.1 hvalue)).imp fun y hy => ⟨⟨hy.1, ?_⟩, hy.2⟩
    rintro rfl
    exact hy.2 hmem

theorem value? (h : p.Realizes T ok env Γ) (hx : Γ.value? x = some σ') :
    ∃ σ, env.value? x = some σ ∧ p.CoversScheme σ σ' ∧
      (σ.body.ctor?.isSome → σ' = σ ∧ σ.Nominal) := by
  cases hσ : env.value? x with
  | none =>
    rw [h.unbound x hσ] at hx
    cases hx
  | some σ =>
    obtain ⟨τ, hτ, hcovers⟩ := h.bound x σ hσ
    rw [hx] at hτ
    cases hτ
    exact ⟨σ, rfl, hcovers⟩

theorem knows (h : p.Realizes T ok env Γ) : p.Knows env Γ :=
  knows_of_covers h.sorted fun x σ hx => (h.bound x σ hx).imp fun _ h => ⟨h.1, h.2.1⟩

end Realizes

/-! ## Components -/

/-- The components of a type that is no synonym are not known, or those of its
value. -/
theorem width_resolve (h : p.Fits .type t) (hne : ∀ id labels params target,
      p.registry.resolve t ≠ .synonym id labels params target) :
    (p.registry.resolve t).width = .any ∨
      (p.registry.resolve t).width = (p.value t).width := by
  have hfits := p.obeys.resolve h
  have hvalue : p.value (p.registry.resolve t) = p.value t := value_resolve h
  rw [← hvalue]
  cases heq : p.registry.resolve t with
  | var => exact .inl rfl
  | con c args =>
    rw [heq] at hfits
    cases hfits with
    | con hc _ _ =>
      refine .inr ?_
      rw [value, value_con hc.1]
      cases c <;> simp [width, Con.plain]
  | record fs tail =>
    refine .inr ?_
    rfl
  | synonym => exact absurd heq (hne _ _ _ _)
  | module =>
    refine .inr ?_
    rfl

theorem width_headN (h : p.Fits .type t) {n : Nat}
    (hn : p.registry.bare.Within n t.bare) :
    (p.registry.headN n t).width = .any ∨
      (p.registry.headN n t).width = (p.value t).width := by
  induction n generalizing t with
  | zero =>
    have hne : ∀ id labels params target,
        p.registry.resolve t ≠ .synonym id labels params target := by
      intro id labels params target heq
      have hnil : (p.registry.bare.resolve t.bare).children = [] := hn
      rw [resolve_bare, heq] at hnil
      simp [children] at hnil
    exact width_resolve h hne
  | succ n ih =>
    by_cases hsyn : ∃ id labels params target,
        p.registry.resolve t = .synonym id labels params target
    · obtain ⟨id, labels, params, target, heq⟩ := hsyn
      have hfits := p.obeys.resolve h
      have hvalue : p.value (p.registry.resolve t) = p.value t := value_resolve h
      rw [heq] at hfits hvalue
      rw [headN, heq, ← hvalue]
      have hwithin : p.registry.bare.Within n target.bare := by
        refine hn _ ?_
        rw [resolve_bare, heq]
        simp [children]
      cases hfits with
      | synonym _ htarget => exact ih htarget hwithin
    · have hne : ∀ id labels params target,
          p.registry.resolve t ≠ .synonym id labels params target :=
        fun id labels params target heq => hsyn ⟨id, labels, params, target, heq⟩
      rw [headN_of_not_synonym hne]
      exact width_resolve h hne

theorem arity_cases (h : p.Value t s) :
    p.registry.arity (some t) = .any ∨ p.registry.arity (some t) = s.width := by
  rw [p.obeys.arity_eq_width (fun _ _ hx => hx.2) h.fits, ← h.eq]
  exact width_headN h.fits ((within_bare p.acyclic t).mono (Nat.le_succ _))

/-- Types with the same value agree about their components. -/
theorem agrees_arity (ha : p.Value a s) (hb : p.Value b s) :
    (p.registry.arity (some a)).agrees (p.registry.arity (some b)) = true :=
  Arity.agrees_of (arity_cases ha) (arity_cases hb)
    (p.obeys.arity_ne_zero (fun _ _ hx => hx.2) ha.fits)
    (p.obeys.arity_ne_zero (fun _ _ hx => hx.2) hb.fits)

/-! ## Constructors -/

/-- A constructor builds values of the owner, out of an argument if it takes one. -/
structure Builds (p : Point κ) (c : Ctor) (owner : Ty) (arg : Option Ty) : Prop where
  owner : p.Value c.owner owner
  arg : Option.Rel p.Value c.arg arg

variable {name : String} {owner : Ty} {arg : Option Ty} {c : Ctor}

theorem Builds.mono (h : p.Builds c owner arg) (hle : p ≤ q) : q.Builds c owner arg := by
  refine ⟨h.owner.mono hle, ?_⟩
  have harg := h.arg
  generalize c.arg = found at harg
  cases harg with
  | none => exact .none
  | some hu => exact .some (hu.mono hle)

theorem Builds.arg_eq_none (h : p.Builds c owner none) : c.arg = none := by
  have harg := h.arg
  generalize c.arg = found at harg
  cases harg
  rfl

/-- What has a constructor for its value is one. -/
theorem Use.builds (h : p.Use σ t (.ctor name owner arg)) :
    ∃ c, t.ctor? = some c ∧ p.Builds c owner arg := by
  cases hc : t.ctor? with
  | none =>
    have hrowed := p.rowed (h.body.of_ctor?_eq_none hc)
    rw [h.value] at hrowed
    have hnone := hrowed.ctor?_eq_none
    cases hnone
  | some c =>
    obtain ⟨heq, howner, harg⟩ := h.body.ctor? hc
    have hvalue := h.value
    have hfaithful := h.faithful
    rw [heq] at hvalue hfaithful
    rw [Point.value, value_ctor] at hvalue
    have hctor := congrArg ctor? hvalue
    rw [ctor?_ctor, ctor?_ctor] at hctor
    obtain ⟨-, hownerEq, hargEq⟩ := Ctor.mk.inj (some.inj hctor)
    have hparts := faithful_con.mp hfaithful
    refine ⟨c, rfl, ⟨howner, hparts _ (by simp), hownerEq⟩, ?_⟩
    rw [← hargEq]
    cases hu : c.arg with
    | none => exact .none
    | some u => exact .some ⟨harg u hu, hparts u (by simp [hu]), rfl⟩

variable {span : Span}

/-- A constructor is found with every instance of its scheme, and takes the
components that were declared. -/
theorem finds_constructor (h : p.Realizes T ok env Γ) (hx : Γ.value? x = some σ)
    (hs : σ.Instance κ (.ctor name owner arg)) :
    Finds At p (env.constructor span x) fun q c => q.Builds c owner arg ∧
      ∀ d, σ.body.norm.ctor? = some d → ∀ declared ∈ d.arg,
        q.registry.arity c.arg = declared.components := by
  obtain ⟨τ, hτ, hcovers, hctor⟩ := h.value? hx
  refine finds_find_bind hτ span ((hcovers.uses p le_rfl _ hs).bind fun q t hle ht => ?_)
  obtain ⟨c, hc, hbuilds⟩ := ht.builds
  obtain ⟨rfl, -⟩ := hctor (ht.ctor (by rw [hc]; rfl))
  rw [hc]
  exact finds_pure ⟨hbuilds, fun d hd => ht.arity c d hc hd⟩

theorem finds_checkArity {found : Arity}
    (h : (p.registry.arity c.arg).agrees found = true) :
    Finds At p (c.checkArity span found) fun _ _ => True := by
  refine finds_registry_bind ?_
  rw [if_pos h]
  exact finds_pure trivial

/-- A constructor applied to an argument of the type that it takes. -/
theorem finds_apply (hc : p.Builds c owner (some s)) {infer : Check Located Ty}
    (hinfer : Finds At p infer fun q t => q.Value t s) :
    Finds At p (c.apply span (some infer)) fun q t => q.Value t owner := by
  unfold Ctor.apply
  refine hinfer.bind fun q t hle ht => ?_
  rw [pure_bind]
  have hcq := hc.mono hle
  have harg := hcq.arg
  cases hu : c.arg with
  | none =>
    rw [hu] at harg
    cases harg
  | some u =>
    rw [hu] at harg
    obtain ⟨harg⟩ := harg
    have hagrees : (q.registry.arity c.arg).agrees (q.registry.arity (some t)) := by
      rw [hu]
      exact agrees_arity harg ht
    refine finds_registry_bind ((finds_checkArity hagrees).bind fun q₁ _ hle₁ _ => ?_)
    refine (finds_unifyAt span (ht.mono hle₁) (harg.mono hle₁)).bind fun q₂ _ hle₂ _ => ?_
    exact finds_pure (hcq.owner.mono (hle₁.trans hle₂))

theorem finds_apply_none (hc : p.Builds c owner none) :
    Finds At p (c.apply span none) fun q t => q.Value t owner := by
  have hnone := hc.arg_eq_none
  unfold Ctor.apply
  dsimp only
  rw [pure_bind]
  have hagrees : (p.registry.arity c.arg).agrees (p.registry.arity none) := by
    rw [hnone]
    rfl
  refine finds_registry_bind ((finds_checkArity hagrees).bind fun q _ hle _ => ?_)
  rw [hnone]
  exact finds_pure (hc.owner.mono hle)

/-- A constructor pattern without its argument. -/
theorem finds_destruct {found : Arity} {expected : Ty} (h : p.Realizes T ok env Γ)
    (hx : Γ.value? x = some σ) (hs : σ.Instance κ (.ctor name owner arg))
    (hexpected : p.Value expected owner)
    (hfound : arg = none ∧ found = .count 0 ∨ ∃ d declared, σ.body.norm.ctor? = some d ∧
      d.arg = some declared ∧ declared.components.agrees found = true) :
    Finds At p (env.destruct span x found expected) fun q u => Rel q.Value u arg := by
  refine (finds_constructor h hx hs).bind fun q₁ c hle₁ hc => ?_
  obtain ⟨hc, harity⟩ := hc
  have hagrees : (q₁.registry.arity c.arg).agrees found = true := by
    rcases hfound with ⟨rfl, rfl⟩ | ⟨d, declared, hd, hdeclared, hagrees⟩
    · rw [hc.arg_eq_none]
      rfl
    · rwa [harity d hd declared hdeclared]
  refine (finds_checkArity hagrees).bind fun q₂ _ hle₂ _ => ?_
  refine (finds_unifyAt span (hc.owner.mono hle₂) (hexpected.mono (hle₁.trans hle₂))).bind
    fun q₃ _ hle₃ _ => finds_pure ?_
  exact (hc.mono (hle₂.trans hle₃)).arg

/-! ## New variables for patterns -/

/-- A new variable for each of the types. -/
theorem finds_freshValues {ε β : Type} (items : List β) {ss : List Ty}
    (hss : ∀ s ∈ ss, s.IsMono κ) (hlen : items.length = ss.length) :
    Finds At p (freshFor freshVar items : Check ε _) fun q es =>
      Forall₂ q.Value (es.map (·.2)) ss := by
  induction items generalizing p ss with
  | nil =>
    cases length_eq_zero_iff.mp hlen.symm
    exact finds_pure .nil
  | cons item items ih =>
    cases ss with
    | nil => cases hlen
    | cons s ss =>
      obtain ⟨hs, hss⟩ := forall_mem_cons.mp hss
      refine (finds_freshValue hs).bind fun p₁ t hle₁ ht =>
        (ih hss (Nat.succ.inj hlen)).bind fun p₂ es hle₂ hes => finds_pure ?_
      exact .cons (ht.mono hle₂) hes

/-- A new variable for the type of each label. -/
theorem finds_freshFields (span : Span) (done : Table Ty) {entries : Table Ty}
    (hentries : ∀ e ∈ entries, e.2.IsMono κ)
    (hnodup : (done.map (·.1) ++ entries.map (·.1)).Nodup) :
    Finds At p (freshFields span (entries.map (·.1)) (.ofList done)) fun q r => ∃ bs,
      r = (bs.map (·.2), .ofList (done ++ bs)) ∧ q.Values bs entries := by
  induction entries generalizing p done with
  | nil => exact finds_pure ⟨[], by simp, .nil⟩
  | cons e entries ih =>
    obtain ⟨he, hentries⟩ := forall_mem_cons.mp hentries
    refine (finds_freshValue he).bind fun p₁ t hle₁ ht => ?_
    rw [if_neg (not_isSome_lookup_ofList hnodup), ← ofList_concat]
    refine (ih _ hentries (by simpa using hnodup)).bind fun p₂ r hle₂ hr => ?_
    obtain ⟨bs, rfl, hbs⟩ := hr
    exact finds_pure ⟨(e.1, t) :: bs, by simp, .cons ⟨rfl, ht.mono hle₂⟩ hbs⟩

end Point

theorem Point.Values.norms {κ : Nat → Role} {p : Point κ} {bs entries : Table Ty}
    (h : p.Values bs (mapValues norm entries)) :
    Forall₂ (fun t e => p.Value t e.2.norm) (bs.map (·.2)) entries := by
  rw [forall₂_map_left_iff]
  exact (forall₂_map_right_iff.mp h).imp fun _ _ h => h.2

/-! ## Types that patterns match -/

namespace Ty

variable {κ : Nat → Role} {entries : Table Ty} {row : Ty}

theorem norm_tuple (ss : List Ty) : (tuple ss).norm = .tuple (ss.map norm) := by
  have h := value_tuple .flex ss
  simpa only [funext Stage.value_flex] using h

theorem IsMono.arg {c : Con} {args : List Ty} (h : (con c args).IsMono κ) {s : Ty}
    (hs : s ∈ args) : s.IsMono κ := by
  obtain ⟨hnormal, hrowed⟩ := h
  cases hrowed with
  | con hc _ hargs =>
    rw [norm_con hc.1] at hnormal
    have hmap : args.map norm = args.map id := by
      rw [List.map_id]
      exact (con.inj hnormal).2
    exact ⟨map_inj_left.mp hmap s hs, hargs s hs⟩

theorem IsMono.component {ss : List Ty} (h : (tuple ss).IsMono κ) {s : Ty} (hs : s ∈ ss) :
    s.IsMono κ := by
  unfold tuple at h
  split at h
  · cases hs
  · cases mem_singleton.mp hs
    exact h
  · exact h.arg hs

theorem norm_record_norms (entries : Table Ty) (row : Ty) :
    (record (ofList (mapValues norm entries)) row).norm = (record (ofList entries) row).norm := by
  have hnorms : ofList (mapValues norm entries) =
      mapValues norm (ofList entries) := (mapValues_ofList _ _).symm
  rw [norm_record, norm_record, hnorms, mapValues_mapValues]
  refine congrArg (fun fs => (prepend fs _).toRecord) (mapValues_congr fun e _ => ?_)
  exact norm_norm e.2

/-- The fields of a record are types of the system. -/
theorem IsMono.entry (h : (record (ofList entries) row).norm.IsMono κ)
    (hnodup : (entries.map (·.1)).Nodup) :
    ∀ e ∈ mapValues norm entries, e.2.IsMono κ := by
  refine forall_mem_map.mpr fun e he => ?_
  rw [norm_record] at h
  refine IsMono.field h (l := e.1) ?_
  rw [lookup_prepend, lookup_mapValues, lookup_ofList hnodup he]
  rfl

end Ty

namespace Scheme

variable {κ : Nat → Role} {σ : Scheme} {name : String} {owner : Ty}

theorem Instance.normal {s : Ty} (h : σ.Instance κ s) : s.norm = s := by
  obtain ⟨f, -, rfl⟩ := h
  exact norm_norm _

theorem Instance.owner_normal {arg : Option Ty} (h : σ.Instance κ (.ctor name owner arg)) :
    owner.norm = owner := by
  have hnormal := h.normal
  exact (cons.inj (con.inj hnormal).2).1

theorem Instance.arg_normal {s : Ty} (h : σ.Instance κ (.ctor name owner (some s))) :
    s.norm = s := by
  have hnormal := h.normal
  exact (cons.inj (cons.inj (con.inj hnormal).2).2).1

end Scheme

namespace Pattern

open Point

variable {κ : Nat → Role} {env Γ : Env} {T : Prop} {ok : String → Prop}

theorem map_fst_norms (entries : Table Ty) :
    (mapValues norm entries).map (·.1) = entries.map (·.1) :=
  map_map

theorem behind_norms (entries : Table Ty) :
    Role.type.behind (ofList (mapValues norm entries)) = Role.type.behind (ofList entries) := by
  rw [← Role.behind_mapValues Role.type norm (ofList entries)]
  exact congrArg Role.type.behind (mapValues_ofList _ _).symm

theorem MatchesList.length_eq {ps : List Pattern} {ss : List Ty} {bs : Table Ty}
    (h : MatchesList κ Γ (tidyList ps) ss bs) : ps.length = ss.length := by
  induction ps generalizing ss bs with
  | nil =>
    cases h
    rfl
  | cons p ps ih =>
    cases h with
    | cons _ hs => rw [length_cons, length_cons, ih hs]

theorem MatchesFields.labels_eq {ps : List (String × Pattern)} {entries bs : Table Ty}
    (h : MatchesFields κ Γ (tidyFields ps) entries bs) : entries.map (·.1) = ps.map (·.1) := by
  induction ps generalizing entries bs with
  | nil =>
    cases h
    rfl
  | cons p ps ih =>
    cases h with
    | cons _ hs => rw [map_cons, map_cons, ih hs]

mutual

/-- A pattern is found to match whatever type it may match. -/
theorem finds_check (span : Span) : ∀ (pat : Pattern) {p : Point κ} {expected s : Ty}
    {bs : Table Ty}, p.Realizes T ok env Γ → p.Value expected s.norm →
      pat.tidy.Matches κ Γ s bs →
      Finds At p (pat.check env span expected) fun q cs => q.Binds pat.names cs bs
  | .wild, p, expected, s, bs, henv, h, hmatches => by
    rw [check]
    cases hmatches with
    | wild => exact finds_pure .nil
  | .var x, p, expected, s, bs, henv, h, hmatches => by
    rw [check]
    cases hmatches with
    | var => exact finds_pure (.cons ⟨mem_singleton_self x, rfl, h⟩ .nil)
  | .lit b, p, expected, s, bs, henv, h, hmatches => by
    rw [check]
    cases hmatches with
    | lit =>
      refine (finds_unifyAt span (.base p b) h).bind fun p₁ _ _ _ => ?_
      exact finds_pure .nil
  | .tuple ps, p, expected, s, bs, henv, h, hmatches => by
    rw [check]
    cases hmatches with
    | @tuple _ ss _ hlist =>
      rw [norm_tuple] at h
      refine (finds_freshValues ps (fun s hs => h.isMono.component hs)
        (by rw [length_map, hlist.length_eq])).bind fun p₁ es hle₁ hes => ?_
      refine (finds_unifyAt span (.tuple hes) (h.mono hle₁)).bind fun p₂ _ hle₂ _ => ?_
      rw [forall₂_map_right_iff] at hes
      exact finds_checkList span ps (henv.mono (hle₁.trans hle₂))
        (hes.imp fun _ _ ht => ht.mono hle₂) hlist
  | .construct c none, p, expected, s, bs, henv, h, hmatches => by
    rw [check]
    cases hmatches with
    | constant hc hs =>
      rw [hs.owner_normal] at h
      refine (finds_destruct henv hc hs h (.inl ⟨rfl, rfl⟩)).bind fun p₁ _ _ _ => ?_
      exact finds_pure .nil
  | .construct c (some pat), p, expected, s, bs, henv, h, hmatches => by
    rw [check]
    by_cases hempty : pat = .tuple []
    · subst hempty
      cases hmatches with
      | constant hc hs =>
        rw [hs.owner_normal] at h
        refine (finds_destruct henv hc hs h (.inl ⟨rfl, rfl⟩)).bind fun p₁ u _ hu => ?_
        cases hu
        exact finds_pure .nil
    · rw [tidy] at hmatches
      · cases hmatches with
        | construct hc hctor harg harity hs hpat =>
          rw [hs.owner_normal] at h
          rw [ofPattern_tidy] at harity
          refine (finds_destruct henv hc hs h (.inr ⟨_, _, hctor, harg, harity⟩)).bind
            fun p₁ u hle₁ hu => ?_
          obtain ⟨hu⟩ := hu
          rw [← hs.arg_normal] at hu
          exact finds_check span pat (henv.mono hle₁) hu hpat
      · exact hempty
  | .record fields isOpen, p, expected, s, bs, henv, h, hmatches => by
    rw [check]
    cases hmatches with
    | @record _ entries _ hfields hnodup =>
      rw [← hfields.labels_eq, ← map_fst_norms]
      refine (finds_freshFields span [] (h.isMono.entry hnodup)
        (by rwa [map_fst_norms])).bind fun p₁ r hle₁ hr => ?_
      obtain ⟨cs, rfl, hcs⟩ := hr
      have hrecord := hcs.closedRecord
      rw [← hrecord.isMono.normal, norm_record_norms] at hrecord
      refine (finds_unifyAt span hrecord (h.mono hle₁)).bind fun p₂ _ hle₂ _ => ?_
      exact finds_checkFields span fields (henv.mono (hle₁.trans hle₂)) (hcs.mono hle₂).norms
        hfields
    | @openRecord _ entries _ row hfields hnodup hrow =>
      rw [norm_norm] at h
      rw [← hfields.labels_eq, ← map_fst_norms]
      refine (finds_freshFields span [] (h.isMono.entry hnodup)
        (by rwa [map_fst_norms])).bind fun p₁ r hle₁ hr => ?_
      obtain ⟨cs, rfl, hcs⟩ := hr
      refine (finds_freshVar .row row).bind fun p₂ tail hle₂ htail => ?_
      obtain ⟨v, rfl, hv, -⟩ := htail
      have hrecord := (hcs.mono hle₂).openRecord hv (by rwa [behind_norms])
      rw [norm_record_norms] at hrecord
      refine (finds_unifyAt span hrecord (h.mono (hle₁.trans hle₂))).bind fun p₃ _ hle₃ _ => ?_
      exact finds_checkFields span fields (henv.mono (hle₁.trans (hle₂.trans hle₃)))
        (hcs.mono (hle₂.trans hle₃)).norms hfields

theorem finds_checkList (span : Span) : ∀ (ps : List Pattern) {p : Point κ} {ts ss : List Ty}
    {bs : Table Ty}, p.Realizes T ok env Γ →
      Forall₂ (fun t s => p.Value t s.norm) ts ss → MatchesList κ Γ (tidyList ps) ss bs →
      Finds At p (checkList env span ps ts) fun q cs => q.Binds (namesList ps) cs bs
  | [], p, ts, ss, bs, henv, hts, hmatches => by
    cases hmatches with
    | nil =>
      rw [checkList]
      · exact finds_pure .nil
      · simp
  | pat :: ps, p, ts, ss, bs, henv, hts, hmatches => by
    cases hmatches with
    | cons hpat hps =>
      cases hts with
      | cons ht hts =>
        rw [checkList]
        refine (finds_check span pat henv ht hpat).bind fun p₁ cs hle₁ hcs =>
          (finds_checkList span ps (henv.mono hle₁) (hts.imp fun _ _ ht => ht.mono hle₁) hps).bind
          fun p₂ cs' hle₂ hcs' => finds_pure ?_
        exact (hcs.mono hle₂).append hcs'

theorem finds_checkFields (span : Span) : ∀ (ps : List (String × Pattern)) {p : Point κ}
    {ts : List Ty} {entries bs : Table Ty}, p.Realizes T ok env Γ →
      Forall₂ (fun t e => p.Value t e.2.norm) ts entries →
      MatchesFields κ Γ (tidyFields ps) entries bs →
      Finds At p (checkFields env span ps ts) fun q cs => q.Binds (namesFields ps) cs bs
  | [], p, ts, entries, bs, henv, hts, hmatches => by
    cases hmatches with
    | nil =>
      rw [checkFields]
      · exact finds_pure .nil
      · simp
  | (l, pat) :: ps, p, ts, entries, bs, henv, hts, hmatches => by
    cases hmatches with
    | cons hpat hps =>
      cases hts with
      | cons ht hts =>
        rw [checkFields]
        refine (finds_check span pat henv ht hpat).bind fun p₁ cs hle₁ hcs =>
          (finds_checkFields span ps (henv.mono hle₁) (hts.imp fun _ _ ht => ht.mono hle₁)
          hps).bind fun p₂ cs' hle₂ hcs' => finds_pure ?_
        exact (hcs.mono hle₂).append hcs'

end

end Pattern

end RowTyping
