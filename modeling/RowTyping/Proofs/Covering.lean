import RowTyping.Proofs.Points

/-!
# Environments at a point

At a point every type has a value. A scheme covers another one when each instance
of that is the value of some use of the scheme, at this point and at all later
ones; the new variables are assigned what the instance asks for. An environment
covers a context when its schemes do, name by name, and its free variables stand
for nothing that the context does not know. The scheme that generalization gives
covers every scheme that the type system may choose.
-/

namespace RowTyping

open Check Registry Table Ty Option

namespace Point

variable {κ : Nat → Role} {p q : Point κ} {k : Role} {a b r s t : Ty}

/-! ## Types with a value -/

/-- The type has the value `s`. -/
structure Value (p : Point κ) (t s : Ty) : Prop where
  fits : p.Fits .type t
  faithful : t.Faithful
  eq : p.value t = s

/-- Names with types that have values. -/
def Values (p : Point κ) (bs ss : List (String × Ty)) : Prop :=
  List.Forall₂ (fun b s => b.1 = s.1 ∧ p.Value b.2 s.2) bs ss

namespace Value

theorem mono (h : p.Value t s) (hle : p ≤ q) : q.Value t s :=
  ⟨h.fits.mono hle, h.faithful, (value_eq hle h.fits).trans h.eq⟩

theorem isMono (h : p.Value t s) : s.IsMono κ := by
  rw [← h.eq]
  exact ⟨norm_norm _, p.rowed h.fits⟩

theorem same (ha : p.Value a s) (hb : p.Value b s) : p.Same .type a b :=
  ⟨ha.fits, hb.fits, ha.eq.trans hb.eq.symm⟩

theorem base (p : Point κ) (b : Base) : p.Value (.base b) (.base b) :=
  ⟨.base b, .con (by simp), value_base p.assign b⟩

theorem arrow (ha : p.Value a s) (hb : p.Value b r) : p.Value (.arrow a b) (.arrow s r) := by
  refine ⟨.arrow ha.fits hb.fits, .con (by simp [ha.faithful, hb.faithful]), ?_⟩
  rw [value, ← ha.eq, ← hb.eq]
  rfl

theorem tuple {ts ss : List Ty} (h : List.Forall₂ p.Value ts ss) :
    p.Value (.tuple ts) (.tuple ss) := by
  have hparts : ∀ t ∈ ts, p.Fits .type t ∧ t.Faithful :=
    forall_mem_of_forall₂ h.flip fun _ _ h => ⟨h.fits, h.faithful⟩
  have hvalues : ts.map (Ty.value p.assign) = ss := by
    induction h with
    | nil => rfl
    | cons ht _ ih =>
      rw [List.map_cons, ih (List.forall_mem_cons.mp hparts).2]
      exact congrArg (· :: _) ht.eq
  refine ⟨.tuple fun t ht => (hparts t ht).1,
    State.Sound.discipline.tuple fun t ht => (hparts t ht).2, ?_⟩
  rw [value, Ty.value_tuple, hvalues]

theorem of_flex {v : Nat} (hv : p.Issued v .type s) (hs : s.IsMono κ) : p.Value (.flex v) s := by
  refine ⟨fits_flex.mpr (hv.has (k := .type) hs.rowed), .var _, ?_⟩
  rw [value, value_flex, hv.assign, hs.normal]

end Value

namespace Values

variable {bs cs ss us : Table Ty}

theorem mono (h : p.Values bs ss) (hle : p ≤ q) : q.Values bs ss :=
  h.imp fun _ _ h => ⟨h.1, h.2.mono hle⟩

theorem valuesOf_eq (h : p.Values bs ss) : valuesOf p.assign bs = ss := by
  induction h with
  | nil => rfl
  | cons hb _ ih => exact congrArg₂ List.cons (Prod.ext hb.1 hb.2.eq) ih

theorem forall_mem (h : p.Values bs ss) : ∀ b ∈ bs, p.Fits .type b.2 ∧ b.2.Faithful :=
  forall_mem_of_forall₂ h.flip fun _ _ h => ⟨h.2.fits, h.2.faithful⟩

theorem faithful_ofList (h : p.Values bs ss) : ∀ e ∈ ofList bs, e.2.Faithful :=
  fun e he => (h.forall_mem e (mem_ofList he)).2

theorem closedRecord (h : p.Values bs ss) :
    p.Value (.record (ofList bs) .emptyRow) (.record (ofList ss) .emptyRow) := by
  refine ⟨.closedRecord (sorted_ofList bs) fun e he => ?_,
    .record h.faithful_ofList (.con (by simp)), ?_⟩
  · exact (h.forall_mem e (mem_ofList he)).1
  · rw [value, value_ofList, h.valuesOf_eq]

/-- A record that goes on with a variable. -/
theorem openRecord {v : Nat} {row : Ty} (h : p.Values bs ss)
    (hv : p.Issued v .row row) (hrow : row.Rowed κ (Role.type.behind (ofList ss))) :
    p.Value (.record (ofList bs) (.flex v)) (record (ofList ss) row).norm := by
  have hbehind : Role.type.behind (ofList ss) = Role.type.behind (ofList bs) := by
    rw [← h.valuesOf_eq, ← mapValues_ofList_value, Role.behind_mapValues]
  refine ⟨.record (sorted_ofList bs) (by simp [Role.front]) (fun e he => ?_) ?_,
    .record h.faithful_ofList (.var _), ?_⟩
  · exact (h.forall_mem e (mem_ofList he)).1
  · rw [← hbehind]
    exact fits_flex.mpr (hv.has hrow)
  · rw [value, value_ofList_tail, h.valuesOf_eq, ← hv.assign]
    rfl

end Values

variable {ε : Type}

theorem finds_unifyAt (span : Span) (ha : p.Value a s) (hb : p.Value b s) :
    Finds At p (unifyAt span a b) fun _ _ => True :=
  finds_located (finds_unify (ha.same hb) ha.faithful hb.faithful) span

/-- A new variable with a type for its value. -/
theorem finds_freshValue (hs : s.IsMono κ) :
    Finds At p (freshVar : Check ε Ty) fun q t => q.Value t s := by
  refine (finds_freshVar .type s).imp fun q t _ ht => ?_
  obtain ⟨v, rfl, hv, -⟩ := ht
  exact .of_flex hv hs

end Point

/-! ## Substituted types -/

namespace Ty

variable {G G' : Prop} {H H' V V' : TyVar → Role → Prop} {k : Role} {t : Ty} {f : TyVar → Ty}
  {x : TyVar}

/-- What is put in the place of a variable has its role, if the result has the role
of the whole. -/
theorem Fits.of_subst (h : t.Fits G H V k) (hf : (t.subst f).Fits G' H' V' k) (hx : x ∈ t.shown) :
    ∃ k', V x k' ∧ (f x).Fits G' H' V' k' := by
  obtain ⟨k', ⟨k₁, hk₁, -, heq⟩, hfits⟩ :=
    (h.roles_of_subst hf rfl fun _ : True => rfl).role_of_shown hx
  exact ⟨k', heq trivial ▸ hk₁, hfits⟩

/-- The parts of a normal form are in normal form. -/
theorem IsBody.parts_norm (h : t.IsBody fun u => u.Fits G H V .type) :
    t.norm.parts = t.parts.map norm := by
  by_cases hctor : ∃ name args, t = .con (.ctor name) args
  · obtain ⟨name, args, rfl⟩ := hctor
    rw [norm_con (by simp)]
    rfl
  · have hparts := parts_eq_self fun name args heq => hctor ⟨name, args, heq⟩
    have hfits := h.parts t (by simp [hparts])
    have hnorm : t.norm.Fits False H V .type := hfits.norm
    rw [hparts, hnorm.parts_eq]
    rfl

/-- The same for the body of a scheme and its instances. -/
theorem IsBody.of_subst (h : t.IsBody fun u => u.Fits G H V .type)
    (hf : t.norm.IsBody fun u => (u.subst f).Fits G' H' V' .type) (hx : x ∈ t.shown) :
    ∃ k', V x k' ∧ (f x).Fits G' H' V' k' := by
  obtain ⟨u, hu, hxu⟩ := mem_shown_parts.mp hx
  have hfits := h.parts u hu
  have hnorm : u.norm.Fits False (fun _ _ => False) V .type := hfits.norm
  refine hnorm.of_subst (hf.parts u.norm ?_) (hfits.mem_shown_norm hxu)
  rw [h.parts_norm]
  exact List.mem_map_of_mem hu

end Ty

namespace Point

variable {κ : Nat → Role} {p q : Point κ} {k : Role} {s t : Ty} {σ σ' : Scheme}
  {K : TyVar → Kind} {val f : TyVar → Ty} {ε : Type}

/-- A type with a value has no generalized variables to replace. -/
theorem Value.subst_eq (h : p.Value t s) (hf : ∀ v, f (.flex v) = .flex v) : t.subst f = t := by
  conv_rhs => rw [← subst_var t]
  refine subst_congr fun x hx => ?_
  obtain ⟨k, -, v, rfl⟩ := Ty.Fits.role_of_shown h.fits (h.faithful.mem_shown hx)
  exact hf v

/-! ## Uses of a scheme -/

/-- The substitution puts new variables in the place of the open generalized ones
of a scheme, with the given kinds and values. -/
structure Filling (q : Point κ) (σ : Scheme) (K : TyVar → Kind) (val : TyVar → Ty)
    (f : TyVar → Ty) : Prop where
  flex : ∀ v, f (.flex v) = .flex v
  opened : ∀ {g}, σ.Opens (.gen g) → ∃ u, f (.gen g) = .flex u ∧
    q.registry.binding? u = none ∧ q.Issued u (K (.gen g)) (val (.gen g))
  kept : ∀ {g}, ¬ σ.Opens (.gen g) → f (.gen g) = .gen g

theorem finds_instantiate (σ : Scheme) (K : TyVar → Kind) (val : TyVar → Ty) :
    Finds At p (instantiate σ : Check ε Ty) fun q t =>
      ∃ f, q.Filling σ K val f ∧ t = σ.body.subst f := by
  rw [instantiate_eq]
  refine (finds_freshVars K val _).bind fun q es hle hes => finds_pure ?_
  obtain ⟨hkeys, hstays, hnew⟩ := hes
  have hfills := Scheme.fills_image hkeys
  refine ⟨_, ⟨hfills.flex, fun hopen => ?_, hfills.kept⟩, rfl⟩
  obtain ⟨u, hu, hissued, hge⟩ := hnew _ (hfills.opened hopen)
  refine ⟨u, hu, ?_, hissued⟩
  rw [hstays]
  exact binding?_of_le hge

/-- With these values for its open generalized variables a use of the scheme is a type
with a value, now and later. -/
structure Suits (p : Point κ) (σ : Scheme) (K : TyVar → Kind) (val : TyVar → Ty) : Prop where
  shows : ∀ x ∈ σ.body.shown,
    (∃ v, x = .flex v ∧ v < p.registry.varCount) ∨ x.isGen = true ∧ σ.Opens x
  body : ∀ {q f}, p ≤ q → q.Filling σ K val f → (σ.body.subst f).IsBody (q.Fits .type)

theorem Suits.mono (h : p.Suits σ K val) (hle : p ≤ q) : q.Suits σ K val where
  shows x hx := (h.shows x hx).imp_left fun ⟨v, hv, hlt⟩ =>
    ⟨v, hv, hlt.trans_le hle.registry.varCount_le⟩
  body hle' hf := h.body (hle.trans hle') hf

/-- The point gives the variables of a stage values of their roles. -/
def Meets (p : Point κ) (S : Stage True) : Prop := ∀ x k, S.role.Has x k → p.Has x k

theorem Meets.mono {S : Stage True} (h : p.Meets S) (hle : p ≤ q) : q.Meets S :=
  fun x k hx => hle.has (h x k hx)

/-- The values suit the scheme if a variable that is replaced has a value of each role
that it has in the scheme. -/
theorem suits_of_fits {H V : TyVar → Role → Prop}
    (h : σ.body.IsBody fun t => t.Fits True H V .type) (hH : ∀ x k, H x k → p.Has x k)
    (hflex : ∀ v k, V (.flex v) k → p.Has (.flex v) k)
    (hgen : ∀ g k, V (.gen g) k → σ.Opens (.gen g))
    (hval : ∀ g k, H (.gen g) k ∨ V (.gen g) k → σ.Opens (.gen g) →
      K (.gen g) = k.kind ∧ (val (.gen g)).Rowed κ k) : p.Suits σ K val where
  shows x hx := by
    obtain ⟨u, hu, hx⟩ := mem_shown_parts.mp hx
    obtain ⟨k, hk⟩ := (h.parts u hu).role_of_shown hx
    cases x with
    | flex v => exact .inl ⟨v, rfl, (hflex v k hk).1⟩
    | gen g => exact .inr ⟨rfl, hgen g k hk⟩
  body {q f} hle hf := by
    have hopened : ∀ g k, H (.gen g) k ∨ V (.gen g) k → σ.Opens (.gen g) →
        q.Fits k (f (.gen g)) := by
      intro g k hk hopen
      obtain ⟨u, hu, -, hissued⟩ := hf.opened hopen
      obtain ⟨hkind, hrowed⟩ := hval g k hk hopen
      rw [hu]
      exact fits_flex.mpr (Issued.has (hkind ▸ hissued) hrowed)
    refine h.map (fun name args => by rw [subst, substList_eq]) (fun u hu => ?_)
      fun _ hu => Fits.parts_eq hu
    refine hu.subst (fun x k hx => ?_) (fun x k hx => ?_) fun x k hx => hle.has (hH x k hx)
    · cases x with
      | flex v =>
        rw [hf.flex]
        exact fits_flex.mpr (hle.has (hflex v k hx))
      | gen g => exact hopened g k (.inr hx) (hgen g k hx)
    · cases x with
      | flex v =>
        rw [hf.flex]
        exact .var (hle.has (hH _ _ hx))
      | gen g =>
        by_cases hopen : σ.Opens (.gen g)
        · exact (hopened g k (.inl hx) hopen).has
        · rw [hf.kept hopen]
          exact .var trivial

/-- What stands in the place of the variables of a scheme. -/
def supply (θ : Nat → Ty) (val : TyVar → Ty) : TyVar → Ty
  | .flex v => θ v
  | .gen g => val (.gen g)

/-- The value of a use. -/
theorem Filling.value_eq (h : q.Filling σ K val f) (hle : p ≤ q) (hσ : p.Suits σ K val) :
    q.value (σ.body.subst f) = (σ.body.subst (supply p.assign val)).norm := by
  rw [value, Ty.value, Ty.subst_subst]
  refine norm_subst_congr fun x hx => ?_
  rcases hσ.shows x hx with ⟨v, rfl, hlt⟩ | ⟨hgen, hopen⟩
  · rw [h.flex]
    exact congrArg norm (hle.assign hlt)
  · cases x with
    | flex v => cases hgen
    | gen g =>
      obtain ⟨u, hu, -, hissued⟩ := h.opened hopen
      rw [hu]
      exact congrArg norm hissued.assign

/-- A use of the scheme with the instance `s` for its value. A constructor takes
the components that were declared. -/
structure Use (q : Point κ) (σ : Scheme) (t s : Ty) : Prop where
  form : ∃ f, t = σ.body.subst f
  ctor : t.ctor?.isSome → σ.body.ctor?.isSome
  body : t.IsBody (q.Fits .type)
  faithful : t.Faithful
  value : q.value t = s
  arity : ∀ c d, t.ctor? = some c → σ.body.norm.ctor? = some d →
    ∀ declared ∈ d.arg, q.registry.arity c.arg = declared.components

/-- The scheme covers another one: every instance of that is the value of a use.
Its free variables stand for nothing that the other does not show. -/
structure CoversScheme (p : Point κ) (σ σ' : Scheme) : Prop where
  uses : ∀ q, p ≤ q → ∀ s, σ'.Instance κ s →
    Finds At q (instantiate σ : Check Located Ty) fun q' t => q'.Use σ t s
  known : ∀ q, p ≤ q → q.registry.Sound → ∀ v,
    .flex v ∈ (q.registry.resolveDeep σ.body).occurrences →
    ∀ n, .flex n ∈ (q.assign v).shown → .flex n ∈ σ'.body.shown

theorem CoversScheme.mono (h : p.CoversScheme σ σ') (hle : p ≤ q) : q.CoversScheme σ σ' :=
  ⟨fun q' hle' => h.uses q' (hle.trans hle'), fun q' hle' => h.known q' (hle.trans hle')⟩

/-! ## Schemes that cover others -/

theorem Filling.isVar (h : q.Filling σ K val f) (x : TyVar) : ∃ y, f x = .var y := by
  cases x with
  | flex v => exact ⟨_, h.flex v⟩
  | gen g =>
    by_cases hopen : σ.Opens (.gen g)
    · obtain ⟨u, hu, -⟩ := h.opened hopen
      exact ⟨_, hu⟩
    · exact ⟨_, h.kept hopen⟩

/-- A constructor takes the components that were declared. -/
theorem Filling.arity_eq (h : q.Filling σ K val f) (hle : p ≤ q) (hσ : p.Suits σ K val)
    (hclosed : ∀ v, .flex v ∉ σ.body.shown) {c d : Ctor} {declared : Ty}
    (hc : (σ.body.subst f).ctor? = some c) (hd : σ.body.norm.ctor? = some d)
    (hdeclared : d.arg = some declared) : q.registry.arity c.arg = declared.components := by
  obtain ⟨-, -, hfits⟩ := (hσ.body hle h).ctor? hc
  obtain ⟨e, he, rfl⟩ := ctor?_of_subst h.isVar hc
  obtain ⟨rest, heq, hrest⟩ := eq_ctor he
  rw [heq, norm_con (by simp)] at hd
  cases rest with
  | nil =>
    cases hd
    cases hdeclared
  | cons u rest =>
    cases hd
    cases hdeclared
    have hu : e.arg = some u := hrest
    have hshown : ∀ x ∈ u.shown, x ∈ σ.body.shown := by
      intro x hx
      rw [heq]
      exact mem_shown_con.mpr ⟨u, by simp, hx⟩
    have hopen : ∀ x ∈ u.shown, ∃ w, f x = .flex w ∧ q.registry.binding? w = none := by
      intro x hx
      rcases hσ.shows x (hshown x hx) with ⟨v, rfl, -⟩ | ⟨hgen, hopens⟩
      · exact absurd (hshown _ hx) (hclosed v)
      · cases x with
        | flex v => cases hgen
        | gen g =>
          obtain ⟨w, hw, hopen, -⟩ := h.opened hopens
          exact ⟨w, hw, hopen⟩
    have harg : q.Fits .type (u.subst f) := hfits _ (by simp [hu])
    rw [hu, map_some, q.obeys.arity_eq_width (fun _ _ hx => hx.2) harg, head,
      width_headN hopen (by unfold fuel; omega), components, components, norm_norm]

/-- A scheme has a use for every choice of values that suit it. -/
theorem finds_use (hσ : p.Suits σ K val) (hfaithful : σ.body.Faithful)
    (hclosed : σ.body.ctor?.isSome → ∀ v, .flex v ∉ σ.body.shown) :
    Finds At p (instantiate σ : Check ε Ty) fun q t =>
      q.Use σ t (σ.body.subst (supply p.assign val)).norm := by
  refine (finds_instantiate σ K val).imp fun q t hle ht => ?_
  obtain ⟨f, hf, rfl⟩ := ht
  refine ⟨⟨f, rfl⟩, fun hc => ?_, hσ.body hle hf, hfaithful.subst fun x => ?_,
    hf.value_eq hle hσ, ?_⟩
  · obtain ⟨c, hc⟩ := isSome_iff_exists.mp hc
    obtain ⟨d, hd, -⟩ := ctor?_of_subst hf.isVar hc
    rw [hd]
    rfl
  · obtain ⟨y, hy⟩ := hf.isVar x
    rw [hy]
    exact .var y
  · intro c d hc hd declared hdeclared
    refine hf.arity_eq hle hσ (hclosed ?_) hc hd hdeclared
    obtain ⟨e, he, -⟩ := ctor?_of_subst hf.isVar hc
    rw [he]
    rfl

/-- The instances of a scheme are uses of one that suits values for each of them. -/
theorem uses_of_suits (hfaithful : σ.body.Faithful)
    (hclosed : σ.body.ctor?.isSome → ∀ v, .flex v ∉ σ.body.shown)
    (hinst : ∀ s, σ'.Instance κ s → ∃ K val, p.Suits σ K val ∧
      (σ.body.subst (supply p.assign val)).norm = s) (hle : p ≤ q) (hs : σ'.Instance κ s) :
    Finds At q (instantiate σ : Check ε Ty) fun q' t => q'.Use σ t s := by
  obtain ⟨K, val, hsuits, rfl⟩ := hinst s hs
  refine (finds_use (hsuits.mono hle) hfaithful hclosed).imp fun q' t _ ht => ?_
  convert ht using 1
  refine norm_subst_congr fun x hx => ?_
  rcases hsuits.shows x hx with ⟨v, rfl, hlt⟩ | ⟨hgen, -⟩
  · exact congrArg norm (hle.assign hlt).symm
  · cases x with
    | flex v => cases hgen
    | gen g => rfl

/-- The scheme of a value covers another one if there are values for every instance
of that. -/
theorem coversScheme_value (hfits : σ.body.Fits True p.Has p.Has .type)
    (hfaithful : σ.body.Faithful)
    (hinst : ∀ s, σ'.Instance κ s → ∃ K val, p.Suits σ K val ∧
      (σ.body.subst (supply p.assign val)).norm = s)
    (hknown : ∀ n, .flex n ∈ (p.value σ.body).shown → .flex n ∈ σ'.body.shown) :
    p.CoversScheme σ σ' := by
  refine ⟨fun q hle s hs => uses_of_suits hfaithful (by simp [hfits.ctor?_eq_none]) hinst hle hs,
    fun q hle hsound v hv n hn => hknown n ?_⟩
  rw [← value_mono hle hfits]
  exact mem_shown_value hsound (hfits.mono (fun _ _ => hle.has) (fun _ _ => hle.has) id)
    hfaithful hv hn

/-- A scheme without free variables covers itself if there are values that suit it for
every instance. -/
theorem coversScheme_closed (hfaithful : σ.body.Faithful) (hclosed : ∀ v, .flex v ∉ σ.body.shown)
    (hσ : ∀ f, (σ.body.norm.IsBody fun u => (u.subst (fillGens f)).Rowed κ .type) →
      ∃ K val, p.Suits σ K val ∧ ∀ g, .gen g ∈ σ.body.shown → val (.gen g) = f g) :
    p.CoversScheme σ σ := by
  refine ⟨fun q hle s hs => uses_of_suits hfaithful (fun _ => hclosed) (fun s hs => ?_) hle hs,
    fun q _ _ v hv => ?_⟩
  · obtain ⟨f, hbody, rfl⟩ := hs
    obtain ⟨K, val, hsuits, hval⟩ := hσ f hbody
    refine ⟨K, val, hsuits, ?_⟩
    rw [norm_subst]
    refine norm_subst_congr fun x hx => ?_
    cases x with
    | flex v => exact absurd hx (hclosed v)
    | gen g => exact congrArg norm (hval g hx)
  · have hsettled : σ.body.Settled := fun w hw => hclosed w (hfaithful.mem_shown hw)
    exact absurd hv (settled_resolveDeepN hsettled _ v)

/-- A scheme of a stage without free variables covers itself. -/
theorem coversScheme_declared {S : Stage True} (hp : p.Meets S) (h : S.FitsBody σ)
    (hfaithful : σ.body.Faithful) (hclosed : ∀ v, .flex v ∉ σ.body.shown) :
    p.CoversScheme σ σ := by
  refine coversScheme_closed hfaithful hclosed fun f hf => ?_
  have hval : ∀ x k, S.role.Has x k → (S.roleOf x).kind = k.kind ∧
      ((S.roleOf x).orDefault κ (fillGens f x)).Rowed κ k := by
    intro x k hx
    rw [Stage.roleOf_eq hx]
    exact ⟨rfl, k.rowed_orDefault κ _⟩
  refine ⟨fun x => (S.roleOf x).kind, fun x => (S.roleOf x).orDefault κ (fillGens f x),
    suits_of_fits h hp (fun v k hx => hp _ _ hx.1) (fun g k hx => hx.2)
      fun g k hx _ => hval _ _ (hx.elim id fun hx => hx.1), fun g hg => ?_⟩
  obtain ⟨k, hk, hfits⟩ := IsBody.of_subst h hf hg
  dsimp only
  rw [Stage.roleOf_eq hk.1]
  exact Role.orDefault_eq hfits

/-- A type covers its value. -/
theorem coversScheme_mono (h : p.Value t s.norm) : p.CoversScheme (.mono t) (.mono s) := by
  have hsuits : p.Suits (.mono t) (fun _ => .type) .var := by
    refine ⟨fun x hx => ?_, fun {q f} hle hf => ?_⟩
    · obtain ⟨k, hk, v, rfl⟩ := Ty.Fits.role_of_shown h.fits hx
      exact .inl ⟨v, rfl, hk.1⟩
    · have hq := (h.mono hle).fits
      rw [show (Scheme.mono t).body.subst f = t from h.subst_eq hf.flex]
      exact .of_value hq (Ty.Fits.parts_eq hq)
  refine coversScheme_value h.fits.has h.faithful (fun s' hs' => ?_) fun n hn => ?_
  · obtain ⟨f, -, rfl⟩ := hs'
    have hvalue : (t.subst (supply p.assign .var)).norm = p.value t :=
      norm_subst_congr fun x _ => rfl
    refine ⟨_, _, hsuits, ?_⟩
    show (t.subst _).norm = (s.norm.subst _).norm
    rw [hvalue, h.eq, h.isMono.rowed.norm_fillGens, norm_norm]
  · rw [show (Scheme.mono t).body = t from rfl, h.eq] at hn
    exact mem_shown_of_norm hn

end Point

end RowTyping
