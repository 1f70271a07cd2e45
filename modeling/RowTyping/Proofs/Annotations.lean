import RowTyping.Proofs.Covering

/-!
# Annotations at a point

Reading an annotation finds whatever type the annotation may stand for. A label
that is met for the first time, and a row that is left open, get a new variable
with the value that was chosen for them.
-/

namespace RowTyping

open Check Table Ty Env List Subst

/-! ## Type names -/

namespace Point

variable {κ : Nat → Role} {p q : Point κ} {s : Ty} {σ : Scheme} {args ss : List Ty}

/-- The type names stand for types of a stage that the point meets, and hide
nothing. -/
def NamesTypes (p : Point κ) (types : Table Scheme) : Prop :=
  ∃ S, p.Meets S ∧ ∀ e ∈ types, S.FitsType e.2 ∧ ∃ n, e.2.Declares n

theorem NamesTypes.mono {types : Table Scheme} (h : p.NamesTypes types) (hle : p ≤ q) :
    q.NamesTypes types :=
  h.imp fun _ h => ⟨h.1.mono hle, h.2⟩

/-- A type name with arguments is found with every meaning that it has for their
values. -/
theorem finds_instantiateWith {S : Stage True} {n : Nat} (hp : p.Meets S) (hσ : S.FitsType σ)
    (hdeclares : σ.Declares n) (hargs : Forall₂ p.Value args ss) (hs : σ.Applied κ ss s)
    (name : String) : Finds At p (instantiateWith name σ args) fun q t => q.Value t s := by
  obtain ⟨f, hf, hrowed, rfl⟩ := hs
  have hparts : ∀ a ∈ args, p.Fits .type a ∧ a.Faithful :=
    forall_mem_of_forall₂ hargs.flip fun _ _ h => ⟨h.fits, h.faithful⟩
  have hlen : σ.vars.length = args.length := by rw [hargs.length_eq, ← hf, length_map]
  obtain ⟨u, hu⟩ : ∃ u, applyArgs name σ args = .ok u := ⟨_, if_pos hlen⟩
  have happlied := (hdeclares.applyArgs hu).1 fun a ha => (hparts a ha).2
  obtain ⟨fa, hfa, rfl⟩ :=
    Stage.appliedTo hσ hp (fun _ _ hx => hx.1) (fun a ha => (hparts a ha).1) hu
  have harg : ∀ h ∈ σ.vars, p.Value (fa (.gen h)) (f h) := by
    rw [← hfa.args, ← hf, forall₂_map_left_iff, forall₂_map_right_iff] at hargs
    exact forall₂_same.mp hargs
  unfold instantiateWith
  rw [hu]
  refine (finds_freshVars (fun x => (S.roleOf x).kind)
    (fun x => (S.roleOf x).orDefault κ (fillGens f x)) _).bind fun q rows hle hrows => finds_pure ?_
  obtain ⟨hkeys, -, hrows⟩ := hrows
  have hg : Stage.Renewal S q.Has (σ.body.subst fa) (ofList rows).image := by
    refine Stage.renewal_image hkeys fun e he => ?_
    obtain ⟨v, hv, hissued, -⟩ := hrows e he
    exact ⟨v, hv, hissued.has (Role.rowed_orDefault κ _ _)⟩
  -- an argument has nothing that is renewed
  have hargq : ∀ h ∈ σ.vars, q.Fits .type ((fa (.gen h)).subst (ofList rows).image) := by
    intro h hh
    rw [(harg h hh).subst_eq hg.flex]
    exact (harg h hh).fits.mono hle
  refine ⟨hfa.fits_renewed (fun _ _ hx => hx.2) hg (fun v _ hv => ⟨hv, v, rfl⟩) hσ hargq
    (fun x k hx => hle.has (hp x k hx)) fun _ _ hx => hx.1,
    State.Sound.discipline.apply happlied fun e he => ?_, ?_⟩
  · obtain ⟨v, hv, -⟩ := hrows e he
    rw [hv]
    exact .var _
  show (((σ.body.subst fa).subst (ofList rows).image).subst (fill q.assign)).norm = _
  rw [norm_subst, subst_subst, subst_subst]
  refine norm_subst_congr fun x hx => ?_
  obtain ⟨k, hk, h, rfl, hparam⟩ := hσ.body.role_of_shown hx
  rw [← subst_subst]
  by_cases hh : h ∈ σ.vars
  · rw [(harg h hh).subst_eq hg.flex]
    exact ((harg h hh).mono hle).eq.trans (harg h hh).isMono.normal.symm
  · have hnorm : σ.body.norm.Fits False (fun _ _ => False) (S.role.HasGen σ.vars) .type :=
      hσ.body.norm
    obtain ⟨k', hk', hrow⟩ := hnorm.of_subst hrowed (hσ.body.mem_shown_norm hx)
    rcases Stage.image_rows hkeys (.gen h) with ⟨-, hnot⟩ | ⟨hin, -⟩
    · exact absurd ⟨hfa.mem_tailOccurrences (fun _ _ hx => hx.2) ⟨hk, h, rfl, hparam⟩ hh hx, rfl⟩
        hnot
    · obtain ⟨v, hv, hissued, -⟩ := hrows _ hin
      dsimp only at hv
      rw [hfa.kept h hh, subst, hv, subst, fill, hissued.assign, Stage.roleOf_eq hk'.1]
      exact congrArg norm (Role.orDefault_eq hrow)

theorem finds_applyName {env Γ : Env} (htypes : p.NamesTypes env.types)
    (hΓ : Γ.types = env.types) (hargs : Forall₂ p.Value args ss) {n : String}
    (hn : NameMeans κ Γ n ss s) :
    Finds At p (applyName env false n args) fun q t => q.Value t s := by
  unfold applyName
  cases hn with
  | declared hn hs =>
    rw [type?, hΓ, ← type?] at hn
    obtain ⟨S, hp, htypes⟩ := htypes
    obtain ⟨hσ, m, hdeclares⟩ := htypes _ (mem_of_lookup hn)
    rw [hn]
    exact finds_instantiateWith hp hσ hdeclares hargs hs n
  | @base b hn hb =>
    rw [type?, hΓ, ← type?] at hn
    cases hargs
    rw [hn]
    rw [hb]
    exact finds_pure (.base p b)

end Point

/-! ## Readers -/

/-- Where a reader is that takes the labels for the types `ρ`: a point, and the
labels that were met. -/
structure Reader (κ : Nat → Role) (ρ : String → Ty) where
  point : Point κ
  labels : Table Ty
  known : ∀ e ∈ labels, point.Value e.2 (ρ e.1)

namespace Reader

variable {κ : Nat → Role} {ρ : String → Ty} {r : Reader κ ρ} {α : Type}

instance : Preorder (Reader κ ρ) := Preorder.lift Reader.point

def At (r : Reader κ ρ) (s : ReadState) : Prop :=
  r.point.At s.state ∧ s.scope = .flexible r.labels

theorem finds_lift {x : Check TypeError α} {Q : Point κ → α → Prop}
    (hx : Finds Point.At r.point x Q) : Finds At r (Read.lift x) fun r' a => Q r'.point a := by
  rintro s ⟨hs, hscope⟩
  obtain ⟨a, st, q, hrun, hle, hq, ha⟩ := hx s.state hs
  exact ⟨a, _, ⟨q, r.labels, fun e he => (r.known e he).mono hle⟩, Read.run_lift_ok hrun, hle,
    ⟨hq, hscope⟩, ha⟩

theorem finds_isFixed_bind {f : Bool → Read α} {Q : Reader κ ρ → α → Prop}
    (h : Finds At r (f false) Q) : Finds At r (Read.isFixed >>= f) Q := by
  rintro s ⟨hs, hscope⟩
  have hrun : (Read.isFixed >>= f).run s = (f false).run s := by
    show (f s.scope.isFixed).run s = _
    rw [hscope]
    rfl
  rw [hrun]
  exact h s ⟨hs, hscope⟩

/-- A label that is met gets a variable for its type, once. -/
theorem finds_label {l : String} (hl : (ρ l).IsMono κ) :
    Finds At r (Read.label l) fun r' t => r'.point.Value t (ρ l) := by
  rintro s ⟨hs, hscope⟩
  cases hlabel : r.labels.lookup l with
  | some t =>
    refine ⟨t, s, r, ?_, le_rfl, ⟨hs, hscope⟩, r.known _ (mem_of_lookup hlabel)⟩
    simp [Read.label, hscope, hlabel]
  | none =>
    obtain ⟨t, st, q, hrun, hle, hq, ht⟩ :=
      Point.finds_freshValue hl s.state hs
    refine ⟨t, ⟨st, .flexible (insert l t r.labels)⟩, ⟨q, insert l t r.labels, ?_⟩, ?_,
      hle, ⟨hq, rfl⟩, ht⟩
    · intro e he
      rcases mem_insert he with rfl | he
      · exact ht
      · exact (r.known e he).mono hle
    · have hlift := Read.run_lift_ok hrun
      simp only [Read.label, EStateM.run_bind, EStateM.run_get, hscope, hlabel]
      rw [hlift]
      rfl

end Reader

namespace TypeExpr

open Reader

variable {κ : Nat → Role} {ρ : String → Ty} {env Γ : Env}

mutual

/-- Reading finds whatever a written type may stand for. -/
theorem finds_read (hΓ : Γ.types = env.types) (hρ : ∀ l, (ρ l).IsMono κ) :
    ∀ (e : TypeExpr) {r : Reader κ ρ} {s : Ty}, r.point.NamesTypes env.types →
    e.Means κ Γ ρ s → Finds At r (e.read env) fun r' t => r'.point.Value t s
  | .name n, r, s, htypes, hmeans => by
    rw [read]
    refine finds_isFixed_bind (finds_lift (Point.finds_applyName htypes hΓ .nil ?_))
    cases hmeans with
    | name hn hs => exact .declared hn hs
    | base hn hb => exact .base hn hb
  | .var l, r, s, htypes, hmeans => by
    rw [read]
    cases hmeans with
    | var => exact finds_label (hρ l)
  | .app n args, r, s, htypes, hmeans => by
    obtain ⟨ss, hargs, hname⟩ : ∃ ss, MeansList κ Γ ρ args ss ∧ NameMeans κ Γ n ss s := by
      cases hmeans with
      | app hn hargs hs => exact ⟨_, hargs, .declared hn hs⟩
      | appBase hn hb => exact ⟨[], .nil, .base hn hb⟩
    rw [read]
    refine (finds_readList hΓ hρ args htypes hargs).bind fun r₁ ts hle hts => ?_
    exact finds_isFixed_bind (finds_lift (Point.finds_applyName (htypes.mono hle) hΓ hts hname))
  | .arrow a b, r, s, htypes, hmeans => by
    rw [read]
    cases hmeans with
    | arrow ha hb =>
      refine (finds_read hΓ hρ a htypes ha).bind fun r₁ ta hle₁ hta =>
        (finds_read hΓ hρ b (htypes.mono hle₁) hb).bind fun r₂ tb hle₂ htb => ?_
      exact finds_pure ((hta.mono hle₂).arrow htb)
  | .tuple items, r, s, htypes, hmeans => by
    rw [read]
    cases hmeans with
    | tuple h =>
      refine (finds_readList hΓ hρ items htypes h).bind fun r₁ ts _ hts => ?_
      exact finds_pure (.tuple hts)
  | .record fields isOpen, r, s, htypes, hmeans => by
    rw [read]
    cases hmeans with
    | record h hnodup =>
      refine (finds_readFields hΓ hρ fields [] htypes h hnodup).bind fun r₁ row _ hrow => ?_
      obtain ⟨bs, rfl, hbs⟩ := hrow
      exact finds_pure hbs.closedRecord
    | @openRecord _ _ row h hnodup hrow =>
      refine (finds_readFields hΓ hρ fields [] htypes h hnodup).bind fun r₁ _ _ hfields => ?_
      obtain ⟨bs, rfl, hbs⟩ := hfields
      refine finds_isFixed_bind
        ((finds_lift (Point.finds_freshVar .row row)).bind fun r₂ t hle ht => ?_)
      obtain ⟨v, rfl, hv, -⟩ := ht
      exact finds_pure ((hbs.mono hle).openRecord hv hrow)

theorem finds_readList (hΓ : Γ.types = env.types) (hρ : ∀ l, (ρ l).IsMono κ) :
    ∀ (es : List TypeExpr) {r : Reader κ ρ} {ss : List Ty}, r.point.NamesTypes env.types →
      MeansList κ Γ ρ es ss →
      Finds At r (readList env es) fun r' ts => Forall₂ r'.point.Value ts ss
  | [], r, ss, htypes, hmeans => by
    rw [readList]
    cases hmeans with
    | nil => exact finds_pure .nil
  | e :: es, r, ss, htypes, hmeans => by
    rw [readList]
    cases hmeans with
    | cons he hes =>
      refine (finds_read hΓ hρ e htypes he).bind fun r₁ t hle₁ ht =>
        (finds_readList hΓ hρ es (htypes.mono hle₁) hes).bind fun r₂ ts hle₂ hts => ?_
      exact finds_pure (.cons (ht.mono hle₂) hts)

theorem finds_readFields (hΓ : Γ.types = env.types) (hρ : ∀ l, (ρ l).IsMono κ) :
    ∀ (es : List (String × TypeExpr)) (done : Table Ty) {r : Reader κ ρ}
      {entries : Table Ty}, r.point.NamesTypes env.types →
      MeansFields κ Γ ρ es entries → (done.map (·.1) ++ entries.map (·.1)).Nodup →
      Finds At r (readFields env es (.ofList done)) fun r' fields =>
        ∃ bs, fields = .ofList (done ++ bs) ∧ r'.point.Values bs entries
  | [], done, r, entries, htypes, hmeans, _ => by
    rw [readFields]
    cases hmeans with
    | nil => exact finds_pure ⟨[], by simp, .nil⟩
  | (l, e) :: es, done, r, entries, htypes, hmeans, hnodup => by
    rw [readFields]
    cases hmeans with
    | cons he hes =>
      refine (finds_read hΓ hρ e htypes he).bind fun r₁ t hle₁ ht => ?_
      rw [if_neg (not_isSome_lookup_ofList hnodup), ← ofList_concat]
      refine (finds_readFields hΓ hρ es _ (htypes.mono hle₁) hes (by simpa using hnodup)).imp
        fun r₂ fields hle₂ hfields => ?_
      obtain ⟨bs, rfl, hbs⟩ := hfields
      exact ⟨(l, t) :: bs, by simp, .cons ⟨rfl, ht.mono hle₂⟩ hbs⟩

end

/-- An annotation is found with every type that it asks for. -/
theorem finds_annotated {p : Point κ} {s : Ty} {e : TypeExpr} (htypes : p.NamesTypes env.types)
    (hΓ : Γ.types = env.types) (he : e.Annotates κ Γ s) (span : Span) :
    Finds Point.At p (e.annotated env span) fun q t => q.Value t s := by
  obtain ⟨ρ, hρ, hmeans⟩ := he
  refine Point.finds_located (fun st hst => ?_) span
  obtain ⟨t, st', r, hrun, hle, hr, ht⟩ := finds_read hΓ hρ e (r := ⟨p, [], by simp⟩) htypes hmeans
    ⟨st, .fresh⟩ ⟨hst, rfl⟩
  exact ⟨t, st'.state, r.point, run_denote_ok hrun, hle, hr.1, ht⟩

end TypeExpr

end RowTyping
