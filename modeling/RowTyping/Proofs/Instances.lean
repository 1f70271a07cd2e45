import RowTyping.Proofs.Agreement
import RowTyping.Proofs.Declarative
import RowTyping.Proofs.Written

/-!
# Schemes at a stage

A scheme fits a stage when it shows no generalized variable that a use of it does
not replace. A use puts a new variable in the place of each, with the role that
it had, and what comes out is an instance of the scheme under every assignment
that solves the stage. The schemes of type names are treated alike: their
parameters are replaced by arguments, and the rows they leave open by new
variables, or by new generalized ones in a declaration.
-/

namespace RowTyping

open Check Registry Ty List Scheme Subst

/-- What a declaration may show: its parameters, and generalized variables that
stand for rows. -/
def Roles.HasGen (ρ : Roles) (params : List Nat) (x : TyVar) (k : Role) : Prop :=
  ρ.Has x k ∧ ∃ g, x = .gen g ∧ (k = .type → g ∈ params)

/-- A type of the system has no generalized variables to replace. -/
theorem Ty.Rowed.norm_fillGens {κ : Nat → Role} {k : Role} {t : Ty} (h : t.Rowed κ k)
    (f : Nat → Ty) : (t.subst (fillGens f)).norm = t.norm := by
  conv_rhs => rw [← subst_var t]
  refine norm_subst_congr fun x hx => ?_
  obtain ⟨k, v, rfl, -⟩ := h.role_of_shown hx
  rfl

/-- What takes the place of the variables when a scheme is instantiated with these
entries. -/
structure Scheme.Fills (σ : Scheme) (es : List (TyVar × Ty)) (f : TyVar → Ty) : Prop where
  flex : ∀ v, f (.flex v) = .flex v
  opened : ∀ {g}, σ.Opens (.gen g) → (.gen g, f (.gen g)) ∈ es
  kept : ∀ {g}, ¬ σ.Opens (.gen g) → f (.gen g) = .gen g

theorem Scheme.fills_image {σ : Scheme} {es : List (TyVar × Ty)}
    (hkeys : es.map (·.1) = σ.replaced) : σ.Fills es (ofList es).image := by
  have hmem : ∀ x, x ∈ es.map (·.1) ↔ σ.Opens x ∧ x.isGen = true := by
    intro x
    rw [hkeys, replaced, mem_append, mem_filter, mem_filter, openTails]
    cases x with
    | flex v => simp [TyVar.isGen]
    | gen g =>
      by_cases htail : TyVar.gen g ∈ σ.body.tailOccurrences <;> simp [Opens, TyVar.isGen, htail]
  refine ⟨fun v => ?_, fun {g} hopen => ?_, fun {g} hclosed => ?_⟩
  · rcases image_cases es (.flex v) with ⟨heq, -⟩ | hin
    · exact heq
    · cases ((hmem _).mp (mem_map_of_mem hin)).2
  · rcases image_cases es (.gen g) with ⟨-, hnot⟩ | hin
    · exact absurd ((hmem _).mpr ⟨hopen, rfl⟩) hnot
    · exact hin
  · rcases image_cases es (.gen g) with ⟨heq, -⟩ | hin
    · exact heq
    · exact absurd ((hmem _).mp (mem_map_of_mem hin)).1 hclosed

namespace Stage

variable {G : Prop} {S S' : Stage G} {H V : TyVar → Role → Prop} {k : Role} {t : Ty} {σ : Scheme}
  {κ : Nat → Role} {θ : Nat → Ty} {f : TyVar → Ty}

/-- Types and rows of the system for the variables, each with its role. -/
def Assigns (S : Stage G) (κ : Nat → Role) (θ : Nat → Ty) : Prop :=
  ∀ v k, S.role.Has (.flex v) k → (θ v).Rowed κ k

/-- An assignment that satisfies the stage. -/
structure Solves (S : Stage G) (κ : Nat → Role) (θ : Nat → Ty) : Prop where
  rowed : S.Assigns κ θ
  satisfies : S.Satisfies θ

theorem Solves.mono (h : S'.Solves κ θ) (hle : S ≤ S') : S.Solves κ θ :=
  ⟨fun v k hv => h.rowed v k (hle.role hv), h.satisfies.mono hle⟩

namespace Assigns

variable (h : S.Assigns κ θ)
include h

/-- Under an assignment a type keeps its role and the generalized variables that
it shows. -/
theorem fits (hV : S.role.Allows V) (ht : t.Fits G S.role.Has V k) :
    (t.subst (fill θ)).Fits False (fun _ _ => True)
      (fun x k => Role.Of κ x k ∨ (∃ g, x = .gen g) ∧ V x k) k := by
  refine Fits.subst (ht.mono (fun _ _ => id) (fun _ _ => id) False.elim)
    (fun x k hx => ?_) (fun x k hx => ?_) fun _ _ _ => trivial
  · cases x with
    | flex v => exact (h v k (hV.role hx)).mono (fun _ _ => .inl) (fun _ _ => id) id
    | gen g => exact .var (.inr ⟨⟨g, rfl⟩, hx⟩)
  · cases x with
    | flex v => exact (h v k hx).mono (fun _ _ _ => trivial) (fun _ _ => id) id
    | gen g => exact .var trivial

theorem rowed_subst (ht : S.Fits k t) : (t.subst (fill θ)).Rowed κ k := by
  refine (h.fits S.role.allows_hasFlex ht).mono (fun x k hx => ?_) (fun _ _ => id) id
  rcases hx with hx | ⟨⟨g, rfl⟩, -, v, hv⟩
  · exact hx
  · cases hv

theorem isMono (ht : S.Fits .type t) : (t.value θ).IsMono κ :=
  ⟨norm_norm _, (h.rowed_subst ht).norm⟩

end Assigns

/-! ## Schemes of values -/

/-- What the scheme may show: only open variables. -/
def Shows (S : Stage G) (σ : Scheme) (x : TyVar) (k : Role) : Prop := S.role.Has x k ∧ σ.Opens x

/-- The body of a scheme shows only open variables. -/
def FitsBody (S : Stage G) (σ : Scheme) : Prop :=
  σ.body.IsBody fun t => t.Fits G S.role.Has (S.Shows σ) .type

/-- The scheme of a value. That of a constructor shows no variable that can be
solved. -/
structure FitsScheme (S : Stage G) (σ : Scheme) : Prop where
  body : S.FitsBody σ
  closed : ∀ {name : String} {args : List Ty}, σ.body = .con (.ctor name) args →
    ∀ v, .flex v ∉ σ.body.shown

theorem allows_shows (S : Stage G) (σ : Scheme) : S.role.Allows (S.Shows σ) :=
  ⟨fun {_ _} h => ⟨h.1, by obtain ⟨-, v, rfl⟩ := h; trivial⟩, fun h => h.1⟩

theorem FitsScheme.mono (h : S.FitsScheme σ) (hle : S ≤ S') : S'.FitsScheme σ := by
  refine ⟨h.body.imp fun u hu => ?_, h.closed⟩
  exact hu.mono (fun _ _ hx => ⟨hle.role hx.1, hx.2⟩) (fun _ _ => hle.role) id

theorem fitsScheme_mono (h : S.Fits .type t) : S.FitsScheme (.mono t) := by
  refine ⟨.of_value (Ty.Fits.mono h (fun x k hx => ⟨hx.1, ?_⟩) (fun _ _ => id) id)
    (Ty.Fits.parts_eq h), ?_⟩
  · obtain ⟨-, v, rfl⟩ := hx
    trivial
  · rintro name args rfl
    cases h with
    | con hc => exact absurd rfl (hc.2 name)

/-- The substitution puts new variables in the place of the open generalized ones
of a scheme. -/
structure Opening (S S' : Stage G) (σ : Scheme) (f : TyVar → Ty) : Prop where
  flex : ∀ v, f (.flex v) = .flex v
  opened : ∀ {g}, σ.Opens (.gen g) → ∃ u, f (.gen g) = .flex u ∧
    S'.registry.binding? u = none ∧ ∀ k, S.role.Has (.gen g) k → S'.role.Has (.flex u) k
  kept : ∀ {g}, ¬ σ.Opens (.gen g) → f (.gen g) = .gen g

namespace Opening

variable (h : Opening S S' σ f) (hle : S ≤ S')
include h hle

/-- An open variable goes to a variable with its role. -/
theorem fits_open {x : TyVar} (hx : S.Shows σ x k) : S'.Fits k (f x) := by
  cases x with
  | flex v =>
    rw [h.flex]
    exact fits_flex.mpr (hle.role hx.1)
  | gen g =>
    obtain ⟨u, hu, -, hrole⟩ := h.opened hx.2
    rw [hu]
    exact fits_flex.mpr (hrole k hx.1)

theorem fits_hidden {x : TyVar} (hx : S.role.Has x k) : (f x).Fits G S'.role.Has S'.role.Has k := by
  by_cases hopen : σ.Opens x
  · exact Ty.Fits.mono (h.fits_open hle ⟨hx, hopen⟩) (fun _ _ hx => hx.1) (fun _ _ => id) id
  · cases x with
    | flex v => exact absurd trivial hopen
    | gen g =>
      rw [h.kept hopen]
      exact .var (hle.role hx)

theorem fits (ht : t.Fits G S.role.Has (S.Shows σ) k) : S'.Fits k (t.subst f) :=
  Fits.subst ht (fun _ _ => h.fits_open hle) (fun _ _ => h.fits_hidden hle) fun _ _ => hle.role

theorem isBody (hσ : S.FitsBody σ) : (σ.body.subst f).IsBody (S'.Fits .type) :=
  IsBody.map hσ (fun name args => by rw [subst, substList_eq]) (fun _ => h.fits hle)
    fun _ hu => Fits.parts_eq hu

/-- A use of a scheme is an instance of what the scheme is under the
assignment. -/
theorem isInstance (hσ : S.FitsBody σ) (hθ : S'.Solves κ θ) {σ' : Scheme}
    (hbody : σ'.body.norm = σ.body.value θ) : σ'.Instance κ ((σ.body.subst f).value θ) := by
  have hθS := hθ.mono hle
  refine ⟨fun g => (f (.gen g)).subst (fill θ), ?_, ?_⟩
  · rw [hbody]
    have hvalue : (σ.body.value θ).IsBody fun t => t.Fits False (fun _ _ => False)
        (fun x k => Role.Of κ x k ∨ (∃ g, x = .gen g) ∧ S.Shows σ x k) .type := by
      refine IsBody.map hσ (fun name args => ?_) (fun u hu => ?_)
        fun _ hu => hu.parts_eq
      · exact value_con (by simp) args
      · exact (hθS.rowed.fits (S.allows_shows σ) hu).norm
    refine hvalue.imp fun u hu => ?_
    refine hu.subst (fun x k hx => ?_) (fun _ _ => False.elim) fun _ _ => False.elim
    rcases hx with ⟨v, rfl, hv⟩ | ⟨⟨g, rfl⟩, hg⟩
    · exact .var ⟨v, rfl, hv⟩
    · exact hθ.rowed.rowed_subst (h.fits_open hle hg)
  · rw [hbody, value, value, norm_subst, subst_subst, subst_subst]
    refine norm_subst_congr fun x hx => ?_
    cases x with
    | gen g => rfl
    | flex v =>
      -- the assignment shows no generalized variables
      obtain ⟨u, hu, hxu⟩ := mem_shown_parts.mp hx
      obtain ⟨k, hk⟩ := (hσ.parts u hu).role_of_shown hxu
      rw [h.flex]
      exact ((hθS.rowed v k hk.1).norm_fillGens _).symm

end Opening

/-! ## Uses of a scheme -/

section

variable {ε β : Type}

/-- New variables for the members of a list, each with its role. -/
theorem leads_freshVars (role : β → Role) (bs : List β) :
    Leads At S (freshFor freshVar bs : Check ε _) fun S' es => es.map (·.1) = bs ∧
      (∀ w, S'.registry.binding? w = S.registry.binding? w) ∧
      ∀ e ∈ es, ∃ v, e.2 = .flex v ∧ S'.role.Has (.flex v) (role e.1) ∧
        S.registry.varCount ≤ v := by
  induction bs generalizing S with
  | nil => exact leads_pure ⟨rfl, fun _ => rfl, by simp⟩
  | cons b bs ih =>
    refine (leads_freshVar (role b)).bind fun S₁ t hle₁ ht =>
      ih.bind fun S₂ es hle₂ hes => leads_pure ?_
    obtain ⟨v, rfl, hv, hlt, hb₁⟩ := ht
    obtain ⟨hkeys, hb₂, hes⟩ := hes
    refine ⟨by simp [hkeys], fun w => (hb₂ w).trans (hb₁ w), forall_mem_cons.mpr ⟨?_, ?_⟩⟩
    · exact ⟨v, rfl, hle₂.role hv, hlt⟩
    · intro e he
      obtain ⟨u, hu, hrole, hge⟩ := hes e he
      exact ⟨u, hu, hrole, hle₁.registry.varCount_le.trans hge⟩

/-- New generalized variables for the members of a list, each with its role. -/
theorem leads_freshGens (role : β → Role) (bs : List β) :
    Leads At S (freshFor freshGen bs : Check ε _) fun S' es => es.map (·.1) = bs ∧
      (es.map (·.2)).Nodup ∧
      ∀ e ∈ es, S'.role.Has (.gen e.2) (role e.1) ∧ S.registry.nextGen ≤ e.2 := by
  induction bs generalizing S with
  | nil => exact leads_pure ⟨rfl, by simp, by simp⟩
  | cons b bs ih =>
    refine (leads_freshGen (role b)).bind fun S₁ g hle₁ hg =>
      ih.bind fun S₂ es hle₂ hes => leads_pure ?_
    obtain ⟨hg, hge⟩ := hg
    obtain ⟨hkeys, hnodup, hes⟩ := hes
    refine ⟨by simp [hkeys], ?_, forall_mem_cons.mpr ⟨?_, ?_⟩⟩
    · rw [map_cons, nodup_cons]
      refine ⟨fun hmem => ?_, hnodup⟩
      obtain ⟨e, he, heq⟩ := mem_map.mp hmem
      have hlt := S₁.issuedGen hg
      have hle := (hes e he).2
      omega
    · exact ⟨hle₂.role hg, hge⟩
    · intro e he
      exact ⟨(hes e he).1, hle₁.nextGen.trans (hes e he).2⟩

/-- The role that a variable has at a stage. -/
def roleOf (S : Stage G) (x : TyVar) : Role := (S.role x).getD .type

theorem roleOf_eq {x : TyVar} (h : S.role.Has x k) : S.roleOf x = k := by
  rw [roleOf, h]
  rfl

theorem leads_instantiate (S : Stage G) (σ : Scheme) :
    Leads At S (instantiate σ : Check ε Ty) fun S' t =>
      ∃ f, Opening S S' σ f ∧ t = σ.body.subst f := by
  rw [instantiate_eq]
  refine (leads_freshVars S.roleOf _).bind fun S' es hle hes => leads_pure ?_
  obtain ⟨hkeys, hstays, hnew⟩ := hes
  have hfills := fills_image hkeys
  refine ⟨_, ⟨hfills.flex, fun hopen => ?_, hfills.kept⟩, rfl⟩
  obtain ⟨u, hu, hrole, hge⟩ := hnew _ (hfills.opened hopen)
  refine ⟨u, hu, ?_, fun k hk => roleOf_eq hk ▸ hrole⟩
  rw [hstays]
  exact binding?_of_le hge

end

/-! ## Type names -/

/-- The scheme of a type name. It shows its parameters, and rows that it leaves
open. -/
structure FitsType (S : Stage G) (σ : Scheme) : Prop where
  nodup : σ.vars.Nodup
  params : ∀ g ∈ σ.vars, S.role.Has (.gen g) .type
  solid : ∀ x, σ.body ≠ .var x
  body : σ.body.Fits G S.role.Has (S.role.HasGen σ.vars) .type

theorem FitsType.mono (h : S.FitsType σ) (hle : S ≤ S') : S'.FitsType σ where
  nodup := h.nodup
  params g hg := hle.role (h.params g hg)
  solid := h.solid
  body := h.body.mono (fun _ _ hx => ⟨hle.role hx.1, hx.2⟩) (fun _ _ => hle.role) id

/-- A type name applied to arguments shows what they show, and the rows that it
leaves open. -/
structure AppliedTo (S : Stage G) (H V : TyVar → Role → Prop) (σ : Scheme) (args : List Ty)
    (f : TyVar → Ty) : Prop where
  args : σ.vars.map (fun g => f (.gen g)) = args
  flex : ∀ v, f (.flex v) = .flex v
  kept : ∀ g, g ∉ σ.vars → f (.gen g) = .gen g
  fits : (σ.body.subst f).Fits G H (fun x k => V x k ∨ S.role.HasGen [] x k) .type
  solid : ∀ x, σ.body.subst f ≠ .var x

theorem appliedTo (hσ : S.FitsType σ) (hH : ∀ x k, S.role.Has x k → H x k)
    (hV : ∀ x k, V x k → H x k) {name : String} {args : List Ty}
    (hargs : ∀ a ∈ args, a.Fits G H V .type) (h : applyArgs name σ args = .ok t) :
    ∃ f, AppliedTo S H V σ args f ∧ t = σ.body.subst f := by
  obtain ⟨f, rfl, rfl, hkept, hflex⟩ := of_applyArgs hσ.nodup h
  have harg : ∀ g ∈ σ.vars, (f (.gen g)).Fits G H V .type :=
    fun g hg => hargs _ (mem_map_of_mem hg)
  refine ⟨f, ⟨rfl, hflex, hkept, ?_, fun x hx => ?_⟩, rfl⟩
  · refine hσ.body.subst (fun x k hx => ?_) (fun x k hx => ?_) hH
    · obtain ⟨hk, g, rfl, hparam⟩ := hx
      by_cases hg : g ∈ σ.vars
      · cases hk.eq (hσ.params g hg)
        exact (harg g hg).mono (fun _ _ => .inl) (fun _ _ => id) id
      · rw [hkept g hg]
        exact .var (.inr ⟨hk, g, rfl, fun htype => absurd (hparam htype) hg⟩)
    · cases x with
      | flex v =>
        rw [hflex]
        exact .var (hH _ _ hx)
      | gen g =>
        by_cases hg : g ∈ σ.vars
        · cases hx.eq (hσ.params g hg)
          exact (harg g hg).mono hV (fun _ _ => id) id
        · rw [hkept g hg]
          exact .var (hH _ _ hx)
  · obtain ⟨y, hy, -⟩ := eq_var_of_subst hx
    exact hσ.solid y hy

/-- The substitution puts new variables in the place of the generalized tails of a
type, each with its role. -/
structure Renewal (S : Stage G) (H : TyVar → Role → Prop) (t : Ty) (g : TyVar → Ty) : Prop where
  flex : ∀ v, g (.flex v) = .flex v
  tail : ∀ {h}, .gen h ∈ t.tailOccurrences →
    ∃ u, g (.gen h) = .flex u ∧ H (.flex u) (S.roleOf (.gen h))
  kept : ∀ {h}, .gen h ∉ t.tailOccurrences → g (.gen h) = .gen h

/-- What takes the place of a variable when the open rows of a type are renewed. -/
theorem image_rows {rows : List (TyVar × Ty)}
    (hrows : rows.map (·.1) = t.openTails.filter (·.isGen)) (x : TyVar) :
    (ofList rows).image x = .var x ∧ ¬ (x ∈ t.tailOccurrences ∧ x.isGen = true) ∨
      (x, (ofList rows).image x) ∈ rows ∧ x ∈ t.tailOccurrences ∧ x.isGen = true := by
  have hmem : x ∈ rows.map (·.1) ↔ x ∈ t.tailOccurrences ∧ x.isGen = true := by
    rw [hrows, mem_filter, openTails, mem_distinct]
  rcases image_cases rows x with ⟨heq, hnot⟩ | hin
  · exact .inl ⟨heq, mt hmem.mpr hnot⟩
  · exact .inr ⟨hin, hmem.mp (mem_map_of_mem hin)⟩

theorem renewal_image {rows : List (TyVar × Ty)}
    (hkeys : rows.map (·.1) = t.openTails.filter (·.isGen))
    (hrows : ∀ e ∈ rows, ∃ u, e.2 = .flex u ∧ H (.flex u) (S.roleOf e.1)) :
    Renewal S H t (ofList rows).image := by
  refine ⟨fun v => ?_, fun {h} htail => ?_, fun {h} htail => ?_⟩
  · rcases image_rows hkeys (.flex v) with ⟨heq, -⟩ | ⟨-, -, hgen⟩
    · exact heq
    · cases hgen
  · rcases image_rows hkeys (.gen h) with ⟨-, hnot⟩ | ⟨hin, -⟩
    · exact absurd ⟨htail, rfl⟩ hnot
    · exact hrows _ hin
  · rcases image_rows hkeys (.gen h) with ⟨heq, -⟩ | ⟨-, htail', -⟩
    · exact heq
    · exact absurd htail' htail

theorem Renewal.fits_hidden {g : TyVar → Ty} (hg : Renewal S H t g)
    (hH : ∀ x k, S.role.Has x k → H x k) {x : TyVar} (hx : S.role.Has x k) :
    (g x).Fits G H H k := by
  cases x with
  | flex v =>
    rw [hg.flex]
    exact .var (hH _ _ hx)
  | gen h =>
    by_cases htail : .gen h ∈ t.tailOccurrences
    · obtain ⟨u, hu, hrole⟩ := hg.tail htail
      rw [hu]
      exact .var (roleOf_eq hx ▸ hrole)
    · rw [hg.kept htail]
      exact .var (hH _ _ hx)

namespace AppliedTo

variable {H' V' : TyVar → Role → Prop} {args : List Ty} {g : TyVar → Ty}
  (hf : AppliedTo S H V σ args f)
include hf

/-- An argument shows nothing that is renewed. -/
theorem fits_arg (hg : Renewal S S'.role.Has (σ.body.subst f) g) (hle : S ≤ S')
    (hargs : ∀ a ∈ args, S.Fits .type a) {h : Nat} (hh : h ∈ σ.vars) :
    S'.Fits .type ((f (.gen h)).subst g) ∧
      ∀ θ, ((f (.gen h)).subst g).value θ = (f (.gen h)).value θ := by
  have harg := hargs _ (hf.args ▸ mem_map_of_mem hh)
  refine ⟨Ty.Fits.subst harg ?_ (fun _ _ => hg.fits_hidden fun _ _ => hle.role)
    fun _ _ => hle.role, fun θ => ?_⟩
  · rintro x k ⟨hk, v, rfl⟩
    rw [hg.flex]
    exact fits_flex.mpr (hle.role hk)
  · rw [value, subst_subst]
    refine norm_subst_congr fun x hx => ?_
    obtain ⟨k, -, v, rfl⟩ := Ty.Fits.role_of_shown harg hx
    rw [hg.flex]
    rfl

/-- A generalized variable that is no parameter is a tail. -/
theorem mem_tailOccurrences (hV : ∀ x k, V x k → ∃ v, x = .flex v) {h : Nat}
    (hk : S.role.HasGen σ.vars (.gen h) k) (hh : h ∉ σ.vars) (hx : .gen h ∈ σ.body.shown) :
    .gen h ∈ (σ.body.subst f).tailOccurrences := by
  obtain ⟨hk, h', heq, hparam⟩ := hk
  cases heq
  have hshown : .gen h ∈ (σ.body.subst f).shown :=
    mem_shown_subst.mpr ⟨_, hx, by simp [hf.kept h hh]⟩
  rcases hf.fits.mem_tailOccurrences hshown with heq | htype | htail
  · exact absurd heq (hf.solid _)
  · rcases htype with htype | ⟨htype, -⟩
    · obtain ⟨v, hv⟩ := hV _ _ htype
      cases hv
    · exact absurd (hparam (hk.eq htype)) hh
  · exact htail

/-- It is what the type name gives for the values of the arguments. -/
theorem applied (hσ : S.FitsType σ)
    (hargs : ∀ h ∈ σ.vars, ((f (.gen h)).subst g).value θ = (f (.gen h)).value θ)
    (hgen : ∀ h k, S.role.HasGen σ.vars (.gen h) k → .gen h ∈ σ.body.shown →
      (((f (.gen h)).subst g).subst (fill θ)).Rowed κ k) :
    σ.Applied κ (args.map (value θ)) (((σ.body.subst f).subst g).value θ) := by
  refine ⟨fun h => ((f (.gen h)).subst g).value θ, ?_, ?_, ?_⟩
  · rw [← hf.args, map_map]
    exact map_congr_left hargs
  · have hbody : σ.body.norm.Fits False (fun _ _ => False)
        (fun x k => S.role.HasGen σ.vars x k ∧ x ∈ σ.body.shown) .type := hσ.body.restrict.norm
    refine hbody.subst (fun x k hx => ?_) (fun _ _ => False.elim) fun _ _ => False.elim
    obtain ⟨⟨hk, h, rfl, hparam⟩, hx⟩ := hx
    exact (hgen h k ⟨hk, h, rfl, hparam⟩ hx).norm
  · rw [norm_subst, value, subst_subst, subst_subst]
    refine norm_subst_congr fun x hx => ?_
    obtain ⟨k, -, h, rfl, -⟩ := hσ.body.role_of_shown hx
    rw [← subst_subst]
    exact (norm_norm _).symm

variable (hV : ∀ x k, V x k → ∃ v, x = .flex v) (hg : Renewal S H' (σ.body.subst f) g)
  (hV' : ∀ v k, H' (.flex v) k → V' (.flex v) k) (hσ : S.FitsType σ)
  (hargs : ∀ h ∈ σ.vars, ((f (.gen h)).subst g).Fits G H' V' .type)
include hV hg hV' hσ hargs

/-- What stands in the place of the variables that the type name shows. -/
theorem fits_gen {h : Nat} (hk : S.role.HasGen σ.vars (.gen h) k) (hx : .gen h ∈ σ.body.shown) :
    ((f (.gen h)).subst g).Fits G H' V' k := by
  by_cases hh : h ∈ σ.vars
  · cases hk.1.eq (hσ.params h hh)
    exact hargs h hh
  · obtain ⟨u, hu, hrole⟩ := hg.tail (hf.mem_tailOccurrences hV hk hh hx)
    rw [hf.kept h hh, subst, hu]
    exact .var (hV' u k (roleOf_eq hk.1 ▸ hrole))

/-- A type name applied to arguments, with its open rows renewed. -/
theorem fits_renewed (hH : ∀ x k, S.role.Has x k → H' x k) (hVH : ∀ x k, V' x k → H' x k) :
    ((σ.body.subst f).subst g).Fits G H' V' .type := by
  rw [subst_subst]
  refine hσ.body.restrict.subst (fun x k hx => ?_) (fun x k hx => ?_) hH
  · obtain ⟨⟨hk, h, rfl, hparam⟩, hshown⟩ := hx
    exact hf.fits_gen hV hg hV' hσ hargs ⟨hk, h, rfl, hparam⟩ hshown
  · cases x with
    | flex v =>
      rw [hf.flex]
      exact hg.fits_hidden hH hx
    | gen h =>
      by_cases hh : h ∈ σ.vars
      · cases hx.eq (hσ.params h hh)
        exact (hargs h hh).mono hVH (fun _ _ => id) id
      · rw [hf.kept h hh]
        exact hg.fits_hidden hH hx

end AppliedTo

/-- A use of a type name in an annotation. -/
theorem leads_instantiateWith (hσ : S.FitsType σ) {args : List Ty}
    (hargs : ∀ a ∈ args, S.Fits .type a) (name : String) :
    Leads At S (instantiateWith name σ args) fun S' t => S'.Fits .type t ∧ (∀ x, t ≠ .var x) ∧
      ∀ κ θ, S'.Solves κ θ → σ.Applied κ (args.map (value θ)) (t.value θ) := by
  refine (leads_fromExcept (Q := fun _ t => applyArgs name σ args = .ok t) fun _ => id).bind
    fun S₁ t hle₁ ht => (leads_freshVars S₁.roleOf _).bind fun S₂ rows hle₂ hrows => leads_pure ?_
  have hσ₁ := hσ.mono hle₁
  have hargs₁ : ∀ a ∈ args, S₁.Fits .type a := fun a ha => (hargs a ha).mono hle₁
  obtain ⟨f, hf, rfl⟩ := appliedTo hσ₁ (fun _ _ => id) (fun _ _ hx => hx.1) hargs₁ ht
  obtain ⟨hkeys, -, hrows⟩ := hrows
  have hg : Renewal S₁ S₂.role.Has (σ.body.subst f) (ofList rows).image := by
    refine renewal_image hkeys fun e he => ?_
    obtain ⟨u, hu, hrole, -⟩ := hrows e he
    exact ⟨u, hu, hrole⟩
  have harg := fun h (hh : h ∈ σ.vars) => hf.fits_arg hg hle₂ hargs₁ hh
  have hflex : ∀ v k, S₂.role.Has (.flex v) k → S₂.role.HasFlex (.flex v) k :=
    fun v _ hv => ⟨hv, v, rfl⟩
  refine ⟨hf.fits_renewed (fun _ _ hx => hx.2) hg hflex hσ₁ (fun h hh => (harg h hh).1)
    (fun _ _ => hle₂.role) fun _ _ hx => hx.1, fun x hx => ?_, fun κ θ hθ =>
    hf.applied hσ₁ (fun h hh => (harg h hh).2 θ) fun h k hk hx => hθ.rowed.rowed_subst
      (hf.fits_gen (fun _ _ hx => hx.2) hg hflex hσ₁ (fun h hh => (harg h hh).1) hk hx)⟩
  obtain ⟨y, hy, -⟩ := eq_var_of_subst hx
  exact hf.solid y hy

/-- A use of a type name in a declaration with parameters. -/
theorem leads_instantiateDeclared {params : List Nat} (hσ : S.FitsType σ) {args : List Ty}
    (hargs : ∀ a ∈ args, a.Fits G S.role.Has (S.role.HasGen params) .type) (name : String) :
    Leads At S (instantiateDeclared name σ args) fun S' t =>
      t.Fits G S'.role.Has (S'.role.HasGen params) .type ∧ ∀ x, t ≠ .var x := by
  refine (leads_fromExcept (Q := fun _ t => applyArgs name σ args = .ok t) fun _ => id).bind
    fun S₁ t hle₁ ht => (leads_freshGens S₁.roleOf _).bind fun S₂ rows hle₂ hrows => leads_pure ?_
  have hargs₁ : ∀ a ∈ args, a.Fits G S₁.role.Has (S₁.role.HasGen params) .type := fun a ha =>
    (hargs a ha).mono (fun _ _ hx => ⟨hle₁.role hx.1, hx.2⟩) (fun _ _ => hle₁.role) id
  obtain ⟨f, hf, rfl⟩ := appliedTo (hσ.mono hle₁) (fun _ _ => id) (fun _ _ hx => hx.1) hargs₁ ht
  obtain ⟨hkeys, -, hrows⟩ := hrows
  refine ⟨hf.fits.restrict.subst (fun x k hx => ?_) (fun x k hx => ?_) fun _ _ => hle₂.role, ?_⟩
  · have hx' : S₁.role.HasGen params x k := by
      rcases hx.1 with h | ⟨hk, g, rfl, hnil⟩
      · exact h
      · exact ⟨hk, g, rfl, fun htype => absurd (hnil htype) (by simp)⟩
    rcases image_ofGens rows x with ⟨heq, -⟩ | ⟨g', hin, heq⟩
    · rw [heq]
      exact .var ⟨hle₂.role hx'.1, hx'.2⟩
    · rw [heq]
      refine .var ⟨roleOf_eq hx'.1 ▸ (hrows _ hin).1, g', rfl, fun htype => ?_⟩
      -- only tails are renamed, and a tail does not stand for a type
      have htail : x ∈ (σ.body.subst f).tailOccurrences := by
        have := mem_map_of_mem (f := (·.1)) hin
        rw [hkeys, mem_filter, openTails, mem_distinct] at this
        exact this.1
      obtain ⟨front, hfront⟩ := hf.fits.rest_of_tail htail
      have hrest : S₁.role.Has x (.rest front) := hfront.elim (fun h => h.1) fun h => h.1
      cases htype.symm.trans (hx'.1.eq hrest)
  · rcases image_ofGens rows x with ⟨heq, -⟩ | ⟨g', hin, heq⟩
    · rw [heq]
      exact .var (hle₂.role hx)
    · rw [heq]
      exact .var (roleOf_eq hx ▸ (hrows _ hin).1)
  · intro x hx
    obtain ⟨y, hy, -⟩ := eq_var_of_subst hx
    exact hf.solid y hy

end Stage

end RowTyping
