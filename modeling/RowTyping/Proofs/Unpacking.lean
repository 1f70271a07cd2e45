import RowTyping.Proofs.Generality
import RowTyping.Proofs.PrincipalTypes

/-!
# Taking constructors apart

A value that a constructor was applied to can be had back by matching. The two
uses of the constructor are tied together by the type that it belongs to, which
tells the argument's type as far as that is made of parameters. So what may be done
with the match may be done with the argument itself, as long as the declaration
leaves no row open.
-/

namespace RowTyping

open Check Table Ty RowTyping.Expr List

namespace Expr

/-- The constructor is applied, and taken off again to give the argument a name. -/
def unpack (spans : Span × Span) (c : String) (e : Expr) (x : String) (body : Expr) : Expr :=
  .cases spans.1 (.construct spans.2 c (some e)) [(.construct c (some (.var x)), body)]

/-- The argument gets the name directly. -/
def pass (spans : Span × Span) (e : Expr) (x : String) (body : Expr) : Expr :=
  .app spans.1 (.lam spans.2 x none body) e

variable {spans : Span × Span} {c x : String} {e body : Expr}

theorem paths_unpack (he : e.Paths fun _ => True) (hbody : body.Paths (· ≠ x)) :
    (unpack spans c e x body).Paths fun _ => True := by
  simpa [unpack, Paths, PathsArms, Pattern.names, he] using hbody

theorem paths_pass (he : e.Paths fun _ => True) (hbody : body.Paths (· ≠ x)) :
    (pass spans e x body).Paths fun _ => True := by
  simpa [pass, Paths, he] using hbody

end Expr

/-! ## Both in the declarative system -/

namespace Scheme

variable {κ : Nat → Role} {σ : Scheme} {ctor : Ctor} {declared : Ty}

/-- Two instances of a constructor that belong to the same type take the same argument,
if the declaration leaves no row open. -/
theorem Nominal.arg_eq (hn : σ.Nominal) (hctor : σ.body.ctor? = some ctor)
    (harg : ctor.arg = some declared) (hrows : ∀ g, .gen g ∈ declared.shown → g ∈ σ.vars)
    {name name' : String} {owner s s' : Ty} (h : σ.Instance κ (.ctor name owner (some s)))
    (h' : σ.Instance κ (.ctor name' owner (some s'))) : s = s' := by
  obtain ⟨id, f, howner, hs⟩ := hn.instance_eq hctor h
  obtain ⟨id', f', howner', hs'⟩ := hn.instance_eq hctor h'
  have hparams := (con.inj (howner.symm.trans howner')).2
  rw [harg] at hs hs'
  cases hs
  cases hs'
  refine norm_subst_congr fun y hy => ?_
  cases y with
  | flex v => rfl
  | gen g => exact map_inj_left.mp hparams g (hrows g hy)

/-- An instance of a declared scheme has instances, which are again such. -/
theorem Instance.subst {G : Prop} {S : Stage G} (hfits : S.FitsBody σ)
    (hclosed : ∀ v, .flex v ∉ σ.body.shown) {role : Nat → Role} {θ : Nat → Ty} {s : Ty}
    (h : σ.Instance role s) (hθ : ∀ v, (θ v).Rowed κ (role v)) :
    σ.Instance κ (s.subst (fill θ)).norm := by
  obtain ⟨f, hbody, rfl⟩ := h
  refine ⟨fun g => (f g).norm.subst (fill θ), ⟨hbody.size, fun w hw => ?_⟩, ?_⟩
  · have hparts := hw
    rw [hfits.parts_norm] at hparts
    obtain ⟨u, hu, rfl⟩ := mem_map.mp hparts
    have hnorm : u.norm.Fits False (fun _ _ => False) (S.Shows σ) .type := (hfits.parts u hu).norm
    refine Fits.subst hnorm.restrict (fun y k hy => ?_) (fun _ _ hy => hy.elim)
      fun _ _ hy => hy.elim
    obtain ⟨hk, hshown⟩ := hy
    cases y with
    | flex v =>
      exact absurd (mem_shown_parts.mpr ⟨u, hu, mem_shown_of_norm hshown⟩) (hclosed v)
    | gen g =>
      obtain ⟨k', hk', hg⟩ := hnorm.of_subst (hbody.parts u.norm hw) hshown
      cases hk.1.eq hk'.1
      exact Rowed.subst_norm hg fun v _ => hθ v
  · rw [norm_subst, subst_subst]
    refine norm_subst_congr fun y hy => ?_
    cases y with
    | flex v => exact absurd (mem_shown_of_norm hy) (hclosed v)
    | gen g => exact (norm_subst (fill θ) (f g)).symm

/-- The constructor takes arguments of the type as it is. -/
def Accepts (σ : Scheme) (u : Ty) : Prop :=
  ∃ role name owner, u.Rowed role .type ∧ σ.Instance role (.ctor name owner (some u.norm))

/-- A constructor whose argument is a parameter takes every type. -/
theorem Nominal.accepts (hn : σ.Nominal)
    (hbody : σ.body = .ctor ctor.name ctor.owner ctor.arg) {g : Nat}
    (harg : ctor.arg = some (.gen g)) {u : Ty} (hu : u.Rowed κ .type) : σ.Accepts u := by
  obtain ⟨id, labels, howner⟩ := hn ctor (by rw [hbody, ctor?_ctor])
  have hs : u.norm.IsMono κ := ⟨norm_norm u, hu.norm⟩
  let f : Nat → Ty := fun h => if h = g then u.norm else .base .unit
  have hf : ∀ h, (f h).Rowed κ .type := by
    intro h
    by_cases hg : h = g
    · simpa [f, hg] using hs.rowed
    · rw [show f h = .base .unit from if_neg hg]
      exact .base .unit
  have hfg : subst (fillGens f) (.gen g) = u.norm := by simp [subst, fillGens, f]
  obtain ⟨owner, hnorm, hrowed⟩ : ∃ owner : Ty,
      σ.body.norm = .con (.ctor ctor.name) [owner, .gen g] ∧
        (owner.subst (fillGens f)).Rowed κ .type := by
    refine ⟨.con (.variant id []) (σ.vars.map gen), ?_, ?_⟩
    · rw [hbody, harg, howner, Ty.ctor]
      simp [Con.plain, Ty.norm, normList_eq]
    · rw [subst, substList_eq]
      refine .con (by simp [Con.IsFormer]) (by simp) fun u hu => ?_
      rw [map_map] at hu
      obtain ⟨h, -, rfl⟩ := mem_map.mp hu
      exact hf h
  refine ⟨κ, ctor.name, (owner.subst (fillGens f)).norm, hu, f, ?_, ?_⟩
  · rw [hnorm]
    refine ⟨by simp [parts], forall_mem_cons.mpr ⟨hrowed, forall_mem_singleton.mpr ?_⟩⟩
    rw [hfg]
    exact hs.rowed
  · rw [hnorm, subst, substList_eq, norm_con (by simp), map_cons, map_singleton,
      hfg, map_cons, map_singleton, hs.normal]
    rfl

/-- What takes a type takes all its instances. -/
theorem Accepts.exists_instance {G : Prop} {S : Stage G} (hfits : S.FitsBody σ)
    (hclosed : ∀ v, .flex v ∉ σ.body.shown) {u s : Ty} (h : σ.Accepts u)
    (hs : s.InstanceOf κ u) (hnormal : s.norm = s) :
    ∃ name owner, σ.Instance κ (.ctor name owner (some s)) := by
  obtain ⟨role, name, owner, hu, hinstance⟩ := h
  obtain ⟨role', θ, hu', hθ, heq⟩ := hs
  let η : Nat → Ty := fun v => if .flex v ∈ u.shown then θ v else (role v).default
  have hη : ∀ v, (η v).Rowed κ (role v) := by
    intro v
    by_cases hv : .flex v ∈ u.shown
    · rw [show η v = θ v from if_pos hv, hu.role_eq hu' hv]
      exact hθ v hv
    · rw [show η v = (role v).default from if_neg hv]
      exact (role v).rowed_default κ
  have hvalue : (u.norm.subst (fill η)).norm = s := by
    rw [norm_subst, ← hnormal, heq]
    refine norm_subst_congr fun y hy => ?_
    cases y with
    | flex v => rw [fill, fill, show η v = θ v from if_pos hy]
    | gen g => rfl
  have hη := hinstance.subst hfits hclosed hη
  refine ⟨name, (owner.subst (fill η)).norm, ?_⟩
  rw [← hvalue]
  exact hη

end Scheme

namespace HasType

variable {κ : Nat → Role} {Γ : Env} {spans spans' : Span × Span} {c x : String} {e body : Expr}
  {σ : Scheme} {ctor : Ctor} {declared r s : Ty}

/-- What was put into a constructor comes back. -/
theorem of_unpack (hc : Γ.value? c = some σ) (hn : σ.Nominal) (hctor : σ.body.ctor? = some ctor)
    (harg : ctor.arg = some declared) (hrows : ∀ g, .gen g ∈ declared.shown → g ∈ σ.vars)
    (h : HasType κ Γ (.unpack spans c e x body) r) :
    ∃ s, HasType κ Γ e s ∧ HasType κ (Γ.addValue x (.mono s)) body r := by
  cases h with
  | cases hscrutinee _ harms =>
    cases hscrutinee with
    | construct hc' hs he =>
      cases harms with
      | cons hp hbody _ =>
        cases hp with
        | construct hc'' _ _ _ hs' hp =>
          rw [hc] at hc' hc''
          cases hc'
          cases hc''
          cases hn.arg_eq hctor harg hrows hs hs'
          cases hp with
          | var => exact ⟨_, he, hbody⟩

theorem pass (hs : s.IsMono κ) (he : HasType κ Γ e s)
    (hbody : HasType κ (Γ.addValue x (.mono s)) body r) :
    HasType κ Γ (.pass spans e x body) r :=
  .app (.lam hs (by simp) hbody) he

theorem of_pass (h : HasType κ Γ (.pass spans e x body) r) :
    ∃ s, HasType κ Γ e s ∧ HasType κ (Γ.addValue x (.mono s)) body r := by
  cases h with
  | app hfunc he =>
    cases hfunc with
    | lam _ _ hbody => exact ⟨_, he, hbody⟩

theorem unpack {G : Prop} {S : Stage G} (hc : Γ.value? c = some σ) (hfits : S.FitsBody σ)
    (hctor : σ.body.ctor? = some ctor) (harg : ctor.arg = some declared) {name : String}
    {owner : Ty}
    (hinstance : σ.Instance κ (.ctor name owner (some s))) (hr : r.IsMono κ)
    (he : HasType κ Γ e s) (hbody : HasType κ (Γ.addValue x (.mono s)) body r) :
    HasType κ Γ (.unpack spans c e x body) r := by
  obtain ⟨hσ, -, hdeclared⟩ := hfits.ctor? hctor
  have hctor' : σ.body.norm.ctor? = some ⟨ctor.name, ctor.owner.norm, some declared.norm⟩ := by
    rw [hσ, harg, Ty.ctor]
    rfl
  have hwidth : declared.norm.components ≠ .count 0 := by
    have hnorm : declared.norm.Fits False (fun _ _ => False) (S.Shows σ) .type :=
      (hdeclared declared harg).norm
    rw [components, norm_norm]
    exact hnorm.width_ne_zero
  have harity : declared.norm.components.agrees (.ofPattern (some (.var x))) = true := by
    cases hcomponents : declared.norm.components with
    | any => rfl
    | count n =>
      rw [hcomponents] at hwidth
      simpa [Arity.agrees, Arity.ofPattern] using hwidth
  exact .cases (.construct hc hinstance he) hr
    (.cons (.construct hc hctor' rfl harity hinstance (.var x s)) hbody .nil)

end HasType

/-! ## Inference in program environments -/

namespace Stage.Describes

variable {S : Stage True} {env : Env} {st st' : State} {e : Expr} {s t : Ty} {κ : Nat → Role}

/-- What inference finds where only declarations were made is a type of the
expression. -/
theorem hasType (h : S.Describes env st) (he : e.Paths fun _ => True)
    (hrun : (e.infer env).run st = .ok t st') : ∃ κ, HasType κ env e.tidy t.norm := by
  obtain ⟨S', hle, -, hyield⟩ := e.leads_infer h.declared.fitsEnv st h.state.1
  obtain ⟨u, hu, rfl⟩ := hyield _ _ hrun
  obtain ⟨κ, hrich, hκ⟩ := S'.exists_rich
  have hunder : env.Under (S'.through .flex) (fun _ => True) env := by
    refine ⟨rfl, fun {x σ} hx => ?_⟩
    have hclosed := (h.declared.values _ (mem_of_lookup hx)).closed trivial
    exact ⟨σ, hx, (value_of_closed hclosed _).symm, fun _ => ⟨rfl, hclosed⟩⟩
  have htyped := hu.typed ⟨hrich, solves_through (assigns_flex hκ), fun _ _ => trivial, hunder⟩ he
  rw [value_through S'.role.allows_hasFlex hu.fits, value_flex] at htyped
  exact ⟨κ, htyped⟩

/-- Whatever type an expression has, inference finds a type that it is an instance
of. -/
theorem infer_of_hasType (h : S.Describes env st) (hsorted : Sorted env.values)
    (he : e.Paths fun _ => True) (htype : HasType κ env e.tidy s) :
    s.IsMono κ ∧ ∃ t st', (e.infer env).run st = .ok t st' ∧ s.InstanceOf κ t := by
  obtain ⟨p, hp, hmeets⟩ := Point.exists_meets S κ
  have henv := Point.realizes_declared hmeets h.declared (h.sound trivial) hsorted
  obtain ⟨hs, t, st', hrun, θ, hθ, heq⟩ := infer_of_finds ⟨h.state.1.trans hp.symm,
    h.state.2 trivial⟩ (e.finds_type (.inr ⟨trivial, he⟩) htype henv)
  -- the variables of what is found have roles, and so has what stands in their place
  obtain ⟨S', -, -, hyield⟩ := e.leads_infer h.declared.fitsEnv st h.state.1
  obtain ⟨u, hu, rfl⟩ := hyield _ _ hrun
  have hrowed : (S'.registry.resolveDeep u).Rowed (fun v => S'.roleOf (.flex v)) .type := by
    refine Ty.Fits.mono hu.fits.resolveDeep ?_ (fun _ _ _ => trivial) False.elim
    rintro x k ⟨hx, v, rfl⟩
    exact ⟨v, rfl, roleOf_eq hx⟩
  refine ⟨hs, _, st', hrun, _, θ, hrowed, fun v hv => ?_, hs.normal.trans heq⟩
  obtain ⟨k, ⟨w, hw, rfl⟩, hfits⟩ := Fits.of_subst hrowed hθ hv
  cases hw
  exact hfits

end Stage.Describes

/-- What was put into a constructor comes back when it is matched. In the environment
of a program whose synonyms use their parameters and are no mere names for them, let a
constructor be declared with an argument that leaves no row open. If the match that
takes it off its argument again has a type, then so has the function that is the arm,
applied to the argument itself, and the type of the match is an instance of that one.
They are the same but for the names of variables if the constructor takes the
argument's type as it is. -/
theorem infer_pass_of_infer_unpack {env₀ : Env} {s₀ st st' : State} {ds : List Decl}
    {report : Report} {spans spans' : Span × Span} {c x : String} {σ : Scheme} {ctor : Ctor}
    {declared t : Ty} {e body : Expr} (hstart : Start env₀ s₀)
    (hds : ∀ d ∈ ds, d.UsesParams ∧ d.Solid) (hprogram : checkProgram env₀ ds s₀ = (report, st))
    (hc : report.env.value? c = some σ) (hctor : σ.body.ctor? = some ctor)
    (harg : ctor.arg = some declared) (hrows : ∀ g, .gen g ∈ declared.shown → g ∈ σ.vars)
    (he : e.Paths fun _ => True) (hbody : body.Paths (· ≠ x))
    (hrun : ((Expr.unpack spans c e x body).infer report.env).run st = .ok t st') :
    ∃ t' st'', ((Expr.pass spans' e x body).infer report.env).run st = .ok t' st'' ∧
      (∃ κ, t.InstanceOf κ t') ∧
      ((∀ u st₁, (e.infer report.env).run st = .ok u st₁ → σ.Accepts u) → t.Renames t') := by
  obtain ⟨S₀, hS₀⟩ := Stage.describes_start (G := True) hstart
  obtain ⟨S, -, hS⟩ := hS₀.checkProgram ds fun _ => hds
  have hsorted := sorted_checkProgram hstart ds
  rw [hprogram] at hS hsorted
  have hσ := hS.declared.values _ (Table.mem_of_lookup hc)
  obtain ⟨κ, htyped⟩ := hS.hasType (Expr.paths_unpack he hbody) hrun
  change HasType κ report.env (.unpack spans c e.tidy x body.tidy) t.norm at htyped
  obtain ⟨s, hes, hbodyr⟩ := htyped.of_unpack hc hσ.nominal hctor harg hrows
  obtain ⟨hs, -⟩ := hS.infer_of_hasType hsorted he hes
  have hpass : HasType κ report.env (.pass spans' e.tidy x body.tidy) t.norm := .pass hs hes hbodyr
  obtain ⟨-, t', st'', hrun', ht'⟩ := hS.infer_of_hasType hsorted (Expr.paths_pass he hbody) hpass
  refine ⟨t', st'', hrun', ⟨κ, ht'.of_norm⟩, fun haccepts => ?_⟩
  -- every type that the argument has is then taken, also the one that the application uses
  obtain ⟨κ', hpass'⟩ := hS.hasType (Expr.paths_pass he hbody) hrun'
  change HasType κ' report.env (.pass spans' e.tidy x body.tidy) t'.norm at hpass'
  obtain ⟨s', hes', hbodyr'⟩ := hpass'.of_pass
  obtain ⟨hs', u, st₁, hu, hinst⟩ := hS.infer_of_hasType hsorted he hes'
  obtain ⟨hr', -⟩ := hS.infer_of_hasType hsorted (Expr.paths_pass he hbody) hpass'
  obtain ⟨name, owner, hinstance⟩ :=
    (haccepts u st₁ hu).exists_instance hσ.fits.body (hσ.closed trivial) hinst hs'.normal
  have hunpack : HasType κ' report.env (.unpack spans c e.tidy x body.tidy) t'.norm :=
    .unpack hc hσ.fits.body hctor harg hinstance hr' hes' hbodyr'
  obtain ⟨-, t₁, st₁, hrun₁, ht₁⟩ :=
    hS.infer_of_hasType hsorted (Expr.paths_unpack he hbody) hunpack
  rw [hrun] at hrun₁
  cases hrun₁
  exact ht'.of_norm.renames ht₁.of_norm

/-- A type of boxes for anything. -/
def boxes : List Decl := [.type {} "box" ["a"] (.variant [("Box", some (.var "a"))])]

/-- A function is put into a box and taken out again. -/
theorem box_unpacked :
    let report := (checkProgram .empty boxes {}).1
    let st := (checkProgram .empty boxes {}).2
    let box : Ctor := ⟨"Box", .con (.variant 0 ["a"]) [.gen 0], some (.gen 0)⟩
    let σ : Scheme := ⟨[0], .ctor box.name box.owner box.arg⟩
    let identity : Expr := .lam {} "z" none (.var {} "z")
    let body : Expr := .var {} "f"
    Start .empty {} ∧ (∀ d ∈ boxes, d.UsesParams ∧ d.Solid) ∧
      report.env.value? "Box" = some σ ∧ σ.body.ctor? = some box ∧
      (∀ g, .gen g ∈ (Ty.gen 0).shown → g ∈ σ.vars) ∧
      (identity.Paths fun _ => True) ∧ body.Paths (· ≠ "f") ∧
      ((Expr.unpack ({}, {}) "Box" identity "f" body).infer report.env).result? st =
        some (.arrow (.flex 1) (.flex 1)) ∧
      (∀ u st₁, (identity.infer report.env).run st = .ok u st₁ → σ.Accepts u) ∧
      ∃ t' st', ((Expr.pass ({}, {}) identity "f" body).infer report.env).run st = .ok t' st' ∧
        (∃ κ, Ty.InstanceOf κ (.arrow (.flex 1) (.flex 1)) t') ∧
        Ty.Renames (.arrow (.flex 1) (.flex 1)) t' := by
  intro report st box σ identity body
  have hds : ∀ d ∈ boxes, d.UsesParams ∧ d.Solid :=
    List.forall_mem_singleton.mpr ⟨trivial, trivial⟩
  have hc : report.env.value? "Box" = some σ := by decide +kernel
  have hrows : ∀ g, .gen g ∈ (Ty.gen 0).shown → g ∈ σ.vars := by simp [σ]
  have he : identity.Paths fun _ => True := by simp [identity, Expr.Paths]
  have hbody : body.Paths (· ≠ "f") := by simp [body, Expr.Paths]
  have ht : ((Expr.unpack ({}, {}) "Box" identity "f" body).infer report.env).result? st =
      some (.arrow (.flex 1) (.flex 1)) := by decide +kernel
  have haccepts : ∀ u st₁, (identity.infer report.env).run st = .ok u st₁ → σ.Accepts u := by
    intro u st₁ hu
    have hresult : (identity.infer report.env).result? st = some (.arrow (.flex 0) (.flex 0)) := by
      decide +kernel
    rw [Check.result?, hu] at hresult
    cases hresult
    have hnominal : σ.Nominal := by
      intro c hc
      cases hc
      exact ⟨0, ["a"], rfl⟩
    have hbox : σ.body = .ctor box.name box.owner box.arg := rfl
    have hflex : (Ty.flex 0).Rowed (fun _ => .type) .type := .var ⟨0, rfl, rfl⟩
    exact hnominal.accepts hbox rfl (.arrow hflex hflex)
  obtain ⟨t', st', hrun, hinst, hback⟩ := infer_pass_of_infer_unpack .empty hds rfl hc rfl rfl hrows
    he hbody (Check.run_of_result? ht)
  exact ⟨.empty, hds, hc, rfl, hrows, he, hbody, ht, haccepts, t', st', hrun, hinst, hback haccepts⟩

/-- A type of records that have `x` and may have more. -/
def openings : List Decl :=
  [.type {} "t" [] (.variant [("A", some (.record [("x", .name "int")] true))])]

/-- A row that a declaration leaves open is another one at every use. The match then
finds a field that the record does not have. -/
theorem openRow_unpacked :
    let report := (checkProgram .empty openings {}).1
    let st := (checkProgram .empty openings {}).2
    let record : Expr := .record {} [("x", .lit {} .int), ("y", .lit {} .bool)]
    let body : Expr := .field {} (.var {} "r") "z"
    report.errors = [] ∧
      ((Expr.unpack ({}, {}) "A" record "r" body).infer report.env).result? st ≠ none ∧
      ((Expr.pass ({}, {}) record "r" body).infer report.env).result? st = none := by
  decide +kernel

end RowTyping
