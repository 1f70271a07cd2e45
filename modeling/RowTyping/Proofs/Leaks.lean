import RowTyping.Proofs.TypeSoundness

/-!
# Generalized variables stay in schemes

What inference finds for an expression shows no generalized variable: every use
of a scheme or of a type name replaces those of its quantifiers and those of the
rows that its declaration left open. So a scheme that a value or an expression
gets at the top has no generalized variables in sight but its quantifiers.

The arguments of a synonym are another matter. A row that is left open in an
argument is found only where the target of the synonym shows that argument, so a
synonym has to use its parameters for its arguments to be free of generalized
variables too.
-/

namespace RowTyping

open Check Ty List

/-! ## Environments that declarations build -/

/-- The environments that declarations with the property `P` build, and the
states that they leave behind: from nothing or from the standard environment,
one by one or as programs, also where some are rejected and where types are
inferred in between. -/
inductive Built (P : Decl → Prop) : Env → State → Prop where
  | start {env : Env} {s : State} (h : Start env s) : Built P env s
  | declare {env env' : Env} {s s' : State} {d : Decl} {declared : Declared} (h : Built P env s)
      (hd : P d) (hrun : (d.check env).run s = .ok (env', declared) s') : Built P env' s'
  | reject {env : Env} {s s' : State} {d : Decl} {e : Located} (h : Built P env s) (hd : P d)
      (hrun : (d.check env).run s = .error e s') : Built P env s'
  | program {env : Env} {s : State} {ds : List Decl} (h : Built P env s) (hds : ∀ d ∈ ds, P d) :
      Built P (checkProgram env ds s).1.env (checkProgram env ds s).2
  | infer {env : Env} {s : State} (h : Built P env s) (e : Expr) :
      Built P env (after (e.infer env) s)

namespace Built

variable {P : Decl → Prop} {env : Env} {s : State}

theorem session (h : Built P env s) : Session [] env s := by
  induction h with
  | start h => exact .start h
  | declare _ _ hrun ih => exact .declare ih hrun
  | reject _ _ hrun ih => exact .reject ih hrun
  | program _ _ ih => exact .program ih _
  | infer _ e ih => exact .infer ih e

/-- Where synonyms use their parameters, all types are faithful. -/
theorem sound (h : Built P env s) (huses : ∀ d, P d → d.UsesParams) :
    s.Sound ∧ env.Sound s.registry.nextGen := by
  induction h with
  | start h => exact h.sound
  | @declare _ _ _ _ d _ _ hd hrun ih =>
    obtain ⟨hs, henv⟩ := ih
    obtain ⟨hs', -, hyield⟩ := d.keeps_check henv (huses d hd) _ hs le_rfl
    rw [after_ok hrun] at hs'
    exact ⟨hs', (hyield _ _ hrun).1⟩
  | @reject _ _ _ d _ _ hd hrun ih =>
    obtain ⟨hs, henv⟩ := ih
    obtain ⟨hs', hle, -⟩ := d.keeps_check henv (huses d hd) _ hs le_rfl
    rw [after_error hrun] at hs' hle
    exact ⟨hs', henv.mono hle⟩
  | @program _ _ ds _ hds ih =>
    obtain ⟨hs, henv⟩ := ih
    have hds : ∀ d ∈ ds, d.UsesParams := fun d hd => huses d (hds d hd)
    exact ⟨(checkDecls_sound ds hs henv hds).1.assignNames, (checkDecls_sound ds hs henv hds).2⟩
  | infer _ e ih =>
    obtain ⟨hs, henv⟩ := ih
    obtain ⟨hs', hle, -⟩ := State.Sound.discipline.keeps_infer henv.obeys e _ hs le_rfl
    exact ⟨hs', henv.mono hle⟩

end Built

/-! ## What is shown -/

namespace Stage

variable {G : Prop} {S S' : Stage G} {t : Ty} {k : Role} {σ : Scheme}

theorem Fits.gen_not_mem_shown (h : S.Fits k t) (g : Nat) : .gen g ∉ t.shown := by
  intro hg
  obtain ⟨k, -, v, hv⟩ := h.role_of_shown hg
  cases hv

/-- A scheme that quantifies a type shows no other generalized variables. -/
theorem Quantifies.gen_mem_vars {fixed : List Nat} {close : Nat → Option Nat}
    (hq : S.Quantifies S' fixed t σ close) (ht : S.Fits .type t) {g : Nat}
    (hg : .gen g ∈ σ.body.shown) : g ∈ σ.vars := by
  rw [hq.body] at hg
  obtain ⟨x, hx, hg⟩ := mem_shown_subst.mp hg
  cases x with
  | gen g' => exact absurd hx (ht.resolveDeep.gen_not_mem_shown g')
  | flex v =>
    cases hv : close v with
    | none => simp [closing, fill, hv] at hg
    | some g' =>
      obtain rfl : g = g' := by simpa [closing, fill, hv] using hg
      exact hq.vars hv

end Stage

namespace Decl

/-- The declaration is a value or an expression at the top. -/
def IsValue : Decl → Prop
  | .value .. | .expr .. => True
  | .type .. | .module .. => False

/-- A value or an expression gets a scheme that quantifies the generalized
variables that it shows. -/
theorem leads_check_gens {G : Prop} {S : Stage G} {env : Env} (henv : S.FitsEnv env) {d : Decl}
    (hd : d.IsValue) :
    Leads Stage.At S (d.check env) fun _ r =>
      ∀ b ∈ r.2.values, ∀ g, .gen g ∈ b.2.body.shown → g ∈ b.2.vars := by
  cases d with
  | value span name isRec ann body =>
    refine (Stage.leads_inferBinding henv span name isRec ann fun henv =>
      body.leads_inferHead henv).bind fun S₁ σ _ hσ => leads_pure ?_
    obtain ⟨S₀, t, close, -, ht, hq⟩ := hσ.quantifies
    exact forall_mem_singleton.mpr fun g hg => hq.gen_mem_vars ht hg
  | expr span body =>
    refine (body.leads_infer henv).bind fun S₁ t _ ht => ?_
    obtain ⟨u, hu, rfl⟩ := ht
    refine (Stage.leads_quantified env _).bind fun S₂ σ _ hσ => leads_pure ?_
    obtain ⟨S₀, close, hle₀, -, hq, -⟩ := hσ
    exact forall_mem_singleton.mpr fun g hg =>
      hq.gen_mem_vars (hu.fits.resolveDeep.mono hle₀) hg
  | type => exact hd.elim
  | module => exact hd.elim

theorem IsValue.usesParams {d : Decl} (hd : d.IsValue) : d.UsesParams := by
  cases d with
  | value => trivial
  | expr => trivial
  | type => exact hd.elim
  | module => exact hd.elim

end Decl

/-- The type that inference finds shows no generalized variable, and a scheme
that a value or an expression gets at the top shows none but its quantifiers. If
the synonyms that are declared use their parameters, then the type has no
generalized variable at all, the arguments of synonyms included, and the scheme
has none but its quantifiers. -/
theorem infer_without_gens {P : Decl → Prop} {env : Env} {s : State} (h : Built P env s) :
    (∀ (e : Expr) (t : Ty) (s' : State), (e.infer env).run s = .ok t s' → ∀ g,
      .gen g ∉ t.shown ∧ ((∀ d, P d → d.UsesParams) → .gen g ∉ t.occurrences)) ∧
    ∀ (d : Decl) (r : Env × Declared) (s' : State), d.IsValue → (d.check env).run s = .ok r s' →
      ∀ b ∈ r.2.values, ∀ g,
      (.gen g ∈ b.2.body.shown → g ∈ b.2.vars) ∧
        ((∀ d, P d → d.UsesParams) → .gen g ∈ b.2.body.occurrences → g ∈ b.2.vars) := by
  obtain ⟨S, hS, -⟩ := h.session.exists_stage
  constructor
  · intro e t s' hrun g
    obtain ⟨S', -, -, hyield⟩ := e.leads_infer hS.declared.fitsEnv s hS.state.1
    obtain ⟨u, hu, rfl⟩ := hyield _ _ hrun
    have hshown := hu.fits.resolveDeep.gen_not_mem_shown g
    refine ⟨hshown, fun huses hg => ?_⟩
    obtain ⟨hs, henv⟩ := h.sound huses
    obtain ⟨-, -, hfaithful⟩ := State.Sound.discipline.keeps_infer henv.obeys e s hs le_rfl
    exact hshown ((hfaithful _ _ hrun).mem_shown hg)
  · intro d r s' hd hrun b hb g
    obtain ⟨S', -, -, hyield⟩ := Decl.leads_check_gens hS.declared.fitsEnv hd s hS.state.1
    have hquantified := hyield _ _ hrun b hb g
    refine ⟨hquantified, fun huses hg => hquantified ?_⟩
    obtain ⟨hs, henv⟩ := h.sound huses
    obtain ⟨-, -, hkept⟩ := d.keeps_check henv hd.usesParams s hs le_rfl
    exact ((hkept _ _ hrun).2 b hb).mem_shown hg

/-- A synonym with one parameter, and one for its use at a record that is left
open. -/
def openRowArgument (target : TypeExpr) : List Decl :=
  [.type {} "s" ["a"] (.synonym target),
    .type {} "t" [] (.synonym (.app "s" [.record [("x", .name "int")] true]))]

/-- Where the synonym uses its parameter, the open row gets a new variable. -/
theorem openRowArgument_opened :
    let ds := openRowArgument (.arrow (.var "a") (.name "int"))
    let env := (checkProgram .empty ds {}).1.env
    let s := (checkProgram .empty ds {}).2
    let e := Expr.annotate {} (.lam {} "y" none (.field {} (.var {} "y") "x")) (.name "t")
    let t := Ty.synonym 1 [] [] (.synonym 0 ["a"] [.record [("x", .int)] (.flex 2)]
      (.arrow (.record [("x", .int)] (.flex 2)) .int))
    Built Decl.UsesParams env s ∧ (e.infer env).result? s = some t ∧
      ∀ g, .gen g ∉ t.shown ∧ .gen g ∉ t.occurrences := by
  intro ds env s e t
  have hds : ∀ d ∈ ds, d.UsesParams := by
    simp [ds, openRowArgument, Decl.UsesParams, TypeExpr.labels]
  have hbuilt : Built Decl.UsesParams env s := .program (.start .empty) hds
  have hresult : (e.infer env).result? s = some t := by decide +kernel
  refine ⟨hbuilt, hresult, fun g => ?_⟩
  have h := (infer_without_gens hbuilt).1 e t _ (Check.run_of_result? hresult) g
  exact ⟨h.1, h.2 fun _ => id⟩

/-- Where the synonym does not use its parameter, the row stays open with the
generalized variable of the declaration, which no scheme quantifies. -/
theorem openRowArgument_leaks :
    let ds := openRowArgument (.name "int")
    let env := (checkProgram .empty ds {}).1.env
    let s := (checkProgram .empty ds {}).2
    let e := Expr.annotate {} (.lit {} .int) (.name "t")
    let t := Ty.synonym 1 [] [] (.synonym 0 ["a"] [.record [("x", .int)] (.gen 1)] .int)
    Built (fun _ => True) env s ∧ (e.infer env).result? s = some t ∧ .gen 1 ∈ t.occurrences ∧
      (((Decl.expr {} e).check env).result? s).map (·.2.values) = some [("-", ⟨[], t⟩)] := by
  intro ds env s e t
  have hbuilt : Built (fun _ => True) env s := .program (.start .empty) fun _ _ => trivial
  refine ⟨hbuilt, ?_, ?_, ?_⟩
  · decide +kernel
  · decide
  · decide +kernel

end RowTyping
