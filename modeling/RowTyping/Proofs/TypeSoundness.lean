import Mathlib.Data.Countable.Basic
import Mathlib.Logic.Equiv.List
import RowTyping.Proofs.Declarations

/-!
# Inference is sound

What inference finds for an expression is a type of the expression in the
declarative system, in the environment with its schemes resolved. This holds for
every environment that declarations build, also where names were bound to
variables in between. An empty tuple is taken for the argument of a constructor that
has none; such a pattern has no type, and is read without the tuple.
-/

namespace RowTyping

open Check Registry Table Ty List

/-! ## Roles for all variables -/

instance countableString : Countable String := by
  refine Function.Injective.countable (f := fun s : String => s.toList.map Char.toNat) ?_
  intro s u h
  refine String.toList_injective (List.map_injective_iff.mpr (fun c d hcd => ?_) h)
  exact Char.ext (UInt32.toNat_inj.mp hcd)

instance : Countable Role := by
  refine Function.Surjective.countable
    (f := fun k : Option (Finset String) => k.elim .type .rest) ?_
  intro k
  cases k with
  | type => exact ⟨none, rfl⟩
  | rest front => exact ⟨some front, rfl⟩

/-- The roles of a stage are those of some variables of the type system, which
has more of every role. -/
theorem Stage.exists_rich {G : Prop} (S : Stage G) :
    ∃ κ, Rich κ ∧ ∀ v k, S.role.Has (.flex v) k → κ v = k := by
  have : Nonempty Role := ⟨.type⟩
  obtain ⟨f, hf⟩ := exists_surjective_nat Role
  refine ⟨fun v => if v < S.registry.varCount then S.roleOf (.flex v) else
    f (v - S.registry.varCount).unpair.1, fun k n => ?_, fun v k hv => ?_⟩
  · obtain ⟨m, rfl⟩ := hf k
    have hge := Nat.right_le_pair m n
    refine ⟨S.registry.varCount + Nat.pair m n, by omega, ?_⟩
    simp
  · simp [S.issued hv, Stage.roleOf_eq hv]

/-! ## Resolved environments -/

/-- The environment with its schemes resolved. -/
def Env.resolved (r : Registry) (env : Env) : Env :=
  { env with values := Table.mapValues (fun σ => ⟨σ.vars, r.resolveDeep σ.body⟩) env.values }

namespace Stage

variable {G : Prop} {S S' : Stage G} {σ : Scheme} {env : Env}

theorem assigns_flex {κ : Nat → Role} (h : ∀ v k, S.role.Has (.flex v) k → κ v = k) :
    S.Assigns κ .flex :=
  fun v k hv => .var ⟨v, rfl, h v k hv⟩

theorem value_flex (t : Ty) : t.value .flex = t.norm := by
  have hfill : fill flex = .var := by
    funext x
    cases x <;> rfl
  rw [value, hfill, subst_var]

/-- A resolved scheme is what the scheme stands for. -/
theorem FitsBody.norm_resolveDeep (hσ : S.FitsBody σ) :
    (S.registry.resolveDeep σ.body).norm = σ.body.value (S.through .flex) := by
  have hpart : ∀ u ∈ σ.body.parts, (S.registry.resolveDeep u).norm = u.value (S.through .flex) := by
    intro u hu
    rw [value_through (S.allows_shows σ) (hσ.parts u hu), value_flex]
  generalize σ.body = body at hpart
  by_cases hctor : ∃ name args, body = .con (.ctor name) args
  · obtain ⟨name, args, rfl⟩ := hctor
    have hbare : ∀ u, (S.registry.resolveDeep u).norm =
        (S.registry.bare.resolveDeep u.bare).norm := by
      intro u
      rw [resolveDeep_bare S.acyclic, norm_bare]
    rw [hbare, bare_con, resolveDeep_con S.acyclic resolve_con,
      norm_con (by simp), value_con (by simp), map_map, map_map]
    refine congrArg _ (map_congr_left fun u hu => ?_)
    exact (hbare u).symm.trans (hpart u hu)
  · refine hpart body ?_
    rw [parts_eq_self fun name args heq => hctor ⟨name, args, heq⟩]
    exact mem_singleton_self _

theorem under_resolved (henv : S.FitsEnv env) :
    env.Under (S.through .flex) (fun _ => False) (env.resolved S.registry) := by
  refine ⟨rfl, fun {x σ} hx => ⟨⟨σ.vars, S.registry.resolveDeep σ.body⟩, ?_, ?_, False.elim⟩⟩
  · rw [Env.value?, Env.resolved, lookup_mapValues, ← Env.value?, hx]
    rfl
  · exact (henv.value? hx).body.norm_resolveDeep

/-- Resolution itself is an assignment that solves a stage. -/
theorem exists_models (S : Stage G) (henv : S.FitsEnv env) :
    ∃ κ, S.Models κ (S.through .flex) (fun _ => False) env (env.resolved S.registry) := by
  obtain ⟨κ, hrich, hκ⟩ := S.exists_rich
  exact ⟨κ, hrich, solves_through (assigns_flex hκ), fun _ => False.elim, under_resolved henv⟩

end Stage

/-! ## Sessions -/

/-- The environments and states that a session comes to, with the variables that
were issued for it: it starts from nothing or from the standard environment,
checks declarations and programs, infers types, asks for variables, and binds
names to them. -/
inductive Session : List Nat → Env → State → Prop where
  | start {env : Env} {s : State} (h : Start env s) : Session [] env s
  | declare {vs : List Nat} {env env' : Env} {s s' : State} {d : Decl} {declared : Declared}
      (h : Session vs env s) (hrun : (d.check env).run s = .ok (env', declared) s') :
      Session vs env' s'
  | reject {vs : List Nat} {env : Env} {s s' : State} {d : Decl} {e : Located}
      (h : Session vs env s) (hrun : (d.check env).run s = .error e s') : Session vs env s'
  | program {vs : List Nat} {env : Env} {s : State} (h : Session vs env s) (ds : List Decl) :
      Session vs (checkProgram env ds s).1.env (checkProgram env ds s).2
  | infer {vs : List Nat} {env : Env} {s : State} (h : Session vs env s) (e : Expr) :
      Session vs env (after (e.infer env) s)
  | issue {vs : List Nat} {env : Env} {s s' : State} {v : Nat} (h : Session vs env s)
      (hrun : (freshVar : Check Located Ty).run s = .ok (.flex v) s') : Session (v :: vs) env s'
  | bind {vs : List Nat} {env : Env} {s : State} {v : Nat} (h : Session vs env s) (hv : v ∈ vs)
      (x : String) : Session vs (env.addValue x (.mono (.flex v))) s

/-- A session is at a stage, at which the issued variables stand for types. -/
theorem Session.exists_stage {vs : List Nat} {env : Env} {s : State} (h : Session vs env s) :
    ∃ S : Stage False, S.Describes env s ∧ ∀ v ∈ vs, S.role.Has (.flex v) .type := by
  induction h with
  | start h =>
    obtain ⟨S, hS⟩ := Stage.describes_start h
    exact ⟨S, hS, by simp⟩
  | declare _ hrun ih =>
    obtain ⟨S, hS, hvs⟩ := ih
    obtain ⟨S', hle, -, hyield⟩ := hS.check False.elim
    exact ⟨S', hyield _ _ hrun, fun v hv => hle.role (hvs v hv)⟩
  | @reject _ _ _ _ d _ _ hrun ih =>
    obtain ⟨S, hS, hvs⟩ := ih
    obtain ⟨S', hle, hfailed, -⟩ := hS.check False.elim
    rw [after_error hrun] at hfailed
    exact ⟨S', hfailed, fun v hv => hle.role (hvs v hv)⟩
  | program _ ds ih =>
    obtain ⟨S, hS, hvs⟩ := ih
    obtain ⟨S', hle, hS'⟩ := hS.checkProgram ds False.elim
    exact ⟨S', hS', fun v hv => hle.role (hvs v hv)⟩
  | infer _ e ih =>
    obtain ⟨S, hS, hvs⟩ := ih
    obtain ⟨S', hle, hat, -⟩ := e.leads_infer hS.declared.fitsEnv _ hS.state.1
    exact ⟨S', ⟨⟨hat, False.elim⟩, hS.declared.mono hle, False.elim⟩,
      fun v hv => hle.role (hvs v hv)⟩
  | issue _ hrun ih =>
    obtain ⟨S, hS, hvs⟩ := ih
    obtain ⟨S', hle, hat, hyield⟩ := Stage.leads_freshVar .type _ hS.state.1
    obtain ⟨w, heq, hw, -⟩ := hyield _ _ hrun
    cases heq
    rw [after_ok hrun] at hat
    exact ⟨S', ⟨⟨hat, False.elim⟩, hS.declared.mono hle, False.elim⟩,
      forall_mem_cons.mpr ⟨hw, fun v hv => hle.role (hvs v hv)⟩⟩
  | bind _ hv x ih =>
    obtain ⟨S, hS, hvs⟩ := ih
    have hfits := Stage.fits_flex.mpr (hvs _ hv)
    have hdeclared : S.IsDeclared (.mono (.flex _)) :=
      ⟨Stage.fitsScheme_mono hfits, False.elim, Scheme.nominal_of_fits hfits⟩
    exact ⟨S, ⟨hS.state, hS.declared.addValue x hdeclared, False.elim⟩, hvs⟩

/-- No member of a module is named in the expression. -/
def Expr.PathFree (e : Expr) : Prop := e.Paths fun _ => False

/-- What inference finds is a type of the expression, in which constructors that are
matched with an empty tuple are matched without it. -/
theorem infer_sound {vs : List Nat} {env : Env} {s s' : State} {e : Expr} {t : Ty}
    (h : Session vs env s) (he : e.PathFree) (hrun : (e.infer env).run s = .ok t s') :
    ∃ κ, HasType κ (env.resolved s'.registry) e.tidy t.norm := by
  obtain ⟨S, hS, -⟩ := h.exists_stage
  obtain ⟨S', hle, hat, hyield⟩ := e.leads_infer hS.declared.fitsEnv s hS.state.1
  obtain ⟨u, hu, rfl⟩ := hyield _ _ hrun
  obtain ⟨κ, hmodels⟩ := S'.exists_models (hS.declared.fitsEnv.mono hle)
  have htyped := hu.typed hmodels he
  rw [Stage.value_through S'.role.allows_hasFlex hu.fits, Stage.value_flex] at htyped
  rw [after_ok hrun] at hat
  rw [show s'.registry = S'.registry from hat]
  exact ⟨κ, htyped⟩

/-- A quantified function, used for a field of `r` and for a number. -/
def polymorphicUse : Expr :=
  .letIn {} "f" false none (.lam {} "y" none (.var {} "y"))
    (.tuple {} [.app {} (.var {} "f") (.field {} (.var {} "r") "x"),
      .app {} (.var {} "f") (.lit {} .int)])

/-- With `r` bound to a variable that was issued before. -/
theorem polymorphicUse_typed :
    let env := Env.empty.addValue "r" (.mono (.flex 0))
    let s := after (freshVar : Check Located Ty) {}
    let x := polymorphicUse.infer env
    Session [0] env s ∧ polymorphicUse.PathFree ∧ x.result? s = some (.tuple [.flex 2, .int]) ∧
      ∃ κ, HasType κ (env.resolved (after x s).registry) polymorphicUse
        (.tuple [.flex 2, .int]) := by
  intro env s x
  have hissued : Session [0] .empty s := .issue (.start .empty) rfl
  have hsession : Session [0] env s := .bind hissued List.mem_cons_self "r"
  have hfree : polymorphicUse.PathFree := by
    simp [Expr.PathFree, polymorphicUse, Expr.Paths, Expr.PathsList]
  have hresult : x.result? s = some (.tuple [.flex 2, .int]) := by decide +kernel
  exact ⟨hsession, hfree, hresult, infer_sound hsession hfree (Check.run_of_result? hresult)⟩

/-- A type with one value, `A`. -/
def lone : List Decl := [.type {} "t" [] (.variant [("A", none)])]

/-- The constructor `A` is matched with an empty tuple. -/
def emptyArgument : Expr :=
  .cases {} (.construct {} "A" none) [(.construct "A" (some (.tuple [])), .lit {} .int)]

/-- The tuple is taken for the argument that `A` does not have. -/
theorem emptyArgument_untyped :
    let env := (checkProgram .empty lone {}).1.env
    let s := (checkProgram .empty lone {}).2
    let x := emptyArgument.infer env
    Session [] env s ∧ emptyArgument.PathFree ∧ x.result? s = some .int ∧
      ∀ κ t, ¬ HasType κ (env.resolved (after x s).registry) emptyArgument t := by
  intro env s x
  refine ⟨.program (.start .empty) lone, ?_, by decide +kernel, fun κ t h => ?_⟩
  · simp [Expr.PathFree, emptyArgument, Expr.Paths, Expr.PathsArms]
  · have hA : (env.resolved (after x s).registry).value? "A" =
        some ⟨[], .ctor "A" (.con (.variant 0 []) []) none⟩ := by decide +kernel
    cases h with
    | cases _ _ harms =>
      cases harms with
      | cons hp _ _ =>
        cases hp with
        | construct hc hctor harg _ _ _ =>
          rw [hA] at hc
          cases hc
          cases hctor
          cases harg

end RowTyping
