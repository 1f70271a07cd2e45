import RowTyping.Proofs.FreshInstances
import RowTyping.Proofs.TypeSoundness

/-!
# What a module exports

The members of a module are checked one after the other, each in the scope that
the one before left. The module keeps, of every name that a member introduces,
what the last such member bound it to, and nothing else: what an expression
yields stays behind, and so does whatever the surroundings know. Outside, only
the name of the module is new.

One name is lost. The value of an expression is listed under `expressionName`,
and the listing alone decides what is kept, so a member of that name is not
exported either.
-/

namespace RowTyping

open Check List Option Env

namespace Decl

/-- The value names that a declaration introduces. An expression has none. -/
def valueNames : Decl → List String
  | .value _ name _ _ _ => [name]
  | .type _ _ _ (.variant cases) => cases.map (·.1)
  | .type _ _ _ _ => []
  | .module _ name _ => [name]
  | .expr _ _ => []

/-- The type names that a declaration introduces. -/
def typeNames : Decl → List String
  | .type _ name _ _ => [name]
  | _ => []

end Decl

/-- Declarations checked one after the other, each with the environment that it
left. -/
inductive CheckedInTurn : Env → State → List (Decl × Env) → Env → State → Prop where
  | nil {env s} : CheckedInTurn env s [] env s
  | cons {env s d env₁ declared s₁ ms env₂ s₂}
      (head : (d.check env).run s = .ok (env₁, declared) s₁)
      (rest : CheckedInTurn env₁ s₁ ms env₂ s₂) :
      CheckedInTurn env s ((d, env₁) :: ms) env₂ s₂

/-- What the last of the declarations that introduce a name bound it to. -/
def latest (names : Decl → List String) (look : Env → String → Option Scheme) (x : String) :
    List (Decl × Env) → Option Scheme
  | [] => none
  | (d, env) :: ms =>
      (latest names look x ms).or (if x ∈ names d then look env x else none)

/-! ## One declaration -/

variable {entries : List (String × Scheme)} {x name : String} {env : Env} {s s' : State} {d : Decl}
  {σ : Scheme}

/-- Of several entries with one name the last counts. -/
def lastEntry (entries : List (String × Scheme)) (x : String) : Option Scheme :=
  entries.reverse.lookup x

theorem lastEntry_cons (e : String × Scheme) (es : List (String × Scheme)) (x : String) :
    lastEntry (e :: es) x = (lastEntry es x).or (if x = e.1 then some e.2 else none) := by
  simp only [lastEntry, reverse_cons, lookup_append]
  rw [Table.lookup_entry, lookup_nil]

theorem lastEntry_isSome : (lastEntry entries x).isSome ↔ x ∈ entries.map (·.1) := by
  induction entries with
  | nil => simp [lastEntry]
  | cons e es ih =>
    rw [lastEntry_cons, isSome_or, Bool.or_eq_true, ih, map_cons]
    by_cases hx : x = e.1 <;> simp [hx]

theorem lastEntry_filter {y : String} :
    lastEntry (entries.filter (·.1 ≠ y)) x = if x = y then none else lastEntry entries x := by
  induction entries with
  | nil => simp [lastEntry]
  | cons e es ih =>
    by_cases he : e.1 = y
    · rw [filter_cons_of_neg (by simpa using he), ih, lastEntry_cons]
      by_cases hx : x = y
      · simp [hx]
      · have hne : x ≠ e.1 := fun h => hx (h.trans he)
        simp [hx, hne]
    · rw [filter_cons_of_pos (by simpa using he), lastEntry_cons, ih, lastEntry_cons]
      by_cases hx : x = y
      · have hne : x ≠ e.1 := fun h => he (h.symm.trans hx)
        simp [hx, hx ▸ hne]
      · simp [hx]

theorem value?_foldl_addValue (entries : List (String × Scheme)) (env : Env) (x : String) :
    (entries.foldl (fun m v => m.addValue v.1 v.2) env).value? x =
      (lastEntry entries x).or (env.value? x) := by
  induction entries generalizing env with
  | nil => simp [lastEntry]
  | cons e es ih =>
    rw [foldl_cons, ih, lastEntry_cons]
    by_cases hx : x = e.1 <;> simp [hx]

theorem type?_foldl_addType (entries : List (String × Scheme)) (env : Env) (x : String) :
    (entries.foldl (fun m t => m.addType t.1 t.2) env).type? x =
      (lastEntry entries x).or (env.type? x) := by
  induction entries generalizing env with
  | nil => simp [lastEntry]
  | cons e es ih =>
    rw [foldl_cons, ih, lastEntry_cons]
    by_cases hx : x = e.1 <;> simp [hx]

/-- The environment with all that is listed. -/
def Declared.addTo (declared : Declared) (env : Env) : Env :=
  declared.values.foldl (fun m v => m.addValue v.1 v.2)
    (declared.types.foldl (fun m t => m.addType t.1 t.2) env)

/-- What a declaration that introduces values and types leaves: it extends the
environment by what it lists, and lists the names it is written with. -/
structure Declared.Extends (d : Decl) (env : Env) (r : Env × Declared) : Prop where
  env_eq : r.1 = r.2.addTo env
  valueNames : r.2.values.map (·.1) = d.valueNames
  typeNames : r.2.types.map (·.1) = d.typeNames

namespace Declared.Extends

variable {r : Env × Declared} (h : Declared.Extends d env r)
include h

theorem value? (x : String) : r.1.value? x = (lastEntry r.2.values x).or (env.value? x) := by
  rw [h.env_eq, addTo, value?_foldl_addValue]
  simp only [Env.value?, values_foldl_addType]

theorem type? (x : String) : r.1.type? x = (lastEntry r.2.types x).or (env.type? x) := by
  rw [h.env_eq, ← type?_foldl_addType]
  simp only [addTo, Env.type?, types_foldl_addValue]

end Declared.Extends

/-- The constructors of a variant extend the environment in their order. -/
theorem declareCases_extends {span : Span} {scope : Scope} {gens : List Nat} {owner : Ty}
    (cases : List (String × Option TypeExpr)) {env' : Env} {values : List (String × Scheme)}
    (h : (declareCases span scope gens owner cases env).run s = .ok (env', values) s') :
    env' = values.foldl (fun m v => m.addValue v.1 v.2) env ∧
      values.map (·.1) = cases.map (·.1) := by
  induction cases generalizing env env' values s with
  | nil =>
    cases h
    exact ⟨rfl, rfl⟩
  | cons c cases ih =>
    obtain ⟨arg', s₁, -, h⟩ := run_bind_inv h
    obtain ⟨⟨env₁, others⟩, s₂, hrest, h⟩ := run_bind_inv h
    cases h
    obtain ⟨henv, hnames⟩ := ih hrest
    exact ⟨henv, by rw [map_cons, map_cons, hnames]⟩

theorem declareType_extends {span : Span} {params : List String} {definition : TypeDef}
    {r : Env × Declared} (h : (declareType env span name params definition).run s = .ok r s') :
    Declared.Extends (.type span name params definition) env r := by
  obtain ⟨id, s₁, -, h⟩ := run_bind_inv h
  obtain ⟨numbered, s₂, -, h⟩ := run_bind_inv h
  cases definition with
  | variant cases =>
    obtain ⟨⟨env', values⟩, s₃, hcases, h⟩ := run_bind_inv h
    obtain ⟨henv, hnames⟩ := declareCases_extends cases hcases
    cases h
    exact ⟨henv, hnames, rfl⟩
  | synonym target =>
    obtain ⟨t, s₃, -, h⟩ := run_bind_inv h
    cases h
    exact ⟨rfl, rfl, rfl⟩
  | abstract =>
    cases h
    exact ⟨rfl, rfl, rfl⟩

/-- What one declaration leaves. An expression changes no name and lists its
value under the name that is none. -/
theorem Decl.check_extends {r : Env × Declared} (h : (d.check env).run s = .ok r s') :
    Declared.Extends d env r ∨
      d.valueNames = [] ∧ d.typeNames = [] ∧ r.1 = env ∧
        ∃ σ, r.2 = ⟨[(expressionName, σ)], []⟩ := by
  cases d with
  | value span name isRec ann body =>
    obtain ⟨σ, s₁, -, hpure⟩ := run_bind_inv h
    cases hpure
    exact .inl ⟨rfl, rfl, rfl⟩
  | type span name params definition =>
    exact .inl (declareType_extends h)
  | module span name decls =>
    obtain ⟨members, s₁, -, hpure⟩ := run_bind_inv h
    cases hpure
    exact .inl ⟨rfl, rfl, rfl⟩
  | expr span body =>
    obtain ⟨t, s₁, -, h⟩ := run_bind_inv h
    obtain ⟨σ, s₂, -, hpure⟩ := run_bind_inv h
    cases hpure
    exact .inr ⟨rfl, rfl, rfl, σ, rfl⟩

/-! ## Members -/

theorem Declared.value?_exportTo (declared : Declared) (members : Env) (x : String) :
    (declared.exportTo members).value? x =
      (if x = expressionName then none else lastEntry declared.values x).or (members.value? x) := by
  simp only [exportTo, value?, values_foldl_addType]
  rw [← lastEntry_filter]
  exact value?_foldl_addValue _ _ _

theorem Declared.type?_exportTo (declared : Declared) (members : Env) (x : String) :
    (declared.exportTo members).type? x = (lastEntry declared.types x).or (members.type? x) := by
  rw [exportTo, type?_foldl_addType]
  simp only [type?, types_foldl_addValue]

/-- What a name that a declaration introduces is bound to is what it lists last. -/
theorem lastEntry_eq {names : List String} (hnames : entries.map (·.1) = names)
    {found old : Option Scheme} (hfound : found = (lastEntry entries x).or old) :
    lastEntry entries x = if x ∈ names then found else none := by
  subst hnames
  by_cases hx : x ∈ entries.map (·.1)
  · obtain ⟨σ, hσ⟩ := isSome_iff_exists.mp (lastEntry_isSome.mpr hx)
    rw [if_pos hx, hfound, hσ, some_or]
  · rw [if_neg hx]
    exact not_isSome_iff_eq_none.mp fun h => hx (lastEntry_isSome.mp h)

/-- One member: what it adds to the members of its module. -/
theorem Decl.check_exports {env' : Env} {declared : Declared}
    (h : (d.check env).run s = .ok (env', declared) s') (members : Env) (x : String) :
    (declared.exportTo members).value? x =
        (if x = expressionName then none else if x ∈ d.valueNames then env'.value? x else none).or
          (members.value? x) ∧
      (declared.exportTo members).type? x =
        (if x ∈ d.typeNames then env'.type? x else none).or (members.type? x) := by
  rw [Declared.value?_exportTo, Declared.type?_exportTo]
  rcases d.check_extends h with hext | ⟨hvalues, htypes, -, σ, hdeclared⟩
  · rw [lastEntry_eq hext.valueNames (hext.value? x), lastEntry_eq hext.typeNames (hext.type? x)]
    exact ⟨rfl, rfl⟩
  · cases hdeclared
    rw [hvalues, htypes, lastEntry_cons]
    by_cases hx : x = expressionName <;> simp [hx, lastEntry]

/-- The members that a run over declarations collects. -/
theorem Decl.checkMembers_exports (ds : List Decl) {members members' : Env}
    (h : (Decl.checkMembers env members ds).run s = .ok members' s') :
    ∃ ms inner, CheckedInTurn env s ms inner s' ∧ ms.map (·.1) = ds ∧
      (∀ x, members'.value? x = (if x = expressionName then none
        else latest Decl.valueNames value? x ms).or (members.value? x)) ∧
      ∀ x, members'.type? x = (latest Decl.typeNames type? x ms).or (members.type? x) := by
  induction ds generalizing env members s with
  | nil =>
    cases h
    exact ⟨[], env, .nil, rfl, fun x => by simp [latest], fun x => by simp [latest]⟩
  | cons d ds ih =>
    obtain ⟨⟨env₁, declared⟩, s₁, hd, hds⟩ := run_bind_inv h
    obtain ⟨ms, inner, hchecked, hms, hvalues, htypes⟩ := ih hds
    -- what the later members introduce counts before what this one does
    refine ⟨(d, env₁) :: ms, inner, .cons hd hchecked, by rw [map_cons, hms],
      fun x => ?_, fun x => ?_⟩
    · rw [hvalues, (d.check_exports hd members x).1, latest]
      by_cases hx : x = expressionName <;> simp [hx, Option.or_assoc]
    · rw [htypes, (d.check_exports hd members x).2, latest, Option.or_assoc]

/-- The names that declarations introduced are those they are written with. -/
theorem CheckedInTurn.isSome_latest {inner : Env} {ms : List (Decl × Env)}
    (h : CheckedInTurn env s ms inner s') (x : String) :
    ((latest Decl.valueNames value? x ms).isSome ↔ ∃ d ∈ ms.map (·.1), x ∈ d.valueNames) ∧
      ((latest Decl.typeNames type? x ms).isSome ↔ ∃ d ∈ ms.map (·.1), x ∈ d.typeNames) := by
  induction h with
  | nil => simp [latest]
  | @cons env s d env₁ declared s₁ ms env₂ s₂ head _ ih =>
    have hbound : (x ∈ d.valueNames → (env₁.value? x).isSome) ∧
        (x ∈ d.typeNames → (env₁.type? x).isSome) := by
      rcases d.check_extends head with hext | ⟨hvalues, htypes, -⟩
      · constructor
        · intro hx
          rw [← hext.valueNames] at hx
          rw [hext.value? x, isSome_or, lastEntry_isSome.mpr hx, Bool.true_or]
        · intro hx
          rw [← hext.typeNames] at hx
          rw [hext.type? x, isSome_or, lastEntry_isSome.mpr hx, Bool.true_or]
      · simp [hvalues, htypes]
    simp only [latest, isSome_or, Bool.or_eq_true, map_cons, mem_cons, exists_eq_or_imp]
    constructor
    · by_cases hx : x ∈ d.valueNames
      · simp [hx, hbound.1 hx]
      · simpa [hx] using ih.1
    · by_cases hx : x ∈ d.typeNames
      · simp [hx, hbound.2 hx]
      · simpa [hx] using ih.2

/-! ## Paths -/

/-- A member of a module that the environment knows has a type. -/
theorem infer_path_ok {members : Env} {owner : String}
    (howner : env.value? owner = some (.mono (.module name members)))
    (hx : members.value? x = some σ) (span : Span) (s : State) :
    ∃ t s', ((Expr.path span owner x).infer env).run s = .ok t s' := by
  have hfind : (env.find span owner).run s = .ok (.mono (.module name members)) s := by
    rw [find, value, howner]
    rfl
  have hmodule : (instantiate (.mono (.module name members)) : Check Located Ty).run s =
      .ok (.module name members) s := rfl
  have hmember : (members.find span x).run s = .ok σ s := by
    rw [find, value, hx]
    rfl
  obtain ⟨f, s', ht, -⟩ := opened_instantiate σ s
  have hpath : (inferPath env span owner x).run s = .ok (σ.body.subst f).asValue s' := by
    rw [inferPath, run_bind_ok hfind, run_bind_ok hmodule, run_bind_ok (run_registry s),
      Registry.resolve_module]
    rw [run_bind_ok hmember, run_bind_ok ht]
    rfl
  refine ⟨s'.registry.resolveDeep (σ.body.subst f).asValue, s', ?_⟩
  rw [Expr.infer, Expr.inferHead, run_bind_ok hpath]
  rfl

/-! ## Modules -/

/-- A module exports what its members declare. For every name other than the one
that values of expressions are listed under, the module binds a value exactly if a
member introduces it, to what the last such member bound it to; type names are
without exception. The surroundings gain the name of the module and nothing else,
and every exported value can be used. A module within a module is a member like any
other, so this says of it what it exports as well. -/
theorem module_exports {env env' : Env} {span : Span} {name : String} {decls : List Decl}
    {declared : Declared} {s s' : State}
    (h : ((Decl.module span name decls).check env).run s = .ok (env', declared) s') :
    ∃ members ms inner, CheckedInTurn env s ms inner s' ∧ ms.map (·.1) = decls ∧
      declared = { values := [(name, .mono (.module name members))] } ∧
      (∀ x, members.value? x =
        if x = expressionName then none else latest Decl.valueNames Env.value? x ms) ∧
      (∀ x, members.type? x = latest Decl.typeNames Env.type? x ms) ∧
      (∀ x, (members.value? x).isSome ↔ x ≠ expressionName ∧ ∃ d ∈ decls, x ∈ d.valueNames) ∧
      (∀ x, (members.type? x).isSome ↔ ∃ d ∈ decls, x ∈ d.typeNames) ∧
      (∀ x, env'.value? x =
        if x = name then some (.mono (.module name members)) else env.value? x) ∧
      env'.types = env.types ∧
      ∀ d ∈ decls, ∀ x ∈ d.valueNames, x ≠ expressionName → ∀ span st, ∃ t st',
        ((Expr.path span name x).infer env').run st = .ok t st' := by
  rw [Decl.check] at h
  obtain ⟨members, s₁, hrun, hpure⟩ := run_bind_inv h
  cases hpure
  obtain ⟨ms, inner, hchecked, rfl, hvalues, htypes⟩ := Decl.checkMembers_exports decls hrun
  replace hvalues : ∀ x, members.value? x =
      if x = expressionName then none else latest Decl.valueNames Env.value? x ms :=
    fun x => (hvalues x).trans (Option.or_none ..)
  replace htypes : ∀ x, members.type? x = latest Decl.typeNames Env.type? x ms :=
    fun x => (htypes x).trans (Option.or_none ..)
  have hnames : ∀ x, (members.value? x).isSome ↔
      x ≠ expressionName ∧ ∃ d ∈ ms.map (·.1), x ∈ d.valueNames := by
    intro x
    rw [hvalues, ← (hchecked.isSome_latest x).1]
    by_cases hx : x = expressionName <;> simp [hx]
  refine ⟨members, ms, inner, hchecked, rfl, rfl, hvalues, htypes, hnames, fun x => ?_,
    fun x => Env.value?_addValue .., rfl, ?_⟩
  · rw [htypes, (hchecked.isSome_latest x).2]
  · intro d hd x hx hne span st
    obtain ⟨σ, hσ⟩ := Option.isSome_iff_exists.mp ((hnames x).mpr ⟨hne, d, hd, hx⟩)
    exact infer_path_ok (by rw [Env.value?_addValue, if_pos rfl]) hσ span st

/-- A module with a value that is declared twice, a variant, an expression and a
module of its own. -/
def stack : Decl :=
  .module {} "stack"
    [.value {} "size" false none (.lit {} .int),
      .type {} "cell" ["a"] (.variant [("Top", some (.var "a"))]),
      .expr {} (.var {} "size"),
      .value {} "size" false none (.lit {} .bool),
      .module {} "inner" [.value {} "base" false none (.var {} "Top")]]

theorem stack_exports :
    (stack.check .empty).result? {} ≠ none ∧
      ∃ members : Env, (∀ x, (members.value? x).isSome ↔
          x ≠ expressionName ∧ x ∈ ["size", "Top", "size", "inner"]) ∧
        (∀ x, (members.type? x).isSome ↔ x ∈ ["cell"]) ∧
        ∃ env' : Env, (∀ x, env'.value? x =
          if x = "stack" then some (.mono (.module "stack" members)) else none) ∧
        ∃ t st', ((Expr.path {} "stack" "size").infer env').run {} = .ok t st' := by
  obtain ⟨⟨env', declared⟩, hr⟩ : ∃ r, (stack.check .empty).result? {} = some r :=
    Option.isSome_iff_exists.mp (by decide +kernel)
  obtain ⟨members, -, -, -, -, -, -, -, hvalues, htypes, henv, -, hpaths⟩ :=
    module_exports (Check.run_of_result? hr)
  refine ⟨by rw [hr]; exact Option.some_ne_none _, members, fun x => ?_, fun x => ?_, env', henv,
    hpaths _ List.mem_cons_self "size" (by simp [Decl.valueNames]) (by decide) {} {}⟩
  · rw [hvalues]
    simp [Decl.valueNames]
  · rw [htypes]
    simp [Decl.typeNames]

/-- A module whose only member is the subtraction of its own. -/
def subtraction : Decl := .module {} "M" [.value {} "-" false none (.lit {} .int)]

/-- The use of a member after the declaration of its module. -/
def useMember (d : Decl) (owner name : String) : Check Located Ty := do
  let (env, _) ← d.check .empty
  (Expr.path {} owner name).infer env

theorem module_loses_subtraction :
    "-" ∈ (Decl.value {} "-" false none (.lit {} .int)).valueNames ∧
      ((subtraction.check .empty).result? {}).isSome ∧
      (useMember subtraction "M" "-").result? {} = none ∧
      (useMember (.module {} "M" [.value {} "minus" false none (.lit {} .int)]) "M"
        "minus").result? {} = some .int := by
  refine ⟨by simp [Decl.valueNames], by decide +kernel, by decide +kernel, by decide +kernel⟩

end RowTyping
