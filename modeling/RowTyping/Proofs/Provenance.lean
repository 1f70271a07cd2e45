import RowTyping.Proofs.Sealing
import RowTyping.Proofs.Tracing

/-!
# Every call of the checker traced

Patterns, expressions, declarations and programs are traced from any origin, as
unification and schemes were. It follows for every call of the
checker, whatever state it is made in and whatever becomes of it, that the registry
evolves and where the identities in the outcome come from.
-/

namespace RowTyping

open Check Vocabulary Registry Ty List

instance : Identified Ctor where
  Within K c := K.Covers c.owner ∧ K.Covers c.arg
  mono hle h := ⟨h.1.mono hle, h.2.mono hle⟩
  all c := ⟨covers_all c.owner, covers_all c.arg⟩

namespace Vocabulary

variable {K : Vocabulary} {t : Ty}

theorem covers_ctor? (h : K.Covers t) : K.Covers t.ctor? := by
  intro c hc
  unfold ctor? at hc
  split at hc
  · cases hc
    obtain ⟨howner, hargs⟩ := covers_cons.mp (covers_con.mp h).2
    exact ⟨howner, fun u hu => hargs u (mem_of_head? hu)⟩
  · cases hc

end Vocabulary

instance : Identified Declared where
  Within K d := K.Covers d.values ∧ K.Covers d.types
  mono hle h := ⟨h.1.mono hle, h.2.mono hle⟩
  all d := ⟨covers_all d.values, covers_all d.types⟩

/-- Only what is known is the same. -/
def Pairing.covered (K : Vocabulary) : Pairing where
  Same t u := t = u ∧ K.Covers t
  Named t u := t = u ∧ K.Covers t
  Gen g h := g = h ∧ K.Has (.var (.gen g))
  Label _ := True

section

variable {K : Vocabulary}

theorem diagonal_covered : (Pairing.covered K).Diagonal := ⟨And.left, And.left, And.left⟩

theorem covered_list {α : Type} [Pairable α] [Identified α]
    (h : ∀ a : α, Pairable.Alike (.covered K) a a ↔ K.Covers a) {as : List α} :
    Pairable.Alike (.covered K) as as ↔ K.Covers as :=
  forall₂_same.trans (forall₂_congr fun a _ => h a)

theorem covered_table {α : Type} [Pairable α] [Identified α]
    (h : ∀ a : α, Pairable.Alike (.covered K) a a ↔ K.Covers a) {as : Table α} :
    Pairable.Alike (.covered K) as as ↔ K.Covers as :=
  covered_list fun a => and_congr ⟨fun _ => trivial, fun _ => ⟨rfl, trivial⟩⟩ (h a.2)

theorem covered_ty (t : Ty) : Pairable.Alike (.covered K) t t ↔ K.Covers t := and_iff_right rfl

theorem covered_scheme (σ : Scheme) : Pairable.Alike (.covered K) σ σ ↔ K.Covers σ :=
  and_congr (forall₂_same.trans (forall₂_congr fun _ _ => and_iff_right rfl)) (covered_ty σ.body)

theorem covered_env {env : Env} : Pairable.Alike (.covered K) env env ↔ K.Covers env :=
  and_congr (covered_table covered_scheme) (covered_table covered_scheme)

theorem builds_covered : Forms (.covered K) where
  con {c ts us} hc _ h := by
    cases Pairable.eq diagonal_covered h
    refine ⟨rfl, covers_con.mpr ⟨?_, (covered_list covered_ty).mp h⟩⟩
    cases c <;> trivial
  record h ht := by
    cases Pairable.eq diagonal_covered h
    obtain ⟨rfl, ht⟩ := ht
    exact ⟨rfl, covers_record.mpr ⟨(covered_table covered_ty).mp h, ht⟩⟩

end

namespace Origin

variable {o : Origin} {last : Registry} (A : o.AllowsChecking)

/-- Both runs are the same one, from the origin up to a registry. -/
abbrev AllowsChecking.comparison (last : Registry) : Comparison where
  toFrame := o.frame last
  toPairing := .covered (o.upTo last)
  builds := builds_covered
  namedBuilds := builds_covered
  ofNamed := id
  gen h := ⟨congrArg Ty.gen h.1, covers_var.mpr h.2⟩
  fails {s t e} h he := by
    refine ⟨rfl, h.1, h.2.1, h.2.2.2, ?_, fun _ => A.external _ ?_⟩ <;> cases e <;> trivial
  addVar h := by
    obtain rfl := h.1
    exact (A.unification.respects.addVar h).imp id fun h => ⟨h.1, rfl, h.2⟩
  addGen h := by
    obtain rfl := h.1
    exact (AllowsChecking.addGen h).imp id fun h => ⟨h.1, rfl, h.2⟩
  unify := by
    rintro a _ b _ ⟨rfl, ha⟩ ⟨rfl, hb⟩
    exact A.unification.respects.tracks_unify ha hb
  instantiate h := by
    cases Pairable.eq diagonal_covered h
    exact A.tracks_instantiate ((covered_scheme _).mp h)
  generalizeIn henv := by
    rintro ⟨rfl, ht⟩
    cases Pairable.eq diagonal_covered henv
    refine (A.tracks_generalizeIn _ ht).imp ?_
    rintro σ _ ⟨rfl, h⟩
    exact (covered_scheme σ).mpr h
  instantiateWith name hσ hts := by
    cases Pairable.eq diagonal_covered hσ
    cases Pairable.eq diagonal_covered hts
    exact A.tracks_instantiateWith name ((covered_scheme _).mp hσ)
      ((covered_list covered_ty).mp hts)
  instantiateDeclared name hσ hts := by
    cases Pairable.eq diagonal_covered hσ
    cases Pairable.eq diagonal_covered hts
    exact A.tracks_instantiateDeclared name ((covered_scheme _).mp hσ)
      ((covered_list covered_ty).mp hts)
  ctor? := by
    rintro t _ ⟨rfl, h⟩
    have hctor := covers_ctor? h
    cases hc : t.ctor? with
    | none => exact .none
    | some c =>
      obtain ⟨howner, harg⟩ := hctor c hc
      refine .some ⟨rfl, (covered_ty _).mpr howner, ?_⟩
      cases ha : c.arg with
      | none => exact .none
      | some u => exact .some ((covered_ty u).mpr (harg u ha))
  arity h hab := by
    rw [h.1, Pairable.eq diagonal_covered hab]
  members {s _ a _} h hab := by
    obtain rfl := h.1
    obtain ⟨rfl, ha⟩ := hab
    have hres : (o.upTo last).Covers (s.registry.resolve a) := covers_resolve h.2.2.2 ha
    generalize s.registry.resolve a = u at hres
    cases u with
    | module name members => exact .some (covered_env.mpr (covers_module.mp hres A.entersModules)).1
    | _ => exact .none

namespace AllowsChecking

theorem declares : Declares (A.comparison last) where
  toNamed := id
  resolveDeep h hab := by
    obtain rfl := h.1
    exact ⟨congrArg _ hab.1, covers_resolveDeep h.2.2.2 hab.2⟩
  addType {s _} h := by
    obtain rfl := h.1
    by_cases hle : s.registry.addType ≤ last
    · refine .inr ⟨⟨rfl, h.2.1.trans (le_addType _), hle, h.2.2.2⟩, fun args args' hargs => ?_⟩
      cases Pairable.eq diagonal_covered hargs
      have hid : (o.upTo last).Has (.type s.registry.nextType) :=
        .inr ((issues_addType h.2.1).later hle)
      have htypes : (o.upTo last).Covers (args.map (·.2)) :=
        forall_mem_map.mpr fun e he => ((covered_table covered_ty).mp hargs e he).2
      refine ⟨hargs, ⟨rfl, covers_con.mpr ⟨hid, htypes⟩⟩, ⟨rfl, covers_con.mpr ⟨hid, htypes⟩⟩, ?_⟩
      rintro t _ ⟨rfl, ht⟩
      exact ⟨rfl, covers_synonym.mpr ⟨hid, htypes, ht⟩⟩
    · exact .inl hle
  typeDeclared _ _ h := by
    obtain rfl := h.1
    exact ⟨rfl, h.2⟩
  ofModule _ h := by
    cases Pairable.eq diagonal_covered h
    exact ⟨rfl, covers_module.mpr fun _ => covered_env.mp h⟩

variable {s : State} (hs : o.Stands s)
include A hs

theorem traces_of_agrees {α : Type} [Pairable α] [Identified α] {x : Check Located α} [Grows x]
    (hα : ∀ (K : Vocabulary) (a : α), Pairable.Alike (.covered K) a a → K.Covers a)
    (h : ∀ last, s.registry ≤ last → (A.comparison last).Agrees x x) : o.TracesAt s x o.Covers := by
  refine hs.traces fun last hle => (h last hle).tracks.imp fun a b hab => ?_
  cases Pairable.eq diagonal_covered hab
  exact ⟨rfl, hα _ a hab⟩

variable {env : Env} (henv : o.Covers s.registry env)
include henv

omit hs in
theorem like (last : Registry) (hle : s.registry ≤ last) : (A.comparison last).Like env env :=
  ⟨covered_env.mpr (later henv hle)⟩

theorem traces_inferHead (e : Expr) : o.TracesAt s (e.inferHead env) o.Covers := by
  refine A.traces_of_agrees (α := Ty) hs (fun _ _ h => h.2) fun last hle => ?_
  have := A.like henv last hle
  have h := e.corresponds_inferHead (C := A.comparison last) (fun _ _ => trivial) env env
  rwa [e.mapSpan_eq_self (f := (A.comparison last).span) fun _ _ => rfl] at h

theorem traces_infer (e : Expr) : o.TracesAt s (e.infer env) o.Covers := by
  refine A.traces_of_agrees (α := Ty) hs (fun _ _ h => h.2) fun last hle => ?_
  have := A.like henv last hle
  have h := e.corresponds_infer (C := A.comparison last) A.declares (fun _ _ => trivial) env env
  rwa [e.mapSpan_eq_self (f := (A.comparison last).span) fun _ _ => rfl] at h

/-- The environment after a declaration, and what it introduced. -/
theorem traces_decl (d : Decl) : o.TracesAt s (d.check env) o.Covers := by
  refine A.traces_of_agrees (α := Env × Declared) hs
    (fun _ _ h => ⟨covered_env.mp h.1, covered_env.mp h.2⟩) fun last hle => ?_
  have := A.like henv last hle
  have h := d.corresponds_check (C := A.comparison last) A.declares (fun _ _ => trivial) env env
  rwa [d.mapSpan_eq_self (f := (A.comparison last).span) fun _ _ => rfl] at h

end AllowsChecking

end Origin

theorem covered_scope {K : Vocabulary} {isFixed : Bool} {scope scope' : Scope}
    (h : scope.Alike ((Pairing.covered K).written isFixed) isFixed scope') : K.Covers scope := by
  cases scope <;> cases scope' <;> try exact h.elim
  all_goals
    obtain ⟨rfl, h⟩ := h
    cases Pairable.eq diagonal_covered h
    exact (covered_table covered_ty).mp h

/-- Reading a written type. -/
theorem Origin.AllowsChecking.traces_read {o : Origin} (A : o.AllowsChecking) {s : ReadState}
    (hs : o.Stands s) {env : Env} (henv : o.Covers (HasRegistry.registry s) env) (e : TypeExpr) :
    o.TracesAt s (e.read env) o.Covers := by
  have hstate : o.Stands s.state := ⟨hs.start_le, hs.covers.1⟩
  refine .of_follows (F := fun last => (A.comparison last).reading s.scope.isFixed) ⟨fun h => ?_,
    fun h => ?_, fun h => h.resolve_left id⟩
    (R := fun r => Pairable.Alike ((Pairing.covered (o.upTo r)).written s.scope.isFixed))
    (fun r t u h => ?_) fun last hle => ⟨⟨hstate.at_frame hle, ?_⟩, ?_⟩
  · exact ⟨(keeps_frame.stands h.1).1, (keeps_frame.stands h.1).2, covered_scope h.2⟩
  · obtain ⟨hst, hcovers, hallows⟩ := keeps_frame.fails h.1
    exact ⟨⟨hst.1, hst.2, covered_scope h.2⟩, hcovers, hallows⟩
  · generalize s.scope.isFixed = isFixed at h
    cases isFixed <;> exact h.2
  · have hscope := later hs.covers.2 hle
    generalize s.scope = scope at hscope
    cases scope <;> exact ⟨rfl, (covered_table covered_ty).mpr hscope⟩
  · have := A.like henv last hle
    exact (e.corresponds_read (C := A.comparison last) env env fun _ _ => trivial).tracks

theorem Origin.traces_bindVar {o : Origin} (hall : ∀ e, o.Allows e) {s : State} (hs : o.Stands s)
    {v : Nat} {t : Ty} (hv : o.Covers s.registry (flex v)) (ht : o.Covers s.registry t) :
    o.TracesAt s (bindVar v t) o.Covers := by
  rcases run_bindVar v t s with ⟨-, hrun⟩ | ⟨old, hold, hrun | hrun⟩ | ⟨-, hopen, hrun⟩
  · exact .error hrun hs le_rfl (covers_var.mp hv) (hall _)
  · exact .ok hrun hs le_rfl (covers_unit _)
  · refine .error hrun hs le_rfl ⟨covers_var.mp hv, ?_, ?_⟩ (hall _)
    · exact covers_resolve hs.covers (hs.covers v old hold)
    · exact covers_resolve hs.covers ht
  · have hle := le_setBinding hopen t
    refine .ok hrun ⟨hs.start_le.trans hle, fun w u hw => later ?_ hle⟩ hle (covers_unit _)
    rcases binding?_setBinding_inv hw with ⟨rfl, rfl⟩ | hw
    · exact ht
    · exact hs.covers w u hw

/-! ## Programs -/

instance : Identified Report where
  Within K report := K.Covers report.env ∧ K.Covers report.declared ∧ K.Covers report.errors
  mono hle h := ⟨h.1.mono hle, h.2.1.mono hle, h.2.2.mono hle⟩
  all report := ⟨covers_all report.env, covers_all report.declared, covers_all report.errors⟩

namespace Origin

/-- A report and a registry that were reached from the origin. -/
structure Reports (o : Origin) (report : Report) (r : Registry) : Prop where
  start_le : o.start ≤ r
  bindings : o.Covers r r
  covers : o.Covers r report
  allows : ∀ e ∈ report.errors, o.Allows e.error

variable {o : Origin} (A : o.AllowsChecking)
include A

/-- Declarations that fail add their errors, the others what they introduce. -/
theorem AllowsChecking.reports_checkDecls (ds : List Decl) {report : Report} {s : State}
    (h : o.Reports report s.registry) :
    o.Reports (checkDecls ds report s).1 (checkDecls ds report s).2.registry ∧
      s.registry ≤ (checkDecls ds report s).2.registry := by
  induction ds generalizing report s with
  | nil => exact ⟨h, le_rfl⟩
  | cons d ds ih =>
    obtain ⟨hs₁, hle₁, hok, herror⟩ := A.traces_decl ⟨h.start_le, h.bindings⟩ h.covers.1 d
    obtain ⟨-, hdeclared, herrors⟩ := h.covers
    cases hrun : (d.check report.env).run s with
    | ok x s₁ =>
      rw [after_ok hrun] at hs₁ hle₁
      obtain ⟨henv, hnew⟩ := hok x s₁ hrun
      have hreport : o.Reports { report with env := x.1, declared := report.declared ++ x.2.values }
          (s₁.record x.2.values).registry := by
        rw [State.registry_record]
        exact ⟨hs₁.start_le, hs₁.covers,
          ⟨henv, covers_append.mpr ⟨later hdeclared hle₁, hnew.1⟩, later herrors hle₁⟩, h.allows⟩
      obtain ⟨hend, hle₂⟩ := ih hreport
      rw [State.registry_record] at hle₂
      rw [checkDecls_ok hrun]
      exact ⟨hend, hle₁.trans hle₂⟩
    | error e s₁ =>
      rw [after_error hrun] at hs₁ hle₁
      obtain ⟨hcovers, hallows⟩ := herror e s₁ hrun
      have hreport : o.Reports { report with errors := report.errors ++ [e] } s₁.registry :=
        ⟨hs₁.start_le, hs₁.covers,
          ⟨later h.covers.1 hle₁, later hdeclared hle₁,
            covers_append.mpr ⟨later herrors hle₁, covers_cons.mpr ⟨hcovers, covers_nil⟩⟩⟩,
          forall_mem_append.mpr ⟨h.allows, forall_mem_singleton.mpr hallows⟩⟩
      obtain ⟨hend, hle₂⟩ := ih (s := s₁.emit (.rejected e.error)) hreport
      rw [checkDecls_error hrun]
      exact ⟨hend, hle₁.trans hle₂⟩

theorem AllowsChecking.reports_checkProgram (ds : List Decl) {env : Env} {s : State}
    (hstart : o.start ≤ s.registry) (hs : o.Covers s.registry s) (henv : o.Covers s.registry env) :
    o.Reports (checkProgram env ds s).1 (checkProgram env ds s).2.registry ∧
      s.registry ≤ (checkProgram env ds s).2.registry := by
  have hbegin : o.Reports { env } s.registry :=
    ⟨hstart, hs, ⟨henv, covers_nil, covers_nil⟩, by simp⟩
  obtain ⟨hend, hle⟩ := A.reports_checkDecls ds hbegin
  have hnames := (checkDecls ds { env } s).2.registry.le_assignNames
  refine ⟨⟨hend.start_le.trans hnames, fun v t hv => ?_, later hend.covers hnames, hend.allows⟩,
    hle.trans hnames⟩
  have hold := (binding?_assignNames _ v).symm.trans hv
  exact later (hend.bindings v t hold) hnames

end Origin

/-! ## Every call -/

section

variable {ε σ α γ : Type} [Fault ε] [Identified σ] [Identified α]

/-- The result or the error, and the state after it, mention no identity outside the
vocabulary. -/
def Vocabulary.CoversOutcome (K : Vocabulary) : EStateM.Result ε σ α → Prop
  | .ok a s => K.Covers a ∧ K.Covers s
  | .error e s => K.Covers (Fault.cause e) ∧ K.Covers s

instance : Identified (EStateM.Result ε σ α) where
  Within := Vocabulary.CoversOutcome
  mono {K L out} hle h := by
    cases out with
    | ok a s => exact ⟨h.1.mono hle, h.2.mono hle⟩
    | error e s => exact ⟨h.1.mono hle, h.2.mono hle⟩
  all out := by
    cases out with
    | ok a s => exact ⟨covers_all a, covers_all s⟩
    | error e s => exact ⟨covers_all (Fault.cause e), covers_all s⟩

variable [HasRegistry σ] [Identified γ]

/-- The vocabulary with further identities. -/
def Vocabulary.with (K : Vocabulary) (is : List Identity) : Vocabulary where
  Has i := K.Has i ∨ i ∈ is
  entersModules := K.entersModules

/-- In every state, and whether it succeeds or fails, a call changes the registry in
steps that take nothing back, and issues identities at or above the old counters only.
As long as no counter runs over, the same holds of the words that are handed out. All
that its outcome mentions was mentioned by what it was given or by the state, or was
issued by it. -/
def Evolving (given : γ) (call : EStateM ε σ α) : Prop :=
  ∀ s : σ, ∃ issued,
    (HasRegistry.registry s).Steps issued (HasRegistry.registry (after call s)) ∧
    (HasRegistry.registry s).Evolves (HasRegistry.registry (after call s)) ∧
    (∀ i ∈ issued, (HasRegistry.registry s).IsNew i) ∧
    ((HasRegistry.registry (after call s)).InRange →
      (HasRegistry.registry s).WordsEvolve (HasRegistry.registry (after call s)) issued) ∧
    ∀ K : Vocabulary, K.entersModules → K.Covers given → K.Covers s →
      (K.with issued).Covers (call.run s)

theorem Origin.evolving {given : γ} {call : EStateM ε σ α}
    (h : ∀ (o : Origin) (s : σ), o.AllowsChecking → (∀ e, o.Allows e) → o.Stands s →
      o.Covers (HasRegistry.registry s) given → o.TracesAt s call o.Covers) :
    Evolving given call := by
  intro s
  have htrace : ∀ K : Vocabulary, K.entersModules → K.Covers given → K.Covers s →
      HasRegistry.registry s ≤ HasRegistry.registry (after call s) ∧
        (K.since (HasRegistry.registry s) (HasRegistry.registry (after call s))).Covers
          (call.run s) := by
    intro K hmodules hgiven hs
    let o : Origin := ⟨K, HasRegistry.registry s, fun _ => True⟩
    have hK : K ≤ o.upTo (HasRegistry.registry s) := K.le_since _ _
    obtain ⟨hs', hle, hok, herror⟩ := h o s
      ⟨fun _ _ => trivial, fun _ _ => .inr trivial, hmodules⟩ (fun _ => trivial)
      ⟨le_rfl, hs.mono hK⟩ (hgiven.mono hK)
    refine ⟨hle, ?_⟩
    cases hrun : call.run s with
    | ok a s' =>
      rw [after_ok hrun] at hs' ⊢
      exact ⟨hok a s' hrun, hs'.covers⟩
    | error e s' =>
      rw [after_error hrun] at hs' ⊢
      exact ⟨(herror e s' hrun).1, hs'.covers⟩
  obtain ⟨issued, hsteps⟩ := (htrace .all trivial (covers_all _) (covers_all _)).1
  refine ⟨issued, hsteps, hsteps.evolves, fun i hi => (hsteps.mem_iff.mp hi).1,
    hsteps.wordsEvolve,
      fun K hmodules hgiven hs => (htrace K hmodules hgiven hs).2.mono ⟨fun hi => ?_, id⟩⟩
  exact hi.imp id hsteps.mem_iff.mpr

end

/-- Checking a program is a call that does not fail. -/
def checkingProgram (env : Env) (ds : List Decl) : Check Located Report := fun s =>
  .ok (checkProgram env ds s).1 (checkProgram env ds s).2

/-- Every call evolves the registry: unification, the binding of a variable, inference,
the checking of declarations and of programs, generalization, instantiation and the
reading of a written type. -/
theorem calls_evolve :
    (∀ a b : Ty, Evolving (a, b) (unify a b)) ∧
    (∀ (v : Nat) (t : Ty), Evolving (Ty.flex v, t) (bindVar v t)) ∧
    (∀ (env : Env) (e : Expr), Evolving env (e.infer env)) ∧
    (∀ (env : Env) (d : Decl), Evolving env (d.check env)) ∧
    (∀ (env : Env) (ds : List Decl), Evolving env (checkingProgram env ds)) ∧
    (∀ (env : Env) (t : Ty), Evolving (env, t) (generalizeIn env t : Check TypeError Scheme)) ∧
    (∀ σ : Scheme, Evolving σ (instantiate σ : Check TypeError Ty)) ∧
    (∀ (name : String) (σ : Scheme) (args : List Ty),
      Evolving (σ, args) (instantiateWith name σ args)) ∧
    (∀ (name : String) (σ : Scheme) (args : List Ty),
      Evolving (σ, args) (instantiateDeclared name σ args)) ∧
    ∀ (env : Env) (e : TypeExpr), Evolving env (e.read env) := by
  refine ⟨fun a b => ?_, fun v t => ?_, fun env e => ?_, fun env d => ?_, fun env ds => ?_,
    fun env t => ?_, fun σ => ?_, fun name σ args => ?_, fun name σ args => ?_, fun env e => ?_⟩
  · exact Origin.evolving fun o s A _ hs h => A.unification.traces_unify hs h.1 h.2
  · exact Origin.evolving fun o s _ hall hs h => Origin.traces_bindVar hall hs h.1 h.2
  · exact Origin.evolving fun o s A _ hs henv => A.traces_infer hs henv e
  · exact Origin.evolving fun o s A _ hs henv => A.traces_decl hs henv d
  · refine Origin.evolving fun o s A _ hs henv => ?_
    have hreport := A.reports_checkProgram ds hs.start_le hs.covers henv
    exact .ok rfl ⟨hreport.1.start_le, hreport.1.bindings⟩ hreport.2 hreport.1.covers
  · exact Origin.evolving fun o s A _ hs h => hs.traces fun _ hle =>
      A.tracks_generalizeIn env (Origin.later h.2 hle)
  · exact Origin.evolving fun o s A _ hs h => hs.traces fun _ hle =>
      A.tracks_instantiate (Origin.later h hle)
  · exact Origin.evolving fun o s A _ hs h => hs.traces fun _ hle =>
      A.tracks_instantiateWith name (Origin.later h.1 hle) (Origin.later h.2 hle)
  · exact Origin.evolving fun o s A _ hs h => hs.traces fun _ hle =>
      A.tracks_instantiateDeclared name (Origin.later h.1 hle) (Origin.later h.2 hle)
  · exact Origin.evolving fun o s A _ hs henv => A.traces_read hs henv e

end RowTyping
