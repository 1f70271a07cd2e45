import RowTyping.Proofs.Evolution

/-!
# Where identities come from

An operation is traced from an origin, the registry it started with and the identities
that were known there. Whether it succeeds or fails, whatever it leaves in its
result, its error, the bindings and the labels of a reader is known from the origin
or was issued since.

The registry that an operation ends with is taken as known beforehand: what is known by
then does not change on the way, and a run that goes beyond it need not be followed. At
the same time it is said which errors the operation can fail with. An error ends it, so
by then everything that is known has been issued.
-/

namespace RowTyping

open Check Vocabulary Registry List

/-- The vocabulary with what was issued since. -/
def Vocabulary.since (K : Vocabulary) (r r' : Registry) : Vocabulary where
  Has i := K.Has i ∨ r.Issues r' i
  entersModules := K.entersModules

theorem Vocabulary.le_since (K : Vocabulary) (r r' : Registry) : K ≤ K.since r r' := ⟨.inl, id⟩

/-! ## Errors -/

/-- The error mentions no identity outside the vocabulary. -/
def TypeError.Within (K : Vocabulary) : TypeError → Prop
  | .mismatch a b => K.Covers a ∧ K.Covers b
  | .cyclic v t => K.Has (.var (.flex v)) ∧ K.Covers t
  | .bindingConflict v a b => K.Has (.var (.flex v)) ∧ K.Covers a ∧ K.Covers b
  | .unknownVariable v => K.Has (.var (.flex v))
  | _ => True

instance : Identified TypeError where
  Within := TypeError.Within
  mono {K L e} hle h := by
    cases e with
    | mismatch a b => exact ⟨h.1.mono hle, h.2.mono hle⟩
    | cyclic v t => exact ⟨hle.has h.1, h.2.mono hle⟩
    | bindingConflict v a b => exact ⟨hle.has h.1, h.2.1.mono hle, h.2.2.mono hle⟩
    | unknownVariable v => exact hle.has h
    | _ => trivial
  all e := by
    cases e with
    | mismatch a b => exact ⟨covers_all a, covers_all b⟩
    | cyclic v t => exact ⟨trivial, covers_all t⟩
    | bindingConflict v a b => exact ⟨trivial, covers_all a, covers_all b⟩
    | _ => trivial

instance : Identified Located :=
  ⟨fun K e => K.Covers e.error, fun hle h => h.mono hle, fun e => covers_all e.error⟩

/-- Whether the error says that a variable was never issued or has a binding already.
It is no fault of a program. -/
def TypeError.isInternal : TypeError → Bool
  | .bindingConflict _ _ _ => true
  | .unknownVariable _ => true
  | _ => false

/-! ## Tracing -/

instance : Identified State :=
  ⟨fun K s => K.Covers s.registry, fun hle h => h.mono hle, fun s => covers_all s.registry⟩

/-- The types that the labels of a scope stand for. -/
def Scope.labels : Scope → Table Ty
  | .flexible labels => labels
  | .fixed params => params

instance : Identified Scope :=
  ⟨fun K scope => K.Covers scope.labels, fun hle h => h.mono hle,
    fun scope => covers_all scope.labels⟩

instance : Identified ReadState where
  Within K s := K.Covers s.state ∧ K.Covers s.scope
  mono hle h := ⟨h.1.mono hle, h.2.mono hle⟩
  all s := ⟨covers_all s.state, covers_all s.scope⟩

/-- What an operation is traced back to: the registry it started with, what was known
there, and the errors it may fail with. -/
structure Origin where
  known : Vocabulary
  start : Registry
  Allows : TypeError → Prop

namespace Origin

variable {ε σ α β : Type} [HasRegistry σ] [Identified σ] [Identified α] [Fault ε] {o : Origin}
  {r : Registry} {Q : Registry → α → Prop}

/-- What is known at a later registry. -/
def upTo (o : Origin) (r : Registry) : Vocabulary := o.known.since o.start r

/-- Nothing is mentioned that is not known by then. -/
abbrev Covers (o : Origin) (r : Registry) (a : α) : Prop := (o.upTo r).Covers a

theorem upTo_le {r' : Registry} (hle : r ≤ r') : o.upTo r ≤ o.upTo r' :=
  ⟨fun h => h.imp id fun h => h.later hle, id⟩

theorem later {a : α} {r' : Registry} (h : o.Covers r a) (hle : r ≤ r') : o.Covers r' a :=
  h.mono (upTo_le hle)

/-- The state was reached from the origin. -/
structure Stands (o : Origin) (s : σ) : Prop where
  start_le : o.start ≤ HasRegistry.registry s
  covers : o.Covers (HasRegistry.registry s) s

/-- From one state, whatever becomes of it, the operation leads to a state that was
reached from the origin; it yields a result with the property or fails with an allowed
error. -/
def TracesAt (o : Origin) (s : σ) (x : EStateM ε σ α) (Q : Registry → α → Prop) : Prop :=
  o.Stands (after x s) ∧ HasRegistry.registry s ≤ HasRegistry.registry (after x s) ∧
    (∀ a s', x.run s = .ok a s' → Q (HasRegistry.registry s') a) ∧
    ∀ e s', x.run s = .error e s' →
      o.Covers (HasRegistry.registry s') (Fault.cause e) ∧ o.Allows (Fault.cause e)

namespace TracesAt

variable {x : EStateM ε σ α} {s s' : σ} {a : α} {e : ε}

omit [Identified α]

theorem ok (hrun : x.run s = .ok a s') (hs : o.Stands s')
    (hle : HasRegistry.registry s ≤ HasRegistry.registry s')
    (ha : Q (HasRegistry.registry s') a) : o.TracesAt s x Q := by
  rw [TracesAt, after_ok hrun, hrun]
  refine ⟨hs, hle, fun b s₂ h => ?_, fun e s₂ h => ?_⟩
  · cases h
    exact ha
  · cases h

theorem error (hrun : x.run s = .error e s') (hs : o.Stands s')
    (hle : HasRegistry.registry s ≤ HasRegistry.registry s')
    (he : o.Covers (HasRegistry.registry s') (Fault.cause e)) (hallows : o.Allows (Fault.cause e)) :
    o.TracesAt s x Q := by
  rw [TracesAt, after_error hrun, hrun]
  refine ⟨hs, hle, fun b s₂ h => ?_, fun e s₂ h => ?_⟩
  · cases h
  · cases h
    exact ⟨he, hallows⟩

theorem of_ok (h : o.TracesAt s x Q) (hrun : x.run s = .ok a s') :
    o.Stands s' ∧ HasRegistry.registry s ≤ HasRegistry.registry s' ∧
      Q (HasRegistry.registry s') a := by
  obtain ⟨hs, hle, hok, -⟩ := h
  rw [after_ok hrun] at hs hle
  exact ⟨hs, hle, hok a s' hrun⟩

end TracesAt

end Origin

/-- What can become of a binding. -/
theorem run_bindVar (v : Nat) (t : Ty) (s : State) :
    (s.registry.varCount ≤ v ∧ (bindVar v t).run s = .error (.unknownVariable v) s) ∨
    (∃ old, s.registry.binding? v = some old ∧
      ((bindVar v t).run s = .ok () s ∨
        (bindVar v t).run s =
          .error (.bindingConflict v (s.registry.resolve old) (s.registry.resolve t)) s)) ∨
    (v < s.registry.varCount ∧ s.registry.binding? v = none ∧
      (bindVar v t).run s = .ok () ⟨s.registry.setBinding v t, s.log.push (.bind v t)⟩) := by
  simp only [bindVar, EStateM.run_bind, run_registry]
  cases hcell : s.registry.cells[v]? with
  | none => exact .inl ⟨Array.getElem?_eq_none_iff.mp hcell, rfl⟩
  | some cell =>
    have hbinding : s.registry.binding? v = cell.binding := by simp [binding?, hcell]
    cases hold : cell.binding with
    | none =>
      refine .inr (.inr ⟨(Array.getElem?_eq_some_iff.mp hcell).1, hbinding.trans hold, ?_⟩)
      simp [hold]
    | some old =>
      refine .inr (.inl ⟨old, hbinding.trans hold, ?_⟩)
      simp only [hold]
      split
      · exact .inl rfl
      · exact .inr rfl

/-- A variable is bound only where it is open, so the binding cannot conflict. -/
theorem solve_error {v : Nat} {t : Ty} {s s' : State} {e : TypeError}
    (h : (solve v t).run s = .error e s') :
    e = .cyclic v (s.registry.resolveDeep t) ∨
      s.registry.varCount ≤ v ∧ e = .unknownVariable v := by
  simp only [solve, EStateM.run_bind, run_registry] at h
  split at h
  · cases h
    exact .inl rfl
  · next hfree =>
    rcases run_bindVar v t s with ⟨hcount, hrun⟩ | ⟨old, hold, -⟩ | ⟨-, -, hrun⟩
    · rw [hrun] at h
      cases h
      exact .inr ⟨hcount, rfl⟩
    · simp [hold] at hfree
    · rw [hrun] at h
      cases h

namespace Origin

variable {o : Origin} {last : Registry}

/-- Runs from the origin up to a registry that mention only what is known by then. -/
def frame (o : Origin) (last : Registry) : Frame State where
  At s t := s = t ∧ o.start ≤ s.registry ∧ s.registry ≤ last ∧ o.Covers last s.registry
  Fails e s e' t := e = e' ∧ s = t ∧ o.start ≤ s.registry ∧ o.Covers last s.registry ∧
    o.Covers last e ∧ (last ≤ s.registry → o.Allows e)
  Lost s := ¬ s.registry ≤ last
  lenient := False
  span := id

instance : Steady (o.frame last) := .of_growing fun h hs h' => hs (h.trans h')

/-- The frames keep to what is known from the origin. -/
structure Keeps {σ : Type} [HasRegistry σ] [Identified σ] (o : Origin) (F : Registry → Frame σ) :
    Prop where
  stands : ∀ {last s t}, (F last).At s t → o.start ≤ HasRegistry.registry s ∧ o.Covers last s
  fails : ∀ {last e s e' t}, (F last).Fails e s e' t → (o.start ≤ HasRegistry.registry s ∧
    o.Covers last s) ∧ o.Covers last e ∧ (last ≤ HasRegistry.registry s → o.Allows e)
  excuses : ∀ {last s}, (F last).lenient ∨ (F last).Lost s → ¬ HasRegistry.registry s ≤ last

theorem keeps_frame : o.Keeps o.frame :=
  ⟨fun h => ⟨h.2.1, h.2.2.2⟩, fun h => ⟨⟨h.2.2.1, h.2.2.2.1⟩, h.2.2.2.2⟩,
    fun h => h.resolve_left id⟩

/-- An operation is traced by following it to the registry that it ends with. -/
theorem TracesAt.of_follows {ε σ α : Type} [HasRegistry σ] [Identified σ] [Reported ε]
    {F : Registry → Frame σ} (hF : o.Keeps F) {x : EStateM ε σ α} [Grows x] {s : σ}
    {Q : Registry → α → Prop} {R : Registry → α → α → Prop} (hR : ∀ r a b, R r a b → Q r a)
    (h : ∀ last, HasRegistry.registry s ≤ last → (F last).At s s ∧ Tracks (F last) (R last) x x) :
    o.TracesAt s x Q := by
  have hle := Grows.le_after (x := x) s
  obtain ⟨hs, hx⟩ := h _ hle
  have hrun := hx s s hs
  cases hout : x.run s with
  | ok a s' =>
    rw [after_ok hout] at hle hrun
    rw [hout] at hrun
    cases hrun with
    | ok hst hab => exact .ok hout ⟨(hF.stands hst).1, (hF.stands hst).2⟩ hle (hR _ _ _ hab)
    | excused h => exact absurd le_rfl (hF.excuses (.inr h))
  | error e s' =>
    rw [after_error hout] at hle hrun
    rw [hout] at hrun
    cases hrun with
    | error h _ =>
      obtain ⟨hst, hcovers, hallows⟩ := hF.fails h
      exact .error hout ⟨hst.1, hst.2⟩ hle hcovers (hallows le_rfl)
    | excused h => exact absurd le_rfl (hF.excuses h)

/-- A run that starts at a state reached from the origin. -/
theorem Stands.at_frame {s : State} (h : o.Stands s) (hle : s.registry ≤ last) :
    (o.frame last).At s s :=
  ⟨rfl, h.start_le, hle, later h.covers hle⟩

theorem Stands.traces {ε α : Type} [Reported ε] [Identified α] {x : Check ε α} [Grows x] {s : State}
    (hs : o.Stands s) (h : ∀ last, s.registry ≤ last →
      Tracks (o.frame last) (fun a b => a = b ∧ o.Covers last a) x x) : o.TracesAt s x o.Covers :=
  .of_follows keeps_frame (fun _ _ _ h => h.2)
    fun last hle => ⟨hs.at_frame hle, h last hle⟩

/-! ## Unification -/

/-- The errors of unification are allowed. That a variable was never issued is not
among them, unless such a variable was known at the start. -/
structure AllowsUnification (o : Origin) : Prop where
  mismatch : ∀ a b, o.Allows (.mismatch a b)
  cyclic : ∀ v t, o.Allows (.cyclic v t)
  unknown : ∀ v, o.known.Has (.var (.flex v)) → v < o.start.varCount ∨ o.Allows (.unknownVariable v)

/-- Everything that is known by the end of a run has been issued. -/
theorem AllowsUnification.respects (A : o.AllowsUnification) :
    Respects (o.frame last) fun _ t => o.Covers last t where
  eq h := h.1
  addVar {s} h := by
    by_cases hle : s.registry.addVar ≤ last
    · refine .inr ⟨⟨rfl, h.2.1.trans (le_addVar _), hle, fun v t hv => ?_⟩, ?_⟩
      · exact h.2.2.2 v t ((s.registry.binding?_addVar v).symm.trans hv)
      · exact covers_var.mpr (.inr ((issues_addVar h.2.1).later hle))
    · exact .inl hle
  setBinding {s v t} h hopen _ _ _ ht := by
    by_cases hle : s.registry.setBinding v t ≤ last
    · refine .inr ⟨rfl, h.2.1.trans (le_setBinding hopen t), hle, fun w u hw => ?_⟩
      rcases binding?_setBinding_inv hw with ⟨rfl, rfl⟩ | hw
      · exact ht
      · exact h.2.2.2 w u hw
    · exact .inl hle
  push h _ := ⟨rfl, h.2⟩
  mismatch h ha hb := ⟨rfl, rfl, h.2.1, h.2.2.2,
    ⟨covers_resolveDeep h.2.2.2 ha, covers_resolveDeep h.2.2.2 hb⟩, fun _ => A.mismatch _ _⟩
  unsolved {s v t e} h hv ht hrun := by
    have hknown : (o.upTo last).Has (.var (.flex v)) := covers_var.mp hv
    rcases solve_error hrun with rfl | ⟨hcount, rfl⟩
    · exact ⟨rfl, rfl, h.2.1, h.2.2.2, ⟨hknown, covers_resolveDeep h.2.2.2 ht⟩,
        fun _ => A.cyclic _ _⟩
    · refine ⟨rfl, rfl, h.2.1, h.2.2.2, hknown, fun hend => ?_⟩
      rcases hknown with hknown | ⟨-, hissued⟩
      · refine (A.unknown v hknown).resolve_left fun hlt => ?_
        have hle := (evolves_of_le h.2.1).varCount_le
        exact absurd hcount (Nat.not_le.mpr (hlt.trans_le hle))
      · exact absurd ((evolves_of_le hend).varCount_le.trans hcount) hissued
  resolve h ht := covers_resolve h.2.2.2 ht
  row h ht := ⟨fun e he => ((covers_row h.2.2.2 ht).1 e he).2, (covers_row h.2.2.2 ht).2⟩
  ends h ht _ := covers_resolve h.2.2.2 ht
  args h := (covers_con.mp h).2
  target h := (covers_synonym.mp h).2.2
  record hfs ht := covers_record.mpr ⟨fun e he => ⟨trivial, hfs e he⟩, ht⟩

theorem AllowsUnification.traces_unify (A : o.AllowsUnification) {s : State} (hs : o.Stands s)
    {a b : Ty} (ha : o.Covers s.registry a) (hb : o.Covers s.registry b) :
    o.TracesAt s (unify a b) o.Covers :=
  hs.traces fun _ hle => (A.respects.tracks_unify (later ha hle) (later hb hle)).imp
    fun _ _ _ => ⟨rfl, covers_unit _⟩

/-! ## Schemes -/

theorem tracks_freshFor {ε α β : Type} [Reported ε] {F : Frame State} {fresh : Check ε α}
    [Onward F fresh] {P : α → Prop} (hfresh : Tracks F (fun a b => a = b ∧ P a) fresh fresh)
    (bs : List β) : Tracks F (fun es es' => es = es' ∧ ∀ e ∈ es, P e.2) (freshFor fresh bs)
      (freshFor fresh bs) := by
  induction bs with
  | nil => exact tracks_pure ⟨rfl, by simp⟩
  | cons b bs ih =>
    refine hfresh.bind ?_
    rintro a _ ⟨rfl, ha⟩
    refine ih.bind ?_
    rintro es _ ⟨rfl, hes⟩
    exact tracks_pure ⟨rfl, forall_mem_cons.mpr ⟨ha, hes⟩⟩

/-- A generalized variable that is known. -/
def HasGen (o : Origin) (r : Registry) (g : Nat) : Prop := (o.upTo r).Has (.var (.gen g))

/-- All errors of a program are allowed, and it is known what the members of modules
mention. -/
structure AllowsChecking (o : Origin) : Prop where
  external : ∀ e : TypeError, e.isInternal = false → o.Allows e
  unknown : ∀ v, o.known.Has (.var (.flex v)) → v < o.start.varCount ∨ o.Allows (.unknownVariable v)
  entersModules : o.known.entersModules

namespace AllowsChecking

variable (A : o.AllowsChecking) {ε : Type} [Reported ε] {σ : Scheme} {args : List Ty}
include A

theorem unification : o.AllowsUnification :=
  ⟨fun _ _ => A.external _ rfl, fun _ _ => A.external _ rfl, A.unknown⟩

omit A in
theorem addGen {s : State} (h : (o.frame last).At s s) :
    (o.frame last).Lost { s with registry := s.registry.addGen } ∨
      (o.frame last).At { s with registry := s.registry.addGen }
        { s with registry := s.registry.addGen } ∧
        o.HasGen last s.registry.nextGen := by
  by_cases hle : s.registry.addGen ≤ last
  · exact .inr ⟨⟨rfl, h.2.1.trans (le_addGen _), hle, h.2.2.2⟩,
      .inr ((issues_addGen h.2.1).later hle)⟩
  · exact .inl hle

theorem tracks_freshVars {β : Type} (bs : List β) : Tracks (o.frame last)
    (fun es es' => es = es' ∧ ∀ e ∈ es, o.Covers last e.2) (freshFor freshVar bs : Check ε _)
      (freshFor freshVar bs) :=
  tracks_freshFor A.unification.respects.tracks_freshVar bs

omit A in
theorem tracks_freshGens {β : Type} (bs : List β) : Tracks (o.frame last)
    (fun es es' => es = es' ∧ ∀ e ∈ es, o.HasGen last e.2) (freshFor freshGen bs : Check ε _)
      (freshFor freshGen bs) := by
  refine tracks_freshFor (fun s t hst => ?_) bs
  obtain rfl := hst.1
  exact (addGen hst).elim (fun h => .excused h) fun h => .ok h.1 ⟨rfl, h.2⟩

theorem tracks_instantiate (hσ : o.Covers last σ) : Tracks (o.frame last)
    (fun t u => t = u ∧ o.Covers last t) (instantiate σ : Check ε Ty) (instantiate σ) := by
  rw [instantiate_eq]
  refine (A.tracks_freshVars _).bind ?_
  rintro es _ ⟨rfl, hes⟩
  exact tracks_pure ⟨rfl, covers_apply hσ.2 hes⟩

theorem tracks_generalizeIn (env : Env) {t : Ty} (ht : o.Covers last t) : Tracks (o.frame last)
    (fun σ τ => σ = τ ∧ o.Covers last σ) (generalizeIn env t : Check ε Scheme)
      (generalizeIn env t) := by
  have hregistry := (A.unification.respects : Respects (o.frame last) _).tracks_registry (ε := ε)
  refine hregistry.split inferInstance ?_
  rintro _ _ ⟨rfl, -⟩
  refine hregistry.split inferInstance ?_
  rintro _ _ ⟨rfl, s, hs, rfl⟩
  refine (tracks_freshGens _).split inferInstance ?_
  rintro rows _ ⟨rfl, hrows⟩
  refine hregistry.split inferInstance ?_
  rintro _ _ ⟨rfl, -⟩
  refine (tracks_freshGens _).split inferInstance ?_
  rintro rest _ ⟨rfl, hrest⟩
  refine Tracks.bind (Q := fun _ _ => True) (fun s t h => ?_) fun _ _ _ => tracks_pure ⟨rfl, ?_, ?_⟩
  · obtain rfl := h.1
    exact .ok ⟨rfl, h.2⟩ trivial
  · exact forall_mem_append.mpr ⟨forall_mem_map.mpr hrows, forall_mem_map.mpr hrest⟩
  · exact covers_applyGens (covers_applyGens (covers_resolveDeep hs.2.2.2 ht) hrows) hrest

theorem tracks_applyArgs (name : String) (hσ : o.Covers last σ) (hargs : o.Covers last args) :
    Tracks (o.frame last) (fun t u => t = u ∧ o.Covers last t)
      (fromExcept (applyArgs name σ args)) (fromExcept (applyArgs name σ args)) := by
  cases happly : applyArgs name σ args with
  | ok t => exact tracks_pure ⟨rfl, covers_applyArgs hσ hargs happly⟩
  | error e =>
    intro s t h
    unfold applyArgs at happly
    split at happly
    · cases happly
    · cases happly
      exact .error ⟨rfl, h.1, h.2.1, h.2.2.2, trivial, fun _ => A.external _ rfl⟩ trivial

theorem tracks_instantiateWith (name : String) (hσ : o.Covers last σ) (hargs : o.Covers last args) :
    Tracks (o.frame last)
      (fun t u => t = u ∧ o.Covers last t) (instantiateWith name σ args)
        (instantiateWith name σ args) := by
  refine (A.tracks_applyArgs name hσ hargs).bind ?_
  rintro t _ ⟨rfl, ht⟩
  refine (A.tracks_freshVars _).bind ?_
  rintro rows _ ⟨rfl, hrows⟩
  exact tracks_pure ⟨rfl, covers_apply ht hrows⟩

theorem tracks_instantiateDeclared (name : String) (hσ : o.Covers last σ)
    (hargs : o.Covers last args) : Tracks (o.frame last)
      (fun t u => t = u ∧ o.Covers last t) (instantiateDeclared name σ args)
        (instantiateDeclared name σ args) := by
  refine (A.tracks_applyArgs name hσ hargs).bind ?_
  rintro t _ ⟨rfl, ht⟩
  refine (tracks_freshGens _).bind ?_
  rintro rows _ ⟨rfl, hrows⟩
  exact tracks_pure ⟨rfl, covers_applyGens ht hrows⟩

end AllowsChecking

end Origin

end RowTyping
