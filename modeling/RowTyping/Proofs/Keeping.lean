import RowTyping.Proofs.Synonyms
import RowTyping.Proofs.Termination
import RowTyping.Typing.TypeExpr

/-!
# What every operation keeps

A state is sound when its bindings have no cycle, are faithful, and are the ones
that its log records. An operation keeps states sound if it leads from sound
states to sound states, also where it fails; what it yields is described
together with the number of generalized variables issued by then. `Keeps` says
this of operations on any state of which a property and a number are watched,
and composes along `bind`.
-/

namespace RowTyping

open Registry Ty List Table

/-- Faithful bindings without a cycle. -/
structure Registry.Sound (r : Registry) : Prop where
  acyclic : r.Acyclic
  faithful : r.AllBindings Ty.Faithful

/-- The log records every binding, and only bindings that there are. -/
def State.Recorded (s : State) : Prop :=
  ∀ v t, s.registry.binding? v = some t ↔ .bind v t ∈ s.log

structure State.Sound (s : State) : Prop where
  registry : s.registry.Sound
  recorded : s.Recorded

section

variable {ε σ α β : Type} {x : EStateM ε σ α} {s s' : σ} {a : α} {e : ε} {f : α → EStateM ε σ β}

/-- The state after an operation, whatever its outcome. -/
def after (x : EStateM ε σ α) (s : σ) : σ :=
  match x.run s with
  | .ok _ s' => s'
  | .error _ s' => s'

theorem after_ok (h : x.run s = .ok a s') : after x s = s' := by
  rw [after, h]

theorem after_error (h : x.run s = .error e s') : after x s = s' := by
  rw [after, h]

theorem run_bind_ok (h : x.run s = .ok a s') : (x >>= f).run s = (f a).run s' := by
  rw [EStateM.run_bind, h]

theorem after_bind_ok (h : x.run s = .ok a s') : after (x >>= f) s = after (f a) s' := by
  rw [after, run_bind_ok h, after]

theorem run_bind_error (h : x.run s = .error e s') : (x >>= f).run s = .error e s' := by
  rw [EStateM.run_bind, h]

/-- What is watched in a state: a property that is to be kept, and a number that
never falls. -/
structure Watch (σ : Type) where
  Holds : σ → Prop
  count : σ → Nat

variable {w : Watch σ} {n m : Nat} {Q : Nat → α → Prop}

/-- The operation leads from the state to one with the property, also where it fails,
and what it yields satisfies `Q` together with the number at the end. -/
def KeepsAt (w : Watch σ) (s : σ) (x : EStateM ε σ α) (Q : Nat → α → Prop) : Prop :=
  w.Holds (after x s) ∧ w.count s ≤ w.count (after x s) ∧
    ∀ a s', x.run s = .ok a s' → Q (w.count s') a

/-- The operation does this from every state with the property and with a number of at
least `n`. -/
def Keeps (w : Watch σ) (n : Nat) (x : EStateM ε σ α) (Q : Nat → α → Prop) : Prop :=
  ∀ s, w.Holds s → n ≤ w.count s → KeepsAt w s x Q

theorem KeepsAt.ok (hrun : x.run s = .ok a s') (hs : w.Holds s') (hle : w.count s ≤ w.count s')
    (h : Q (w.count s') a) : KeepsAt w s x Q := by
  rw [KeepsAt, after_ok hrun, hrun]
  refine ⟨hs, hle, fun b s'' heq => ?_⟩
  cases heq
  exact h

theorem KeepsAt.error (hrun : x.run s = .error e s') (hs : w.Holds s')
    (hle : w.count s ≤ w.count s') : KeepsAt w s x Q := by
  rw [KeepsAt, after_error hrun, hrun]
  exact ⟨hs, hle, fun b s'' heq => by cases heq⟩

theorem Keeps.bind {R : Nat → β → Prop} (hx : Keeps w n x Q)
    (hf : ∀ a m, n ≤ m → Q m a → Keeps w m (f a) R) : Keeps w n (x >>= f) R := by
  intro s hs hn
  obtain ⟨hholds, hle, hyield⟩ := hx s hs hn
  cases hrun : x.run s with
  | ok a s' =>
    rw [after_ok hrun] at hholds hle
    obtain ⟨hholds', hle', hyield'⟩ := hf a _ (hn.trans hle) (hyield a s' hrun) s' hholds le_rfl
    rw [KeepsAt, after_bind_ok hrun, run_bind_ok hrun]
    exact ⟨hholds', hle.trans hle', hyield'⟩
  | error e s' =>
    rw [after_error hrun] at hholds hle
    exact .error (run_bind_error hrun) hholds hle

theorem Keeps.imp {R : Nat → α → Prop} (hx : Keeps w n x Q) (hQR : ∀ m a, n ≤ m → Q m a → R m a) :
    Keeps w n x R := by
  intro s hs hn
  obtain ⟨hholds, hle, hyield⟩ := hx s hs hn
  refine ⟨hholds, hle, fun a s' h => hQR _ a ?_ (hyield a s' h)⟩
  rw [after_ok h] at hle
  exact hn.trans hle

theorem keeps_pure (h : ∀ m, n ≤ m → Q m a) : Keeps w n (pure a : EStateM ε σ α) Q :=
  fun _ hs hn => .ok rfl hs le_rfl (h _ hn)

theorem keeps_throw (e : ε) : Keeps w n (throw e : EStateM ε σ α) Q :=
  fun _ hs _ => .error rfl hs le_rfl

end

open Check

theorem Check.ends_registry (x : Check TypeError Unit) (s : State) :
    (x.ends s).2 = (after x s).registry := by
  unfold ends after
  cases x.run s <;> rfl

/-- The result of an operation that succeeds. -/
def Check.result? {ε α : Type} (x : Check ε α) (s : State) : Option α :=
  match x.run s with
  | .ok a _ => some a
  | .error _ _ => none

theorem Check.run_of_result? {ε α : Type} {x : Check ε α} {s : State} {a : α}
    (h : x.result? s = some a) : x.run s = .ok a (after x s) := by
  unfold result? at h
  unfold after
  cases hrun : x.run s with
  | ok b s' =>
    rw [hrun] at h
    cases h
    rfl
  | error e s' =>
    rw [hrun] at h
    cases h

/-- What becomes of solving a variable. -/
theorem run_solve (v : Nat) (t : Ty) (s : State) :
    (∃ e, (solve v t).run s = .error e s ∧
      ¬ (s.registry.binding? v = none ∧ s.registry.occurs v t = false ∧ v < s.registry.varCount)) ∨
    ((solve v t).run s = .ok () ⟨s.registry.setBinding v t, s.log.push (.bind v t)⟩ ∧
      s.registry.binding? v = none ∧ s.registry.occurs v t = false ∧ v < s.registry.varCount) := by
  by_cases hstop : (s.registry.binding? v).isSome || s.registry.occurs v t
  · refine .inl ⟨.cyclic v (s.registry.resolveDeep t), ?_, fun hopen => ?_⟩
    · rw [Bool.or_eq_true] at hstop
      simp [solve, hstop]
    · simp [hopen.1, hopen.2.1] at hstop
  · obtain ⟨hopen, hocc⟩ : s.registry.binding? v = none ∧ s.registry.occurs v t = false := by
      simpa using hstop
    have hrun : (solve v t).run s = (bindVar v t).run s := by simp [solve, hopen, hocc]
    rw [hrun]
    cases hcell : s.registry.cells[v]? with
    | none =>
      refine .inl ⟨.unknownVariable v, by simp [bindVar, hcell], fun h => ?_⟩
      exact absurd h.2.2 (Nat.not_lt.mpr (Array.getElem?_eq_none_iff.mp hcell))
    | some cell =>
      have hbinding : cell.binding = none := by
        simpa [binding?, hcell] using hopen
      refine .inr ⟨by simp [bindVar, hcell, hbinding], hopen, hocc, ?_⟩
      exact (Array.getElem?_eq_some_iff.mp hcell).1

namespace Check

variable {ε α : Type} {w : Watch State} {n : Nat} {Q : Nat → α → Prop}

theorem keeps_fromExcept {x : Except ε α} (h : ∀ a m, n ≤ m → x = .ok a → Q m a) :
    Keeps w n (fromExcept x) Q := by
  cases x with
  | ok a => exact keeps_pure fun m hm => h a m hm rfl
  | error e => exact keeps_throw e

section

variable {x : Check TypeError α} {span : Span} {s s' : State}

theorem run_located_ok {a : α} : (located span x).run s = .ok a s' ↔ x.run s = .ok a s' := by
  unfold located EStateM.adaptExcept EStateM.run
  cases hx : x s <;> simp [hx]

theorem run_located_error {e : TypeError} (h : x.run s = .error e s') :
    (located span x).run s = .error ⟨e, span⟩ s' := by
  unfold located EStateM.adaptExcept EStateM.run at *
  simp [h]

theorem after_located : after (located span x) s = after x s := by
  cases h : x.run s with
  | ok a s' => rw [after_ok h, after_ok (run_located_ok.mpr h)]
  | error e s' => rw [after_error h, after_error (run_located_error h)]

end

theorem keeps_located {x : Check TypeError α} (hx : Keeps w n x Q) (span : Span) :
    Keeps w n (located span x) Q := by
  intro s hs hn
  obtain ⟨hholds, hle, hyield⟩ := hx s hs hn
  rw [KeepsAt, after_located]
  exact ⟨hholds, hle, fun a s' hrun => hyield a s' (run_located_ok.mp hrun)⟩

end Check

/-! ## Reading written types -/

/-- A state is watched together with a scope of which a property is kept. -/
def Watch.scoped (w : Watch State) (C : Scope → Prop) : Watch ReadState :=
  ⟨fun s => w.Holds s.state ∧ C s.scope, fun s => w.count s.state⟩

namespace Read

variable {α : Type} {n : Nat} {Q : Nat → α → Prop} {x : Check TypeError α} {s : ReadState}
  {C : Scope → Prop}

theorem run_lift_ok {a : α} {st : State} (h : x.run s.state = .ok a st) :
    (lift x).run s = .ok a { s with state := st } := by
  simp only [lift, EStateM.run] at h ⊢
  rw [h]

theorem run_lift_error {e : TypeError} {st : State} (h : x.run s.state = .error e st) :
    (lift x).run s = .error e { s with state := st } := by
  simp only [lift, EStateM.run] at h ⊢
  rw [h]

theorem run_lift_inv {s' : ReadState} {a : α} (h : (lift x).run s = .ok a s') :
    ∃ st, x.run s.state = .ok a st ∧ s' = { s with state := st } := by
  cases hx : x.run s.state with
  | ok b st =>
    rw [run_lift_ok hx] at h
    cases h
    exact ⟨st, rfl, rfl⟩
  | error e st =>
    rw [run_lift_error hx] at h
    cases h

theorem after_lift (x : Check TypeError α) (s : ReadState) :
    after (lift x) s = { s with state := after x s.state } := by
  cases h : x.run s.state with
  | ok a st => rw [after_ok h, after_ok (run_lift_ok h)]
  | error e st => rw [after_error h, after_error (run_lift_error h)]

variable {w : Watch State}

/-- Lifting an operation keeps what is watched of the state, and leaves the scope
as it is. -/
theorem keeps_lift_scoped (hx : Keeps w n x Q) : Keeps (w.scoped C) n (lift x) Q := by
  rintro s ⟨hs, hscope⟩ hn
  obtain ⟨hholds, hle, hyield⟩ := hx s.state hs hn
  rw [KeepsAt, after_lift]
  refine ⟨⟨hholds, hscope⟩, hle, fun a s' hrun => ?_⟩
  obtain ⟨st, hx, rfl⟩ := run_lift_inv hrun
  exact hyield a st hx

theorem run_label (l : String) (s : ReadState) : (label l).run s =
    match s.scope with
    | .flexible labels =>
        match labels.lookup l with
        | some t => .ok t s
        | none => .ok (.flex s.state.registry.varCount)
            ⟨{ s.state with registry := s.state.registry.addVar },
              .flexible (insert l (.flex s.state.registry.varCount) labels)⟩
    | .fixed params =>
        match params.lookup l with
        | some t => .ok t s
        | none => .error (.unboundTypeVariable l) s := by
  obtain ⟨st, scope⟩ := s
  cases scope with
  | flexible labels =>
    simp only [label, EStateM.run_bind, EStateM.run_get]
    cases labels.lookup l <;> rfl
  | fixed params =>
    simp only [label, EStateM.run_bind, EStateM.run_get]
    cases params.lookup l <;> rfl

/-- A label is looked up, or given a new variable. -/
theorem keeps_label {Q : Nat → Ty → Prop} (l : String)
    (hknown : ∀ labels t m, n ≤ m → C (.flexible labels) ∨ C (.fixed labels) →
      labels.lookup l = some t → Q m t)
    (hnew : ∀ labels, C (.flexible labels) → Keeps w n (freshVar : Check TypeError Ty)
      fun m t => C (.flexible (insert l t labels)) ∧ Q m t) :
    Keeps (w.scoped C) n (label l) Q := by
  rintro ⟨s, scope⟩ ⟨hs, hscope⟩ hn
  have hrun := run_label l ⟨s, scope⟩
  cases scope with
  | flexible labels =>
    cases hl : labels.lookup l with
    | some t =>
      simp only [hl] at hrun
      exact .ok hrun ⟨hs, hscope⟩ le_rfl (hknown labels t _ hn (.inl hscope) hl)
    | none =>
      simp only [hl] at hrun
      obtain ⟨hs', hle, hyield⟩ := hnew labels hscope s hs hn
      obtain ⟨hscope', hQ⟩ := hyield _ _ (run_freshVar s)
      exact .ok hrun ⟨hs', hscope'⟩ hle hQ
  | fixed params =>
    cases hl : params.lookup l with
    | some t =>
      simp only [hl] at hrun
      exact .ok hrun ⟨hs, hscope⟩ le_rfl (hknown params t _ hn (.inr hscope) hl)
    | none =>
      simp only [hl] at hrun
      exact .error hrun ⟨hs, hscope⟩ le_rfl

/-- Whether the scope is that of a declaration. -/
theorem keeps_isFixed {b : Bool} (h : ∀ scope, C scope → scope.isFixed = b) :
    Keeps (w.scoped C) n isFixed fun _ b' => b' = b := by
  rintro s ⟨hs, hscope⟩ hn
  have hrun : isFixed.run s = .ok s.scope.isFixed s := rfl
  exact .ok hrun ⟨hs, hscope⟩ le_rfl (h _ hscope)

end Read

namespace TypeExpr

variable {env : Env} {scope : Scope} {e : TypeExpr} {s : State}

/-- Reading a written type in a scope of its own. -/
theorem run_denote_ok {t : Ty} {st : ReadState} (h : (e.read env).run ⟨s, scope⟩ = .ok t st) :
    (e.denote env scope).run s = .ok t st.state := by
  simp only [denote, EStateM.run] at h ⊢
  rw [h]

theorem run_denote_error {err : TypeError} {st : ReadState}
    (h : (e.read env).run ⟨s, scope⟩ = .error err st) :
    (e.denote env scope).run s = .error err st.state := by
  simp only [denote, EStateM.run] at h ⊢
  rw [h]

theorem run_denote_inv {s' : State} {t : Ty} (h : (e.denote env scope).run s = .ok t s') :
    ∃ st : ReadState, (e.read env).run ⟨s, scope⟩ = .ok t st ∧ s' = st.state := by
  cases hrun : (e.read env).run ⟨s, scope⟩ with
  | ok u st =>
    rw [run_denote_ok hrun] at h
    cases h
    exact ⟨st, rfl, rfl⟩
  | error err st =>
    rw [run_denote_error hrun] at h
    cases h

theorem after_denote (scope : Scope) (e : TypeExpr) (s : State) :
    after (e.denote env scope) s = (after (e.read env) ⟨s, scope⟩).state := by
  cases h : (e.read env).run ⟨s, scope⟩ with
  | ok t st => rw [after_ok h, after_ok (run_denote_ok h)]
  | error err st => rw [after_error h, after_error (run_denote_error h)]

/-- Reading with a scope of its own keeps what is watched of the state. -/
theorem keeps_denote_scoped {w : Watch State} {C : Scope → Prop} (hscope : C scope) {n : Nat}
    {Q : Nat → Ty → Prop} (he : Keeps (w.scoped C) n (e.read env) Q) :
    Keeps w n (e.denote env scope) Q := by
  intro s hs hn
  obtain ⟨⟨hholds, -⟩, hle, hyield⟩ := he ⟨s, scope⟩ ⟨hs, hscope⟩ hn
  rw [KeepsAt, after_denote]
  refine ⟨hholds, hle, fun t s' hrun => ?_⟩
  obtain ⟨st, hread, rfl⟩ := run_denote_inv hrun
  exact hyield t st hread

end TypeExpr

/-! ## Schemes -/

namespace Subst

variable {entries : List (TyVar × Ty)} {x : TyVar}

theorem image_cases (entries : List (TyVar × Ty)) (x : TyVar) :
    (ofList entries).image x = .var x ∧ x ∉ entries.map (·.1) ∨
      (x, (ofList entries).image x) ∈ entries := by
  unfold image get? ofList
  cases h : entries.reverse.lookup x with
  | none =>
    refine .inl ⟨rfl, fun hmem => ?_⟩
    obtain ⟨e, he, rfl⟩ := mem_map.mp hmem
    have := lookup_eq_none_iff.mp h e (mem_reverse.mpr he)
    simp at this
  | some t =>
    obtain ⟨l, r, heq, -⟩ := lookup_eq_some_iff.mp h
    refine .inr (mem_reverse.mp ?_)
    rw [heq]
    simp

theorem image_of_mem (hnodup : (entries.map (·.1)).Nodup) {t : Ty} (h : (x, t) ∈ entries) :
    (ofList entries).image x = t := by
  rcases image_cases entries x with ⟨-, hnot⟩ | hmem
  · exact absurd (mem_map_of_mem h) hnot
  · have := inj_on_of_nodup_map hnodup hmem h rfl
    exact congrArg Prod.snd this

theorem image_ofGens (gens : List (TyVar × Nat)) (x : TyVar) :
    (ofGens gens).image x = .var x ∧ x ∉ gens.map (·.1) ∨
      ∃ g, (x, g) ∈ gens ∧ (ofGens gens).image x = .gen g := by
  rcases image_cases (gens.map fun e => (e.1, gen e.2)) x with ⟨heq, hnot⟩ | hmem
  · exact .inl ⟨heq, by simpa using hnot⟩
  · obtain ⟨e, he, heq⟩ := mem_map.mp hmem
    obtain ⟨rfl, himage⟩ := Prod.mk.inj heq
    exact .inr ⟨e.2, he, himage.symm⟩

end Subst

section

variable {ε β : Type}

/-- Generalized variables are issued in order and nothing else happens. -/
theorem run_freshGens (bs : List β) (s : State) :
    (freshFor freshGen bs : Check ε _).run s =
      .ok (bs.zip (range' s.registry.nextGen bs.length))
        { s with registry :=
          { s.registry with nextGen := s.registry.nextGen + bs.length } } := by
  induction bs generalizing s with
  | nil => rfl
  | cons b bs ih =>
    rw [freshFor, run_bind_ok (run_freshGen s), run_bind_ok (ih _)]
    simp only [EStateM.run_pure, length_cons, range'_succ, zip_cons_cons, addGen]
    congr 3
    omega

/-- Variables are issued in order and nothing else happens. -/
theorem run_freshVars (bs : List β) (s : State) :
    ∃ es s', (freshFor freshVar bs : Check ε _).run s = .ok es s' ∧ es.map (·.1) = bs ∧
      es.map (·.2) = (range' s.registry.varCount bs.length).map flex ∧
      s'.registry.varCount = s.registry.varCount + bs.length := by
  induction bs generalizing s with
  | nil => exact ⟨[], s, rfl, rfl, rfl, rfl⟩
  | cons b bs ih =>
    obtain ⟨es, s', hrun, hkeys, hvars, hcount⟩ := ih { s with registry := s.registry.addVar }
    refine ⟨(b, .flex s.registry.varCount) :: es, s', ?_, by simp [hkeys], ?_, ?_⟩
    · rw [freshFor, run_bind_ok (run_freshVar s), run_bind_ok hrun]
      rfl
    · simp [hvars, range'_succ]
    · simp only [hcount, varCount_addVar, length_cons]
      omega

theorem freshFor_append {α : Type} (fresh : Check ε α) (as bs : List β) :
    freshFor fresh (as ++ bs) = (do return (← freshFor fresh as) ++ (← freshFor fresh bs)) := by
  induction as with
  | nil => simp [freshFor]
  | cons a as ih => simp [freshFor, ih]

/-- The variables that an instance replaces: the rows that the body leaves open and
the other quantifiers. -/
def Scheme.replaced (σ : Scheme) : List TyVar :=
  σ.body.openTails.filter (·.isGen) ++ (distinct (σ.vars.map TyVar.gen)).filter
    fun x => !(σ.body.openTails.filter (·.isGen)).contains x

theorem instantiate_eq (σ : Scheme) : (instantiate σ : Check ε Ty) =
    (do return σ.body.subst (Subst.ofList (← freshFor freshVar σ.replaced)).image) := by
  funext s
  obtain ⟨rows, s₁, hrun, hkeys, -⟩ :=
    run_freshVars (σ.body.openTails.filter (·.isGen)) s
  show (instantiate σ).run s = EStateM.run _ s
  rw [instantiate, Scheme.replaced, freshFor_append, bind_assoc, run_bind_ok hrun,
    run_bind_ok hrun, hkeys, bind_assoc]
  rfl

end

theorem instantiateWith_eq (name : String) (σ : Scheme) (args : List Ty) :
    instantiateWith name σ args = (do instantiate ⟨[], ← fromExcept (applyArgs name σ args)⟩) := by
  simp [instantiateWith, instantiate_eq, Scheme.replaced, Subst.apply, distinct]

/-! ## Sound states -/

namespace State.Sound

variable {s : State} (h : s.Sound)
include h

theorem addVar : State.Sound { s with registry := s.registry.addVar } where
  registry := ⟨h.registry.acyclic.addVar, fun v t hv =>
    h.registry.faithful v t (by rwa [binding?_addVar] at hv)⟩
  recorded v t := (Eq.to_iff (by rw [binding?_addVar])).trans (h.recorded v t)

/-- Recording something else than a binding. -/
theorem push {e : Event} (he : ∀ v t, e ≠ .bind v t) :
    State.Sound { s with log := s.log.push e } where
  registry := h.registry
  recorded v t := by
    rw [Array.mem_push]
    exact (h.recorded v t).trans ⟨.inl, fun h => h.resolve_right fun h => he v t h.symm⟩

/-- An open variable gets a type that it is no part of. -/
theorem setBinding {v : Nat} {t : Ty} (hopen : s.registry.binding? v = none)
    (hocc : s.registry.occurs v t = false) (hlt : v < s.registry.varCount) (ht : t.Faithful) :
    State.Sound ⟨s.registry.setBinding v t, s.log.push (.bind v t)⟩ where
  registry := by
    have hwf : s.registry.WellFormed fun _ t => t.Faithful :=
      ⟨h.registry.acyclic, fun w u hw => (h.registry.faithful w u hw).covered,
        fun w u hw _ _ => h.registry.faithful w u hw⟩
    exact ⟨(hwf.setBinding kinding_faithful (k := .type) hopen (.var _) ht hocc).acyclic,
      h.registry.faithful.setBinding ht⟩
  recorded w u := by
    rw [binding?_setBinding, Array.mem_push, ← h.recorded w u]
    by_cases hvw : v = w
    · subst hvw
      simp [hlt, hopen, eq_comm]
    · simp [hvw, Ne.symm hvw]

end State.Sound

end RowTyping
