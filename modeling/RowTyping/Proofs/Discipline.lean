import RowTyping.Proofs.Correspondence
import RowTyping.Proofs.Roles

/-!
# Disciplines of inference

A discipline is a property of states together with a property of types that
reading, substitution and the building of types respect. Unification and
inference then keep the property of the state, whatever becomes of them, and
yield types with the other one. The property of types may depend on the labels
that stand in front of a row.

The walk over the operations of the checker is made once here, for every
discipline. Type names and the members of modules have to be sealed for it: they
mention no variable of the registry at all.
-/

namespace RowTyping

variable {env : Env} {σ : Scheme}

open Check Row Table Ty List

/-- States are watched for a property, and for the generalized variables that are
issued. -/
def watching (I : State → Prop) : Watch State := ⟨I, (·.registry.nextGen)⟩

/-- A property of the registry alone. -/
abbrev inRegistry (I : Registry → Prop) (s : State) : Prop := I s.registry

/-- What unification respects in a run that is compared with itself: a property of types
behind certain labels. -/
structure Respects (F : Frame State) (P : Finset String → Ty → Prop) : Prop where
  eq : ∀ {s t : State}, F.At s t → s = t
  addVar : ∀ {s : State}, F.At s s → F.Lost { s with registry := s.registry.addVar } ∨
    F.At { s with registry := s.registry.addVar } { s with registry := s.registry.addVar } ∧
      P ∅ (.flex s.registry.varCount)
  setBinding : ∀ {s : State} {v : Nat} {t : Ty}, F.At s s → s.registry.binding? v = none →
    s.registry.occurs v t = false → v < s.registry.varCount → P ∅ (.flex v) → P ∅ t →
    F.Lost ⟨s.registry.setBinding v t, s.log.push (.bind v t)⟩ ∨
      F.At ⟨s.registry.setBinding v t, s.log.push (.bind v t)⟩
        ⟨s.registry.setBinding v t, s.log.push (.bind v t)⟩
  push : ∀ {s : State} {e : Event}, F.At s s → (∀ v t, e ≠ .bind v t) →
    F.At { s with log := s.log.push e } { s with log := s.log.push e }
  mismatch : ∀ {s : State} {a b : Ty}, F.At s s → P ∅ a → P ∅ b →
    F.Fails (.mismatch (s.registry.resolveDeep a) (s.registry.resolveDeep b)) s
      (.mismatch (s.registry.resolveDeep a) (s.registry.resolveDeep b)) s
  unsolved : ∀ {s : State} {v : Nat} {t : Ty} {e : TypeError}, F.At s s → P ∅ (.flex v) → P ∅ t →
    (solve v t).run s = .error e s → F.Fails e s e s
  resolve : ∀ {s : State} {t : Ty}, F.At s s → P ∅ t → P ∅ (s.registry.resolve t)
  row : ∀ {s : State} {t : Ty}, F.At s s → P ∅ t →
    (∀ e ∈ (s.registry.row t).fields, P ∅ e.2) ∧
      P (s.registry.row t).fields.names (s.registry.row t).tail
  ends : ∀ {s : State} {front : Finset String} {t : Ty}, F.At s s → P front t →
    (s.registry.resolve t).isRecord = false → P ∅ (s.registry.resolve t)
  args : ∀ {c : Con} {args : List Ty}, P ∅ (.con c args) → ∀ t ∈ args, P ∅ t
  target : ∀ {id : Nat} {labels : List String} {params : List Ty} {target : Ty},
    P ∅ (.synonym id labels params target) → P ∅ target
  record : ∀ {fs : List (String × Ty)} {tail : Ty}, (∀ e ∈ fs, P ∅ e.2) → P ∅ tail →
    P ∅ (.record fs tail)

namespace Respects

variable {F : Frame State} {P : Finset String → Ty → Prop} (U : Respects F P)
include U

theorem tracks_registry {ε : Type} [Reported ε] : Tracks F
    (fun r r' => r = r' ∧ ∃ s, F.At s s ∧ s.registry = r) (registry : Check ε Registry)
      registry := by
  intro s t hst
  obtain rfl := U.eq hst
  exact .ok hst ⟨rfl, s, hst, rfl⟩

theorem tracks_mismatch {α : Type} {Q : α → α → Prop} {a b : Ty} (ha : P ∅ a) (hb : P ∅ b) :
    Tracks F Q (RowTyping.mismatch a b : Check TypeError α) (RowTyping.mismatch a b) := by
  intro s t hst
  obtain rfl := U.eq hst
  exact .error (U.mismatch hst ha hb) trivial

theorem tracks_emit {e : Event} (he : ∀ v t, e ≠ .bind v t) :
    Tracks F (fun _ _ => True) (emit e : Check TypeError Unit) (emit e) := by
  intro s t hst
  obtain rfl := U.eq hst
  exact .ok (U.push hst he) trivial

theorem tracks_freshVar {ε : Type} [Reported ε] :
    Tracks F (fun t u => t = u ∧ P ∅ t) (freshVar : Check ε Ty) freshVar := by
  intro s t hst
  obtain rfl := U.eq hst
  exact (U.addVar hst).elim (fun h => .excused h) fun h => .ok h.1 ⟨rfl, h.2⟩

/-- An open variable is solved, unless it would be part of its solution. -/
theorem tracks_solve {v : Nat} {t : Ty} (hv : P ∅ (.flex v)) (ht : P ∅ t) :
    Tracks F (fun _ _ => True) (solve v t) (solve v t) := by
  intro s s' hst
  obtain rfl := U.eq hst
  rcases run_solve v t s with ⟨e, hrun, -⟩ | ⟨hrun, hopen, hocc, hlt⟩
  · rw [hrun]
    exact .error (U.unsolved hst hv ht hrun) trivial
  · rw [hrun]
    exact (U.setBinding hst hopen hocc hlt hv ht).elim (fun h => .excused h) fun h => .ok h trivial

theorem meets {a b : Ty} {m : Meeting} (h : Meets a b m) (ha : P ∅ a) (hb : P ∅ b) :
    m.Forall (P ∅) := by
  cases h with
  | solveLeft _ => exact ⟨ha, hb⟩
  | solveRight _ => exact ⟨hb, ha⟩
  | expandLeft => exact ⟨U.target ha, hb⟩
  | expandRight => exact ⟨U.target hb, ha⟩
  | con _ _ =>
    intro p hp
    obtain ⟨h₁, h₂⟩ := of_mem_zip hp
    exact ⟨U.args ha _ h₁, U.args hb _ h₂⟩
  | _ => trivial

/-- Unification with any fuel. -/
theorem tracks_unifyN [Steady F] (fuel : Nat) :
    (∀ a b, P ∅ a → P ∅ b → Tracks F (fun _ _ => True) (unifyN fuel a b) (unifyN fuel a b)) ∧
    ∀ a b, P ∅ a → P ∅ b →
      Tracks F (fun _ _ => True) (unifyRowsN fuel a b) (unifyRowsN fuel a b) := by
  induction fuel with
  | zero => exact ⟨fun _ _ => U.tracks_mismatch, fun _ _ => U.tracks_mismatch⟩
  | succ fuel ih =>
    obtain ⟨htypes, hrows⟩ := ih
    have hall : ∀ pairs : List (Ty × Ty), (∀ p ∈ pairs, P ∅ p.1 ∧ P ∅ p.2) →
        Tracks F (fun _ _ => True) (forM pairs fun p => unifyN fuel p.1 p.2)
          (forM pairs fun p => unifyN fuel p.1 p.2) := by
      intro pairs h
      induction pairs with
      | nil => exact tracks_pure trivial
      | cons p pairs ih =>
        obtain ⟨hp, hpairs⟩ := forall_mem_cons.mp h
        exact (htypes _ _ hp.1 hp.2).split (fun _ => onward_forM _ pairs) fun _ _ _ => ih hpairs
    constructor
    · intro a b ha hb
      refine U.tracks_registry.split (fun _ => @onward_bind _ _ _ _ _ _ _ _ fun _ => ?_) ?_
      · split <;> infer_instance
      rintro _ _ ⟨rfl, s, hs, rfl⟩
      refine (U.tracks_emit (by simp)).split (fun _ => by split <;> infer_instance) fun _ _ _ => ?_
      have ha' := U.resolve hs ha
      have hb' := U.resolve hs hb
      have hmeet := U.meets ((s.registry.resolve a).meets (s.registry.resolve b)) ha' hb'
      split
      · exact tracks_pure trivial
      · next heq =>
        rw [heq] at hmeet
        exact U.tracks_solve hmeet.1 hmeet.2
      · next heq =>
        rw [heq] at hmeet
        exact htypes _ _ hmeet.1 hmeet.2
      · next pairs ragged heq =>
        rw [heq] at hmeet
        refine (hall pairs hmeet).bind fun _ _ _ => ?_
        split
        · exact U.tracks_mismatch ha' hb'
        · exact tracks_pure trivial
      · exact hrows _ _ ha' hb'
      · exact U.tracks_mismatch ha' hb'
    · intro a b ha hb
      refine U.tracks_registry.split (fun _ => @onward_bind _ _ _ _ _ _ _ _ fun _ =>
        @onward_bind _ _ _ _ _ _ _ _ fun _ => ?_) ?_
      · split <;> infer_instance
      rintro _ _ ⟨rfl, s, hs, rfl⟩
      obtain ⟨hmine, hmyTail⟩ := U.row hs ha
      obtain ⟨htheirs, htheirTail⟩ := U.row hs hb
      generalize s.registry = r at hmine hmyTail htheirs htheirTail ⊢
      have hshared : ∀ p ∈ (r.row a).shared (r.row b), P ∅ p.1 ∧ P ∅ p.2 := by
        intro p hp
        obtain ⟨l, hl, hl'⟩ := mem_shared hp
        exact ⟨hmine _ hl, htheirs _ (mem_of_lookup hl')⟩
      refine (hall _ hshared).split (fun _ => @onward_bind _ _ _ _ _ _ _ _ fun _ => ?_) fun _ _ _ =>
        U.tracks_registry.split (fun _ => ?_) ?_
      · split <;> infer_instance
      · split <;> infer_instance
      rintro _ _ ⟨rfl, s₁, hs₁, rfl⟩
      -- a row takes the fields that it lacks and ends as the other one does
      have toMine : ∀ {tail}, P ∅ tail → P ∅ (.record ((r.row a).lacking (r.row b)) tail) :=
        U.record fun e he => htheirs e (mem_lacking he).1
      have toTheirs : ∀ {tail}, P ∅ tail → P ∅ (.record ((r.row b).lacking (r.row a)) tail) :=
        U.record fun e he => hmine e (mem_lacking he).1
      have hmyEnd := fun h => U.ends hs₁ hmyTail h
      have htheirEnd := fun h => U.ends hs₁ htheirTail h
      generalize s₁.registry = r₁ at hmyEnd htheirEnd ⊢
      have hremains := (r.row a).remains (r.row b) (r₁.resolve (r.row a).tail)
        (r₁.resolve (r.row b).tail)
      generalize (r.row a).remainder (r.row b) _ _ = rest at hremains
      generalize r₁.resolve (r.row a).tail = t at hremains hmyEnd
      generalize r₁.resolve (r.row b).tail = u at hremains htheirEnd
      cases hremains with
      | again _ => exact hrows _ _ ha hb
      | tails ht hu _ _ => exact htypes _ _ (hmyEnd ht) (htheirEnd hu)
      | extendMine hu _ _ => exact htypes _ _ (hmyEnd rfl) (toMine (htheirEnd hu))
      | extendTheirs ht _ _ => exact htypes _ _ (htheirEnd rfl) (toTheirs (hmyEnd ht))
      | split _ _ _ =>
        refine U.tracks_freshVar.bind ?_
        rintro rest _ ⟨rfl, hrest⟩
        exact (htypes _ _ (hmyEnd rfl) (toMine hrest)).bind fun _ _ _ =>
          htypes _ _ (htheirEnd rfl) (toTheirs hrest)
      | clash _ _ _ => exact U.tracks_mismatch ha hb

theorem tracks_unify [Steady F] {a b : Ty} (ha : P ∅ a) (hb : P ∅ b) :
    Tracks F (fun _ _ => True) (unify a b) (unify a b) :=
  U.tracks_registry.bind fun _ _ h => h.1 ▸ (U.tracks_unifyN _).1 a b ha hb

end Respects

/-- What unification respects: a property of states, and one of types behind certain
labels. -/
structure Unifying (I : State → Prop) (P : Finset String → Ty → Prop) : Prop where
  addVar : ∀ {s : State}, I s →
    I { s with registry := s.registry.addVar } ∧ P ∅ (.flex s.registry.varCount)
  setBinding : ∀ {s : State} {v : Nat} {t : Ty}, I s → s.registry.binding? v = none →
    s.registry.occurs v t = false → v < s.registry.varCount → P ∅ (.flex v) → P ∅ t →
    I ⟨s.registry.setBinding v t, s.log.push (.bind v t)⟩
  push : ∀ {s : State} {e : Event}, I s → (∀ v t, e ≠ .bind v t) → I { s with log := s.log.push e }
  resolve : ∀ {s : State} {t : Ty}, I s → P ∅ t → P ∅ (s.registry.resolve t)
  row : ∀ {s : State} {t : Ty}, I s → P ∅ t →
    (∀ e ∈ (s.registry.row t).fields, P ∅ e.2) ∧
      P (s.registry.row t).fields.names (s.registry.row t).tail
  ends : ∀ {s : State} {front : Finset String} {t : Ty}, I s → P front t →
    (s.registry.resolve t).isRecord = false → P ∅ (s.registry.resolve t)
  con : ∀ {c : Con} {args : List Ty}, (c = .tuple → 2 ≤ args.length) → (∀ t ∈ args, P ∅ t) →
    P ∅ (.con c args)
  args : ∀ {c : Con} {args : List Ty}, P ∅ (.con c args) → ∀ t ∈ args, P ∅ t
  target : ∀ {id : Nat} {labels : List String} {params : List Ty} {target : Ty},
    P ∅ (.synonym id labels params target) → P ∅ target
  record : ∀ {fs : List (String × Ty)} {tail : Ty}, (∀ e ∈ fs, P ∅ e.2) → P ∅ tail →
    P ∅ (.record fs tail)

variable {ε α β : Type} {I : State → Prop} {P : Finset String → Ty → Prop} {n : Nat}
  {Q : Nat → α → Prop} {env : Env}

theorem watches_registry : Keeps (watching I) n (registry : Check ε Registry)
    fun _ r => ∃ s, I s ∧ s.registry = r :=
  fun s hs _ => .ok (run_registry s) hs le_rfl ⟨s, hs, rfl⟩

/-- States are compared with themselves. -/
def Frame.watching (I : State → Prop) (n : Nat) : Frame State where
  At s t := s = t ∧ I s ∧ n ≤ s.registry.nextGen
  Fails e s e' t := e = e' ∧ s = t ∧ I s ∧ n ≤ s.registry.nextGen
  Lost _ := False
  lenient := False
  span := id

theorem Keeps.tracks [Reported ε] {x : Check ε α} {R : α → α → Prop} (hx : Keeps (watching I) n x Q)
    (hQ : ∀ m a, Q m a → R a a) : Tracks (.watching I n) R x x := by
  rintro s _ ⟨rfl, hs, hn⟩
  obtain ⟨hs', hle, hyield⟩ := hx s hs hn
  cases hrun : x.run s with
  | ok a s' =>
    rw [after_ok hrun] at hs' hle
    exact .ok ⟨rfl, hs', hn.trans hle⟩ (hQ _ _ (hyield a s' hrun))
  | error e s' =>
    rw [after_error hrun] at hs' hle
    exact .error ⟨rfl, rfl, hs', hn.trans hle⟩ (Reported.moved_id e)

theorem Tracks.keeps [Reported ε] {x : Check ε α} {R : α → α → Prop}
    (hx : ∀ m, Tracks (.watching I m) R x x) (hQ : ∀ m a b, R a b → Q m a) :
    Keeps (watching I) n x Q := by
  intro s hs hn
  have hrun := hx s.registry.nextGen s s ⟨rfl, hs, le_rfl⟩
  cases hout : x.run s with
  | ok a s' =>
    rw [hout] at hrun
    cases hrun with
    | ok hst hR => exact .ok hout hst.2.1 hst.2.2 (hQ _ _ _ hR)
    | excused h => exact h.elim
  | error e s' =>
    rw [hout] at hrun
    cases hrun with
    | error h _ => exact .error hout h.2.2.1 h.2.2.2
    | excused h => exact h.elim False.elim False.elim

instance : Steady (Frame.watching I n) := .of_never fun _ => id

namespace Unifying

variable (U : Unifying I P)
include U

theorem base (b : Base) : P ∅ (.base b) := U.con (by simp) (by simp)

theorem tuple {ts : List Ty} (h : ∀ t ∈ ts, P ∅ t) : P ∅ (.tuple ts) := by
  match ts with
  | [] => exact U.base .unit
  | [t] => exact h t (by simp)
  | t :: u :: ts => exact U.con (by simp) h

theorem keeps_emit {e : Event} (he : ∀ v t, e ≠ .bind v t) :
    Keeps (watching I) n (emit e : Check ε Unit) fun _ _ => True :=
  fun s hs _ => .ok (run_emit e s) (U.push hs he) le_rfl trivial

theorem keeps_freshVar : Keeps (watching I) n (freshVar : Check ε Ty) fun _ t => P ∅ t :=
  fun s hs _ => .ok (run_freshVar s) (U.addVar hs).1 le_rfl (U.addVar hs).2

theorem respects : Respects (.watching I n) P where
  eq h := h.1
  addVar h := .inr ⟨⟨rfl, (U.addVar h.2.1).1, h.2.2⟩, (U.addVar h.2.1).2⟩
  setBinding h hopen hocc hlt hv ht := .inr ⟨rfl, U.setBinding h.2.1 hopen hocc hlt hv ht, h.2.2⟩
  push h he := ⟨rfl, U.push h.2.1 he, h.2.2⟩
  mismatch h _ _ := ⟨rfl, h⟩
  unsolved h _ _ _ := ⟨rfl, h⟩
  resolve h := U.resolve h.2.1
  row h := U.row h.2.1
  ends h := U.ends h.2.1
  args := U.args
  target := U.target
  record := U.record

theorem keeps_unifyN (fuel : Nat) {a b : Ty} (ha : P ∅ a) (hb : P ∅ b) :
    Keeps (watching I) n (unifyN fuel a b) fun _ _ => True :=
  Tracks.keeps (fun _ => (U.respects.tracks_unifyN fuel).1 a b ha hb) fun _ _ _ _ => trivial

theorem keeps_unify {a b : Ty} (ha : P ∅ a) (hb : P ∅ b) :
    Keeps (watching I) n (unify a b) fun _ _ => True :=
  Tracks.keeps (fun _ => U.respects.tracks_unify ha hb) fun _ _ _ _ => trivial

theorem keeps_unifyAt (span : Span) {a b : Ty} (ha : P ∅ a) (hb : P ∅ b) :
    Keeps (watching I) n (unifyAt span a b) fun _ _ => True :=
  keeps_located (U.keeps_unify ha hb) span

end Unifying

/-- A property of registries alone. -/
theorem Unifying.of_registry {J : Registry → Prop} (haddVar : ∀ r, J r → J r.addVar)
    (hset : ∀ r v t, J r → r.binding? v = none → J (r.setBinding v t)) :
    Unifying (inRegistry J) fun _ _ => True where
  addVar h := ⟨haddVar _ h, trivial⟩
  setBinding h hv _ _ _ _ := hset _ _ _ h hv
  push h _ := h
  resolve _ _ := trivial
  row _ _ := ⟨fun _ _ => trivial, trivial⟩
  ends _ _ _ := trivial
  con _ _ := trivial
  args _ _ _ := trivial
  target _ := trivial
  record _ _ := trivial

/-- The type mentions no variable of the registry, nor do the members of the
modules in it. -/
inductive Ty.Sealed : Ty → Prop where
  | gen (g : Nat) : Ty.Sealed (.gen g)
  | con {c : Con} {args : List Ty} (h : ∀ t ∈ args, Ty.Sealed t) : Ty.Sealed (.con c args)
  | record {fs : List (String × Ty)} {tail : Ty} (hfs : ∀ e ∈ fs, Ty.Sealed e.2)
      (htail : Ty.Sealed tail) : Ty.Sealed (.record fs tail)
  | synonym {id : Nat} {labels : List String} {params : List Ty} {target : Ty}
      (hparams : ∀ t ∈ params, Ty.Sealed t) (htarget : Ty.Sealed target) :
      Ty.Sealed (.synonym id labels params target)
  | module {name : String} {members : Env} (hvalues : ∀ e ∈ members.values, Ty.Sealed e.2.body)
      (htypes : ∀ e ∈ members.types, Ty.Sealed e.2.body) : Ty.Sealed (.module name members)

/-- No scheme of the environment mentions a variable of the registry, nor do the
members of its modules. -/
structure Env.Sealed (env : Env) : Prop where
  values : ∀ e ∈ env.values, e.2.body.Sealed
  types : ∀ e ∈ env.types, e.2.body.Sealed

namespace Ty.Sealed

variable {t : Ty}

/-- Sealed types in the place of generalized variables. -/
theorem subst {f : TyVar → Ty} (h : t.Sealed) (hf : ∀ g, (f (.gen g)).Sealed) :
    (t.subst f).Sealed := by
  induction h with
  | gen g => exact hf g
  | con _ ih =>
    rw [Ty.subst, Ty.substList_eq]
    exact .con (forall_mem_map.mpr ih)
  | record _ _ ihfs ih =>
    rw [Ty.subst, Ty.substFields_eq]
    exact .record (forall_mem_map.mpr ihfs) ih
  | synonym _ _ ihp ih =>
    rw [Ty.subst, Ty.substList_eq]
    exact .synonym (forall_mem_map.mpr ihp) ih
  | module hvalues htypes _ _ => exact .module hvalues htypes

end Ty.Sealed

/-- A property that types of named parts have: those that type names and the members
of modules stand for. -/
structure Naming (S : Ty → Prop) : Prop where
  gen : ∀ g, S (.gen g)
  con : ∀ {c : Con} {args : List Ty}, (c = .tuple → 2 ≤ args.length) → (∀ t ∈ args, S t) →
    S (.con c args)
  record : ∀ {fs : List (String × Ty)} {tail : Ty}, (∀ e ∈ fs, S e.2) → S tail → S (.record fs tail)
  module : ∀ {name : String} {members : Env}, (∀ e ∈ members.values, S e.2.body) →
    (∀ e ∈ members.types, S e.2.body) → S (.module name members)
  subst : ∀ {t : Ty} {f : TyVar → Ty}, S t → (∀ x, f x = .var x ∨ S (f x)) → S (t.subst f)

theorem Ty.Sealed.naming : Naming Sealed where
  gen := .gen
  con _ := .con
  record := .record
  module := .module
  subst h hf := h.subst fun g => (hf (.gen g)).elim (fun heq => heq ▸ .gen g) id

/-- What inference respects as well, where `S` is a property of the types that type
names and the members of modules stand for. -/
structure Discipline (I : State → Prop) (P : Finset String → Ty → Prop) (S : Ty → Prop) : Prop
    extends Unifying I P where
  naming : Naming S
  addGen : ∀ {s : State}, I s → I { s with registry := s.registry.addGen }
  addType : ∀ {s : State}, I s → I { s with registry := s.registry.addType }
  resolveDeep : ∀ {s : State} {t : Ty}, I s → P ∅ t → P ∅ (s.registry.resolveDeep t)
  subst : ∀ {t : Ty} {f : TyVar → Ty}, P ∅ t → (∀ x, f x = .var x ∨ P ∅ (f x)) → P ∅ (t.subst f)
  ofNamed : ∀ {t : Ty}, S t → P ∅ t
  members : ∀ {name : String} {members : Env}, P ∅ (.module name members) →
    ∀ e ∈ members.values, S e.2.body

theorem Discipline.of_registry {J : Registry → Prop} (haddVar : ∀ r, J r → J r.addVar)
    (hset : ∀ r v t, J r → r.binding? v = none → J (r.setBinding v t))
    (haddGen : ∀ r, J r → J r.addGen) (haddType : ∀ r, J r → J r.addType) :
    Discipline (inRegistry J) (fun _ _ => True) fun _ => True where
  toUnifying := .of_registry haddVar hset
  naming := ⟨fun _ => trivial, fun _ _ => trivial, fun _ _ => trivial, fun _ _ => trivial,
    fun _ _ => trivial⟩
  addGen := haddGen _
  addType := haddType _
  resolveDeep _ _ := trivial
  subst _ _ := trivial
  ofNamed _ := trivial
  members _ _ _ := trivial

variable {S : Ty → Prop}

/-- The types of the values have the property, and the type names are sealed. -/
structure Env.Obeys (P : Finset String → Ty → Prop) (S : Ty → Prop) (env : Env) : Prop where
  values : ∀ e ∈ env.values, P ∅ e.2.body
  types : ∀ e ∈ env.types, S e.2.body

namespace Env.Obeys

theorem addValue (h : env.Obeys P S) (x : String) {σ : Scheme} (hσ : P ∅ σ.body) :
    (env.addValue x σ).Obeys P S := by
  refine ⟨fun e he => ?_, h.types⟩
  rcases mem_insert he with rfl | he
  · exact hσ
  · exact h.values e he

theorem addMonos {bs : Table Ty} (h : env.Obeys P S) (hbs : ∀ b ∈ bs, P ∅ b.2) :
    (env.addMonos bs).Obeys P S := by
  induction bs generalizing env with
  | nil => exact h
  | cons b bs ih =>
    obtain ⟨hb, hbs⟩ := forall_mem_cons.mp hbs
    exact ih (h.addValue b.1 hb) hbs

end Env.Obeys

namespace Discipline

section

variable (D : Discipline I P S)
include D

theorem obeys (hvalues : ∀ e ∈ env.values, S e.2.body) (htypes : ∀ e ∈ env.types, S e.2.body) :
    env.Obeys P S :=
  ⟨fun e he => D.ofNamed (hvalues e he), htypes⟩

/-! ## Schemes -/

theorem keeps_freshGen : Keeps (watching I) n (freshGen : Check ε Nat) fun m g => n ≤ g ∧ g < m :=
  fun s hs hn => .ok (run_freshGen s) (D.addGen hs) (Nat.le_succ _) ⟨hn, Nat.lt_succ_self _⟩

theorem keeps_freshType : Keeps (watching I) n (freshType : Check ε Nat) fun _ _ => True :=
  fun s hs _ => .ok (run_freshType s) (D.addType hs) le_rfl trivial

theorem keeps_freshVars (bs : List β) :
    Keeps (watching I) n (freshFor freshVar bs : Check ε _) fun _ es => ∀ e ∈ es, P ∅ e.2 := by
  induction bs generalizing n with
  | nil => exact keeps_pure fun _ _ => by simp
  | cons b bs ih =>
    exact D.keeps_freshVar.bind fun t _ _ ht => ih.bind fun es _ _ hes =>
      keeps_pure fun _ _ => forall_mem_cons.mpr ⟨ht, hes⟩

/-- New generalized variables for the members of a list. -/
theorem keeps_freshGens (bs : List β) :
    Keeps (watching I) n (freshFor freshGen bs : Check ε _) fun m es =>
      es.map (·.1) = bs ∧ (es.map (·.2)).Nodup ∧ ∀ g ∈ es.map (·.2), n ≤ g ∧ g < m := by
  induction bs generalizing n with
  | nil => exact keeps_pure fun _ _ => by simp
  | cons b bs ih =>
    refine D.keeps_freshGen.bind fun g m hm hg => ih.bind fun es m' hm' hes =>
      keeps_pure fun k hk => ?_
    obtain ⟨hfst, hnodup, hbounds⟩ := hes
    refine ⟨by simp [hfst], ?_, ?_⟩
    · rw [map_cons, nodup_cons]
      refine ⟨fun hmem => ?_, hnodup⟩
      have := (hbounds g hmem).1
      omega
    · rw [map_cons, forall_mem_cons]
      refine ⟨⟨hg.1, by omega⟩, fun g' hg' => ?_⟩
      obtain ⟨h₁, h₂⟩ := hbounds g' hg'
      exact ⟨by omega, by omega⟩

theorem apply {t : Ty} {entries : List (TyVar × Ty)} (ht : P ∅ t)
    (h : ∀ e ∈ entries, P ∅ e.2) : P ∅ ((Subst.ofList entries).apply t) := by
  refine D.subst ht fun x => ?_
  rcases Subst.image_cases entries x with ⟨heq, -⟩ | hmem
  · exact .inl heq
  · exact .inr (h _ hmem)

theorem applyGens {t : Ty} (ht : P ∅ t) (gens : List (TyVar × Nat)) :
    P ∅ ((Subst.ofGens gens).apply t) :=
  D.apply ht (forall_mem_map.mpr fun _ _ => D.ofNamed (D.naming.gen _))

theorem keeps_instantiate {σ : Scheme} (hσ : P ∅ σ.body) :
    Keeps (watching I) n (instantiate σ : Check ε Ty) fun _ t => P ∅ t := by
  rw [instantiate_eq]
  exact (D.keeps_freshVars _).bind fun _ _ _ hes => keeps_pure fun _ _ => D.apply hσ hes

theorem keeps_generalizeOver (fixed : List Nat) {t : Ty} (ht : P ∅ t) :
    Keeps (watching I) n (generalizeOver fixed t : Check ε Scheme) fun _ σ => P ∅ σ.body :=
  watches_registry.bind fun _ _ _ ⟨_, hs, hr⟩ => (D.keeps_freshGens _).bind fun rows _ _ _ =>
    watches_registry.bind fun _ _ _ _ => (D.keeps_freshGens _).bind fun rest _ _ _ =>
    (D.keeps_emit (by simp)).bind fun _ _ _ _ => keeps_pure fun _ _ =>
      D.applyGens (D.applyGens (hr ▸ D.resolveDeep hs ht) rows) rest

theorem keeps_generalizeIn (env : Env) {t : Ty} (ht : P ∅ t) :
    Keeps (watching I) n (generalizeIn env t : Check ε Scheme) fun _ σ => P ∅ σ.body :=
  watches_registry.bind fun _ _ _ _ => D.keeps_generalizeOver _ ht

end

end Discipline

/-! ## The walk -/

/-- The types that have a property. -/
def Pairing.only (P S : Ty → Prop) : Pairing where
  Same t u := t = u ∧ P t
  Named t u := t = u ∧ S t
  Gen := Eq
  Label _ := True

section

variable {P S : Ty → Prop}

theorem Pairing.diagonal_only : (Pairing.only P S).Diagonal := ⟨And.left, And.left, id⟩

theorem Scheme.alike_only {σ : Scheme} (h : P σ.body) : Pairable.Alike (Pairing.only P S) σ σ :=
  ⟨forall₂_same.mpr fun _ _ => rfl, rfl, h⟩

theorem alike_list {ts : List Ty} : Pairable.Alike (Pairing.only P S) ts ts ↔ ∀ t ∈ ts, P t := by
  refine forall₂_same.trans (forall₂_congr fun t _ => ?_)
  exact and_iff_right rfl

theorem alike_table {fs : Table Ty} :
    Pairable.Alike (Pairing.only P S) fs fs ↔ ∀ e ∈ fs, P e.2 := by
  refine forall₂_same.trans (forall₂_congr fun e _ => ?_)
  exact (and_iff_right ⟨rfl, trivial⟩).trans (and_iff_right rfl)

theorem Pairing.builds_only
    (hcon : ∀ {c : Con} {ts : List Ty}, (c = .tuple → 2 ≤ ts.length) → (∀ t ∈ ts, P t) →
      P (.con c ts))
    (hrecord : ∀ {fs : Table Ty} {t : Ty}, (∀ e ∈ fs, P e.2) → P t → P (.record fs t)) :
    Forms (.only P S) where
  con _ htuple hts := by
    cases Pairable.eq Pairing.diagonal_only hts
    exact ⟨rfl, hcon htuple (alike_list.mp hts)⟩
  record hfs ht := by
    cases Pairable.eq Pairing.diagonal_only hfs
    obtain ⟨rfl, ht⟩ := ht
    exact ⟨rfl, hrecord (alike_table.mp hfs) ht⟩

end

theorem Env.Obeys.alike (h : env.Obeys P S) : Akin (Pairing.only (P ∅) S) env env :=
  ⟨forall₂_same.mpr fun e he => ⟨⟨rfl, trivial⟩, Scheme.alike_only (h.values e he)⟩,
    forall₂_same.mpr fun e he => ⟨⟨rfl, trivial⟩, Scheme.alike_only (h.types e he)⟩⟩

theorem Env.Obeys.of_alike (h : Pairable.Alike (Pairing.only (P ∅) S) env env) : env.Obeys P S :=
  ⟨fun e he => (forall₂_same.mp h.1 e he).2.2.2, fun e he => (forall₂_same.mp h.2 e he).2.2.2⟩

/-- The types of a constructor at a use have the property. -/
structure Ctor.Obeys (P : Finset String → Ty → Prop) (c : Ctor) : Prop where
  owner : P ∅ c.owner
  arg : ∀ t, c.arg = some t → P ∅ t

namespace Discipline

variable (D : Discipline I P S)
include D

theorem ctor? {t : Ty} (h : P ∅ t) {c : Ctor} (hc : t.ctor? = some c) : c.Obeys P := by
  unfold Ty.ctor? at hc
  split at hc
  · cases hc
    have hparts := D.args h
    exact ⟨hparts _ (by simp), fun u hu => hparts u (by simp [mem_of_head? hu])⟩
  · cases hc

theorem keeps_instantiateWith (name : String) {σ : Scheme} {args : List Ty} (hσ : S σ.body)
    (hargs : ∀ t ∈ args, P ∅ t) :
    Keeps (watching I) n (instantiateWith name σ args) fun _ t => P ∅ t := by
  refine (keeps_fromExcept fun t _ _ ht => ?_).bind fun t _ _ ht =>
    (D.keeps_freshVars _).bind fun rows _ _ hrows => keeps_pure fun _ _ => D.apply ht hrows
  unfold applyArgs at ht
  split at ht
  · cases ht
    exact D.apply (D.ofNamed hσ) fun e he => hargs _ (of_mem_zip he).2
  · cases ht

theorem keeps_instantiateDeclared (name : String) {σ : Scheme} {args : List Ty} (hσ : S σ.body)
    (hargs : ∀ t ∈ args, S t) :
    Keeps (watching I) n (instantiateDeclared name σ args) fun _ t => S t := by
  refine (keeps_fromExcept fun t _ _ ht => ?_).bind fun t _ _ ht =>
    (D.keeps_freshGens _).bind fun rows _ _ hrows => keeps_pure fun _ _ =>
      D.naming.subst ht fun x => ?_
  · unfold applyArgs at ht
    split at ht
    · cases ht
      refine D.naming.subst hσ fun x => ?_
      rcases Subst.image_cases ((σ.vars.map TyVar.gen).zip args) x with ⟨heq, -⟩ | hmem
      · exact .inl heq
      · exact .inr (hargs _ (of_mem_zip hmem).2)
    · cases ht
  · rcases Subst.image_ofGens rows x with ⟨heq, -⟩ | ⟨g, -, heq⟩
    · exact .inl heq
    · rw [heq]
      exact .inr (D.naming.gen g)

/-- What a discipline respects, seen as a comparison of runs with themselves. -/
abbrev comparison (n : Nat) : Comparison where
  toFrame := .watching I n
  toPairing := .only (P ∅) S
  builds := Pairing.builds_only D.con D.record
  namedBuilds := Pairing.builds_only D.naming.con D.naming.record
  ofNamed h := ⟨h.1, D.ofNamed h.2⟩
  gen h := ⟨congrArg Ty.gen h, D.naming.gen _⟩
  fails h _ := ⟨rfl, h⟩
  addVar h := by
    obtain ⟨rfl, hs, hn⟩ := h
    exact .inr ⟨⟨rfl, (D.addVar hs).1, hn⟩, rfl, (D.addVar hs).2⟩
  addGen h := by
    obtain ⟨rfl, hs, hn⟩ := h
    exact .inr ⟨⟨rfl, D.addGen hs, hn.trans (Nat.le_succ _)⟩, rfl⟩
  unify ha hb := by
    obtain ⟨rfl, ha⟩ := ha
    obtain ⟨rfl, hb⟩ := hb
    exact (D.keeps_unify ha hb).tracks fun _ _ h => h
  instantiate h := by
    cases Pairable.eq Pairing.diagonal_only h
    exact (D.keeps_instantiate h.2.2).tracks fun _ _ h => ⟨rfl, h⟩
  generalizeIn {ε _ env env' t u} h ht := by
    cases Pairable.eq Pairing.diagonal_only h
    obtain ⟨rfl, ht⟩ := ht
    exact (D.keeps_generalizeIn env ht).tracks fun _ _ h => Scheme.alike_only h
  instantiateWith name h hts := by
    cases Pairable.eq Pairing.diagonal_only h
    cases Pairable.eq Pairing.diagonal_only hts
    exact (D.keeps_instantiateWith name h.2.2 (alike_list.mp hts)).tracks fun _ _ h => ⟨rfl, h⟩
  instantiateDeclared name h hts := by
    cases Pairable.eq Pairing.diagonal_only h
    cases Pairable.eq Pairing.diagonal_only hts
    exact (D.keeps_instantiateDeclared name h.2.2 ((alike_list).mp hts)).tracks
      fun _ _ h => ⟨rfl, h⟩
  ctor? h := by
    obtain ⟨rfl, h⟩ := h
    cases hc : Ty.ctor? _ with
    | none => exact .none
    | some c =>
      have hc := D.ctor? h hc
      refine .some ⟨rfl, ⟨rfl, hc.owner⟩, ?_⟩
      cases harg : c.arg with
      | none => exact .none
      | some t => exact .some ⟨rfl, hc.arg t harg⟩
  arity h hab := by
    rw [h.1, Pairable.eq Pairing.diagonal_only hab]
  members hst h := by
    obtain ⟨rfl, hs, -⟩ := hst
    obtain ⟨rfl, h⟩ := h
    have hres := D.resolve hs h
    generalize Registry.resolve _ _ = u at hres ⊢
    cases u with
    | module name members =>
      exact .some (List.forall₂_same.mpr fun e he =>
        ⟨⟨rfl, trivial⟩, Scheme.alike_only (D.members hres e he)⟩)
    | _ => exact .none

theorem asValue {t : Ty} (h : P ∅ t) : P ∅ t.asValue :=
  have : (D.comparison 0).Like t t := ⟨rfl, h⟩
  (alike_asValue (C := D.comparison 0) t t).alike.2

theorem keeps_of_agrees [Reported ε] [Pairable α] {x : Check ε α}
    (h : ∀ m, (D.comparison m).Agrees x x) :
    Keeps (watching I) n x fun _ a => Pairable.Alike (.only (P ∅) S) a a := by
  refine Tracks.keeps (R := Pairable.Alike (.only (P ∅) S)) (fun m => (h m).tracks)
    fun _ a b hab => ?_
  have heq : a = b := Pairable.eq Pairing.diagonal_only hab
  rwa [← heq] at hab

omit D in
theorem alike_ctor {c : Ctor} (h : Pairable.Alike (.only (P ∅) S) c c) : c.Obeys P := by
  obtain ⟨-, howner, harg⟩ := h
  refine ⟨howner.2, fun t ht => ?_⟩
  rw [ht] at harg
  cases harg with
  | some h => exact h.2

/-- The type of an expression. -/
theorem keeps_inferHead (e : Expr) (n : Nat) {env : Env} (henv : env.Obeys P S) :
    Keeps (watching I) n (e.inferHead env) fun _ t => P ∅ t := by
  have := henv.alike
  refine (D.keeps_of_agrees (α := Ty) fun m => ?_).imp fun _ _ _ h => h.2
  have h := e.corresponds_inferHead (C := D.comparison m) (fun _ _ => trivial) env env
  rwa [show e.mapSpan (D.comparison m).span = e from e.mapSpan_eq_self fun _ _ => rfl] at h

/-- What a type in the declaration of a type stands for. -/
theorem keeps_denote (htypes : ∀ e ∈ env.types, S e.2.body) {params : Table Ty}
    (hparams : ∀ e ∈ params, S e.2) (e : TypeExpr) :
    Keeps (watching I) n (e.denote env (.fixed params)) fun _ t => S t := by
  refine Tracks.keeps (R := Pairable.Alike (.only S S)) (fun m => ?_) fun _ a b hab => hab.2
  have : Akin (D.comparison m).anyName.named env.types env.types :=
    ⟨forall₂_same.mpr fun e he => ⟨⟨rfl, trivial⟩, Scheme.alike_only (htypes e he)⟩⟩
  exact (@TypeExpr.corresponds_denote (D.comparison m) true _ env env _ e (fun _ _ => trivial)
    (.fixed params) (.fixed params) ⟨rfl, (alike_table).mpr hparams⟩).tracks

theorem keeps_freshFields (span : Span) (ls : List String) {fields : Table Ty}
    (h : ∀ e ∈ fields, P ∅ e.2) :
    Keeps (watching I) n (freshFields span ls fields) fun _ r =>
      (∀ t ∈ r.1, P ∅ t) ∧ ∀ e ∈ r.2, P ∅ e.2 := by
  have : Akin (Pairing.only (P ∅) S) fields fields := ⟨alike_table.mpr h⟩
  exact (D.keeps_of_agrees fun m => corresponds_freshFields span ls
    (fun _ _ => trivial) fields fields).imp fun _ _ _ h => ⟨alike_list.mp h.1, alike_table.mp h.2⟩

section

variable (henv : env.Obeys P S) (span : Span)
include henv

theorem keeps_constructor (name : String) :
    Keeps (watching I) n (env.constructor span name) fun _ c => c.Obeys P := by
  have := henv.alike
  exact (D.keeps_of_agrees fun m => corresponds_constructor span name).imp
    fun _ _ _ => alike_ctor

/-- The names that a pattern binds have types with the property. -/
theorem keeps_check (p : Pattern) (n : Nat) {t : Ty} (ht : P ∅ t) :
    Keeps (watching I) n (p.check env span t) fun _ bs => ∀ b ∈ bs, P ∅ b.2 := by
  have := henv.alike
  have : Akin (Pairing.only (P ∅) S) t t := ⟨rfl, ht⟩
  exact (D.keeps_of_agrees fun m => p.corresponds_check env env span
    (fun _ _ => trivial) t t).imp fun _ _ _ => alike_table.mp

theorem keeps_paramType (ann : Option TypeExpr) :
    Keeps (watching I) n (paramType env span ann) fun _ t => P ∅ t := by
  have := henv.alike
  exact (D.keeps_of_agrees fun m => corresponds_paramType env env span ann
    fun _ _ => trivial).imp fun _ _ _ h => h.2

theorem keeps_callee (func : Expr) :
    Keeps (watching I) n (env.callee func) fun _ c => ∀ c', c = some c' → c'.Obeys P := by
  have := henv.alike
  refine (D.keeps_of_agrees fun m => corresponds_callee env env func).imp
    fun _ c _ h c' hc => ?_
  rw [hc] at h
  cases h with
  | some h => exact alike_ctor h

theorem keeps_infer (e : Expr) : Keeps (watching I) n (e.infer env) fun _ t => P ∅ t :=
  (D.keeps_inferHead e n henv).bind fun _ _ _ ht => watches_registry.bind
    fun _ _ _ ⟨_, hs, hr⟩ => keeps_pure fun _ _ => hr ▸ D.resolveDeep hs ht

variable (name : String) (isRec : Bool) (ann : Option TypeExpr) {value : Env → Check Located Ty}
  (hvalue : ∀ (env : Env) (m : Nat), env.Obeys P S →
    Keeps (watching I) m (value env) fun _ t => P ∅ t)
include hvalue

/-- The type of a bound name before it is quantified, given that of its value. -/
theorem keeps_boundType :
    Keeps (watching I) n (boundType env span name isRec ann value) fun _ t => P ∅ t := by
  have := henv.alike
  refine (D.keeps_of_agrees (α := Ty) fun m => ?_).imp fun _ _ _ h => h.2
  have hvalue (p : Couple (.only (P ∅) S) Env) :
      (D.comparison m).Agrees (value p.fst) (value p.snd) := by
    obtain ⟨env, env', h⟩ := p
    cases Pairable.eq Pairing.diagonal_only h
    exact ⟨(hvalue env m (.of_alike h)).tracks fun _ _ h => ⟨rfl, h⟩⟩
  have (env : Env) : (D.comparison m).Onward (value env) := ⟨fun _ h => h.elim⟩
  exact corresponds_boundType env env span name isRec ann
    (fun _ _ => trivial) value value

theorem keeps_inferBinding :
    Keeps (watching I) n (inferBinding env span name isRec ann value) fun _ σ => P ∅ σ.body := by
  rw [inferBinding_eq]
  exact (D.keeps_boundType henv span name isRec ann hvalue).bind fun t _ _ ht =>
    D.keeps_generalizeIn env ht

end

end Discipline

/-- What is applied by its name is a value of the environment. -/
theorem Env.exists_of_applied? {func : Expr} (h : env.applied? func = some σ) :
    ∃ x, env.value? x = some σ := by
  unfold Env.applied? at h
  split at h
  · exact ⟨_, h⟩
  · exact ⟨_, h⟩
  · cases h

theorem boundType_plain (env : Env) (span : Span) (name : String) (value : Env → Check Located Ty) :
    boundType env span name false none value = value env := by
  simp [boundType]

/-! ## Type declarations -/

/-- What the declaration of a new type makes its name stand for: a head applied to the
parameters. -/
def Scheme.Generative (σ : Scheme) : Prop :=
  ∃ c gens, gens.Nodup ∧ σ = ⟨gens, .con c (gens.map Ty.gen)⟩

/-- A declaration that is checked in an environment introduces only values and type
names with the property. -/
structure Introduces (S : Ty → Prop) (env : Env) (r : Env × Declared) : Prop where
  env_values : ∀ e ∈ r.1.values, e ∈ env.values ∨ S e.2.body
  env_types : ∀ e ∈ r.1.types, e ∈ env.types ∨ S e.2.body
  values : ∀ e ∈ r.2.values, S e.2.body
  types : ∀ e ∈ r.2.types, S e.2.body

theorem Introduces.typeName {name : String} (hσ : S σ.body) :
    Introduces S env (env.addType name σ, ⟨[], [(name, σ)]⟩) where
  env_values _ he := .inl he
  env_types e he := by
    rcases mem_insert he with rfl | he
    · exact .inr hσ
    · exact .inl he
  values := by simp
  types := by simpa using hσ

/-- The environment keeps the property then. -/
theorem Introduces.obeys {r : Env × Declared} (h : Introduces S env r)
    (hvalues : ∀ e ∈ env.values, S e.2.body) (htypes : ∀ e ∈ env.types, S e.2.body) :
    (∀ e ∈ r.1.values, S e.2.body) ∧ ∀ e ∈ r.1.types, S e.2.body :=
  ⟨fun e he => (h.env_values e he).elim (hvalues e) id,
    fun e he => (h.env_types e he).elim (htypes e) id⟩

theorem Introduces.value {name : String} (hσ : S σ.body) :
    Introduces S env (env.addValue name σ, ⟨[(name, σ)], []⟩) where
  env_values e he := by
    rcases mem_insert he with rfl | he
    · exact .inr hσ
    · exact .inl he
  env_types _ he := .inl he
  values := by simpa using hσ
  types := by simp

namespace Discipline

section

variable (D : Discipline I P S) {params : Table Ty}
include D

theorem keeps_caseArg (htypes : ∀ e ∈ env.types, S e.2.body) (hparams : ∀ e ∈ params, S e.2)
    (span : Span) (arg : Option TypeExpr) : Keeps (watching I) n
      (caseArg env span (.fixed params) arg) fun _ arg => ∀ t, arg = some t → S t := by
  cases arg with
  | none => exact keeps_pure fun _ _ => by simp
  | some e =>
    refine (keeps_located (D.keeps_denote htypes hparams e) span).bind
      fun t _ _ ht => keeps_pure fun _ _ u hu => ?_
    cases hu
    exact ht

theorem keeps_declareCases (hparams : ∀ e ∈ params, S e.2) (span : Span) (gens : List Nat)
    {owner : Ty} (howner : S owner) (cases : List (String × Option TypeExpr)) {env : Env}
    (htypes : ∀ e ∈ env.types, S e.2.body) :
    Keeps (watching I) n (declareCases span (.fixed params) gens owner cases env) fun _ r =>
      r.1.types = env.types ∧ Introduces S env (r.1, ⟨r.2, []⟩) := by
  induction cases generalizing env n with
  | nil => exact keeps_pure fun _ _ => ⟨rfl, fun _ => .inl, fun _ => .inl, by simp, by simp⟩
  | cons c cases ih =>
    refine (D.keeps_caseArg htypes hparams span c.2).bind fun arg _ _ harg => ?_
    have hcase : S (.ctor c.1 owner arg) := by
      refine D.naming.con (by simp) (forall_mem_cons.mpr ⟨howner, fun t ht => harg t ?_⟩)
      simpa using ht
    have hrest : ∀ e ∈ (env.addValue c.1 ⟨gens, .ctor c.1 owner arg⟩).types, S e.2.body := htypes
    refine (ih hrest).bind fun r _ _ ⟨htypes', hr⟩ =>
      keeps_pure fun _ _ => ⟨htypes', fun e he => ?_, hr.env_types,
        forall_mem_cons.mpr ⟨hcase, hr.values⟩, by simp⟩
    rcases hr.env_values e he with he | he
    · rcases mem_insert he with rfl | he
      · exact .inr hcase
      · exact .inl he
    · exact .inr he

theorem keeps_declareType {definition : TypeDef} (hsynonym : (∃ e, definition = .synonym e) →
      ∀ {id : Nat} {labels : List String} {params : List Ty} {target : Ty},
        (∀ t ∈ params, S t) → S target → S (.synonym id labels params target))
    (htypes : ∀ e ∈ env.types, S e.2.body) (span : Span) (name : String) (params : List String) :
    Keeps (watching I) n (declareType env span name params definition) fun _ r =>
      Introduces S env r ∧ ((∀ e, definition ≠ .synonym e) →
        ∀ e ∈ r.1.types, e ∈ env.types ∨ e.2.Generative) := by
  refine D.keeps_freshType.bind fun id _ _ _ => (D.keeps_freshGens params).bind
    fun numbered m _ ⟨_, hnodup, _⟩ => ?_
  -- the end that the three forms of declaration have in common
  have hdone : ∀ {R : Env × Declared → Prop} env' declared j,
      R (env', declared) → Keeps (watching I) j (do
        emit (.typeDeclared name declared.values.length)
        return (env', declared) : Check Located _) fun _ r => R r :=
    fun env' declared j h => (D.keeps_emit (by simp)).bind fun _ _ _ _ => keeps_pure fun _ _ => h
  have hnew : ∀ c, Scheme.Generative ⟨numbered.map (·.2),
      .con c ((numbered.map fun e => (e.1, gen e.2)).map (·.2))⟩ :=
    fun c => ⟨c, _, hnodup, by simp [Function.comp_def]⟩
  have hgens : ∀ e ∈ numbered.map fun e => (e.1, gen e.2), S e.2 :=
    forall_mem_map.mpr fun _ _ => D.naming.gen _
  have hargs : ∀ t ∈ (numbered.map fun e => (e.1, gen e.2)).map (·.2), S t :=
    forall_mem_map.mpr hgens
  have hparams : ∀ e ∈ ofList (numbered.map fun e => (e.1, gen e.2)), S e.2 :=
    fun e he => hgens e (mem_ofList he)
  cases definition with
  | variant cases =>
    have howner : S (.variant id (numbered.map fun e => (e.1, gen e.2))) :=
      D.naming.con (by simp) hargs
    let σ : Scheme := ⟨numbered.map (·.2), .variant id (numbered.map fun e => (e.1, gen e.2))⟩
    have hadded : ∀ e ∈ (env.addType name σ).types, e ∈ env.types ∨ S e.2.body := by
      intro e he
      rcases mem_insert he with rfl | he
      · exact .inr howner
      · exact .inl he
    have htypes' : ∀ e ∈ (env.addType name σ).types, S e.2.body :=
      fun e he => (hadded e he).elim (htypes e) fun h => h
    refine (D.keeps_declareCases hparams span σ.vars howner cases htypes').bind
      fun r j _ ⟨heq, h⟩ => ?_
    refine hdone r.1 ⟨r.2, _⟩ j
      ⟨⟨h.env_values, fun e he => ?_, h.values, by simpa using howner⟩, fun _ e he => ?_⟩
    · exact (h.env_types e he).elim (hadded e) .inr
    · rcases mem_insert (heq ▸ he) with rfl | he
      · exact .inr (hnew _)
      · exact .inl he
  | synonym target =>
    refine (keeps_located (D.keeps_denote htypes hparams target) span).bind fun t j _ ht => ?_
    exact hdone _ ⟨[], _⟩ j ⟨.typeName (hsynonym ⟨target, rfl⟩ hargs ht),
      fun hne => absurd rfl (hne target)⟩
  | abstract =>
    refine hdone _ ⟨[], _⟩ m ⟨.typeName (D.naming.con (by simp) hargs), fun _ e he => ?_⟩
    rcases mem_insert he with rfl | he
    · exact .inr (hnew _)
    · exact .inl he

end

end Discipline

end RowTyping
