import RowTyping.Proofs.Sealing

/-!
# What decides nothing

Variables have names that they are shown by, and expressions and declarations carry
spans that errors are reported against. The checker hands both on and never looks at
them. So if the names in the registry and the spans of a program are replaced, it takes
the same steps as before and ends alike, and only the spans of its errors are replaced.
-/

namespace RowTyping

open Check List Ty

/-! ## Disguises -/

/-- A change to registries that keeps bindings and identities, and one to spans. -/
structure Disguise where
  registry : Registry → Registry
  span : Span → Span
  bindings : ∀ r, (registry r).cells.toList.map Cell.binding = r.cells.toList.map Cell.binding
  nextGen : ∀ r, (registry r).nextGen = r.nextGen
  nextType : ∀ r, (registry r).nextType = r.nextType
  addVar : ∀ r : Registry, registry r.addVar = (registry r).addVar
  addGen : ∀ r : Registry, registry r.addGen = (registry r).addGen
  addType : ∀ r : Registry, registry r.addType = (registry r).addType
  setBinding : ∀ (r : Registry) v t, registry (r.setBinding v t) = (registry r).setBinding v t

namespace Disguise

variable (D : Disguise) (r : Registry)

@[simp] theorem varCount : (D.registry r).varCount = r.varCount := by
  simpa [Registry.varCount] using congrArg length (D.bindings r)

theorem binding_cells (v : Nat) :
    (D.registry r).cells[v]?.map Cell.binding = r.cells[v]?.map Cell.binding := by
  simpa using congrArg (·[v]?) (D.bindings r)

@[simp] theorem binding? (v : Nat) : (D.registry r).binding? v = r.binding? v := by
  have hcell := D.binding_cells r v
  rw [Registry.binding?, Registry.binding?]
  cases h : (D.registry r).cells[v]? <;> cases h' : r.cells[v]? <;> simp_all

@[simp] theorem maxHeight : (D.registry r).maxHeight = r.maxHeight := by
  have hfold : ∀ r : Registry, r.maxHeight = (r.cells.toList.map Cell.binding).foldl
      (fun h b => max h ((b.map height).getD 0)) 0 := by
    intro r
    rw [Registry.maxHeight, ← Array.foldl_toList, foldl_map]
  rw [hfold, hfold, D.bindings]

@[simp] theorem fuel (t : Ty) : (D.registry r).fuel t = r.fuel t := by simp [Registry.fuel]

@[simp] theorem follow (n : Nat) (t : Ty) : (D.registry r).follow n t = r.follow n t := by
  induction n generalizing t with
  | zero => cases t <;> rfl
  | succ n ih => cases t with
    | var x => cases x with
      | flex v =>
        simp only [Registry.follow, binding?]
        cases r.binding? v with
        | none => rfl
        | some u => exact ih u
      | gen g => rfl
    | _ => rfl

@[simp] theorem resolve (t : Ty) : (D.registry r).resolve t = r.resolve t := by
  simp [Registry.resolve]

@[simp] theorem collect (n : Nat) (fields : Table Ty) (t : Ty) :
    (D.registry r).collect n fields t = r.collect n fields t := by
  induction n generalizing fields t with
  | zero => simp [Registry.collect]
  | succ n ih => simp [Registry.collect, ih]

@[simp] theorem row (t : Ty) : (D.registry r).row t = r.row t := by simp [Registry.row]

@[simp] theorem resolveDeepN (n : Nat) (t : Ty) :
    (D.registry r).resolveDeepN n t = r.resolveDeepN n t := by
  induction n generalizing t with
  | zero => rfl
  | succ n ih =>
    have hn : (D.registry r).resolveDeepN n = r.resolveDeepN n := funext ih
    simp [Registry.resolveDeepN, hn]

@[simp] theorem resolveDeep (t : Ty) : (D.registry r).resolveDeep t = r.resolveDeep t := by
  simp [Registry.resolveDeep]

@[simp] theorem occurs (v : Nat) (t : Ty) : (D.registry r).occurs v t = r.occurs v t := by
  have hocc : ∀ n t, (D.registry r).occursN v n t = r.occursN v n t := by
    intro n
    induction n with
    | zero => exact fun _ => rfl
    | succ n ih =>
      have hn : (D.registry r).occursN v n = r.occursN v n := funext ih
      simp [Registry.occursN, hn]
  simp [Registry.occurs, hocc]

@[simp] theorem sameShape (t u : Ty) : (D.registry r).sameShape t u = r.sameShape t u := by
  have hshape : ∀ n t u, (D.registry r).sameShapeN n t u = r.sameShapeN n t u := by
    intro n
    induction n with
    | zero => exact fun _ _ => rfl
    | succ n ih =>
      have hn : (D.registry r).sameShapeN n = r.sameShapeN n := funext₂ ih
      simp [Registry.sameShapeN, hn]
  simp [Registry.sameShape, hshape]

@[simp] theorem arity (arg : Option Ty) : (D.registry r).arity arg = r.arity arg := by
  have hhead : ∀ n t, (D.registry r).headN n t = r.headN n t := by
    intro n
    induction n with
    | zero => simp [Registry.headN]
    | succ n ih => simp [Registry.headN, ih]
  cases arg <;> simp [Registry.arity, Registry.head, hhead]

@[simp] theorem unifyFuel (a b : Ty) : (D.registry r).unifyFuel a b = r.unifyFuel a b := by
  simp [Registry.unifyFuel]

@[simp] theorem freeVars (env : Env) : env.freeVars (D.registry r) = env.freeVars r := by
  simp [Env.freeVars]

end Disguise

/-! ## Operations in disguise -/

def Disguise.state (D : Disguise) (s : State) : State :=
  { s with registry := D.registry s.registry }

/-- The second run is the first one in disguise. -/
def Frame.disguised (D : Disguise) : Frame State where
  At s t := t = D.state s
  Fails e s e' t := e' = e ∧ t = D.state s
  Lost _ := False
  lenient := False
  span := D.span

section

variable {D : Disguise} {ε α β : Type}

instance (x : Check ε α) : Onward (Frame.disguised D) x := ⟨fun _ h => h.elim⟩

instance : Steady (Frame.disguised D) := .of_never fun _ => id

variable [Reported ε]

/-- In the disguise, the second operation does what the first one does. -/
class Mimics (D : Disguise) (x y : Check ε α) : Prop where
  tracks : Tracks (.disguised D) Eq x y

instance mimics_pure (a : α) : Mimics D (pure a : Check ε α) (pure a) := ⟨tracks_pure rfl⟩

theorem Mimics.bind {x y : Check ε α} {f g : α → Check ε β} (hx : Mimics D x y)
    (hf : ∀ a, Mimics D (f a) (g a)) : Mimics D (x >>= f) (y >>= g) :=
  ⟨hx.tracks.bind fun a _ h => h ▸ (hf a).tracks⟩

instance mimics_bind (x y : Check ε α) (f g : α → Check ε β) [hx : Mimics D x y]
    [hf : ∀ a, Mimics D (f a) (g a)] : Mimics D (x >>= f) (y >>= g) :=
  hx.bind hf

instance mimics_ite (p : Prop) [Decidable p] (x x' y y' : Check ε α) [Mimics D x y]
    [Mimics D x' y'] : Mimics D (if p then x else x') (if p then y else y') := by
  split <;> infer_instance

instance mimics_throw (e : TypeError) : Mimics D (throw e : Check TypeError α) (throw e) :=
  ⟨fun _ _ hst => .error ⟨rfl, hst⟩ trivial⟩

/-- What is done with the registry does not depend on the disguise. -/
theorem mimics_registry {f g : Registry → Check ε α} (hg : ∀ r, g (D.registry r) = g r)
    (h : ∀ r, Mimics D (f r) (g r)) : Mimics D (registry >>= f) (registry >>= g) where
  tracks s t hst := by
    obtain rfl : t = D.state s := hst
    rw [run_bind_ok (run_registry (D.state s)),
      show g (D.state s).registry = g s.registry from hg _]
    exact (h s.registry).tracks s _ rfl

instance mimics_emit (e : Event) : Mimics D (emit e : Check ε Unit) (emit e) where
  tracks s t hst := by
    obtain rfl : t = D.state s := hst
    exact .ok rfl rfl

/-- Changes of the registry that the disguise does not get in the way of. -/
theorem mimics_issue {f : Registry → α} {g : Registry → Registry}
    (hf : ∀ r, f (D.registry r) = f r) (hg : ∀ r, D.registry (g r) = g (D.registry r))
    {x : Check ε α} (hx : ∀ s, x.run s = .ok (f s.registry) { s with registry := g s.registry }) :
    Mimics D x x where
  tracks s t hst := by
    obtain rfl : t = D.state s := hst
    rw [hx, hx]
    exact .ok (congrArg (State.mk · s.log) (hg s.registry).symm) (hf _).symm

instance mimics_freshVar : Mimics D (freshVar : Check ε Ty) freshVar :=
  mimics_issue (f := fun r => .flex r.varCount) (by simp) D.addVar run_freshVar

instance mimics_freshGen : Mimics D (freshGen : Check ε Nat) freshGen :=
  mimics_issue D.nextGen D.addGen run_freshGen

instance mimics_setBinding (v : Nat) (t : Ty) :
    Mimics D (modifyRegistry (·.setBinding v t) : Check ε Unit)
      (modifyRegistry (·.setBinding v t)) :=
  mimics_issue (f := fun _ => ()) (fun _ => rfl) (D.setBinding · v t) (run_modifyRegistry _)

instance mimics_fromExcept (x : Except TypeError α) : Mimics D (fromExcept x) (fromExcept x) := by
  cases x <;> unfold fromExcept <;> infer_instance

end

/-! ## Unification -/

section

variable {D : Disguise}

instance mimics_mismatch {α : Type} (a b : Ty) :
    Mimics D (mismatch a b : Check TypeError α) (mismatch a b) :=
  mimics_registry (fun r => by simp) fun r => inferInstance

instance mimics_bindVar (v : Nat) (t : Ty) : Mimics D (bindVar v t) (bindVar v t) := by
  refine mimics_registry (fun r => ?_) fun r => ?_
  · have hcell := D.binding_cells r v
    cases h : (D.registry r).cells[v]? <;> cases h' : r.cells[v]? <;> simp_all
  · split
    · infer_instance
    · split <;> infer_instance

instance mimics_solve (v : Nat) (t : Ty) : Mimics D (solve v t) (solve v t) :=
  mimics_registry (fun r => by simp) fun r => inferInstance

theorem mimics_forM {α : Type} {f : α → Check TypeError Unit} (hf : ∀ a, Mimics D (f a) (f a))
    (as : List α) : Mimics D (forM as f : Check TypeError Unit) (forM as f) := by
  induction as with
  | nil => exact mimics_pure ()
  | cons a as ih => exact (hf a).bind fun _ => ih

theorem mimics_unifyN (n : Nat) : (∀ a b, Mimics D (unifyN n a b) (unifyN n a b)) ∧
    ∀ a b, Mimics D (unifyRowsN n a b) (unifyRowsN n a b) := by
  induction n with
  | zero => exact ⟨fun a b => mimics_mismatch a b, fun a b => mimics_mismatch a b⟩
  | succ n ih =>
    obtain ⟨htypes, hrows⟩ := ih
    have hall := mimics_forM fun p : Ty × Ty => htypes p.1 p.2
    constructor
    · intro a b
      refine mimics_registry (fun r => by simp) fun r => ?_
      refine (mimics_emit _).bind fun _ => ?_
      split
      · infer_instance
      · infer_instance
      · exact htypes _ _
      · next pairs ragged _ =>
        infer_instance
      · exact hrows _ _
      · infer_instance
    · intro a b
      refine mimics_registry (fun r => by simp) fun r => ?_
      refine (hall _).bind fun _ => ?_
      refine mimics_registry (fun r => by simp) fun r => ?_
      split
      · exact hrows _ _
      · exact htypes _ _
      · exact htypes _ _
      · infer_instance
      · infer_instance

instance mimics_unify (a b : Ty) : Mimics D (unify a b) (unify a b) :=
  mimics_registry (fun r => by simp) fun _ => (mimics_unifyN _).1 a b

/-! ## Schemes -/

section

variable {ε : Type} [Reported ε]

instance mimics_freshFor {α β : Type} (fresh : Check ε α) [Mimics D fresh fresh] (bs : List β) :
    Mimics D (freshFor fresh bs) (freshFor fresh bs) := by
  induction bs with
  | nil => exact mimics_pure []
  | cons b bs ih =>
    rw [freshFor]
    infer_instance

instance mimics_generalizeIn (env : Env) (t : Ty) :
    Mimics D (generalizeIn env t : Check ε Scheme) (generalizeIn env t) := by
  refine mimics_registry (fun r => by simp) fun r => ?_
  refine mimics_registry (fun r => by simp) fun r => ?_
  refine (mimics_freshFor _ _).bind fun rows => ?_
  exact mimics_registry (fun r => by simp) fun r => inferInstance

instance mimics_instantiate (s : Scheme) :
    Mimics D (instantiate s : Check ε Ty) (instantiate s) := by
  unfold instantiate
  infer_instance

end

instance mimics_instantiateWith (name : String) (σ : Scheme) (args : List Ty) :
    Mimics D (instantiateWith name σ args) (instantiateWith name σ args) := by
  unfold instantiateWith
  infer_instance

instance mimics_instantiateDeclared (name : String) (σ : Scheme) (args : List Ty) :
    Mimics D (instantiateDeclared name σ args) (instantiateDeclared name σ args) := by
  unfold instantiateDeclared
  infer_instance

end

/-! ## The checker in disguise -/

/-- Only what is equal is the same. -/
def Pairing.equal : Pairing := ⟨Eq, Eq, Eq, fun _ => True⟩

theorem diagonal_equal : Pairing.equal.Diagonal := ⟨id, id, id⟩

theorem reflexive_equal : Pairing.equal.Reflexive :=
  ⟨fun _ => rfl, fun _ => rfl, fun _ => rfl, fun _ => trivial⟩

theorem builds_equal : Forms .equal :=
  ⟨fun _ _ h => congrArg _ (Pairable.eq diagonal_equal h),
    fun h ht => congrArg₂ _ (Pairable.eq diagonal_equal h) ht⟩

/-- Both runs work on the same types. -/
abbrev Comparison.disguised (D : Disguise) : Comparison where
  toFrame := .disguised D
  toPairing := .equal
  builds := builds_equal
  namedBuilds := builds_equal
  ofNamed := id
  gen h := congrArg Ty.gen h
  fails hst _ := ⟨rfl, hst⟩
  addVar {s t} hst := by
    obtain rfl : t = D.state s := hst
    exact .inr ⟨congrArg (State.mk · s.log) (D.addVar _).symm, congrArg Ty.flex (D.varCount _).symm⟩
  addGen {s t} hst := by
    obtain rfl : t = D.state s := hst
    exact .inr ⟨congrArg (State.mk · s.log) (D.addGen _).symm, (D.nextGen _).symm⟩
  unify := by
    rintro _ _ _ _ rfl rfl
    exact (mimics_unify _ _).tracks.imp fun _ _ _ => trivial
  instantiate h := by
    cases Pairable.eq diagonal_equal h
    exact (mimics_instantiate _).tracks
  generalizeIn henv := by
    rintro rfl
    cases Pairable.eq diagonal_equal henv
    exact (mimics_generalizeIn _ _).tracks.imp fun σ _ h => h ▸ Pairable.refl reflexive_equal σ
  instantiateWith name hσ hts := by
    cases Pairable.eq diagonal_equal hσ
    cases Pairable.eq diagonal_equal hts
    exact (mimics_instantiateWith name _ _).tracks
  instantiateDeclared name hσ hts := by
    cases Pairable.eq diagonal_equal hσ
    cases Pairable.eq diagonal_equal hts
    exact (mimics_instantiateDeclared name _ _).tracks
  ctor? := by
    rintro t _ rfl
    exact Pairable.refl reflexive_equal t.ctor?
  arity {s t a b} hst hab := by
    obtain rfl : t = D.state s := hst
    cases Pairable.eq diagonal_equal hab
    exact (D.arity _ _).symm
  members {s t a b} hst hab := by
    obtain rfl : t = D.state s := hst
    obtain rfl : a = b := hab
    rw [show (D.state s).registry.resolve a = s.registry.resolve a from D.resolve _ a]
    cases (s.registry.resolve a).members? with
    | none => exact .none
    | some members => exact .some (Pairable.refl reflexive_equal members).1

theorem declares_disguised (D : Disguise) : Declares (.disguised D) where
  toNamed := id
  resolveDeep {s t a b} hst hab := by
    obtain rfl : t = D.state s := hst
    obtain rfl : a = b := hab
    exact (D.resolveDeep _ a).symm
  addType {s t} hst := by
    obtain rfl : t = D.state s := hst
    refine .inr ⟨congrArg (State.mk · s.log) (D.addType _).symm, fun args args' h => ?_⟩
    cases Pairable.eq diagonal_equal h
    rw [show (D.state s).registry.nextType = s.registry.nextType from D.nextType _]
    exact ⟨h, rfl, rfl, congrArg _⟩
  typeDeclared {s t} name n hst := by
    obtain rfl : t = D.state s := hst
    rfl
  ofModule {name members members'} _ h := by
    cases Pairable.eq diagonal_equal h
    rfl

/-- A declaration with other spans is checked alike. -/
theorem Decl.check_mimics (D : Disguise) (d : Decl) (env : Env) (s : State) :
    ((d.mapSpan D.span).check env).run (D.state s) =
      match (d.check env).run s with
      | .ok r s' => .ok r (D.state s')
      | .error e s' => .error (e.mapSpan D.span) (D.state s') := by
  have : (Comparison.disguised D).Like env env := ⟨Pairable.refl reflexive_equal env⟩
  have hruns :=
    (d.corresponds_check (declares_disguised D) (fun _ _ => trivial) env env).tracks s _ rfl
  change Outcome _ _ _ (((d.mapSpan D.span).check env).run (D.state s)) at hruns
  generalize (d.check env).run s = out, ((d.mapSpan D.span).check env).run (D.state s) =
    out' at hruns
  cases hruns with
  | ok hst hab =>
    cases Pairable.eq diagonal_equal hab
    exact congrArg _ hst
  | @error e e' _ _ h hspan =>
    obtain ⟨hcause, hst⟩ := h
    cases e'
    cases hcause
    cases hspan
    cases hst
    rfl
  | excused h =>
    cases out with
    | ok => exact h.elim
    | error => exact h.elim False.elim False.elim

/-! ## Programs -/

theorem Disguise.state_record (D : Disguise) (s : State) (values : List (String × Scheme)) :
    D.state (s.record values) = (D.state s).record values := by
  induction values generalizing s with
  | nil => rfl
  | cons v values ih => exact ih (s.emit _)

theorem checkDecls_mimics (D : Disguise) (ds : List Decl) (report : Report) (s : State) :
    checkDecls (ds.map (·.mapSpan D.span)) (report.mapSpan D.span) (D.state s) =
      ((checkDecls ds report s).1.mapSpan D.span, D.state (checkDecls ds report s).2) := by
  induction ds generalizing report s with
  | nil => rfl
  | cons d ds ih =>
    have hrun : ((d.mapSpan D.span).check (report.mapSpan D.span).env).run (D.state s) = _ :=
      d.check_mimics D report.env s
    cases hs : (d.check report.env).run s with
    | ok out s' =>
      obtain ⟨env', declared⟩ := out
      rw [hs] at hrun
      rw [map_cons, checkDecls_ok hs, checkDecls_ok hrun, ← D.state_record]
      exact ih ⟨env', report.declared ++ declared.values, report.errors⟩ _
    | error e s' =>
      rw [hs] at hrun
      rw [map_cons, checkDecls_error hs, checkDecls_error hrun, ← ih]
      simp [Report.mapSpan, Disguise.state, Located.mapSpan, State.emit]

end RowTyping
