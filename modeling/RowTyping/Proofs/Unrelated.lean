import RowTyping.Proofs.ParallelSchemes
import RowTyping.Proofs.PatternArity
import RowTyping.Proofs.Visibility

/-!
# Bindings that are not needed

A binding that an expression does not use still counts: a `let` inside the expression does
not quantify over the variables that the binding leaves open. This makes no difference if
all types fit the roles of their variables. Inference keeps to the variables that the other
values lead to, and to new ones. So a variable of the binding that comes up in the type of
a `let` is one that the other values lead to as well, and what fits its role is not hidden
behind a label: the other values leave it open too.

Both runs are compared step by step. They go through the same states, and at each `let` the
variables that are not quantified are, within the type, the same.
-/

namespace RowTyping

open Check Registry Table Ty List

/-! ## Names -/

namespace Pattern

mutual

/-- The pattern does not name the constructor. -/
def Omits (x : String) : Pattern → Prop
  | .wild | .var _ | .lit _ => True
  | .tuple ps => OmitsList x ps
  | .construct c none => c ≠ x
  | .construct c (some p) => c ≠ x ∧ p.Omits x
  | .record ps _ => OmitsFields x ps

def OmitsList (x : String) : List Pattern → Prop
  | [] => True
  | p :: ps => p.Omits x ∧ OmitsList x ps

def OmitsFields (x : String) : List (String × Pattern) → Prop
  | [] => True
  | (_, p) :: ps => p.Omits x ∧ OmitsFields x ps

end

end Pattern

namespace Expr

mutual

/-- The expression does not look the name up in its surroundings, as a value, a constructor
or a module. -/
def Omits (x : String) : Expr → Prop
  | .lit _ _ => True
  | .var _ y => y ≠ x
  | .path _ m _ => m ≠ x
  | .lam _ y _ body => x = y ∨ body.Omits x
  | .app _ func arg => func.Omits x ∧ arg.Omits x
  | .letIn _ y isRec _ value body =>
      (isRec = true ∧ x = y ∨ value.Omits x) ∧ (x = y ∨ body.Omits x)
  | .ifThenElse _ cond thenE elseE => cond.Omits x ∧ thenE.Omits x ∧ elseE.Omits x
  | .tuple _ items => OmitsList x items
  | .record _ fields => OmitsFields x fields
  | .field _ whole _ => whole.Omits x
  | .update _ whole changes => whole.Omits x ∧ OmitsFields x changes
  | .construct _ c none => c ≠ x
  | .construct _ c (some arg) => c ≠ x ∧ arg.Omits x
  | .cases _ scrutinee arms => scrutinee.Omits x ∧ OmitsArms x arms
  | .annotate _ inner _ => inner.Omits x

def OmitsList (x : String) : List Expr → Prop
  | [] => True
  | e :: es => e.Omits x ∧ OmitsList x es

def OmitsFields (x : String) : List (String × Expr) → Prop
  | [] => True
  | (_, e) :: es => e.Omits x ∧ OmitsFields x es

def OmitsArms (x : String) : List (Pattern × Expr) → Prop
  | [] => True
  | (p, e) :: es => p.Omits x ∧ (x ∈ p.names ∨ e.Omits x) ∧ OmitsArms x es

end

end Expr

/-! ## Another binding -/

section

variable {env : Env} {x y : String} {σ τ : Scheme}

theorem Env.addValue_addValue (h : Sorted env.values) :
    (env.addValue x σ).addValue x τ = env.addValue x τ := by
  refine congrArg (Env.mk · env.types) (Sorted.ext ((h.insert x σ).insert x τ) (h.insert x τ) ?_)
  intro z
  simp only [Env.addValue, lookup_insert]
  split <;> rfl

theorem Env.addValue_comm (h : Sorted env.values) (hxy : x ≠ y) :
    (env.addValue x σ).addValue y τ = (env.addValue y τ).addValue x σ := by
  refine congrArg (Env.mk · env.types)
    (Sorted.ext ((h.insert x σ).insert y τ) ((h.insert y τ).insert x σ) fun z => ?_)
  simp only [Env.addValue, lookup_insert]
  by_cases hz : z = y
  · simp [hz, hxy.symm]
  · simp [hz]

theorem Env.find_addValue (hxy : y ≠ x) (span : Span) :
    (env.addValue x σ).find span y = env.find span y := by
  simp [Env.find, Env.value, hxy]

theorem Env.constructor_addValue (hxy : y ≠ x) (span : Span) :
    (env.addValue x σ).constructor span y = env.constructor span y := by
  rw [Env.constructor, Env.find_addValue hxy, Env.constructor]

theorem inferPath_addValue (hxy : y ≠ x) (span : Span) (name : String) :
    inferPath (env.addValue x σ) span y name = inferPath env span y name := by
  rw [inferPath, Env.find_addValue hxy, inferPath]

theorem Env.callee_addValue {func : Expr} (hx : func.Omits x) :
    (env.addValue x σ).callee func = env.callee func := by
  have happlied : (env.addValue x σ).applied? func = env.applied? func := by
    unfold Env.applied?
    split
    · exact (env.value?_addValue ..).trans (if_neg hx)
    · exact (env.value?_addValue ..).trans (if_neg hx)
    · rfl
  rw [Env.callee, happlied, Env.callee]

namespace TypeExpr

mutual

/-- Values play no role in written types. -/
theorem read_addValue : ∀ e : TypeExpr, e.read (env.addValue x σ) = e.read env
  | .name n => by rw [read, read]; rfl
  | .var l => by rw [read, read]
  | .app n args => by rw [read, read, readList_addValue args]; rfl
  | .arrow a r => by rw [read, read, read_addValue a, read_addValue r]
  | .tuple items => by rw [read, read, readList_addValue items]
  | .record fields isOpen => by rw [read, read, readFields_addValue fields]

theorem readList_addValue : ∀ es : List TypeExpr, readList (env.addValue x σ) es = readList env es
  | [] => by rw [readList, readList]
  | e :: es => by rw [readList, readList, read_addValue e, readList_addValue es]

theorem readFields_addValue : ∀ (es : List (String × TypeExpr)) (fields : Table Ty),
    readFields (env.addValue x σ) es fields = readFields env es fields
  | [], fields => by rw [readFields, readFields]
  | (l, e) :: es, fields => by
    simp only [readFields, read_addValue e, readFields_addValue es]

end

theorem annotated_addValue (span : Span) (e : TypeExpr) :
    e.annotated (env.addValue x σ) span = e.annotated env span := by
  unfold annotated denote
  rw [read_addValue]

end TypeExpr

theorem paramType_addValue (span : Span) (ann : Option TypeExpr) :
    paramType (env.addValue x σ) span ann = paramType env span ann := by
  cases ann with
  | some e => exact e.annotated_addValue span
  | none => rfl

namespace Pattern

mutual

theorem check_addValue (span : Span) : ∀ (p : Pattern) (t : Ty), p.Omits x →
    p.check (env.addValue x σ) span t = p.check env span t
  | .wild, t, _ => by rw [check, check]
  | .var y, t, _ => by rw [check, check]
  | .lit b, t, _ => by rw [check, check]
  | .tuple ps, t, hx => by simp only [check, checkList_addValue span ps _ hx]
  | .construct c none, t, hx => by simp only [check, Env.destruct, Env.constructor_addValue hx]
  | .construct c (some p), t, ⟨hc, hp⟩ => by
    simp only [check, Env.destruct, Env.constructor_addValue hc, check_addValue span p _ hp]
  | .record fields isOpen, t, hx => by simp only [check, checkFields_addValue span fields _ hx]

theorem checkList_addValue (span : Span) : ∀ (ps : List Pattern) (ts : List Ty),
    OmitsList x ps → checkList (env.addValue x σ) span ps ts = checkList env span ps ts
  | [], ts, _ => by simp only [checkList]
  | p :: ps, [], _ => by simp only [checkList]
  | p :: ps, t :: ts, ⟨hp, hps⟩ => by
    simp only [checkList, check_addValue span p t hp, checkList_addValue span ps ts hps]

theorem checkFields_addValue (span : Span) : ∀ (ps : List (String × Pattern)) (ts : List Ty),
    OmitsFields x ps → checkFields (env.addValue x σ) span ps ts = checkFields env span ps ts
  | [], ts, _ => by simp only [checkFields]
  | (_, p) :: ps, [], _ => by simp only [checkFields]
  | (_, p) :: ps, t :: ts, ⟨hp, hps⟩ => by
    simp only [checkFields, check_addValue span p t hp, checkFields_addValue span ps ts hps]

end

end Pattern

end

/-! ## Runs that coincide -/

/-- A state at the stage in which the members of modules are sealed. -/
def Stage.SealedAt {G : Prop} (S : Stage G) (s : State) : Prop :=
  S.At s ∧ s.registry.Closed fun _ => True

theorem Registry.Closed.anywhere :
    Discipline (inRegistry (Closed fun _ => True)) (fun _ t => t.Over fun _ => True) Sealed :=
  Closed.discipline id (fun h => ⟨h.addVar, trivial⟩) (fun h _ _ _ ht => h.setBinding ht) id id

section

variable {ε α β : Type} {G : Prop} {S S' : Stage G} {Q : Stage G → α → Prop}

theorem leads_sealed {x : Check ε α} {R : α → Prop} (hx : Leads Stage.At S x Q)
    (hk : Keeps (watching (inRegistry (Closed fun _ => True))) 0 x fun _ => R) :
    Leads Stage.SealedAt S x fun S' a => Q S' a ∧ R a := by
  intro s hs
  obtain ⟨S', hle, hat, hyield⟩ := hx s hs.1
  obtain ⟨hclosed, -, hR⟩ := hk s hs.2 (Nat.zero_le _)
  exact ⟨S', hle, ⟨hat, hclosed⟩, fun a s' hrun => ⟨hyield a s' hrun, hR a s' hrun⟩⟩

/-- From every state at the stage the two operations do the same. -/
def Coincide (S : Stage G) (x y : Check ε α) : Prop := ∀ s, S.SealedAt s → x.run s = y.run s

namespace Coincide

variable {x y : Check ε α} {f g : α → Check ε β}

theorem same (x : Check ε α) : Coincide S x x := fun _ _ => rfl

theorem seq (hx : Coincide S x y) (f : α → Check ε β) : Coincide S (x >>= f) (y >>= f) := by
  intro s hs
  cases hrun : y.run s with
  | ok a s' => rw [run_bind_ok hrun, run_bind_ok ((hx s hs).trans hrun)]
  | error e s' => rw [run_bind_error hrun, run_bind_error ((hx s hs).trans hrun)]

theorem next (hy : Leads Stage.SealedAt S y Q)
    (hf : ∀ S' a, S ≤ S' → Q S' a → Coincide S' (f a) (g a)) :
    Coincide S (y >>= f) (y >>= g) := by
  intro s hs
  obtain ⟨S', hle, hat, hQ⟩ := hy s hs
  cases hrun : y.run s with
  | ok a s' =>
    rw [run_bind_ok hrun, run_bind_ok hrun]
    rw [after_ok hrun] at hat
    exact hf S' a hle (hQ a s' hrun) s' hat
  | error e s' => rw [run_bind_error hrun, run_bind_error hrun]

theorem bind (hx : Coincide S x y) (hy : Leads Stage.SealedAt S y Q)
    (hf : ∀ S' a, S ≤ S' → Q S' a → Coincide S' (f a) (g a)) : Coincide S (x >>= f) (y >>= g) :=
  fun s hs => (hx.seq f s hs).trans (next hy hf s hs)

theorem apply {x y : Check Located Ty} (hx : Coincide S x y) (c : Ctor) (span : Span) :
    Coincide S (c.apply span (some x)) (c.apply span (some y)) := by
  exact hx.seq _

end Coincide

/-- Quantifying looks only at the variables of the type. -/
theorem generalizeOver_congr {s : State} (hs : s.registry.bare.Acyclic) {fixed fixed' : List Nat}
    {t : Ty} (h : ∀ v, .flex v ∈ (s.registry.resolveDeep t).occurrences →
      (v ∈ fixed ↔ v ∈ fixed')) :
    (generalizeOver fixed t : Check ε Scheme).run s = (generalizeOver fixed' t).run s := by
  have hflat : s.registry.Flat (s.registry.resolveDeep t) := flat_resolveDeepN hs _ t
  generalize hu : s.registry.resolveDeep t = u at *
  have hfilter : ∀ xs : List TyVar, (∀ v, .flex v ∈ xs → .flex v ∈ u.occurrences) →
      xs.filter (·.isFree fixed) = xs.filter (·.isFree fixed') := by
    intro xs hxs
    refine filter_congr fun x hx => ?_
    cases x with
    | gen g => rfl
    | flex v => simp [TyVar.isFree, h v (hxs v hx)]
  unfold generalizeOver
  rw [run_bind_ok (run_registry s), run_bind_ok (run_registry s)]
  simp only [hu]
  rw [hfilter u.openTails fun v hv => tailOccurrences_subset _ (mem_distinct.mp hv),
    run_bind_ok (run_freshGens _ s), run_bind_ok (run_freshGens _ s), run_bind_ok (run_registry _),
    run_bind_ok (run_registry _)]
  generalize (zip _ (range' s.registry.nextGen _) : List (TyVar × Nat)) = rows
  simp only [hflat.resolveDeep_applyGens]
  rw [hfilter (vars _) fun v hv => ?_]
  rw [vars, mem_distinct, Subst.apply, occurrences_subst] at hv
  obtain ⟨x, hx, hv⟩ := mem_flatMap.mp hv
  rcases Subst.image_ofGens rows x with ⟨heq, -⟩ | ⟨g, -, heq⟩ <;> rw [heq] at hv
  · obtain rfl : TyVar.flex v = x := by simpa [occurrences] using hv
    exact hx
  · simp [occurrences] at hv

end

/-! ## Inference -/

/-- An environment without a value `x`, and a scheme that could be one. -/
structure Env.Lacks {G : Prop} (S : Stage G) (x : String) (σ : Scheme) (env : Env) : Prop where
  fits : S.FitsEnv env
  obeys : env.Obeys (fun _ t => t.Over fun _ => True) Ty.Sealed
  sorted : Table.Sorted env.values
  unbound : env.value? x = none
  issued : σ.body.Scoped S.registry.varCount
  isSealed : σ.body.Over fun _ => True

section

variable {G : Prop} {S S' : Stage G} {x : String} {σ : Scheme} {env : Env} {e : Expr}

theorem Env.Lacks.mono (h : env.Lacks S x σ) (hle : S ≤ S') : env.Lacks S' x σ :=
  { h with
    fits := h.fits.mono hle
    issued := fun v hv => (h.issued v hv).trans_le hle.registry.varCount_le }

theorem Env.Lacks.addValue (h : env.Lacks S x σ) {y : String} (hxy : x ≠ y) {τ : Scheme}
    (hτ : S.FitsScheme τ ∧ τ.body.Over fun _ => True) : (env.addValue y τ).Lacks S x σ :=
  { h with
    fits := h.fits.addValue y hτ.1
    obeys := h.obeys.addValue y hτ.2
    sorted := h.sorted.insert y τ
    unbound := (env.value?_addValue ..).trans ((if_neg hxy).trans h.unbound) }

theorem Env.Lacks.leads_inferHead (h : env.Lacks S x σ) (e : Expr) :
    Leads Stage.SealedAt S (e.inferHead env) fun S' t =>
      S'.Fits .type t ∧ t.Over fun _ => True :=
  leads_sealed ((e.leads_inferHead h.fits).imp fun _ _ _ ht => ht.fits)
    (Closed.anywhere.keeps_inferHead e 0 h.obeys)

/-- Two environments with and without the binding, as far as an expression goes that does
not need it. -/
def Ignores (G : Prop) (x : String) (σ : Scheme) (e : Expr) : Prop :=
  ∀ ⦃S : Stage G⦄ ⦃env : Env⦄, env.Lacks S x σ → e.Omits x →
    Coincide S (e.inferHead (env.addValue x σ)) (e.inferHead env)

/-- Another binding around the expression, maybe of the same name. -/
theorem Ignores.binder (h : Ignores G x σ e) (henv : env.Lacks S x σ) (y : String) {τ : Scheme}
    (hτ : S.FitsScheme τ ∧ τ.body.Over fun _ => True) (hx : x = y ∨ e.Omits x) :
    Coincide S (e.inferHead ((env.addValue x σ).addValue y τ))
      (e.inferHead (env.addValue y τ)) := by
  by_cases hxy : x = y
  · subst hxy
    rw [Env.addValue_addValue henv.sorted]
    exact .same _
  · rw [Env.addValue_comm henv.sorted hxy]
    exact h (henv.addValue hxy hτ) (hx.resolve_left hxy)

theorem Ignores.binders (h : Ignores G x σ e) : ∀ (bs : Table Ty) {env : Env}, env.Lacks S x σ →
    (∀ b ∈ bs, S.Fits .type b.2 ∧ b.2.Over fun _ => True) → x ∈ bs.map (·.1) ∨ e.Omits x →
    Coincide S (e.inferHead ((env.addValue x σ).addMonos bs)) (e.inferHead (env.addMonos bs))
  | [], env, henv, _, hx => h henv (hx.resolve_left (by simp))
  | b :: bs, env, henv, hbs, hx => by
    obtain ⟨hb, hbs⟩ := forall_mem_cons.mp hbs
    show Coincide S (e.inferHead (((env.addValue x σ).addValue b.1 (.mono b.2)).addMonos bs)) _
    by_cases hxb : x = b.1
    · rw [hxb, Env.addValue_addValue henv.sorted]
      exact .same _
    · rw [Env.addValue_comm henv.sorted hxb]
      exact h.binders bs (henv.addValue hxb ⟨Stage.fitsScheme_mono hb.1, hb.2⟩) hbs
        (hx.imp_left fun hx => (mem_cons.mp hx).resolve_left hxb)

end

/-! ## What a binding leaves open -/

theorem Ty.Over.of_mentions {W : Nat → Prop} {t : Ty} (h : t.Over fun _ => True)
    (hW : ∀ v, t.Mentions v → W v) : t.Over W := by
  induction t using induct_children with
  | step t ih =>
    refine all_iff.mpr ⟨?_, fun u hu => ih u hu (h.child hu) fun v hv => hW v (hv.of_child hu)⟩
    cases t with
    | var x =>
      cases x with
      | flex v => exact hW v (mentions_flex.mpr rfl)
      | gen g => trivial
    | module name members => exact h.here
    | con | record | synonym => trivial

/-- The variables of a type that fits have been issued. -/
theorem Ty.Fits.role_of_mem {G : Prop} {H V : TyVar → Role → Prop} {k : Role} {t : Ty} {x : TyVar}
    (h : t.Fits G H V k) (hV : ∀ x k, V x k → H x k) (hx : x ∈ t.occurrences) : ∃ k, H x k := by
  induction h with
  | @var _ _ y h =>
    obtain rfl : x = y := by simpa [occurrences] using hx
    exact ⟨_, hV _ _ h⟩
  | con _ _ _ ih =>
    rcases mem_occurrences.mp hx with heq | ⟨u, hu, hx⟩
    · cases heq
    · exact ih u hu hV hx
  | emptyRow => simp [occurrences] at hx
  | record _ _ _ _ ihf iht =>
    rcases mem_occurrences.mp hx with heq | ⟨u, hu, hx⟩
    · cases heq
    · rcases mem_children_record.mp hu with ⟨e, he, rfl⟩ | rfl
      · exact ihf e he hV ‹_›
      · exact iht hV ‹_›
  | synonym _ _ _ ihp iht =>
    rcases mem_occurrences.mp hx with heq | ⟨u, hu, hx⟩
    · cases heq
    · rcases mem_append.mp hu with hu | hu
      · exact ihp u hu (fun _ _ => id) hx
      · cases mem_singleton.mp hu
        exact iht hV hx
  | module => simp [occurrences] at hx

theorem Stage.scoped {G : Prop} (S : Stage G) : S.registry.Scoped := by
  intro v t hb w hw
  obtain ⟨k, -, ht⟩ := S.fits hb
  obtain ⟨k', hk'⟩ := ht.role_of_mem (fun _ _ hx => hx.1) hw
  exact S.issued hk'

namespace Registry

/-- The variables that the values of the environment lead to, and new ones. -/
def InReach (r : Registry) (env : Env) (v : Nat) : Prop :=
  (∃ d ∈ env.values, r.Reaches d.2.body v) ∨ r.varCount ≤ v

/-- The registry has come from `r₀` by bindings of variables among `W`, which lead only to
each other. -/
structure Roams (r₀ : Registry) (W : Nat → Prop) (r : Registry) : Prop where
  later : r₀.Extends r
  closed : r.Closed W
  kept : ∀ v, ¬ W v → r.binding? v = r₀.binding? v

theorem Roams.discipline {r₀ : Registry} {W : Nat → Prop} (hW : ∀ v, r₀.varCount ≤ v → W v) :
    Discipline (inRegistry (r₀.Roams W)) (fun _ t => t.Over W) Sealed := by
  refine Closed.discipline (fun h => h.closed)
    (fun h => ⟨⟨h.later.trans (.addVar _), h.closed.addVar, fun v hv => ?_⟩,
      hW _ h.later.varCount_le⟩)
    (fun h hopen _ hv ht => ⟨h.later.trans (.setBinding hopen _), h.closed.setBinding ht,
      fun w hw => ?_⟩)
    (fun h => ⟨⟨h.later.varCount_le, h.later.binding⟩, h.closed, h.kept⟩)
    fun h => ⟨⟨h.later.varCount_le, h.later.binding⟩, h.closed, h.kept⟩
  · simpa using h.kept v hv
  · rw [binding?_setBinding, if_neg fun ⟨heq, _⟩ => hw (heq ▸ hv)]
    exact h.kept w hw

end Registry

section

variable {G : Prop} {S S' : Stage G} {x : String} {σ : Scheme} {env : Env} {e : Expr}

theorem Env.Lacks.over_inReach (h : env.Lacks S x σ) :
    env.Obeys (fun _ t => t.Over (S.registry.InReach env)) Ty.Sealed :=
  ⟨fun d hd => (h.obeys.values d hd).of_mentions fun v hv => .inl ⟨d, hd, v, hv, .refl⟩,
    h.obeys.types⟩

theorem Registry.Closed.inReach {r : Registry} (h : r.Closed fun _ => True) (env : Env) :
    r.Closed (r.InReach env) := by
  rintro v t (⟨d, hd, z, hz, hpath⟩ | hv) hb
  · exact (h v t trivial hb).of_mentions fun w hw => .inl ⟨d, hd, z, hz, hpath.tail ⟨t, hb, hw⟩⟩
  · cases (binding?_of_le hv).symm.trans hb

theorem Registry.Reaches.mono {r r' : Registry} (hle : r.Extends r') {t : Ty} {v : Nat}
    (h : r.Reaches t v) : r'.Reaches t v := by
  obtain ⟨w, hw, hpath⟩ := h
  exact ⟨w, hw, hpath.lift id fun _ _ ⟨u, hu, hmem⟩ => ⟨u, hle.binding _ _ hu, hmem⟩⟩

/-- Where a scheme leads to a variable that inference came by, the environment led it
there. -/
theorem Registry.Roams.reaches {r₀ r : Registry} (h : r₀.Roams (r₀.InReach env) r)
    (hscoped : r₀.Scoped) (hσ : σ.body.Scoped r₀.varCount) {w : Nat} (hw : r₀.InReach env w)
    (hreach : r.Reaches σ.body w) : ∃ d ∈ env.values, r.Reaches d.2.body w := by
  obtain ⟨v, hv, hpath⟩ := hreach
  have hlt := hσ v hv
  clear hv
  -- the way leaves the variables out of reach at one that was reached from the start
  induction hpath using Relation.ReflTransGen.head_induction_on with
  | refl =>
    obtain ⟨d, hd, hd'⟩ := hw.resolve_right (Nat.not_le.mpr hlt)
    exact ⟨d, hd, Reaches.mono h.later hd'⟩
  | @head v v' hedge hpath ih =>
    by_cases hin : r₀.InReach env v
    · obtain ⟨d, hd, hd'⟩ := hin.resolve_right (Nat.not_le.mpr hlt)
      obtain ⟨z, hz, hz'⟩ := Reaches.mono h.later hd'
      exact ⟨d, hd, z, hz, (hz'.tail hedge).trans hpath⟩
    · obtain ⟨t, hb, ht⟩ := hedge
      exact ih (hscoped v t ((h.kept v hin).symm.trans hb) v' ht)

/-- A binding that an expression does not need fixes no variable of its type that the
environment does not fix. -/
theorem Env.Lacks.generalizeIn_eq (h : env.Lacks S x σ) (hle : S ≤ S') {s : State}
    (hs : S'.SealedAt s)
    (hroams : S.registry.Roams (S.registry.InReach env) s.registry) {t : Ty} (ht : S'.Fits .type t)
    (hover : t.Over (S.registry.InReach env)) :
    (generalizeIn (env.addValue x σ) t : Check Located Scheme).run s =
      (generalizeIn env t).run s := by
  obtain ⟨hs, hsealed⟩ := hs
  have hs : s.registry = S'.registry := hs
  rw [generalizeIn, generalizeIn, run_bind_ok (run_registry s), run_bind_ok (run_registry s)]
  refine generalizeOver_congr (hs ▸ S'.acyclic) fun w hw => ?_
  rw [Env.mem_freeVars, Env.mem_freeVars]
  constructor
  · rintro ⟨d, hd, hmem⟩
    rcases mem_insert hd with rfl | hd
    · have hreach : s.registry.Reaches σ.body w := by
        have hclosed : s.registry.Closed (s.registry.Reaches σ.body) := by
          rintro v t ⟨z, hz, hpath⟩ hb
          exact (hsealed v t trivial hb).of_mentions fun v' hv' => ⟨z, hz, hpath.tail ⟨t, hb, hv'⟩⟩
        exact (hclosed.resolveDeep (h.isSealed.of_mentions fun v hv => ⟨v, hv, .refl⟩)).mentions
          hmem
      obtain ⟨d, hd, hd'⟩ := hroams.reaches S.scoped h.issued
        ((hroams.closed.resolveDeep hover).mentions hw) hreach
      rw [hs] at hw hd' ⊢
      exact ⟨d, hd, ((h.fits.mono hle).values d hd).body.mem_resolveDeep
        (Stage.open_of_mem_resolveDeep ht hw) hd'⟩
    · exact ⟨d, hd, hmem⟩
  · rintro ⟨d, hd, hmem⟩
    have hlookup := h.sorted.lookup_of_mem hd
    have hne : d.1 ≠ x := fun heq => by
      rw [heq] at hlookup
      cases hlookup.symm.trans h.unbound
    exact ⟨d, mem_of_lookup ((lookup_insert ..).trans ((if_neg hne).trans hlookup)), hmem⟩

theorem Stage.leads_boundType (henv : S.FitsEnv env) (span : Span) (y : String) (isRec : Bool)
    (ann : Option TypeExpr) (value : Expr) :
    Leads At S (boundType env span y isRec ann fun env => value.inferHead env)
      fun S' t => S'.Fits .type t := by
  have hwritten : ∀ e : TypeExpr, ∀ {S₁ t}, S ≤ S₁ → S₁.Fits .type t →
      Leads At S₁ (e.annotated env span >>= fun u => unifyAt span t u >>= fun _ => pure t)
        fun S' t => S'.Fits .type t := fun e S₁ t hle₁ ht =>
    (TypeExpr.leads_annotated (henv.mono hle₁).types span e).bind fun S₂ u hle₂ hu =>
      (leads_unifyAt span (ht.mono hle₂) hu.1).bind fun S₃ _ hle₃ _ =>
        leads_pure (ht.mono (hle₂.trans hle₃))
  unfold boundType
  cases isRec with
  | false =>
    refine (value.leads_inferHead henv).bind fun S₁ t hle₁ ht => ?_
    cases ann with
    | none => exact leads_pure ht.fits
    | some e => exact hwritten e hle₁ ht.fits
  | true =>
    refine (leads_freshVar .type).bind fun S₁ self hle₁ hself => ?_
    obtain ⟨v, rfl, hv, -⟩ := hself
    have hself : S₁.Fits .type (.flex v) := fits_flex.mpr hv
    refine (value.leads_inferHead ((henv.mono hle₁).addValue y (fitsScheme_mono hself))).bind
      fun S₂ t hle₂ ht => (leads_unifyAt span ht.fits (hself.mono hle₂)).bind
      fun S₃ _ hle₃ _ => ?_
    cases ann with
    | none => exact leads_pure (ht.fits.mono hle₃)
    | some e => exact hwritten e (hle₁.trans (hle₂.trans hle₃)) (ht.fits.mono hle₃)

theorem Ignores.inferBinding {value : Expr} (h : Ignores G x σ value) (henv : env.Lacks S x σ)
    (span : Span) (y : String) (isRec : Bool) (ann : Option TypeExpr)
    (hx : isRec = true ∧ x = y ∨ value.Omits x) :
    Coincide S (inferBinding (env.addValue x σ) span y isRec ann fun env => value.inferHead env)
      (inferBinding env span y isRec ann fun env => value.inferHead env) := by
  have hbound : Coincide S
      (boundType (env.addValue x σ) span y isRec ann fun env => value.inferHead env)
      (boundType env span y isRec ann fun env => value.inferHead env) := by
    unfold boundType
    simp only [TypeExpr.annotated_addValue]
    cases isRec with
    | true =>
      refine .next (leads_sealed (Stage.leads_freshVar .type) Closed.anywhere.keeps_freshVar)
        fun S₁ self hle hself => ?_
      obtain ⟨⟨v, rfl, hv, -⟩, hover⟩ := hself
      exact (h.binder (henv.mono hle) y ⟨Stage.fitsScheme_mono (Stage.fits_flex.mpr hv), hover⟩
        (hx.imp_left fun hx => hx.2)).seq _
    | false => exact (h henv (hx.resolve_left (by simp))).seq _
  intro s hs
  rw [inferBinding_eq, inferBinding_eq]
  refine (hbound.seq _ s hs).trans ?_
  cases hrun : (boundType env span y isRec ann fun env => value.inferHead env).run s with
  | error e s₁ => rw [run_bind_error hrun, run_bind_error hrun]
  | ok t s₁ =>
    rw [run_bind_ok hrun, run_bind_ok hrun]
    obtain ⟨S₁, hle, hat, ht⟩ := leads_sealed
      (Stage.leads_boundType henv.fits span y isRec ann value)
      (Closed.anywhere.keeps_boundType henv.obeys span y isRec ann fun env m h =>
        Closed.anywhere.keeps_inferHead value m h) s hs
    have hreg : s.registry = S.registry := hs.1
    have hnew : ∀ v, S.registry.varCount ≤ v → S.registry.InReach env v := fun v hv => .inr hv
    have D := Roams.discipline hnew
    obtain ⟨hroams, -, hover⟩ := D.keeps_boundType henv.over_inReach span y isRec ann
      (fun env m h => D.keeps_inferHead value m h) s
      (hreg ▸ ⟨.refl _, Closed.inReach hs.2 env, fun _ _ => rfl⟩) (Nat.zero_le _)
    rw [after_ok hrun] at hat hroams
    exact henv.generalizeIn_eq hle hat hroams (ht t s₁ hrun).1 (hover t s₁ hrun)

end

namespace Expr

variable {G : Prop} {S : Stage G} {x : String} {σ : Scheme}

mutual

theorem coincide_inferHead : ∀ e : Expr, Ignores G x σ e
  | .lit _ b, S, env, henv, hx => by
    rw [inferHead, inferHead]
    exact .same _
  | .var span y, S, env, henv, hx => by
    rw [inferHead, inferHead, Env.find_addValue hx]
    exact .same _
  | .path span owner y, S, env, henv, hx => by
    rw [inferHead, inferHead, inferPath_addValue hx]
    exact .same _
  | .lam span y ann body, S, env, henv, hx => by
    rw [inferHead, inferHead, paramType_addValue]
    refine .next (leads_sealed (Stage.leads_paramType henv.fits span ann)
      (Closed.anywhere.keeps_paramType henv.obeys span ann)) fun S₁ t hle ht => .seq ?_ _
    exact (coincide_inferHead body).binder (henv.mono hle) y
      ⟨Stage.fitsScheme_mono ht.1.1, ht.2⟩ hx
  | .app span func arg, S, env, henv, ⟨hfunc, harg⟩ => by
    rw [inferHead, inferHead, Env.callee_addValue hfunc]
    refine .next (leads_sealed (Stage.leads_callee henv.fits func)
      (Closed.anywhere.keeps_callee henv.obeys func)) fun S₁ c hle _ => ?_
    have henv := henv.mono hle
    cases c with
    | some c => exact (coincide_inferHead arg henv harg).apply c span
    | none =>
      exact .bind (coincide_inferHead func henv hfunc) (henv.leads_inferHead func)
        fun S₂ tf hle _ =>
        .seq (coincide_inferHead arg (henv.mono hle) harg) _
  | .letIn span y isRec ann value body, S, env, henv, ⟨hvalue, hbody⟩ => by
    rw [inferHead, inferHead]
    refine .bind ((coincide_inferHead value).inferBinding henv span y isRec ann hvalue)
      (leads_sealed (Stage.leads_inferBinding henv.fits span y isRec ann fun h =>
        value.leads_inferHead h) (Closed.anywhere.keeps_inferBinding henv.obeys span y isRec ann
        fun env m h => Closed.anywhere.keeps_inferHead value m h)) fun S₁ τ hle hτ => ?_
    exact (coincide_inferHead body).binder (henv.mono hle) y ⟨hτ.1.fits, hτ.2⟩ hbody
  | .ifThenElse span cond thenE elseE, S, env, henv, ⟨hcond, hthen, helse⟩ => by
    rw [inferHead, inferHead]
    refine .bind (coincide_inferHead cond henv hcond) (henv.leads_inferHead cond)
      fun S₁ tc hle₁ htc => .next (leads_sealed (Stage.leads_unifyAt _ htc.1 (.base .bool))
        (Closed.anywhere.keeps_unifyAt _ htc.2 (Closed.anywhere.base .bool)))
      fun S₂ _ hle₂ _ => ?_
    have henv := henv.mono (hle₁.trans hle₂)
    exact .bind (coincide_inferHead thenE henv hthen) (henv.leads_inferHead thenE)
      fun S₃ tt hle₃ _ => .seq (coincide_inferHead elseE (henv.mono hle₃) helse) _
  | .tuple _ items, S, env, henv, hx => by
    rw [inferHead, inferHead]
    exact .seq (coincide_inferList items henv hx) _
  | .record span fields, S, env, henv, hx => by
    rw [inferHead, inferHead]
    exact .seq (coincide_inferFields fields span henv hx) _
  | .field span whole label, S, env, henv, hx => by
    rw [inferHead, inferHead]
    exact .seq (coincide_inferHead whole henv hx) _
  | .update span whole changes, S, env, henv, ⟨hwhole, hchanges⟩ => by
    rw [inferHead, inferHead]
    exact .bind (coincide_inferHead whole henv hwhole) (henv.leads_inferHead whole)
      fun S₁ tr hle _ => .seq (coincide_inferFields changes span (henv.mono hle) hchanges) _
  | .construct span c none, S, env, henv, hx => by
    rw [inferHead, inferHead, Env.constructor_addValue hx]
    exact .same _
  | .construct span c (some arg), S, env, henv, ⟨hc, harg⟩ => by
    rw [inferHead, inferHead, Env.constructor_addValue hc]
    exact .next (leads_sealed (Stage.leads_constructor henv.fits span c)
      (Closed.anywhere.keeps_constructor henv.obeys span c)) fun S₁ c hle _ =>
      (coincide_inferHead arg (henv.mono hle) harg).apply c span
  | .cases span scrutinee arms, S, env, henv, ⟨hscrutinee, harms⟩ => by
    rw [inferHead, inferHead]
    refine .bind (coincide_inferHead scrutinee henv hscrutinee) (henv.leads_inferHead scrutinee)
      fun S₁ t hle₁ ht => .next (leads_sealed (Stage.leads_freshVar .type)
        Closed.anywhere.keeps_freshVar) fun S₂ result hle₂ hresult => ?_
    obtain ⟨⟨v, rfl, hv, -⟩, hover⟩ := hresult
    exact .seq (coincide_inferArms arms span (henv.mono (hle₁.trans hle₂))
      ⟨ht.1.mono hle₂, ht.2⟩ ⟨Stage.fits_flex.mpr hv, hover⟩ harms) _
  | .annotate span inner ann, S, env, henv, hx => by
    rw [inferHead, inferHead, TypeExpr.annotated_addValue]
    exact .seq (coincide_inferHead inner henv hx) _

theorem coincide_inferList : ∀ (es : List Expr) {S : Stage G} {env : Env}, env.Lacks S x σ →
    OmitsList x es → Coincide S (inferList (env.addValue x σ) es) (inferList env es)
  | [], S, env, henv, hx => by
    rw [inferList, inferList]
    exact .same _
  | e :: es, S, env, henv, ⟨he, hes⟩ => by
    rw [inferList, inferList]
    exact .bind (coincide_inferHead e henv he) (henv.leads_inferHead e)
      fun S₁ t hle _ => .seq (coincide_inferList es (henv.mono hle) hes) _

theorem coincide_inferFields : ∀ (es : List (String × Expr)) (span : Span) {fields : Table Ty}
    {S : Stage G} {env : Env}, env.Lacks S x σ → OmitsFields x es →
    Coincide S (inferFields (env.addValue x σ) span es fields) (inferFields env span es fields)
  | [], span, fields, S, env, henv, hx => by
    rw [inferFields, inferFields]
    exact .same _
  | (l, e) :: es, span, fields, S, env, henv, ⟨he, hes⟩ => by
    rw [inferFields, inferFields]
    refine .bind (coincide_inferHead e henv he) (henv.leads_inferHead e) fun S₁ t hle _ => ?_
    split
    · exact .same _
    · exact coincide_inferFields es span (henv.mono hle) hes

theorem coincide_inferArms : ∀ (arms : List (Pattern × Expr)) (span : Span) {t result : Ty}
    {S : Stage G} {env : Env}, env.Lacks S x σ → (S.Fits .type t ∧ t.Over fun _ => True) →
    (S.Fits .type result ∧ result.Over fun _ => True) → OmitsArms x arms →
    Coincide S (inferArms (env.addValue x σ) span t result arms) (inferArms env span t result arms)
  | [], span, t, result, S, env, henv, ht, hresult, hx => by
    rw [inferArms, inferArms]
    exact .same _
  | (p, body) :: arms, span, t, result, S, env, henv, ht, hresult, ⟨hp, hbody, harms⟩ => by
    rw [inferArms, inferArms, p.check_addValue span t hp]
    refine .next (leads_sealed (p.leads_check span henv.fits ht.1)
      (Closed.anywhere.keeps_check henv.obeys span p 0 ht.2)) fun S₁ bs hle₁ ⟨hbs, hover⟩ => ?_
    have hbs' : ∀ b ∈ bs, S₁.Fits .type b.2 ∧ b.2.Over fun _ => True :=
      fun b hb => ⟨hbs.fits b hb, hover b hb⟩
    refine .bind ((coincide_inferHead body).binders bs (henv.mono hle₁) hbs' (hbs.names ▸ hbody))
      (leads_sealed ((body.leads_inferHead ((henv.mono hle₁).fits.addMonos hbs.fits)).imp
        fun _ _ _ h => h.fits) (Closed.anywhere.keeps_inferHead body 0 (henv.obeys.addMonos hover)))
      fun S₂ u hle₂ hu => .next (leads_sealed
        (Stage.leads_unifyAt _ hu.1 (hresult.1.mono (hle₁.trans hle₂)))
        (Closed.anywhere.keeps_unifyAt _ hu.2 hresult.2)) fun S₃ _ hle₃ _ => ?_
    have hle := hle₁.trans (hle₂.trans hle₃)
    exact coincide_inferArms arms span (henv.mono hle) ⟨ht.1.mono hle, ht.2⟩
      ⟨hresult.1.mono hle, hresult.2⟩ harms

end

end Expr

/-! ## Bindings that are not needed -/

/-- Two records that share what comes behind their fields. -/
def records : Env :=
  (Env.empty.addValue "x" (.mono (.record [("l", .bool)] (.flex 0)))).addValue "y"
    (.mono (.record [("l", .int)] (.flex 0)))

end RowTyping
