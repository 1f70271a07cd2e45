import RowTyping.Proofs.ConstructorApplication

/-!
# The arity of constructor patterns

A constructor pattern has its components counted before its types meet. The count of
a pattern that is no tuple with fewer than two components only makes an error out of
what would fail anyway, and tells a constructor without argument from one that takes
an argument. A smaller tuple is counted as it is written, although as a type it is
`unit` or its only component: the pattern `C ()` passes for `C` without argument.
-/

namespace RowTyping

open Check Registry Table Ty Env Function List

variable {env : Env} {s s' : State} {t : Ty} {n : Nat}

/-! ## Counts of a later registry -/

namespace Registry

/-- The type may have `n` components. -/
def Counts (r : Registry) (n : Nat) (t : Ty) : Prop :=
  r.arity (some t) = .any ∨ r.arity (some t) = .count n

/-- A head that is known stays as it is. -/
theorem arity_later {r r' : Registry} (hext : r.Extends r') (hr : r.bare.Acyclic)
    (hr' : r'.bare.Acyclic) (t : Ty) :
    r.arity (some t) = .any ∨ r'.arity (some t) = r.arity (some t) := by
  have hdepth := within_bare hr t
  generalize t.height + r.varCount * r.maxHeight = k at hdepth
  induction k using Nat.strong_induction_on generalizing t with
  | _ k ih =>
    by_cases hopen : ∃ v, r.resolve t = .flex v
    · obtain ⟨v, hv⟩ := hopen
      exact .inl (arity_flex hv)
    have hkept : r'.resolve t = r.resolve t := hext.resolve fun v hv => absurd ⟨v, hv⟩ hopen
    by_cases hsyn : ∃ id labels params target, r.resolve t = .synonym id labels params target
    · obtain ⟨id, labels, params, target, heq⟩ := hsyn
      have hmem : target.bare ∈ (r.bare.resolve t.bare).children := by
        rw [resolve_bare, heq]
        simp [children]
      obtain ⟨k, rfl, hk⟩ := hdepth.child hmem
      rw [arity_congr (head_synonym hr heq), arity_congr (head_synonym hr' (hkept.trans heq))]
      exact ih k (Nat.lt_succ_self k) target hk
    · have hne : ∀ id labels params target, r.resolve t ≠ .synonym id labels params target :=
        fun id labels params target heq => hsyn ⟨id, labels, params, target, heq⟩
      refine .inr ?_
      rw [arity, arity, head, head, headN_of_not_synonym hne,
        headN_of_not_synonym (hkept ▸ hne), hkept]

theorem Counts.earlier {r r' : Registry} (h : r'.Counts n t) (hext : r.Extends r')
    (hr : r.bare.Acyclic) (hr' : r'.bare.Acyclic) : r.Counts n t := by
  rcases arity_later hext hr hr' t with hany | heq
  · exact .inl hany
  · rwa [Counts, ← heq]

end Registry

/-- Two disciplines at once, one of which asks nothing of types. -/
theorem Discipline.and {I J : State → Prop} {P : Finset String → Ty → Prop} {S : Ty → Prop}
    (D : Discipline I P S) (E : Discipline J (fun _ _ => True) fun _ => True) :
    Discipline (fun s => I s ∧ J s) P S where
  addVar h := ⟨⟨(D.addVar h.1).1, (E.addVar h.2).1⟩, (D.addVar h.1).2⟩
  setBinding h hopen hocc hlt hv ht :=
    ⟨D.setBinding h.1 hopen hocc hlt hv ht, E.setBinding h.2 hopen hocc hlt trivial trivial⟩
  push h he := ⟨D.push h.1 he, E.push h.2 he⟩
  resolve h := D.resolve h.1
  row h := D.row h.1
  ends h := D.ends h.1
  con := D.con
  args := D.args
  target := D.target
  record := D.record
  naming := D.naming
  addGen h := ⟨D.addGen h.1, E.addGen h.2⟩
  addType h := ⟨D.addType h.1, E.addType h.2⟩
  resolveDeep h := D.resolveDeep h.1
  subst := D.subst
  ofNamed := D.ofNamed
  members := D.members

/-! ## Patterns with a count of their own -/

/-- The bindings have no cycle besides those that lead through arguments of synonyms,
and tuples have at least two components. -/
abbrev Tupled (s : State) : Prop := s.registry.bare.Acyclic ∧ s.registry.AllBindings Ty.WellTupled

/-- What is asked of the environment that patterns are checked in: tuples have at least
two components, and constructors belong to variants. -/
structure Env.Matchable (env : Env) : Prop where
  obeys : env.Obeys (fun _ t => t.WellTupled) Ty.WellTupled
  owners : ∀ e ∈ env.values, ∀ c, e.2.body.ctor? = some c → ∃ id ps, c.owner = .variant id ps

/-- The state after an operation that builds no small tuples, and what it yields. -/
theorem Tupled.of_run {ε α : Type} {x : Check ε α} {Q : Nat → α → Prop} {a : α} (hs : Tupled s)
    (hx : ∀ r₀ : Registry, Keeps (watching fun s => Tupled s ∧ r₀.Extends s.registry) 0 x Q)
    (hrun : x.run s = .ok a s') : Tupled s' ∧ s.registry.Extends s'.registry ∧
      Q s'.registry.nextGen a := by
  obtain ⟨hholds, -, hyields⟩ := hx s.registry s ⟨hs, .refl _⟩ (Nat.zero_le _)
  rw [after_ok hrun] at hholds
  exact ⟨hholds.1, hholds.2, hyields a s' hrun⟩

/-- The discipline of such operations. -/
theorem tupled_discipline (r₀ : Registry) :
    Discipline (fun s => Tupled s ∧ r₀.Extends s.registry) (fun _ t => t.WellTupled) WellTupled :=
  wellTupled_discipline.and (Extends.discipline r₀)

/-- A type that was made equal to one with `n` components may have as many before. -/
theorem Tupled.counts_of_unify {a : Ty} {s₁ : State} (hs : Tupled s) (hs₁ : Tupled s₁)
    (hext : s.registry.Extends s₁.registry) {span : Span} (ha : a.WellTupled) (ht : t.WellTupled)
    (hcount : s₁.registry.arity (some a) = .count n)
    (hrun : (unifyAt span a t).run s₁ = .ok () s') : s.registry.Counts n t := by
  have hunify := run_located_ok.mp hrun
  rw [unify, run_bind_ok (run_registry s₁)] at hunify
  have hagree := agrees_of_unifyN hs₁.1 hs₁.2 ha ht hunify
  suffices hlater : s₁.registry.Counts n t from hlater.earlier hext hs.1 hs₁.1
  rw [hcount] at hagree
  cases harity : s₁.registry.arity (some t) with
  | any => exact .inl harity
  | count m =>
    rw [harity] at hagree
    simp only [Arity.agrees, beq_iff_eq] at hagree
    exact .inr (hagree ▸ harity)

/-- The owner of a constructor at a use is a variant. -/
theorem Env.Matchable.owner (henv : env.Matchable) {span : Span} {name : String} {c : Ctor}
    (hrun : (env.constructor span name).run s = .ok c s') : ∃ id ps, c.owner = .variant id ps := by
  obtain ⟨σ, s₁, hfind, hrun⟩ := run_bind_inv hrun
  have hname : env.value? name = some σ := by
    unfold find value at hfind
    cases hname : env.value? name with
    | none =>
      rw [hname] at hfind
      cases hfind
    | some σ' =>
      rw [hname] at hfind
      cases hfind
      rfl
  obtain ⟨t, s₂, hinst, hrun⟩ := run_bind_inv hrun
  obtain ⟨f, s₃, hinst', -, hopened⟩ := opened_instantiate σ s₁
  rw [hinst] at hinst'
  cases hinst'
  split at hrun
  · next c' hc =>
    cases hrun
    obtain ⟨d, hd, rfl⟩ := ctor?_of_subst hopened.var hc
    obtain ⟨id, ps, howner⟩ := henv.owners _ (mem_of_lookup hname) d hd
    refine ⟨id, ps.map fun p => (p.1, p.2.subst f), ?_⟩
    simp [howner, variant, subst, substList_eq, comp_def]
  · cases hrun

/-- The constructor with this name is one with the argument, or without, as of `s₁`, and
its owner is made equal to the expected type. No components are counted. -/
def Env.Fits (env : Env) (span : Span) (name : String) (expected : Ty) (s : State)
    (arg : Option Ty) (s₁ s' : State) : Prop :=
  ∃ c, (env.constructor span name).run s = .ok c s₁ ∧ c.arg = arg ∧
    (unifyAt span c.owner expected).run s₁ = .ok () s'

section Destruct

variable {span : Span} {name : String} {expected : Ty} {found : Arity} {arg : Option Ty}

theorem run_destruct_iff : (env.destruct span name found expected).run s = .ok arg s' ↔
    ∃ s₁, env.Fits span name expected s arg s₁ s' ∧
      (s₁.registry.arity arg).agrees found = true := by
  constructor
  · intro hrun
    obtain ⟨c, s₁, hctor, hrun⟩ := run_bind_inv hrun
    obtain ⟨_, s₂, hcheck, hrun⟩ := run_bind_inv hrun
    obtain ⟨_, s₃, hunify, hrun⟩ := run_bind_inv hrun
    cases hrun
    rw [run_checkArity] at hcheck
    split at hcheck
    · next hagrees =>
      cases hcheck
      exact ⟨s₁, ⟨c, hctor, rfl, hunify⟩, hagrees⟩
    · cases hcheck
  · rintro ⟨s₁, ⟨c, hctor, rfl, hunify⟩, hagrees⟩
    have hcheck := run_checkArity c span found s₁
    rw [if_pos hagrees] at hcheck
    rw [destruct, run_bind_ok hctor, run_bind_ok hcheck, run_bind_ok hunify]
    rfl

theorem Tupled.of_fits (hs : Tupled s) (henv : env.Matchable) {s₁ : State}
    (ht : expected.WellTupled) (hfits : env.Fits span name expected s arg s₁ s') :
    Tupled s₁ ∧ Tupled s' ∧ s₁.registry.Extends s'.registry ∧ ∀ t, arg = some t → t.WellTupled := by
  obtain ⟨c, hctor, rfl, hunify⟩ := hfits
  obtain ⟨hs₁, -, hc⟩ :=
    hs.of_run (fun r₀ => (tupled_discipline r₀).keeps_constructor henv.obeys span name) hctor
  obtain ⟨hs', hext, -⟩ :=
    hs₁.of_run (fun r₀ => (tupled_discipline r₀).keeps_unifyAt span hc.owner ht) hunify
  exact ⟨hs₁, hs', hext, hc.arg⟩

end Destruct

/-- A tuple that has fewer components than tuple types have. -/
def Pattern.IsSmallTuple : Pattern → Prop
  | .tuple items => items.length < 2
  | _ => False

/-- What a pattern was checked against may have as many components as it counts. -/
theorem Tupled.counts_of_check (hs : Tupled s) (henv : env.Matchable) (ht : t.WellTupled)
    {span : Span} {p : Pattern} (hp : ¬ p.IsSmallTuple)
    (hcount : Arity.ofPattern (some p) = .count n)
    {bs : Table Ty} (hrun : (p.check env span t).run s = .ok bs s') :
    s.registry.Counts n t := by
  have D := tupled_discipline
  cases p with
  | wild => cases hcount
  | var name => cases hcount
  | lit b =>
    cases hcount
    obtain ⟨_, s₁, hunify, -⟩ := run_bind_inv hrun
    exact hs.counts_of_unify hs (.refl _) (.con (by simp) (by simp)) ht
      (arity_one (by simp) (by simp) (by simp)) hunify
  | tuple items =>
    cases hcount
    obtain ⟨es, s₁, hfresh, hrun⟩ := run_bind_inv hrun
    obtain ⟨_, s₂, hunify, -⟩ := run_bind_inv hrun
    obtain ⟨hs₁, hext, hes⟩ := hs.of_run (fun r₀ => (D r₀).keeps_freshVars items) hfresh
    obtain ⟨es', s₁', hfresh', hkeys, -⟩ := run_freshVars items s
    rw [hfresh] at hfresh'
    cases hfresh'
    obtain ⟨a, b, rest, rfl⟩ : ∃ a b rest, es = a :: b :: rest := by
      subst hkeys
      match es, hp with
      | [], hp | [_], hp => exact absurd (by simp [Pattern.IsSmallTuple]) hp
      | a :: b :: rest, _ => exact ⟨a, b, rest, rfl⟩
    refine hs.counts_of_unify hs₁ hext ((D {}).tuple (forall_mem_map.mpr hes)) ht ?_ hunify
    rw [← hkeys]
    exact (arity_tuple (resolve_of_not_flex (by simp))).trans (by simp)
  | construct name arg =>
    obtain rfl : n = 1 := by cases hcount; rfl
    obtain ⟨found, harg⟩ : ∃ found s₁ a, (env.destruct span name found t).run s = .ok a s₁ := by
      cases arg <;> rw [Pattern.check] at hrun
      · obtain ⟨a, s₁, hrun, -⟩ := run_bind_inv hrun
        exact ⟨_, s₁, a, hrun⟩
      · obtain ⟨a, s₁, hrun, -⟩ := run_bind_inv hrun
        exact ⟨_, s₁, a, hrun⟩
    obtain ⟨s₁, a, hrun⟩ := harg
    obtain ⟨s₂, ⟨c, hctor, -, hunify⟩, -⟩ := run_destruct_iff.mp hrun
    obtain ⟨hs₂, hext, hc⟩ :=
      hs.of_run (fun r₀ => (D r₀).keeps_constructor henv.obeys span name) hctor
    obtain ⟨id, ps, howner⟩ := henv.owner hctor
    refine hs.counts_of_unify hs₂ hext hc.owner ht ?_ hunify
    rw [howner]
    exact arity_one (by simp [variant]) (by simp [variant]) (by simp [variant])
  | record fields isOpen =>
    cases hcount
    obtain ⟨⟨types, row⟩, s₁, hfresh, hrun⟩ := run_bind_inv hrun
    obtain ⟨hs₁, hext, hfields⟩ :=
      hs.of_run (fun r₀ => (D r₀).keeps_freshFields span _ (by simp)) hfresh
    have hone : ∀ {s₂ s₃ : State} {tail : Ty} {x : Unit}, Tupled s₂ →
        s₁.registry.Extends s₂.registry → tail.WellTupled →
        (unifyAt span (.record row tail) t).run s₂ = .ok x s₃ → s.registry.Counts 1 t := by
      intro s₂ s₃ tail x hs₂ hext₂ htail hunify
      exact hs.counts_of_unify hs₂ (hext.trans hext₂) (.record hfields.2 htail) ht
        (arity_one (by simp) (by simp) (by simp)) hunify
    cases isOpen with
    | true =>
      obtain ⟨tail, s₂, htail, hrun⟩ := run_bind_inv hrun
      obtain ⟨_, s₃, hunify, -⟩ := run_bind_inv hrun
      obtain ⟨hs₂, hext₂, htail⟩ := hs₁.of_run (fun r₀ => (D r₀).keeps_freshVar) htail
      exact hone hs₂ hext₂ htail hunify
    | false =>
      obtain ⟨tail, s₂, htail, hrun⟩ := run_bind_inv hrun
      cases htail
      obtain ⟨_, s₃, hunify, -⟩ := run_bind_inv hrun
      exact hone hs₁ (.refl _) (.con (by simp) (by simp)) hunify

/-! ## Constructor patterns -/

/-- Without argument, the count tells that the constructor takes none. -/
theorem Tupled.agrees_zero_iff {arg : Option Ty} (hs : Tupled s)
    (harg : ∀ t, arg = some t → t.WellTupled) :
    (s.registry.arity arg).agrees (.count 0) = true ↔ arg = none := by
  cases arg with
  | none => simp [arity, Arity.agrees]
  | some t =>
    have hne := arity_ne_zero hs.2 (harg t rfl)
    cases harity : s.registry.arity (some t) <;> simp_all [Arity.agrees]

/-- With a pattern that counts for one component, it tells that the argument is no tuple. -/
theorem Tupled.agrees_one_iff (hs : Tupled s) (ht : t.WellTupled) :
    (s.registry.arity (some t)).agrees (.count 1) = true ↔
      ∀ items, s.registry.head t ≠ .con .tuple items := by
  rw [arity]
  split
  · next items heq =>
    have htwo := two_le_of_head hs.2 ht heq
    simp only [Arity.agrees, beq_iff_eq]
    exact ⟨fun hone => absurd hone (by omega), fun hne => absurd heq (hne items)⟩
  · next heq => simp [heq, Arity.agrees]
  · next hne _ => exact iff_of_true rfl hne

/-- The count of a pattern that is checked later on agrees with that of its type, unless
the pattern is a small tuple. -/
theorem Tupled.agrees_of_check {s₁ : State} (hs : Tupled s) (hs₁ : Tupled s₁)
    (hext : s.registry.Extends s₁.registry) (henv : env.Matchable) (ht : t.WellTupled)
    {span : Span} {p : Pattern} (hp : ¬ p.IsSmallTuple) {bs : Table Ty}
    (hrun : (p.check env span t).run s₁ = .ok bs s') :
    (s.registry.arity (some t)).agrees (.ofPattern (some p)) = true := by
  have hzero : Arity.ofPattern (some p) ≠ .count 0 := by
    intro hcount
    rw [ofPattern_eq_zero hcount] at hp
    exact hp (by simp [Pattern.IsSmallTuple])
  cases hcount : Arity.ofPattern (some p) with
  | any =>
    rw [Arity.agrees_comm]
    exact Arity.any_agrees (arity_ne_zero hs.2 ht)
  | count n =>
    rcases (hs₁.counts_of_check henv ht hp hcount hrun).earlier hext hs.1 hs₁.1 with hany | heq
    · rw [hany]
      exact Arity.any_agrees (hcount ▸ hzero)
    · rw [heq]
      exact Arity.agrees_self _

section Construct

variable {span : Span} {name : String} {expected : Ty} {bs : Table Ty}

/-- A constructor pattern with an argument other than `()`. -/
theorem run_check_construct_some {p : Pattern} (hp : p ≠ .tuple []) :
    ((Pattern.construct name (some p)).check env span expected).run s = .ok bs s' ↔
      ∃ t s₁ s₂, env.Fits span name expected s (some t) s₁ s₂ ∧
        (s₁.registry.arity (some t)).agrees (.ofPattern (some p)) = true ∧
        (p.check env span t).run s₂ = .ok bs s' := by
  rw [Pattern.check]
  constructor
  · intro hrun
    obtain ⟨arg, s₂, hrun, hcheck⟩ := run_bind_inv hrun
    obtain ⟨s₁, hfits, hagrees⟩ := run_destruct_iff.mp hrun
    cases arg with
    | none =>
      have hzero := mt ofPattern_eq_zero hp
      cases hcount : Arity.ofPattern (some p) <;> simp_all [arity, Arity.agrees]
    | some t => exact ⟨t, s₁, s₂, hfits, hagrees, hcheck⟩
  · rintro ⟨t, s₁, s₂, hfits, hagrees, hcheck⟩
    rw [run_bind_ok (run_destruct_iff.mpr ⟨s₁, hfits, hagrees⟩)]
    exact hcheck

section

variable (hs : Tupled s) (henv : env.Matchable) (ht : expected.WellTupled)
include hs henv ht

theorem run_destruct_zero {f : Option Ty → Check Located (Table Ty)}
    (hf : f none = pure []) :
    (env.destruct span name (.count 0) expected >>= f).run s = .ok bs s' ↔
      bs = [] ∧ ∃ s₁, env.Fits span name expected s none s₁ s' := by
  constructor
  · intro hrun
    obtain ⟨arg, s₂, hrun, hpure⟩ := run_bind_inv hrun
    obtain ⟨s₁, hfits, hagrees⟩ := run_destruct_iff.mp hrun
    obtain ⟨hs₁, -, -, harg⟩ := hs.of_fits henv ht hfits
    obtain rfl := (hs₁.agrees_zero_iff harg).mp hagrees
    rw [hf] at hpure
    cases hpure
    exact ⟨rfl, s₁, hfits⟩
  · rintro ⟨rfl, s₁, hfits⟩
    rw [run_bind_ok (run_destruct_iff.mpr ⟨s₁, hfits, rfl⟩), hf]
    rfl

theorem run_check_construct_none :
    ((Pattern.construct name none).check env span expected).run s = .ok bs s' ↔
      bs = [] ∧ ∃ s₁, env.Fits span name expected s none s₁ s' := by
  exact run_destruct_zero hs henv ht rfl

/-- The pattern `C ()` is checked as `C` is. -/
theorem run_check_construct_unit :
    ((Pattern.construct name (some (.tuple []))).check env span expected).run s = .ok bs s' ↔
      ((Pattern.construct name none).check env span expected).run s = .ok bs s' := by
  rw [run_check_construct_none hs henv ht]
  exact run_destruct_zero hs henv ht rfl

end

/-- A constructor pattern without argument is accepted just if the constructor takes
none and its owner fits. One with an argument is accepted just if the constructor takes
one, its owner fits and the argument's pattern is accepted, except that the pattern
`C ()` is taken for `C`, and that the pattern `C (q,)`, whose argument is `q`, is for
constructors whose argument is not known to be a tuple. -/
theorem check_construct_iff (hs : Tupled s) (henv : env.Matchable) (ht : expected.WellTupled)
    (span : Span) (name : String) (bs : List (String × Ty)) (s' : State) :
    let accepts (arg : Option Pattern) : Prop :=
      ((Pattern.construct name arg).check env span expected).run s = .ok bs s'
    (accepts none ↔ bs = [] ∧ ∃ s₁, env.Fits span name expected s none s₁ s') ∧
    (∀ p : Pattern, ¬ p.IsSmallTuple → (accepts (some p) ↔ ∃ t s₁ s₂,
      env.Fits span name expected s (some t) s₁ s₂ ∧ (p.check env span t).run s₂ = .ok bs s')) ∧
    (accepts (some (.tuple [])) ↔ accepts none) ∧
    ∀ q : Pattern, accepts (some (.tuple [q])) ↔ ∃ t s₁ s₂,
      env.Fits span name expected s (some t) s₁ s₂ ∧
      (∀ items, s₁.registry.head t ≠ .con .tuple items) ∧
      ((Pattern.tuple [q]).check env span t).run s₂ = .ok bs s' := by
  intro accepts
  refine ⟨run_check_construct_none hs henv ht, fun p hp => ?_, run_check_construct_unit hs henv ht,
    fun q => ?_⟩
  · refine (run_check_construct_some ?_).trans ?_
    · rintro rfl
      exact hp (by simp [Pattern.IsSmallTuple])
    · constructor
      · rintro ⟨t, s₁, s₂, hfits, -, hcheck⟩
        exact ⟨t, s₁, s₂, hfits, hcheck⟩
      · rintro ⟨t, s₁, s₂, hfits, hcheck⟩
        obtain ⟨hs₁, hs₂, hext, harg⟩ := hs.of_fits henv ht hfits
        exact ⟨t, s₁, s₂, hfits, hs₁.agrees_of_check hs₂ hext henv (harg t rfl) hp hcheck, hcheck⟩
  · refine (run_check_construct_some (by simp)).trans (exists₃_congr fun t s₁ s₂ => ?_)
    refine and_congr_right fun hfits => and_congr_left fun _ => ?_
    obtain ⟨hs₁, -, -, harg⟩ := hs.of_fits henv ht hfits
    exact hs₁.agrees_one_iff (harg t rfl)

end Construct

/-- The field of a record that a constructor holds. -/
theorem wrapped_record_fits :
    let s : State := ⟨({} : Registry).addVar, #[]⟩
    let p : Pattern := .record [("x", .var "n")] true
    Tupled s ∧ wrapping.Matchable ∧ (Ty.flex 0).WellTupled ∧ ¬ p.IsSmallTuple ∧
      ∃ bs s' t s₁ s₂,
        ((Pattern.construct "Wrap" (some p)).check wrapping {} (.flex 0)).run s = .ok bs s' ∧
        wrapping.Fits {} "Wrap" (.flex 0) s (some t) s₁ s₂ ∧
        (p.check wrapping {} t).run s₂ = .ok bs s' := by
  intro s p
  have hs : Tupled s := ⟨wrapping_applicable.acyclic.bare, wrapping_applicable.wellTupled⟩
  have henv : wrapping.Matchable := ⟨wrapping_applicable.obeys, wrapping_applicable.owners⟩
  obtain ⟨bs, hbs⟩ := Option.isSome_iff_exists.mp
    (show (((Pattern.construct "Wrap" (some p)).check wrapping {} (.flex 0)).result? s).isSome by
      decide +kernel)
  have hrun := Check.run_of_result? hbs
  have hp : ¬ p.IsSmallTuple := id
  obtain ⟨t, s₁, s₂, hfits, hcheck⟩ :=
    ((check_construct_iff hs henv (.var _) {} "Wrap" bs _).2.1 p hp).mp hrun
  exact ⟨hs, henv, .var _, hp, bs, _, t, s₁, s₂, hrun, hfits, hcheck⟩

/-- A constructor without argument, and one whose argument is `unit`. -/
def boxed : Env :=
  (Env.empty.addValue "Empty" (.mono (.con (.ctor "Empty") [.variant 0 []]))).addValue "Full"
    (.mono (.con (.ctor "Full") [.variant 0 [], .unit]))

/-- The pattern `()` is good for the argument of `Full`, but `Full ()` is rejected. It is
`Empty ()` that is accepted. -/
theorem unit_argument_misjudged :
    let accepts (name : String) (arg : Option Pattern) : Prop :=
      ∃ bs s', ((Pattern.construct name arg).check boxed {} (.variant 0 [])).run {} = .ok bs s'
    (∃ s₁ s₂ s', boxed.Fits {} "Full" (.variant 0 []) {} (some .unit) s₁ s₂ ∧
      ((Pattern.tuple []).check boxed {} .unit).run s₂ = .ok [] s') ∧
    ¬ accepts "Full" (some (.tuple [])) ∧
    (∃ s₁ s₂, boxed.Fits {} "Empty" (.variant 0 []) {} none s₁ s₂) ∧
    accepts "Empty" (some (.tuple [])) := by
  refine ⟨⟨_, _, _, ⟨_, rfl, rfl, rfl⟩, rfl⟩, ?_, ⟨_, _, _, rfl, rfl, rfl⟩, ?_⟩
  · rintro ⟨bs, s', hrun⟩
    cases hrun
  · exact ⟨_, _, rfl⟩

end RowTyping
