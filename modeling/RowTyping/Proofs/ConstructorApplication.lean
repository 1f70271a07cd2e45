import RowTyping.Proofs.FreshInstances
import RowTyping.Proofs.InternalErrors
import RowTyping.Proofs.Patterns
import RowTyping.Proofs.Translation

/-!
# Constructors applied as functions

A constructor that is applied to an argument has its components counted before the
types meet. The count only makes an error out of what unification would have failed
for anyway: types that are made equal have heads with as many components, where
tuples have at least two. So the application could be inferred by the rule for
functions as well, from the type that the constructor has as a value.

That rule issues one variable more, for the result. The two runs of unification are
compared over a registry and a copy of it that leaves out one number.
-/

namespace RowTyping

open Registry Table Ty Env RowTyping.Expr Function List Option

variable {a b t u : Ty} {s s' : State} {n : Nat} {c : Con} {args : List Ty} {env : Env}

open Check Vocabulary

/-! ## Tuples with at least two components -/

/-- The tuple types in the type have at least two components, also those in the
members of modules. -/
inductive Ty.WellTupled : Ty → Prop where
  | var (x : TyVar) : Ty.WellTupled (.var x)
  | con {c : Con} {args : List Ty} (htuple : c = .tuple → 2 ≤ args.length)
      (hargs : ∀ t ∈ args, Ty.WellTupled t) : Ty.WellTupled (.con c args)
  | record {fs : List (String × Ty)} {tail : Ty} (hfs : ∀ e ∈ fs, Ty.WellTupled e.2)
      (htail : Ty.WellTupled tail) : Ty.WellTupled (.record fs tail)
  | synonym {id : Nat} {labels : List String} {params : List Ty} {target : Ty}
      (hparams : ∀ t ∈ params, Ty.WellTupled t) (htarget : Ty.WellTupled target) :
      Ty.WellTupled (.synonym id labels params target)
  | module {name : String} {members : Env} (hvalues : ∀ e ∈ members.values, Ty.WellTupled e.2.body)
      (htypes : ∀ e ∈ members.types, Ty.WellTupled e.2.body) : Ty.WellTupled (.module name members)

namespace Ty.WellTupled

theorem rebuilds : Rebuilds WellTupled WellTupled where
  child h hu := by
    cases h with
    | var | module => simp [children] at hu
    | con _ hargs => exact hargs _ hu
    | record hfs htail =>
      rcases mem_children_record.mp hu with ⟨e, he, rfl⟩ | rfl
      · exact hfs e he
      · exact htail
    | synonym hparams htarget =>
      rcases mem_append.mp hu with hu | hu
      · exact hparams _ hu
      · exact mem_singleton.mp hu ▸ htarget
  con h hlen hus := by
    cases h with
    | con htuple _ => exact .con (by simpa [hlen] using htuple) hus
  record := .record
  synonym _ := .synonym
  module h := h

theorem of_image {f : TyVar → Ty} {x : TyVar} (h : f x = .var x ∨ (f x).WellTupled) :
    (f x).WellTupled :=
  h.elim (fun heq => heq ▸ .var x) id

theorem naming : Naming WellTupled where
  gen _ := .var _
  con := .con
  record := .record
  module := .module
  subst h hf := rebuilds.subst h fun x _ _ => of_image (hf x)

section

variable {r : Registry} (hr : r.AllBindings Ty.WellTupled) {t : Ty}
include hr

theorem resolve (h : t.WellTupled) : (r.resolve t).WellTupled := hr.passes.follow h _

theorem row (h : t.WellTupled) :
    (∀ e ∈ (r.row t).fields, e.2.WellTupled) ∧ (r.row t).tail.WellTupled :=
  hr.passes.row rebuilds h

theorem resolveDeepN (n : Nat) (h : t.WellTupled) : (r.resolveDeepN n t).WellTupled :=
  hr.passes.resolveDeepN rebuilds (.con (by simp) (by simp)) h n

end

end Ty.WellTupled

/-- Inference builds no smaller tuples, and no cycle besides those that lead through
arguments of synonyms. -/
theorem wellTupled_discipline :
    Discipline (inRegistry fun r => r.bare.Acyclic ∧ r.AllBindings WellTupled)
      (fun _ t => t.WellTupled) WellTupled where
  addVar h := by
    refine ⟨⟨?_, fun v t hv => h.2 v t (by simpa using hv)⟩, .var _⟩
    rw [bare_addVar]
    exact h.1.addVar
  push h _ := h
  setBinding h hopen hocc _ _ ht :=
    ⟨acyclic_bare_setBinding h.1 hopen hocc, h.2.setBinding ht⟩
  resolve h ht := ht.resolve h.2
  row h ht := ht.row h.2
  ends h ht _ := ht.resolve h.2
  con := .con
  args h := by
    cases h with
    | con _ hargs => exact hargs
  target h := by
    cases h with
    | synonym _ htarget => exact htarget
  record := .record
  naming := WellTupled.naming
  addGen h := h
  addType h := h
  resolveDeep h ht := ht.resolveDeepN h.2 _
  subst h hf := WellTupled.rebuilds.subst h fun x _ _ => .of_image (hf x)
  ofNamed h := h
  members h := by
    cases h with
    | module hvalues _ => exact hvalues

/-! ## The components of types that are made equal -/

namespace Registry

variable {r : Registry} {t u : Ty}

/-- Fuel above the bare depth makes no difference to the head. -/
theorem headN_stable {n m : Nat} (hn : r.bare.Within n t.bare) (hm : r.bare.Within m t.bare) :
    r.headN n t = r.headN m t := by
  induction n generalizing m t with
  | zero =>
    have hne : ∀ id labels params target, r.resolve t ≠ .synonym id labels params target := by
      intro id labels params target heq
      have hnil : (r.bare.resolve t.bare).children = [] := hn
      rw [resolve_bare, heq] at hnil
      simp [children] at hnil
    rw [headN_of_not_synonym hne, headN_of_not_synonym hne]
  | succ n ih =>
    by_cases hsyn : ∃ id labels params target, r.resolve t = .synonym id labels params target
    · obtain ⟨id, labels, params, target, heq⟩ := hsyn
      have hmem : target.bare ∈ (r.bare.resolve t.bare).children := by
        rw [resolve_bare, heq]
        simp [children]
      obtain ⟨k, rfl, hk⟩ := hm.child hmem
      rw [headN, headN, heq]
      exact ih (hn _ hmem) hk
    · have hne : ∀ id labels params target, r.resolve t ≠ .synonym id labels params target :=
        fun id labels params target heq => hsyn ⟨id, labels, params, target, heq⟩
      rw [headN_of_not_synonym hne, headN_of_not_synonym hne]

section

variable (hr : r.bare.Acyclic)
include hr

theorem head_synonym {id : Nat} {labels : List String} {params : List Ty} {target : Ty}
    (h : r.resolve t = .synonym id labels params target) : r.head t = r.head target := by
  have hmem : target.bare ∈ (r.bare.resolve t.bare).children := by
    rw [resolve_bare, h]
    simp [children]
  obtain ⟨k, hk, htarget⟩ := (within_bare hr t).child hmem
  rw [head, fuel, headN, h]
  refine headN_stable (htarget.mono ?_) ((within_bare hr target).mono (Nat.le_succ _))
  omega

theorem head_resolve (t : Ty) : r.head (r.resolve t) = r.head t := by
  have hres := resolve_resolve_of_bare hr t
  by_cases hsyn : ∃ id labels params target, r.resolve t = .synonym id labels params target
  · obtain ⟨id, labels, params, target, heq⟩ := hsyn
    rw [head_synonym hr (hres.trans heq), head_synonym hr heq]
  · have hne : ∀ id labels params target, r.resolve t ≠ .synonym id labels params target :=
      fun id labels params target heq => hsyn ⟨id, labels, params, target, heq⟩
    rw [head, head, headN_of_not_synonym (by rwa [hres]), headN_of_not_synonym hne, hres]

end

theorem arity_congr (h : r.head t = r.head u) : r.arity (some t) = r.arity (some u) := by
  rw [arity, arity, h]

theorem arity_flex {v : Nat} (h : r.resolve t = .flex v) : r.arity (some t) = .any := by
  rw [arity, head, headN_of_not_synonym (by simp [h]), h]

theorem arity_tuple {items : List Ty} (h : r.resolve t = .con .tuple items) :
    r.arity (some t) = .count items.length := by
  rw [arity, head, headN_of_not_synonym (by simp [h]), h]

/-- A type that is neither a tuple nor open counts for one component. -/
theorem arity_one (hsyn : ∀ id labels params target, r.resolve t ≠ .synonym id labels params target)
    (hopen : ∀ v, r.resolve t ≠ .flex v) (htuple : ∀ items, r.resolve t ≠ .con .tuple items) :
    r.arity (some t) = .count 1 := by
  rw [arity, head, headN_of_not_synonym hsyn]
  split
  · next heq => exact absurd heq (htuple _)
  · next heq => exact absurd heq (hopen _)
  · rfl

theorem headN_wellTupled (hr : r.AllBindings WellTupled) (n : Nat) (h : t.WellTupled) :
    (r.headN n t).WellTupled := by
  induction n generalizing t with
  | zero => exact h.resolve hr
  | succ n ih =>
    have hres := h.resolve hr
    rw [headN]
    split
    · next heq =>
      rw [heq] at hres
      cases hres with
      | synonym _ htarget => exact ih htarget
    · exact hres

theorem two_le_of_head (hr : r.AllBindings WellTupled) (h : t.WellTupled) {items : List Ty}
    (hhead : r.head t = .con .tuple items) : 2 ≤ items.length := by
  have hfound := headN_wellTupled hr (r.fuel t) h
  rw [head] at hhead
  rw [hhead] at hfound
  cases hfound with
  | con htuple _ => exact htuple rfl

theorem arity_ne_zero (hr : r.AllBindings WellTupled) (h : t.WellTupled) :
    r.arity (some t) ≠ .count 0 := by
  rw [arity]
  split
  · next heq =>
    have htwo := two_le_of_head hr h heq
    simp only [ne_eq, Arity.count.injEq]
    omega
  · simp
  · simp

end Registry

theorem Arity.agrees_comm (a b : Arity) : a.agrees b = b.agrees a := by
  cases a <;> cases b <;> simp [agrees, Bool.beq_comm]

theorem Arity.agrees_self (a : Arity) : a.agrees a = true := by
  cases a <;> simp [agrees]

theorem Arity.any_agrees {a : Arity} (h : a ≠ .count 0) : Arity.any.agrees a = true := by
  cases a <;> simp_all [agrees]

/-- Types that unification makes equal had as many components before, or one of them
had not been known. -/
theorem agrees_of_unifyN {fuel : Nat} {x : Unit} (hr : s.registry.bare.Acyclic)
    (hb : s.registry.AllBindings WellTupled) (ha : a.WellTupled) (hb' : b.WellTupled)
    (hrun : (unifyN fuel a b).run s = .ok x s') :
    (s.registry.arity (some a)).agrees (s.registry.arity (some b)) = true := by
  induction fuel generalizing a b s with
  | zero => cases hrun
  | succ fuel ih =>
    rw [unifyN, run_bind_ok (run_registry s), run_bind_ok (run_emit _ s)] at hrun
    have hmeets := (s.registry.resolve a).meets (s.registry.resolve b)
    generalize hm : (s.registry.resolve a).meet (s.registry.resolve b) = m at hrun hmeets
    cases m with
    | same =>
      rcases hmeets.same_inv with ⟨y, hay, hby⟩ | ⟨name, e, f, hae, hbf⟩
      · rw [arity_congr, Arity.agrees_self]
        rw [← head_resolve hr a, ← head_resolve hr b, hay, hby]
      · rw [arity_one, arity_one, Arity.agrees_self] <;> simp [hae, hbf]
    | solve v t =>
      rcases hmeets.solve_inv.1 with ⟨hav, -⟩ | ⟨hbv, -⟩
      · rw [arity_flex hav]
        exact Arity.any_agrees (arity_ne_zero hb hb')
      · rw [arity_flex hbv, Arity.agrees_comm]
        exact Arity.any_agrees (arity_ne_zero hb ha)
    | expand t u =>
      have hares := ha.resolve hb
      have hbres := hb'.resolve hb
      obtain ⟨id, labels, params, ⟨hat, rfl⟩ | ⟨hbt, rfl⟩⟩ := hmeets.expand_inv
      · rw [hat] at hares
        cases hares with
        | synonym _ htarget =>
          have hagree := ih (s := ⟨s.registry, s.log.push _⟩) hr hb htarget hbres hrun
          rwa [arity_congr (head_resolve hr b), ← arity_congr (head_synonym hr hat)] at hagree
      · rw [hbt] at hbres
        cases hbres with
        | synonym _ htarget =>
          have hagree := ih (s := ⟨s.registry, s.log.push _⟩) hr hb htarget hares hrun
          rwa [arity_congr (head_resolve hr a),
            ← arity_congr (head_synonym hr hbt), Arity.agrees_comm] at hagree
    | children pairs ragged =>
      obtain ⟨c, d, ts, us, hac, hbd, -, hagree, -⟩ := hmeets.children_inv
      by_cases hc : c = .tuple
      · subst hc
        obtain rfl : d = .tuple := by cases d <;> simp_all [Con.agrees]
        rw [hac, hbd] at hm
        rw [arity_tuple hac, arity_tuple hbd]
        by_cases hlen : ts.length = us.length
        · simp [hlen, Arity.agrees]
        · simp [meet, Con.meet, Con.agrees, hlen] at hm
      · have hd : d ≠ .tuple := by
          rintro rfl
          cases c <;> simp_all [Con.agrees]
        rw [arity_one, arity_one, Arity.agrees_self] <;> simp [hac, hbd, hc, hd]
    | rows =>
      obtain ⟨harow, hbrow, -⟩ := hmeets.rows_inv
      have hone : ∀ {t : Ty}, (s.registry.resolve t).IsRowForm →
          s.registry.arity (some t) = .count 1 := by
        intro t ht
        rcases ht with ht | ⟨ts, ht⟩
        · obtain ⟨fs, tail, ht⟩ := eq_record_of_isRecord ht
          refine arity_one ?_ ?_ ?_ <;> simp [ht]
        · refine arity_one ?_ ?_ ?_ <;> simp [ht]
      rw [hone harow, hone hbrow, Arity.agrees_self]
    | clash => cases hrun

/-! ## A copy that leaves out a number -/

theorem Ty.height_le_subst (f : TyVar → Ty) (t : Ty) : t.height ≤ (t.subst f).height := by
  induction t with
  | var x => exact Nat.zero_le _
  | con c args ih =>
    rw [subst, substList_eq]
    refine Nat.succ_le_succ (heightList_le fun t ht => (ih t ht).trans ?_)
    exact height_le_heightList (mem_map_of_mem ht)
  | record fs tail ihf iht =>
    rw [subst, substFields_eq, height, height]
    have hfields : heightFields fs ≤ heightFields (fs.map fun e => (e.1, e.2.subst f)) :=
      heightFields_le fun e he =>
        (ihf e he).trans (height_le_heightFields (e := (e.1, e.2.subst f)) (mem_map_of_mem he))
    omega
  | synonym id labels params target ihp iht =>
    rw [subst, substList_eq, height, height]
    have hparams : heightList params ≤ heightList (params.map (subst f)) :=
      heightList_le fun t ht => (ihp t ht).trans (height_le_heightList (mem_map_of_mem ht))
    omega
  | module name members => exact Nat.zero_le _

namespace Translation

/-- Other numbers for the variables. -/
def ofVars (f : Nat → Nat) (hf : Function.Injective f) : Translation where
  ty := Ty.subst (Ty.fill fun v => .flex (f v))
  var := f
  gen := id
  con := id
  synonym := id
  params := List.map (Ty.subst (Ty.fill fun v => .flex (f v)))
  members := id
  var_injective := hf
  gen_injective := Function.injective_id
  ty_flex _ := rfl
  ty_gen _ := rfl
  ty_con c args := by rw [Ty.subst, Ty.substList_eq]; rfl
  ty_record fs tail := by rw [Ty.subst, Ty.substFields_eq]; rfl
  ty_synonym id labels params target := by rw [Ty.subst, Ty.substList_eq]; rfl
  ty_module _ _ := rfl
  agrees := bare.agrees
  con_emptyRow := bare.con_emptyRow
  con_ctor := bare.con_ctor
  height t := t.height_bare.trans (Ty.height_le_subst _ t)

variable {f : Nat → Nat} (hf : Function.Injective f)

theorem full_ofVars : (ofVars f hf).Full := ⟨fun _ => rfl, rfl, height_le_subst _⟩

theorem ofVars_eq_self {t : Ty} (h : ∀ v, t.Mentions v → f v = v) : (ofVars f hf).ty t = t := by
  conv_rhs => rw [← t.subst_var]
  refine subst_congr fun x hx => ?_
  cases x with
  | flex v => exact congrArg flex (h v hx)
  | gen g => rfl

theorem mentions_ofVars {t : Ty} {w : Nat} :
    ((ofVars f hf).ty t).Mentions w ↔ ∃ v, t.Mentions v ∧ f v = w := by
  show TyVar.flex w ∈ (t.subst _).occurrences ↔ _
  rw [occurrences_subst, mem_flatMap]
  constructor
  · rintro ⟨x, hx, hw⟩
    cases x with
    | flex v => exact ⟨v, hx, by simpa [fill, occurrences, eq_comm] using hw⟩
    | gen g => simp [fill, occurrences] at hw
  · rintro ⟨v, hv, rfl⟩
    exact ⟨.flex v, hv, by simp [fill, occurrences]⟩

end Translation

/-- The numbers without `n`, in order. -/
def skip (n v : Nat) : Nat := if v < n then v else v + 1

theorem skip_of_lt {v : Nat} (h : v < n) : skip n v = v := if_pos h

theorem skip_injective (n : Nat) : Injective (skip n) := by
  intro v w h
  unfold skip at h
  split at h <;> split at h <;> omega

theorem skip_ne (n v : Nat) : skip n v ≠ n := by
  unfold skip
  split <;> omega

theorem eq_or_eq_skip (n v : Nat) : v = n ∨ ∃ w, v = skip n w := by
  by_cases hlt : v < n
  · exact .inr ⟨v, (skip_of_lt hlt).symm⟩
  · by_cases heq : v = n
    · exact .inl heq
    · refine .inr ⟨v - 1, ?_⟩
      unfold skip
      split <;> omega

/-- Other numbers for the variables from the `n`th on. -/
abbrev Translation.skipping (n : Nat) : Translation := .ofVars (skip n) (skip_injective n)

theorem Translation.skipping_eq_self (h : t.Scoped n) : (skipping n).ty t = t :=
  ofVars_eq_self _ fun v hv => skip_of_lt (h v hv)

namespace Registry

open Translation

/-- A variable that nothing mentions can be left out. -/
theorem copies_addVar {r : Registry} (hr : r.Scoped) : Copies (skipping r.varCount) r r.addVar where
  varCount_le := by simp
  issued v := by
    show skip r.varCount v < r.addVar.varCount ↔ v < r.varCount
    rw [varCount_addVar]
    unfold skip
    split <;> omega
  next k := by
    show skip r.varCount (r.varCount + k) = r.addVar.varCount + k
    rw [varCount_addVar]
    unfold skip
    split <;> omega
  binding v := by
    show r.addVar.binding? (skip r.varCount v) = _
    rw [binding?_addVar]
    by_cases hv : v < r.varCount
    · rw [skip_of_lt hv]
      cases hb : r.binding? v with
      | none => rfl
      | some t => rw [map_some, skipping_eq_self (hr v t hb)]
    · have hskip : r.varCount ≤ skip r.varCount v := by
        unfold skip
        split <;> omega
      rw [binding?_of_le hskip, binding?_of_le (Nat.not_lt.mp hv)]
      rfl

namespace Copies

variable {T : Translation} {c r : Registry} (h : Copies T c r) {n : Nat} (hn : ∀ v, T.var v ≠ n)
include h hn

theorem occurs_outside (hc : c.bare.Acyclic) (t : Ty) : r.occurs n (T.ty t) = false := by
  have hocc : ∀ m t, r.occursN n m (T.ty t) = false := by
    intro m
    induction m with
    | zero => exact fun _ => rfl
    | succ m ih =>
      intro t
      rw [Registry.occursN, h.resolve hc]
      cases c.resolve t with
      | var x =>
        cases x with
        | flex v => simpa using (hn v).symm
        | gen g => simp
      | con d args => simp [ih]
      | record fs tail => simp [mapValues, ih]
      | synonym id labels params target => simp [ih]
      | module name members => simp
  exact hocc _ t

theorem setBinding_outside (t : Ty) : Copies T c (r.setBinding n t) where
  varCount_le := by simpa using h.varCount_le
  issued v := by simpa using h.issued v
  next k := by simpa using h.next k
  binding v := by
    rw [binding?_setBinding, if_neg fun heq => hn v heq.1.symm]
    exact h.binding v

end Copies

/-- A copy has no cycle either, if what is left out is bound to a type of the copy. -/
theorem Copies.acyclic_skipping {c r : Registry} {n : Nat} {t : Ty}
    (h : Copies (skipping n) c r) (hc : c.Acyclic) (hn : r.binding? n = some ((skipping n).ty t)) :
    r.Acyclic := by
  have hedge : ∀ {v w}, r.Edge v w → ∃ y, w = skip n y := by
    rintro v w ⟨u, hu, hw⟩
    obtain ⟨u', rfl⟩ : ∃ u', u = (skipping n).ty u' := by
      rcases eq_or_eq_skip n v with rfl | ⟨x, rfl⟩
      · exact ⟨t, some.inj (hu.symm.trans hn)⟩
      · obtain ⟨u', -, heq⟩ := map_eq_some_iff.mp ((h.binding x).symm.trans hu)
        exact ⟨u', heq.symm⟩
    obtain ⟨y, -, heq⟩ := (Translation.mentions_ofVars _).mp hw
    exact ⟨y, heq.symm⟩
  have hback : ∀ {x w}, Relation.TransGen r.Edge (skip n x) w →
      ∃ y, w = skip n y ∧ Relation.TransGen c.Edge x y := by
    have hstep : ∀ {x y}, r.Edge (skip n x) (skip n y) → c.Edge x y := by
      rintro x y ⟨u, hu, hw⟩
      obtain ⟨u', hu', rfl⟩ := map_eq_some_iff.mp ((h.binding x).symm.trans hu)
      obtain ⟨z, hz, heq⟩ := (Translation.mentions_ofVars _).mp hw
      exact ⟨u', hu', skip_injective n heq ▸ hz⟩
    intro x w hpath
    induction hpath with
    | single he =>
      obtain ⟨y, rfl⟩ := hedge he
      exact ⟨y, rfl, .single (hstep he)⟩
    | tail _ he ih =>
      obtain ⟨y, rfl, hxy⟩ := ih
      obtain ⟨z, rfl⟩ := hedge he
      exact ⟨z, rfl, hxy.tail (hstep he)⟩
  intro v hcycle
  obtain ⟨x, rfl⟩ : ∃ x, v = skip n x := by
    obtain ⟨_, _, he⟩ := Relation.TransGen.tail'_iff.mp hcycle
    exact hedge he
  obtain ⟨y, hy, hxy⟩ := hback hcycle
  exact hc x (skip_injective n hy ▸ hxy)

end Registry

/-! ## Function types whose result is new -/

open Registry Translation

/-- Everything but one variable. -/
def Vocabulary.without (n : Nat) : Vocabulary := ⟨fun i => i ≠ .var (.flex n), False⟩

theorem Vocabulary.below_le_without (n : Nat) : below n ≤ without n where
  has := by
    rintro i hi rfl
    exact Nat.lt_irrefl n hi
  enters := id

/-- A variable that neither the types nor the bindings mention is not bound. -/
theorem unifying_without (n : Nat) :
    Unifying (inRegistry fun r => n < r.varCount ∧ r.binding? n = none ∧ (without n).Covers r)
      fun _ t => (without n).Covers t where
  addVar h := by
    refine ⟨⟨?_, ?_, fun v t hv => h.2.2 v t (by simpa using hv)⟩, covers_var.mpr ?_⟩
    · rw [varCount_addVar]
      omega
    · simpa using h.2.1
    · rintro ⟨⟩
      exact Nat.lt_irrefl _ h.1
  push h _ := h
  setBinding h _ _ _ hv ht := by
    refine ⟨by simpa using h.1, ?_, fun w u hw => ?_⟩
    · rw [binding?_setBinding, if_neg]
      · exact h.2.1
      · rintro ⟨rfl, -⟩
        exact covers_var.mp hv rfl
    · rcases binding?_setBinding_inv hw with ⟨rfl, rfl⟩ | hw
      · exact ht
      · exact h.2.2 w u hw
  resolve h := covers_resolve h.2.2
  row h ht := by
    obtain ⟨hfields, htail⟩ := covers_row h.2.2 ht
    exact ⟨fun e he => (hfields e he).2, htail⟩
  ends h ht _ := covers_resolve h.2.2 ht
  con _ hargs := covers_con.mpr ⟨by unfold Con.Within; split <;> simp [without], hargs⟩
  args h := (covers_con.mp h).2
  target h := (covers_synonym.mp h).2.2
  record hfs htail := covers_record.mpr ⟨fun e he => ⟨trivial, hfs e he⟩, htail⟩

theorem run_unifyN_arrow (m : Nat) (a b x y : Ty) (s : State) :
    (unifyN (m + 1) (.arrow a b) (.arrow x y)).run s =
      (do unifyN m a x; unifyN m b y : Check TypeError Unit).run
        ⟨s.registry, s.log.push (.unify (.arrow a b) (.arrow x y))⟩ := by
  have hmeet : (arrow a b).meet (.arrow x y) = .children [(a, x), (b, y)] false := by
    simp [Ty.meet, Con.meet, Con.agrees]
  rw [unifyN, run_bind_ok (run_registry s)]
  simp only [arrow, resolve_con]
  rw [hmeet]
  simp

/-- A function type and another type former cannot meet. -/
theorem run_unifyN_arrow_con (m : Nat) (a b : Ty) (args : List Ty) (hc : c ≠ .arrow) (s : State) :
    ∃ e s', (unifyN m (.arrow a b) (.con c args)).run s = .error e s' := by
  cases m with
  | zero => exact ⟨_, _, rfl⟩
  | succ m =>
    have hmeet : (arrow a b).meet (.con c args) = .clash := by
      cases c with
      | arrow => exact absurd rfl hc
      | _ => rfl
    rw [unifyN, run_bind_ok (run_registry s)]
    simp only [arrow, resolve_con]
    rw [hmeet]
    exact ⟨_, _, rfl⟩

/-- An open variable takes a type former that does not lead to it. -/
theorem run_unifyN_flex (m : Nat) (hopen : s.registry.binding? n = none)
    (hlt : n < s.registry.varCount) (hocc : s.registry.occurs n (.con c args) = false) :
    ∃ log, (unifyN (m + 1) (.flex n) (.con c args)).run s =
      .ok () ⟨s.registry.setBinding n (.con c args), log⟩ := by
  rw [unifyN, run_bind_ok (run_registry s)]
  simp only [resolve_none hopen, resolve_con]
  rcases run_solve n (.con c args) ⟨s.registry, s.log.push (.unify (.flex n) (.con c args))⟩ with
    ⟨e, -, hnot⟩ | ⟨hrun, -⟩
  · exact absurd ⟨hopen, hocc, hlt⟩ hnot
  · exact ⟨_, hrun⟩

/-- The arguments of function types have fuel left. -/
theorem Registry.unifyFuel_arrow (r : Registry) (u x y : Ty) :
    ∃ m, r.addVar.unifyFuel (.arrow u (.flex r.varCount)) (.arrow x y) = m + 2 ∧
      r.bare.unifyFuel u.bare x.bare ≤ m + 1 := by
  have hmax : r.bare.maxHeight ≤ r.addVar.maxHeight :=
    (maxHeight_bare r).trans (Extends.addVar r).maxHeight_le
  have hu : u.bare.height ≤ (arrow u (.flex r.varCount)).height :=
    u.height_bare.trans (height_lt_of_mem_children (by simp [children])).le
  have hx : x.bare.height ≤ (arrow x y).height :=
    x.height_bare.trans (height_lt_of_mem_children (by simp [children])).le
  have hmore : r.bare.unifyFuel u.bare x.bare + 16 ≤
      r.addVar.unifyFuel (.arrow u (.flex r.varCount)) (.arrow x y) := by
    unfold unifyFuel
    rw [varCount_bare, varCount_addVar]
    generalize r.varCount + 1 = n at *
    -- with one variable more every factor is larger
    have hfactor : 16 * n * n ≤ 16 * (n + 1) * (n + 1) := Nat.mul_le_mul (by omega) (by omega)
    have hpos : 16 * 1 ≤ 16 * (n + 1) * (n + 1) := Nat.mul_le_mul (by omega) (by omega)
    calc 16 * n * n * (max r.bare.maxHeight (max u.bare.height x.bare.height) + n) + 16
        ≤ 16 * (n + 1) * (n + 1) * (max r.bare.maxHeight (max u.bare.height x.bare.height) + n) +
          16 * (n + 1) * (n + 1) := Nat.add_le_add (Nat.mul_le_mul_right _ hfactor) hpos
      _ = 16 * (n + 1) * (n + 1) *
          (max r.bare.maxHeight (max u.bare.height x.bare.height) + n + 1) :=
        (Nat.mul_succ _ _).symm
      _ ≤ _ := Nat.mul_le_mul le_rfl (by omega)
  exact ⟨r.addVar.unifyFuel (.arrow u (.flex r.varCount)) (.arrow x y) - 2, by omega, by omega⟩

/-- The argument and the type that a constructor takes are made equal on their own, or
inside of function types, where the new variable for the result takes the owner. -/
theorem unify_arrow_alike (hn : s.registry.varCount = n) (hs : s.registry.bare.Acyclic)
    (hscope : s.registry.Scoped) {x : Ty} (hu : u.Scoped n) (hx : x.Scoped n) {owner : Ty}
    (howner : owner.Scoped n) (hcon : owner = .con c args) :
    let whole := (unify (.arrow u (.flex n)) (.arrow x owner)).run ⟨s.registry.addVar, s.log⟩
    ((∃ e s₁, (unify u x).run s = .error e s₁) ∧ ∃ e s₂, whole = .error e s₂) ∨
      ∃ s₁ s₂, (unify u x).run s = .ok () s₁ ∧ whole = .ok () s₂ ∧
        Copies (skipping n) s₁.registry s₂.registry ∧ s₁.registry.bare.Acyclic ∧
        s₂.registry.binding? n = some owner := by
  intro whole
  subst hcon
  obtain ⟨m, hm, hfuel⟩ := s.registry.unifyFuel_arrow u x (.con c args)
  rw [hn] at hm
  let t : State :=
    ⟨s.registry.addVar, s.log.push (.unify (.arrow u (.flex n)) (.arrow x (.con c args)))⟩
  have hwhole : whole = (do unifyN (m + 1) u x; unifyN (m + 1) (.flex n) (.con c args)).run t := by
    show (unify _ _).run _ = _
    rw [unify, run_bind_ok (run_registry _), hm]
    exact run_unifyN_arrow _ _ _ _ _ _
  have hleft : s.registry.bare.unifyFuel u.bare x.bare ≤ s.registry.unifyFuel u x :=
    unifyFuel_le (varCount_bare _).le (maxHeight_bare _) (height_bare u) (height_bare x)
  have hpart := unifyN_ok_iff hs hleft hfuel
  have halone : (unify u x).run s = (unifyN (s.registry.unifyFuel u x) u x).run s := by
    rw [unify, run_bind_ok (run_registry s)]
  -- the variable for the result is not met on the way
  have hcovers : ∀ {a : Ty}, a.Scoped n → (without n).Covers a :=
    fun h => (covers_below h).mono (below_le_without n)
  have hstart : n < t.registry.varCount ∧ t.registry.binding? n = none ∧
      (without n).Covers t.registry := by
    refine ⟨by simp [t, hn], ?_, fun v a hv => hcovers ?_⟩
    · simpa [t, hn] using binding?_of_le hn.le
    · exact hn ▸ hscope v a (by simpa [t] using hv)
  have hkept := ((unifying_without n).keeps_unifyN (m + 1) (hcovers hu) (hcovers hx) t hstart
    (Nat.zero_le _)).1
  have hcopies : Copies (skipping n) s.registry t.registry := hn ▸ copies_addVar hscope
  have hstep := (inStep_unifyN (skipping n) (m + 1)).1 u x s t hcopies hs
  rw [skipping_eq_self hu, skipping_eq_self hx] at hstep
  generalize hone : (unifyN (m + 1) u x).run s = one at hstep
  generalize htwo : (unifyN (m + 1) u x).run t = two at hstep
  cases hstep with
  | error e e' s₁ t₁ =>
    refine .inl ⟨?_, e', t₁, by rw [hwhole, run_bind_error htwo]⟩
    rw [halone]
    cases hrun : (unifyN (s.registry.unifyFuel u x) u x).run s with
    | ok a s₂ =>
      rw [(hpart a s₂).mp hrun] at hone
      cases hone
    | error e₂ s₂ => exact ⟨e₂, s₂, rfl⟩
  | @ok _ _ s₁ t₁ _ h₁ hs₁ =>
    rw [after_ok htwo] at hkept
    obtain ⟨hlt, hopen, -⟩ := hkept
    have hocc : t₁.registry.occurs n (.con c args) = false := by
      rw [← skipping_eq_self howner]
      exact h₁.occurs_outside (skip_ne n) hs₁ _
    obtain ⟨log, hlast⟩ := run_unifyN_flex m hopen hlt hocc
    refine .inr ⟨s₁, ⟨t₁.registry.setBinding n (.con c args), log⟩, ?_, ?_,
      h₁.setBinding_outside (skip_ne n) _, hs₁, ?_⟩
    · rw [halone]
      exact (hpart _ _).mpr hone
    · rw [hwhole, run_bind_ok htwo]
      exact hlast
    · rw [binding?_setBinding, if_pos ⟨rfl, hlt⟩]

/-! ## The two rules -/

theorem Vocabulary.Covers.of_child {K : Vocabulary} (h : K.Covers t) (hu : u ∈ t.children) :
    K.Covers u := by
  cases t with
  | var x => cases hu
  | con c args => exact (covers_con.mp h).2 u hu
  | record fs tail =>
    rcases mem_children_record.mp hu with ⟨e, he, rfl⟩ | rfl
    · exact ((covers_record.mp h).1 e he).2
    · exact (covers_record.mp h).2
  | synonym id labels params target =>
    obtain ⟨-, hparams, htarget⟩ := covers_synonym.mp h
    rcases mem_append.mp hu with hu | hu
    · exact hparams u hu
    · exact mem_singleton.mp hu ▸ htarget
  | module name members => cases hu

theorem Vocabulary.Covers.scoped (h : (below n).Covers t) : t.Scoped n := by
  induction t using induct_children with
  | step t ih =>
    intro v hv
    rcases mem_occurrences.mp hv with rfl | ⟨u, hu, hv⟩
    · exact covers_var.mp h
    · exact ih u hu (h.of_child hu) v hv

/-- What is asked of the registry and of the environment in which a constructor is
applied: the bindings have no cycle, all variables were issued, tuples have at least
two components, and constructors belong to variants. -/
structure Env.Applicable (env : Env) (r : Registry) : Prop where
  acyclic : r.Acyclic
  issued : Vocabulary.Covers ⟨(below r.varCount).Has, True⟩ r ∧
    Vocabulary.Covers ⟨(below r.varCount).Has, True⟩ env
  wellTupled : r.AllBindings Ty.WellTupled
  obeys : env.Obeys (fun _ t => t.WellTupled) Ty.WellTupled
  owners : ∀ e ∈ env.values, ∀ c, e.2.body.ctor? = some c → ∃ id ps, c.owner = .variant id ps

/-- A constructor and the type of its argument in the state where they are put
together. -/
structure Ctor.Meets (c : Ctor) (u : Ty) (s : State) : Prop where
  acyclic : s.registry.bare.Acyclic
  bindings : s.registry.Scoped ∧ s.registry.AllBindings Ty.WellTupled
  given : u.Scoped s.registry.varCount ∧ u.WellTupled
  taken : ∀ x, c.arg = some x → x.Scoped s.registry.varCount ∧ x.WellTupled
  owner : c.owner.Scoped s.registry.varCount ∧ ∃ id ps, c.owner = .variant id ps

theorem Env.Applicable.meets {s₀ s₁ : State} (h : env.Applicable s.registry) {name : String}
    {σ : Scheme} (hname : env.value? name = some σ)
    (hinst : (instantiate σ : Check Located Ty).run s = .ok t s₀) {c : Ctor} (hc : t.ctor? = some c)
    (hvariant : ∃ id ps, c.owner = .variant id ps) {arg : Expr}
    (hrun : (arg.inferHead env).run s₀ = .ok u s₁) :
    s.registry.varCount ≤ s₁.registry.varCount ∧ c.Meets u s₁ := by
  have hmem := mem_of_lookup hname
  -- tuples and the absence of cycles
  obtain ⟨hholds₀, -, hyields₀⟩ := wellTupled_discipline.keeps_instantiate
    (h.obeys.values _ hmem) s ⟨h.acyclic.bare, h.wellTupled⟩ (Nat.zero_le _)
  rw [after_ok hinst] at hholds₀
  have ht := hyields₀ t s₀ hinst
  obtain ⟨hholds₁, -, hyields₁⟩ := wellTupled_discipline.keeps_inferHead arg 0 h.obeys s₀ hholds₀
    (Nat.zero_le _)
  rw [after_ok hrun] at hholds₁
  have hobeys := wellTupled_discipline.ctor? ht hc
  -- issued variables
  let o : Origin := ⟨⟨(below s.registry.varCount).Has, True⟩, s.registry, fun _ => True⟩
  have A : o.AllowsChecking := ⟨fun _ _ => trivial, fun _ hv => .inl hv, trivial⟩
  have hs : o.Stands s := ⟨le_rfl, h.issued.1.mono (le_since _ _ _)⟩
  have henv : o.Covers s.registry env := h.issued.2.mono (le_since _ _ _)
  have hσ := covers_of_lookup henv.1 hname
  obtain ⟨hs₀, hle₀, ht₀⟩ :=
    (hs.traces fun _ hle => A.tracks_instantiate (Origin.later hσ hle)).of_ok hinst
  obtain ⟨hs₁, hle₁, hu₁⟩ := (A.traces_inferHead hs₀ (Origin.later henv hle₀) arg).of_ok hrun
  have hbelow : o.upTo s₁.registry ≤ below s₁.registry.varCount := by
    refine ⟨fun {i} hi => ?_, False.elim⟩
    match i with
    | .var (.flex v) =>
      have hcount := (evolves_of_le hs₁.start_le).varCount_le
      rcases hi with hlt | ⟨-, hnew⟩
      · exact Nat.lt_of_lt_of_le hlt hcount
      · exact Nat.lt_of_not_le hnew
    | .var (.gen g) => trivial
    | .type id => trivial
  have hscoped : ∀ {a : Ty}, o.Covers s₁.registry a → a.Scoped s₁.registry.varCount :=
    fun ha => (ha.mono hbelow).scoped
  have hctor := covers_ctor? (Origin.later ht₀ hle₁) c hc
  exact ⟨(evolves_of_le (hle₀.trans hle₁)).varCount_le, hholds₁.1,
    ⟨fun v a hv => hscoped (hs₁.covers v a hv), hholds₁.2⟩, ⟨hscoped hu₁, hyields₁ u s₁ hrun⟩,
    fun x hx => ⟨hscoped (hctor.2 x hx), hobeys.arg x hx⟩, hscoped hctor.1, hvariant⟩

theorem run_unifyAt_ok (span : Span) (h : (unify a b).run s = .ok () s') :
    (unifyAt span a b).run s = .ok () s' :=
  run_located_ok.mpr h

theorem run_unifyAt_error {e : TypeError} (span : Span) (h : (unify a b).run s = .error e s') :
    (unifyAt span a b).run s = .error ⟨e, span⟩ s' :=
  run_located_error h

/-- The end of an application by the rule for functions. -/
def Ty.call (t : Ty) (span : Span) (u : Ty) : Check Located Ty := do
  let result ← freshVar
  unifyAt span (.arrow u result) t
  return result

/-- The end of an application by the rule for constructors. -/
def Ctor.call (c : Ctor) (span : Span) (u : Ty) : Check Located Ty := do
  c.checkArity span ((← registry).arity (some u))
  c.settle span (some u)

/-- The two rules fail alike, or both succeed; the one for functions then has bound the
new variable for its result to the owner. -/
inductive Ctor.CallsAlike (c : Ctor) (s : State) :
    EStateM.Result Located State Ty → EStateM.Result Located State Ty → Prop where
  | ok {s₁ s₂ : State} (hcopies : Copies (skipping s.registry.varCount) s₁.registry s₂.registry)
      (hacyclic : s₁.registry.bare.Acyclic)
      (howner : s₂.registry.binding? s.registry.varCount = some c.owner) :
      Ctor.CallsAlike c s (.ok c.owner s₁) (.ok (.flex s.registry.varCount) s₂)
  | error (e e' : Located) (s₁ s₂ : State) : Ctor.CallsAlike c s (.error e s₁) (.error e' s₂)

theorem run_checkArity (c : Ctor) (span : Span) (found : Arity) (s : State) :
    (c.checkArity span found).run s =
      if (s.registry.arity c.arg).agrees found then .ok () s
      else .error ⟨.constructorArity c.name (s.registry.arity c.arg).toNat found.toNat, span⟩
        s := by
  unfold Ctor.checkArity
  rw [run_bind_ok (run_registry s)]
  dsimp only
  split <;> rfl

namespace Ctor.Meets

variable {c : Ctor} {u : Ty} {s : State} (h : c.Meets u s) (span : Span)
include h

omit h in
theorem asValue_of_ctor? {t : Ty} (hc : t.ctor? = some c) :
    t.asValue = c.arg.elim c.owner fun x => .arrow x c.owner := by
  unfold asValue
  rw [hc]
  obtain ⟨name, owner, _ | x⟩ := c <;> rfl

/-- A constructor without argument takes none. -/
theorem callsAlike_nullary (harg : c.arg = none) :
    c.CallsAlike s ((c.call span u).run s) ((c.owner.call span u).run s) := by
  obtain ⟨id, ps, howner⟩ := h.owner.2
  have hcount : (s.registry.arity c.arg).agrees (s.registry.arity (some u)) = false := by
    rw [harg]
    exact Bool.eq_false_iff.mpr (mt Arity.zero_agrees.mp (arity_ne_zero h.bindings.2 h.given.2))
  have hleft := run_checkArity c span (s.registry.arity (some u)) s
  rw [hcount] at hleft
  obtain ⟨e, s₂, hright⟩ : ∃ e s₂, (unify (.arrow u (.flex s.registry.varCount)) c.owner).run
      ⟨s.registry.addVar, s.log⟩ = .error e s₂ := by
    rw [howner, unify, run_bind_ok (run_registry _)]
    exact run_unifyN_arrow_con _ _ _ _ (by simp) _
  unfold call Ty.call
  rw [run_bind_ok (run_registry s), run_bind_error hleft, run_bind_ok (run_freshVar s)]
  rw [run_bind_error (run_unifyAt_error span hright)]
  exact .error _ _ _ _

/-- A constructor with an argument takes what has its type. -/
theorem callsAlike_unary {x : Ty} (harg : c.arg = some x) :
    c.CallsAlike s ((c.call span u).run s) (((arrow x c.owner).call span u).run s) := by
  obtain ⟨hx, hxTuples⟩ := h.taken x harg
  obtain ⟨id, ps, howner⟩ := h.owner.2
  have hmeet := unify_arrow_alike rfl h.acyclic h.bindings.1 h.given.1 hx h.owner.1 howner
  have hleft := run_checkArity c span (s.registry.arity (some u)) s
  have hsettle : c.settle span (some u) = (do unifyAt span u x; return c.owner) := by
    unfold settle
    rw [harg]
  unfold call Ty.call
  rw [run_bind_ok (run_registry s), run_bind_ok (run_freshVar s), hsettle]
  rcases hmeet with ⟨⟨e₁, s₁, hone⟩, e₂, s₂, htwo⟩ | ⟨s₁, s₂, hone, htwo, hcopies, hs₁, hbound⟩
  · rw [run_bind_error (run_unifyAt_error span htwo)]
    by_cases hcount : (s.registry.arity c.arg).agrees (s.registry.arity (some u)) = true
    · rw [if_pos hcount] at hleft
      rw [run_bind_ok hleft, run_bind_error (run_unifyAt_error span hone)]
      exact .error _ _ _ _
    · rw [if_neg hcount] at hleft
      rw [run_bind_error hleft]
      exact .error _ _ _ _
  · rw [run_bind_ok (run_unifyAt_ok span htwo)]
    -- types that were made equal have as many components
    have hcount : (s.registry.arity c.arg).agrees (s.registry.arity (some u)) = true := by
      rw [unify, run_bind_ok (run_registry s)] at hone
      rw [harg, Arity.agrees_comm]
      exact agrees_of_unifyN h.acyclic h.bindings.2 h.given.2 hxTuples hone
    rw [if_pos hcount] at hleft
    rw [run_bind_ok hleft, run_bind_ok (run_unifyAt_ok span hone)]
    exact .ok hcopies hs₁ hbound

theorem callsAlike {t : Ty} (hc : t.ctor? = some c) :
    c.CallsAlike s ((c.call span u).run s) ((t.asValue.call span u).run s) := by
  rw [asValue_of_ctor? hc]
  cases harg : c.arg with
  | none => exact h.callsAlike_nullary span harg
  | some x => exact h.callsAlike_unary span harg

end Ctor.Meets

/-- The rule for applications of functions. -/
def Expr.inferCall (env : Env) (span : Span) (func arg : Expr) : Check Located Ty := do
  let funcT ← func.inferHead env
  let argT ← arg.inferHead env
  funcT.call span argT

/-- It is the rule for everything but the names of constructors. -/
theorem Expr.inferHead_app {func : Expr} (span : Span) (arg : Expr)
    (h : ∀ σ, env.applied? func = some σ → σ.body.ctor? = none) :
    (app span func arg).inferHead env = inferCall env span func arg := by
  have hcallee : env.callee func = pure none := by
    unfold callee
    rw [filter_eq_none_iff.mpr fun σ hσ => by simp [h σ hσ]]
  rw [inferHead, hcallee]
  rfl

/-- The result of the one rule is read as that of the other one. -/
theorem Registry.Copies.reads_owner {r r' : Registry} (h : Copies (skipping n) r r')
    (hr : r.bare.Acyclic) {owner : Ty} (hscoped : owner.Scoped n) (hcon : owner = .con c args)
    (hbound : r'.binding? n = some owner) :
    (∀ k, r'.resolveDeepN (k + 1) (.flex n) = (skipping n).ty (r.resolveDeepN (k + 1) owner)) ∧
      (r.Acyclic → r'.Acyclic ∧
        r'.resolveDeep (.flex n) = (skipping n).ty (r.resolveDeep owner)) := by
  have hself : (skipping n).ty owner = owner := skipping_eq_self hscoped
  have howner : ∀ v, owner ≠ .flex v := by simp [hcon]
  have hread : r'.resolve (.flex n) = r'.resolve owner := by
    obtain ⟨m, hm⟩ := Nat.exists_eq_add_one.mpr (Nat.zero_lt_of_lt (lt_varCount_of_binding? hbound))
    rw [resolve_of_not_flex howner, Registry.resolve, hm, Registry.follow, hbound]
    exact follow_of_not_flex howner m
  constructor
  · intro k
    rw [← h.resolveDeepN hr (full_ofVars _), hself, Registry.resolveDeepN, Registry.resolveDeepN,
      hread]
  · intro hacyclic
    have hacyclic' : r'.Acyclic := h.acyclic_skipping hacyclic (hself.symm ▸ hbound)
    refine ⟨hacyclic', ?_⟩
    rw [← h.resolveDeep hacyclic (full_ofVars _), hself, ← resolveDeep_resolve hacyclic' (.flex n),
      hread, resolveDeep_resolve hacyclic']

/-- Both rules infer the same for the constructor and its argument before they put them
together. -/
theorem Expr.app_callsAlike (h : env.Applicable s.registry) {name : String} {σ : Scheme}
    (hname : env.value? name = some σ) (hctor : σ.body.ctor?.isSome) (span varSpan : Span)
    (arg : Expr) : let special := ((app span (.var varSpan name) arg).inferHead env).run s
    let plain := (inferCall env span (.var varSpan name) arg).run s
    (∃ e s', special = .error e s' ∧ plain = .error e s') ∨
      ∃ c u s₁, s.registry.varCount ≤ s₁.registry.varCount ∧ Ctor.Meets c u s₁ ∧
        c.CallsAlike s₁ special plain := by
  intro special plain
  obtain ⟨c₀, hc₀⟩ := isSome_iff_exists.mp hctor
  obtain ⟨f, s₀, hinst, -⟩ := opened_instantiate σ s
  have hc := ctor?_subst f hc₀
  generalize hcdef : Ctor.mk c₀.name (c₀.owner.subst f) (c₀.arg.map (subst f)) = c at hc
  have hvariant : ∃ id ps, c.owner = .variant id ps := by
    obtain ⟨id, ps, howner⟩ := h.owners _ (mem_of_lookup hname) c₀ hc₀
    refine ⟨id, ps.map fun p => (p.1, p.2.subst f), ?_⟩
    rw [← hcdef, howner]
    simp [variant, subst, substList_eq, comp_def]
  have hspecial : special = (do c.call span (← arg.inferHead env)).run s₀ := by
    have hcallee : (env.callee (.var varSpan name)).run s = .ok (some c) s₀ := by
      have happlied : env.applied? (.var varSpan name) = some σ := hname
      unfold callee
      rw [happlied, filter_some, if_pos hctor, run_bind_ok hinst, hc]
      rfl
    show ((app span (.var varSpan name) arg).inferHead env).run s = _
    rw [inferHead, run_bind_ok hcallee]
    exact congrArg (·.run s₀) (c.apply_some span (arg.inferHead env))
  have hplain : plain = (do (σ.body.subst f).asValue.call span (← arg.inferHead env)).run s₀ := by
    have hfind : (env.find varSpan name).run s = .ok σ s := by
      unfold Env.find Env.value
      rw [hname]
      rfl
    have hvar : ((var varSpan name).inferHead env).run s = .ok (σ.body.subst f).asValue s₀ := by
      rw [inferHead, run_bind_ok hfind, run_bind_ok hinst]
      rfl
    show (inferCall env span (.var varSpan name) arg).run s = _
    rw [inferCall, run_bind_ok hvar]
  cases hrun : (arg.inferHead env).run s₀ with
  | error e s₁ =>
    rw [hspecial, hplain, run_bind_error hrun, run_bind_error hrun]
    exact .inl ⟨e, s₁, rfl, rfl⟩
  | ok u s₁ =>
    obtain ⟨hle, hmeets⟩ := h.meets hname hinst hc hvariant hrun
    refine .inr ⟨c, u, s₁, hle, hmeets, ?_⟩
    rw [hspecial, hplain, run_bind_ok hrun, run_bind_ok hrun]
    exact hmeets.callsAlike span hc

/-- A constructor may be applied by the rule for functions as well. The one rule
succeeds just if the other one does, and then the two results are the same type, with
other numbers for variables that were issued on the way. -/
theorem app_constructor_iff_call {env : Env} {s : State} (h : env.Applicable s.registry)
    {name : String} {σ : Scheme} (hname : env.value? name = some σ)
    (hctor : σ.body.ctor?.isSome) (span varSpan : Span) (arg : Expr) :
    let special := ((Expr.app span (.var varSpan name) arg).inferHead env).run s
    let plain := (Expr.inferCall env span (.var varSpan name) arg).run s
    ((∃ t s', special = .ok t s') ↔ ∃ t s', plain = .ok t s') ∧
    ∀ t s' t' s'', special = .ok t s' → plain = .ok t' s'' →
      ∃ f : Nat → Nat, Function.Injective f ∧ (∀ v < s.registry.varCount, f v = v) ∧
        (∀ k, s''.registry.resolveDeepN (k + 1) t' =
          (s'.registry.resolveDeepN (k + 1) t).subst (Ty.fill fun v => .flex (f v))) ∧
        (s'.registry.Acyclic → s''.registry.Acyclic ∧
          s''.registry.resolveDeep t' =
            (s'.registry.resolveDeep t).subst (Ty.fill fun v => .flex (f v))) := by
  intro special plain
  rcases Expr.app_callsAlike h hname hctor span varSpan arg with
    ⟨e, s', hspecial, hplain⟩ | ⟨c, u, s₁, hle, hmeets, halike⟩
  · show ((∃ t s', special = _) ↔ ∃ t s', plain = _) ∧ ∀ t s' t' s'', special = _ → _
    rw [show special = _ from hspecial, show plain = _ from hplain]
    simp
  · change c.CallsAlike s₁ special plain at halike
    generalize special = one at halike ⊢
    generalize plain = two at halike ⊢
    cases halike with
    | error e e' s₁ s₂ => simp
    | ok hcopies hacyclic howner =>
      refine ⟨⟨fun _ => ⟨_, _, rfl⟩, fun _ => ⟨_, _, rfl⟩⟩, ?_⟩
      rintro t s' t' s'' ⟨⟩ ⟨⟩
      obtain ⟨hscoped, id, ps, hvariant⟩ := hmeets.owner
      exact ⟨skip s₁.registry.varCount, skip_injective _,
        fun v hv => skip_of_lt (Nat.lt_of_lt_of_le hv hle),
        hcopies.reads_owner hacyclic hscoped hvariant howner⟩

/-- A constructor that takes a record with at least the field `x`. -/
def wrap : Scheme :=
  ⟨[0], .con (.ctor "Wrap") [.variant 0 [("rest", .gen 0)], .record [("x", .int)] (.gen 0)]⟩

/-- The constructor, and a record with the field `y` of which no more is known. -/
def wrapping : Env :=
  (Env.empty.addValue "Wrap" wrap).addValue "z" (.mono (.record [("y", .int)] (.flex 0)))

theorem wrapping_applicable : wrapping.Applicable ({} : Registry).addVar := by
  have hnone : ∀ v, ({} : Registry).addVar.binding? v = none := by simp
  have hvalues : ∀ e ∈ wrapping.values, e.2.body = wrap.body ∨
      e.2.body = .record [("y", .int)] (.flex 0) := by
    intro e he
    rcases mem_insert he with rfl | he
    · exact .inr rfl
    · rcases mem_insert he with rfl | he
      · exact .inl rfl
      · cases he
  refine ⟨?_, ⟨fun v t hv => ?_, ?_⟩, fun v t hv => ?_, ⟨fun e he => ?_, fun e he => ?_⟩,
    fun e he c hc => ?_⟩
  · rintro v hcycle
    obtain ⟨_, ⟨t, ht, -⟩, -⟩ := Relation.TransGen.head'_iff.mp hcycle
    simp at ht
  · simp [hnone] at hv
  · refine covers_addValue (covers_addValue ⟨covers_nil, covers_nil⟩ ⟨by simp [below], ?_⟩) ?_
    · simp [wrap, variant, Con.Within, below]
    · simp [Con.Within, below]
  · simp [hnone] at hv
  · rcases hvalues e he with heq | heq
    · rw [heq]
      refine .con (by simp) (forall_mem_cons.mpr ⟨.con (by simp) ?_, ?_⟩)
      · simpa using .var _
      · simpa using .record (by simpa using .con (by simp) (by simp)) (.var _)
    · rw [heq]
      exact .record (by simpa using .con (by simp) (by simp)) (.var _)
  · cases he
  · rcases hvalues e he with heq | heq
    · rw [heq] at hc
      cases hc
      exact ⟨_, _, rfl⟩
    · rw [heq] at hc
      cases hc

theorem wrap_iff_call :
    let s : State := ⟨({} : Registry).addVar, #[]⟩
    let special := ((Expr.app {} (.var {} "Wrap") (.var {} "z")).inferHead wrapping).run s
    let plain := (Expr.inferCall wrapping {} (.var {} "Wrap") (.var {} "z")).run s
    let found (v : Nat) : Ty := .variant 0 [("rest", .record [("y", .int)] (.flex v))]
    wrapping.Applicable s.registry ∧ wrapping.value? "Wrap" = some wrap ∧
      wrap.body.ctor?.isSome = true ∧
      ∃ t s' t' s'', special = .ok t s' ∧ plain = .ok t' s'' ∧
        s'.registry.resolveDeep t = found 2 ∧ s''.registry.resolveDeep t' = found 3 ∧
        ∃ f : Nat → Nat, Function.Injective f ∧ (∀ v < s.registry.varCount, f v = v) ∧
          (∀ k, s''.registry.resolveDeepN (k + 1) t' =
            (s'.registry.resolveDeepN (k + 1) t).subst (Ty.fill fun v => .flex (f v))) := by
  intro s special plain found
  -- a result is read in the state that it was found in
  have hread : ∀ (x : Check Located Ty) (u : Ty),
      (do let t ← x; return (← registry).resolveDeep t : Check Located Ty).result? s = some u →
      ∃ t s', x.run s = .ok t s' ∧ s'.registry.resolveDeep t = u := by
    intro x u hu
    have hrun := Check.run_of_result? hu
    cases hx : x.run s with
    | ok t s' =>
      rw [run_bind_ok hx] at hrun
      refine ⟨t, s', rfl, ?_⟩
      cases hrun
      rfl
    | error e s' =>
      rw [run_bind_error hx] at hrun
      cases hrun
  obtain ⟨t, s₁, hspecial, ht⟩ := hread
    ((Expr.app {} (.var {} "Wrap") (.var {} "z")).inferHead wrapping) (found 2) (by decide +kernel)
  obtain ⟨t', s₂, hplain, ht'⟩ := hread
    (Expr.inferCall wrapping {} (.var {} "Wrap") (.var {} "z")) (found 3) (by decide +kernel)
  have hname : wrapping.value? "Wrap" = some wrap := by decide +kernel
  obtain ⟨f, hinjective, hold, hreads, -⟩ :=
    (app_constructor_iff_call wrapping_applicable hname rfl {} {} (.var {} "z")).2
      t s₁ t' s₂ hspecial hplain
  exact ⟨wrapping_applicable, hname, rfl, t, s₁, t', s₂, hspecial, hplain, ht, ht', f, hinjective,
    hold, hreads⟩

end RowTyping
