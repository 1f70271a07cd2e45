import RowTyping.Proofs.Keeping
import RowTyping.Proofs.Roles

/-!
# Stages of a run

A stage is a registry together with the roles of the variables it has issued:
every binding fits the role of its variable, and the shown variables of the
bindings close no cycle. A run leads from stage to stage. Roles and bindings are
only added, so whatever is known of a type at one stage stays true at the later
ones. `Leads` says this of an operation, failing runs included, and composes
along `bind`.

Unification leads from a stage to one at which the two types agree: every
assignment that satisfies the registry gives them the same value.
-/

namespace RowTyping

open Registry Table Ty Function List Option

section

variable {ε σ ι α β : Type} [Preorder ι] {At : ι → σ → Prop} {i : ι} {Q : ι → α → Prop}

/-- From every state at `i` the operation leads to a state at a later `j`, also
where it fails, and what it yields satisfies `Q` there. -/
def Leads (At : ι → σ → Prop) (i : ι) (x : EStateM ε σ α) (Q : ι → α → Prop) : Prop :=
  ∀ s, At i s → ∃ j, i ≤ j ∧ At j (after x s) ∧ ∀ a s', x.run s = .ok a s' → Q j a

theorem Leads.bind {x : EStateM ε σ α} {f : α → EStateM ε σ β} {R : ι → β → Prop}
    (hx : Leads At i x Q) (hf : ∀ j a, i ≤ j → Q j a → Leads At j (f a) R) :
    Leads At i (x >>= f) R := by
  intro s hs
  obtain ⟨j, hij, hj, hyield⟩ := hx s hs
  cases hrun : x.run s with
  | ok a s' =>
    rw [after_ok hrun] at hj
    obtain ⟨l, hjl, hl, hyield'⟩ := hf j a hij (hyield a s' hrun) s' hj
    rw [after_bind_ok hrun, run_bind_ok hrun]
    exact ⟨l, hij.trans hjl, hl, hyield'⟩
  | error e s' =>
    rw [after_error hrun] at hj
    rw [after_error (run_bind_error hrun), run_bind_error hrun]
    exact ⟨j, hij, hj, fun b s'' h => by cases h⟩

theorem Leads.imp {x : EStateM ε σ α} {R : ι → α → Prop} (hx : Leads At i x Q)
    (hQR : ∀ j a, i ≤ j → Q j a → R j a) : Leads At i x R := by
  intro s hs
  obtain ⟨j, hij, hj, hyield⟩ := hx s hs
  exact ⟨j, hij, hj, fun a s' h => hQR j a hij (hyield a s' h)⟩

theorem leads_pure {a : α} (h : Q i a) : Leads At i (pure a : EStateM ε σ α) Q := by
  intro s hs
  refine ⟨i, le_rfl, hs, fun b s' hrun => ?_⟩
  cases hrun
  exact h

theorem leads_throw (e : ε) : Leads At i (throw e : EStateM ε σ α) Q := by
  intro s hs
  exact ⟨i, le_rfl, hs, fun b s' hrun => by cases hrun⟩

end

/-- Deep resolution changes no value, under an assignment that satisfies the
registry. -/
theorem Registry.Satisfies.resolveDeep {E : Prop} {K : Nat → Kind} {P : Kind → Ty → Prop}
    {θ : Nat → Ty} {r : Registry} (h : r.Satisfies K θ) (hP : Kinding P) (hr : r.WellFormed P)
    (hPK : ∀ {k t}, P k t → t.HasKind E K k) {k : Kind} {t : Ty} (ht : P k t) :
    k.Same ((r.resolveDeep t).value θ) (t.value θ) := by
  induction t using part_induct hr.acyclic generalizing k with
  | step t ih =>
    have hres := hr.resolve ht
    refine Kind.Same.trans ?_ (h.resolve hr hPK ht)
    cases heq : r.resolve t with
    | var x =>
      rw [resolveDeep_var hr.acyclic heq]
      exact .refl _ _
    | con c args =>
      rw [heq] at hres
      have hargs : args.map (value θ ∘ r.resolveDeep) = args.map (value θ) :=
        map_congr_left fun u hu => ih u (.inl (heq ▸ hu)) (hP.args hres u hu)
      rw [resolveDeep_con hr.acyclic heq]
      by_cases hc : c = .emptyRow
      · subst hc
        exact .refl _ _
      · rw [value_con hc, value_con hc, List.map_map, hargs]
        exact .refl _ _
    | record fs tail =>
      have hrow := hP.asRow (heq ▸ hres) (.inl rfl)
      obtain ⟨hfields, -⟩ := hr.row hP hrow
      have hsame := h.row hP hr hPK hrow
      rw [← heq, row_resolve hr.acyclic] at hfields hsame
      rw [heq] at hsame
      rw [resolveDeep_record hr.acyclic heq]
      have hvalue : (record fs tail).value θ = ((record fs tail).value θ).asRow.toRecord := by
        simp
      have hdeep : mapValues (value θ ∘ r.resolveDeep) (r.row t).fields =
          mapValues (value θ) (r.row t).fields :=
        mapValues_congr fun e he => ih e.2 (.inr ⟨e, he, rfl⟩) (hfields e he)
      rw [hvalue, hsame, value_record, mapValues_mapValues, hdeep]
      exact .refl _ _
    | synonym id labels params target =>
      rw [heq] at hres
      rw [resolveDeep_synonym hr.acyclic heq]
      exact ih target (.inl (by simp [heq, children])) (hP.target hres)
    | module name members =>
      rw [resolveDeep_module hr.acyclic heq]
      exact .refl _ _

/-! ## Kinds -/

/-- Types with kinds that hide nothing. -/
def Ty.BareKind (K : Nat → Kind) (k : Kind) (t : Ty) : Prop :=
  t.HasKind False K k ∧ t.All Ty.ParamsInTarget

theorem Ty.kinding_bareKind (K : Nat → Kind) : Kinding (BareKind K) :=
  kinding_hasKind (fun _ h => h) fun _ _ _ => trivial

theorem Ty.HasKind.bareKind {K : Nat → Kind} {k : Kind} {t : Ty} (h : t.HasKind False K k) :
    t.bare.BareKind K k :=
  ⟨h.bare, t.covered_bare⟩

namespace Registry

variable {K : Nat → Kind} {r : Registry} {θ : Nat → Ty} {k : Kind} {t : Ty}

theorem wellFormed_bare (hr : r.bare.Acyclic)
    (hb : ∀ v t, r.binding? v = some t → t.HasKind False K (K v)) :
    r.bare.WellFormed (BareKind K) where
  acyclic := hr
  covered := r.allBindings_bare
  bindings v t hv k hk := by
    rw [binding?_bare] at hv
    obtain ⟨u, hu, rfl⟩ := map_eq_some_iff.mp hv
    obtain rfl : K v = k := hasKind_flex.mp hk.1
    exact (hb v u hu).bareKind

namespace Satisfies

theorem bare (h : r.Satisfies K θ) : r.bare.Satisfies K θ := by
  intro v t hv
  rw [binding?_bare] at hv
  obtain ⟨u, hu, rfl⟩ := map_eq_some_iff.mp hv
  rw [value_bare]
  exact h v u hu

variable (sat : r.Satisfies K θ) (hr : r.bare.WellFormed (BareKind K))
include sat hr

theorem bare_resolve (h : t.HasKind False K k) :
    k.Same ((r.resolve t).value θ) (t.value θ) := by
  have := sat.bare.resolve hr (fun h => h.1) h.bareKind
  rwa [resolve_bare, value_bare, value_bare] at this

/-- The row of a value consists of the values of the row. -/
theorem bare_row (h : t.HasKind False K .row) :
    (t.value θ).asRow = .prepend (mapValues (value θ) (r.row t).fields)
      ((r.row t).tail.value θ).asRow := by
  have := sat.bare.row (kinding_bareKind K) hr (fun h => h.1) h.bareKind
  have hvalue : ∀ fs : Table Ty, Table.mapValues (Ty.value θ) (fs.mapValues Ty.bare) =
      mapValues (value θ) fs := by
    intro fs
    rw [mapValues_mapValues]
    exact mapValues_congr fun e _ => value_bare θ e.2
  rwa [row_bare hr.acyclic, value_bare, Row.bare, hvalue, value_bare] at this

/-- Resolution changes no value. -/
theorem bare_resolveDeep (h : t.HasKind False K k) :
    k.Same ((r.resolveDeep t).value θ) (t.value θ) := by
  have := sat.bare.resolveDeep (kinding_bareKind K) hr (fun h => h.1) h.bareKind
  rwa [resolveDeep_bare hr.acyclic, value_bare, value_bare] at this

end Satisfies

end Registry

/-! ## Reading -/

namespace Registry

variable {r : Registry} {G : Prop} {H V : TyVar → Role → Prop} {k : Role} {t : Ty}

/-- What is bound to a variable has every role that the variable has. -/
def Obeys (r : Registry) (G : Prop) (H V : TyVar → Role → Prop) : Prop :=
  ∀ v t k, r.binding? v = some t → V (.flex v) k → t.Fits G H V k

namespace Obeys

variable (hV : r.Obeys G H V)
include hV

theorem follow (h : t.Fits G H V k) (n : Nat) : (r.follow n t).Fits G H V k := by
  induction n generalizing t with
  | zero => exact h
  | succ n ih =>
    by_cases ht : ∃ v, t = .flex v
    · obtain ⟨v, rfl⟩ := ht
      rw [Registry.follow]
      cases hb : r.binding? v with
      | none => exact h
      | some u => exact ih (hV v u _ hb (Fits.var_iff.mp h))
    · rwa [follow_of_not_flex fun v hv => ht ⟨v, hv⟩]

theorem resolve (h : t.Fits G H V k) : (r.resolve t).Fits G H V k := hV.follow h _

theorem resolve_tail {fs : Table Ty} (h : (record fs t).Fits G H V k) :
    (record fs (r.resolve t)).Fits G H V k := by
  cases h with
  | record hs hfront hfields htail => exact .record hs hfront hfields (hV.resolve htail)

/-- Collecting fields keeps a record a record of its role. -/
theorem collect {fs : Table Ty} (h : (record fs t).Fits G H V k) (n : Nat) :
    (r.collect n fs t).toRecord.Fits G H V k := by
  induction n generalizing fs t with
  | zero => exact hV.resolve_tail h
  | succ n ih =>
    have h' := hV.resolve_tail h
    rw [Registry.collect]
    split
    · next heq =>
      rw [heq] at h'
      exact ih h'.merge
    · exact h'

theorem row {front : Finset String} (h : t.Fits G H V (.rest front)) :
    (r.row t).toRecord.Fits G H V (.rest front) := by
  refine hV.collect (.record .nil (by simp) (by simp) ?_) _
  rwa [Role.behind_nil]

theorem row_record {fs : Table Ty} {tail : Ty} (h : (record fs tail).Fits G H V k) :
    (r.row (.record fs tail)).toRecord.Fits G H V k := by
  have hrest : (record fs tail).Fits G H V (.rest k.front) := h.record_congr rfl
  exact (hV.row hrest).record_congr rfl

end Obeys

theorem Obeys.resolveDeepN (hV : r.Obeys G H V) (hH : r.Obeys G H H) (h : t.Fits G H V k)
    (n : Nat) : (r.resolveDeepN (n + 1) t).Fits G H V k := by
  induction n using Nat.strong_induction_on generalizing V k t with
  | _ n ih =>
  -- the children are types of values, so they may be broken off
  have hchild : ∀ {V u}, r.Obeys G H V → u.Fits G H V .type →
      (r.resolveDeepN n u).Fits G H V .type := by
    intro V u hV hu
    cases n with
    | zero => exact .base .unit
    | succ n => exact ih n n.lt_succ_self hV hu
  have hres := hV.resolve h
  rw [Registry.resolveDeepN]
  cases heq : r.resolve t with
  | var x => rwa [heq] at hres
  | con c args =>
    rw [heq] at hres
    cases hres with
    | con hc htuple hargs =>
      exact .con hc (by simpa using htuple) (forall_mem_map.mpr fun u hu => hchild hV (hargs u hu))
    | emptyRow front => exact .emptyRow front
  | record fs tail =>
    rw [heq] at hres
    cases hV.row_record hres with
    | record hs hfront hfields htail =>
      refine .record (Sorted.mapValues hs _) (forall_mem_map.mpr hfront)
        (forall_mem_map.mpr fun e he => hchild hV (hfields e he)) ?_
      rwa [← Role.behind_mapValues] at htail
  | synonym id labels params target =>
    rw [heq] at hres
    cases hres with
    | synonym hparams htarget hsolid =>
      refine .synonym (forall_mem_map.mpr fun p hp => hchild hH (hparams p hp))
        (hchild hV htarget) fun hg x hx => ?_
      -- resolution leaves the head of a target that is no variable as it is
      cases n with
      | zero => cases hx
      | succ n =>
        rw [Registry.resolveDeepN] at hx
        cases target with
        | var y => exact hsolid hg y rfl
        | con | record | synonym | module => simp at hx
  | module name members => rwa [heq] at hres

theorem Obeys.resolveDeep (hV : r.Obeys G H V) (hH : r.Obeys G H H) (h : t.Fits G H V k) :
    (r.resolveDeep t).Fits G H V k :=
  hV.resolveDeepN hH h _

end Registry

/-- The roles of the variables that have one. -/
abbrev Roles := TyVar → Option Role

namespace Roles

/-- The role of a variable. -/
def Has (ρ : Roles) (x : TyVar) (k : Role) : Prop := ρ x = some k

/-- The role of a variable that can be solved. -/
def HasFlex (ρ : Roles) (x : TyVar) (k : Role) : Prop := ρ.Has x k ∧ ∃ v, x = .flex v

/-- What a type may show: all variables that can be solved, and generalized ones
only with their roles. -/
structure Allows (ρ : Roles) (V : TyVar → Role → Prop) : Prop where
  flex : ∀ {x k}, ρ.HasFlex x k → V x k
  role : ∀ {x k}, V x k → ρ.Has x k

/-- The roles with one more variable. -/
def assign (ρ : Roles) (x : TyVar) (k : Role) : Roles := Function.update ρ x (some k)

variable {ρ : Roles} {x y : TyVar} {k k' : Role}

theorem Has.eq (h : ρ.Has x k) (h' : ρ.Has x k') : k = k' :=
  some.inj (h.symm.trans h')

theorem allows_has (ρ : Roles) : ρ.Allows ρ.Has := ⟨fun h => h.1, id⟩

theorem allows_hasFlex (ρ : Roles) : ρ.Allows ρ.HasFlex := ⟨id, fun h => h.1⟩

theorem has_assign_self : (ρ.assign x k).Has x k := update_self _ _ _

theorem Has.assign (h : ρ.Has y k') (hne : y ≠ x) : (ρ.assign x k).Has y k' := by
  rw [Has, Roles.assign, update_of_ne hne]
  exact h

theorem Has.of_assign (h : (ρ.assign x k).Has y k') : y = x ∧ k' = k ∨ ρ.Has y k' := by
  by_cases hyx : y = x
  · subst hyx
    exact .inl ⟨rfl, h.eq has_assign_self⟩
  · rw [Has, Roles.assign, update_of_ne hyx] at h
    exact .inr h

end Roles

/-- A registry with the roles of its variables. The bindings show no generalized
variables. -/
structure Stage (G : Prop) where
  role : Roles
  registry : Registry
  issued : ∀ {v : Nat} {k : Role}, role.Has (.flex v) k → v < registry.varCount
  issuedGen : ∀ {g : Nat} {k : Role}, role.Has (.gen g) k → g < registry.nextGen
  fits : ∀ {v : Nat} {t : Ty}, registry.binding? v = some t →
    ∃ k, role.Has (.flex v) k ∧ t.Fits G role.Has role.HasFlex k
  acyclic : registry.bare.Acyclic

namespace Stage

variable {G : Prop} {S S' : Stage G} {V : TyVar → Role → Prop} {k k' : Role} {t : Ty} {v : Nat}

/-- The later stage knows all roles and bindings of the earlier one. -/
structure Le (S S' : Stage G) : Prop where
  role : ∀ {x : TyVar} {k : Role}, S.role.Has x k → S'.role.Has x k
  registry : S.registry.Extends S'.registry
  nextGen : S.registry.nextGen ≤ S'.registry.nextGen

instance : Preorder (Stage G) where
  le := Le
  le_refl S := ⟨id, .refl _, le_rfl⟩
  le_trans _ _ _ h h' :=
    ⟨fun hx => h'.role (h.role hx), h.registry.trans h'.registry, h.nextGen.trans h'.nextGen⟩

/-- The state has the registry of the stage. -/
def At (S : Stage G) (s : State) : Prop := s.registry = S.registry

/-- The type fits the role and shows no generalized variables. -/
def Fits (S : Stage G) (k : Role) (t : Ty) : Prop := t.Fits G S.role.Has S.role.HasFlex k

theorem Fits.mono (h : S.Fits k t) (hle : S ≤ S') : S'.Fits k t :=
  Ty.Fits.mono h (fun _ _ hx => ⟨hle.role hx.1, hx.2⟩) (fun _ _ hx => hle.role hx) id

theorem fits_flex : S.Fits k (.flex v) ↔ S.role.Has (.flex v) k := by
  unfold Fits
  rw [Fits.var_iff]
  exact ⟨fun h => h.1, fun h => ⟨h, v, rfl⟩⟩

theorem obeys_of (hV : S.role.Allows V) : S.registry.Obeys G S.role.Has V := by
  intro v t k hv hk
  obtain ⟨k', hk', ht⟩ := S.fits hv
  cases (hV.role hk).eq hk'
  exact ht.mono (fun _ _ => hV.flex) (fun _ _ => id) id

theorem obeys (S : Stage G) : S.registry.Obeys G S.role.Has S.role.HasFlex :=
  S.obeys_of S.role.allows_hasFlex

theorem fits_resolveDeep (hV : S.role.Allows V) (h : t.Fits G S.role.Has V k) :
    (S.registry.resolveDeep t).Fits G S.role.Has V k :=
  (S.obeys_of hV).resolveDeep (S.obeys_of S.role.allows_has) h

theorem Fits.resolveDeep (h : S.Fits k t) : S.Fits k (S.registry.resolveDeep t) :=
  fits_resolveDeep S.role.allows_hasFlex h

/-! ## Later stages -/

/-- The roles stay when the registry changes in something else than its
bindings. -/
def rebase (S : Stage G) (r : Registry) (hb : ∀ v, r.binding? v = S.registry.binding? v)
    (hcount : S.registry.varCount ≤ r.varCount) (hgen : S.registry.nextGen ≤ r.nextGen) :
    Stage G where
  role := S.role
  registry := r
  issued h := (S.issued h).trans_le hcount
  issuedGen h := (S.issuedGen h).trans_le hgen
  fits h := S.fits (hb _ ▸ h)
  acyclic := S.acyclic.of_binding? fun v t h => by simpa [hb] using h

/-- A variable that has none gets a role. -/
def assign (S : Stage G) (x : TyVar) (k : Role) (hnew : ∀ k, ¬ S.role.Has x k)
    (hflex : ∀ v, x = .flex v → v < S.registry.varCount)
    (hgen : ∀ g, x = .gen g → g < S.registry.nextGen) : Stage G where
  role := S.role.assign x k
  registry := S.registry
  issued h := by
    rcases h.of_assign with ⟨hx, -⟩ | h
    · exact hflex _ hx.symm
    · exact S.issued h
  issuedGen h := by
    rcases h.of_assign with ⟨hx, -⟩ | h
    · exact hgen _ hx.symm
    · exact S.issuedGen h
  fits h := by
    have hassign : ∀ {y k'}, S.role.Has y k' → (S.role.assign x k).Has y k' :=
      fun hy => hy.assign fun hyx => hnew _ (hyx ▸ hy)
    obtain ⟨k', hk', ht⟩ := S.fits h
    exact ⟨k', hassign hk', ht.mono (fun _ _ hx => ⟨hassign hx.1, hx.2⟩) (fun _ _ => hassign) id⟩
  acyclic := S.acyclic

theorem le_rebase (S : Stage G) {r : Registry} (hb : ∀ v, r.binding? v = S.registry.binding? v)
    (hcount : S.registry.varCount ≤ r.varCount) (hgen : S.registry.nextGen ≤ r.nextGen) :
    S ≤ S.rebase r hb hcount hgen :=
  ⟨id, ⟨hcount, fun v _ h => (hb v).trans h⟩, hgen⟩

theorem le_assign (S : Stage G) {x : TyVar} (k : Role) (hnew : ∀ k, ¬ S.role.Has x k)
    (hflex : ∀ v, x = .flex v → v < S.registry.varCount)
    (hgen : ∀ g, x = .gen g → g < S.registry.nextGen) : S ≤ S.assign x k hnew hflex hgen :=
  ⟨fun hy => hy.assign fun hyx => hnew _ (hyx ▸ hy), .refl _, le_rfl⟩

/-- A new variable with a role. -/
def addVar (S : Stage G) (k : Role) : Stage G :=
  (S.rebase S.registry.addVar (by simp) (by simp) le_rfl).assign (.flex S.registry.varCount) k
    (fun _ h => (S.issued h).false) (by rintro v ⟨⟩; simp [rebase]) (by simp)

/-- A new generalized variable with a role. -/
def addGen (S : Stage G) (k : Role) : Stage G :=
  (S.rebase S.registry.addGen (fun _ => rfl) le_rfl (Nat.le_succ _)).assign
    (.gen S.registry.nextGen) k (fun _ h => (S.issuedGen h).false) (by simp)
    (by rintro g ⟨⟩; exact Nat.lt_succ_self _)

theorem le_addVar (S : Stage G) (k : Role) : S ≤ S.addVar k :=
  (S.le_rebase _ _ _).trans (le_assign _ k _ _ _)

theorem le_addGen (S : Stage G) (k : Role) : S ≤ S.addGen k :=
  (S.le_rebase _ _ _).trans (le_assign _ k _ _ _)

theorem addVar_has (S : Stage G) (k : Role) : (S.addVar k).role.Has (.flex S.registry.varCount) k :=
  Roles.has_assign_self

theorem addGen_has (S : Stage G) (k : Role) : (S.addGen k).role.Has (.gen S.registry.nextGen) k :=
  Roles.has_assign_self

/-- An open variable is bound to a type of its role in which it does not occur. -/
def setBinding (S : Stage G) (hv : S.role.Has (.flex v) k) (ht : S.Fits k t)
    (hopen : S.registry.binding? v = none) (hocc : S.registry.occurs v t = false) : Stage G where
  role := S.role
  registry := S.registry.setBinding v t
  issued h := by simpa using S.issued h
  issuedGen h := S.issuedGen h
  fits h := by
    rcases Registry.binding?_setBinding_inv h with ⟨rfl, rfl⟩ | h
    · exact ⟨k, hv, ht⟩
    · exact S.fits h
  acyclic := Registry.acyclic_bare_setBinding S.acyclic hopen hocc

theorem le_setBinding (S : Stage G) (hv : S.role.Has (.flex v) k) (ht : S.Fits k t)
    (hopen : S.registry.binding? v = none) (hocc : S.registry.occurs v t = false) :
    S ≤ S.setBinding hv ht hopen hocc :=
  ⟨id, .setBinding hopen t, le_rfl⟩

/-! ## Assignments that satisfy a stage -/

variable {θ : Nat → Ty}

/-- What the variables of a stage stand for. -/
def kinds (S : Stage G) (v : Nat) : Kind := ((S.role (.flex v)).map Role.kind).getD .type

theorem kinds_eq (h : S.role.Has (.flex v) k) : S.kinds v = k.kind := by
  rw [kinds, h]
  rfl

theorem hasKind (hV : S.role.Allows V) (h : t.Fits G S.role.Has V k) :
    t.HasKind False S.kinds k.kind :=
  h.hasKind fun _ _ hv => kinds_eq (hV.role hv)

theorem wellFormed_bare (S : Stage G) : S.registry.bare.WellFormed (BareKind S.kinds) := by
  refine Registry.wellFormed_bare S.acyclic fun v t hv => ?_
  obtain ⟨k, hk, ht⟩ := S.fits hv
  rw [kinds_eq hk]
  exact hasKind S.role.allows_hasFlex ht

/-- Every bound variable has the value of its binding. -/
def Satisfies (S : Stage G) (θ : Nat → Ty) : Prop := S.registry.Satisfies S.kinds θ

theorem Satisfies.mono (h : S'.Satisfies θ) (hle : S ≤ S') : S.Satisfies θ := by
  intro v t hv
  obtain ⟨k, hk, -⟩ := S.fits hv
  rw [kinds_eq hk, ← kinds_eq (hle.role hk)]
  exact h v t (hle.registry.binding v t hv)

section

variable (hV : S.role.Allows V)
include hV

theorem Satisfies.resolve (sat : S.Satisfies θ) (h : t.Fits G S.role.Has V k) :
    k.kind.Same ((S.registry.resolve t).value θ) (t.value θ) :=
  Registry.Satisfies.bare_resolve sat S.wellFormed_bare (hasKind hV h)

theorem Satisfies.row (sat : S.Satisfies θ) {front : Finset String}
    (h : t.Fits G S.role.Has V (.rest front)) :
    (t.value θ).asRow = .prepend (mapValues (value θ) (S.registry.row t).fields)
      ((S.registry.row t).tail.value θ).asRow :=
  Registry.Satisfies.bare_row sat S.wellFormed_bare (hasKind hV h)

end

/-! ## Deep resolution -/

theorem norm_resolveDeep_binding (hv : S.registry.binding? v = some t) :
    (S.registry.resolveDeep (.flex v)).norm = (S.registry.resolveDeep t).norm := by
  have hbare : S.registry.bare.binding? v = some t.bare := by
    rw [binding?_bare, hv]
    rfl
  rw [← norm_bare, ← norm_bare (S.registry.resolveDeep t),
    ← resolveDeep_bare S.acyclic, ← resolveDeep_bare S.acyclic, bare_var,
    ← resolveDeep_resolve S.acyclic, resolve_some S.acyclic hbare,
    resolveDeep_resolve S.acyclic]

/-- The assignment that resolves a variable and then reads the result under
another assignment. -/
def through (S : Stage G) (θ : Nat → Ty) (v : Nat) : Ty :=
  (S.registry.resolveDeep (.flex v)).subst (Ty.fill θ)

/-- A type means what it is resolved to. -/
theorem value_through (hV : S.role.Allows V) (h : t.Fits G S.role.Has V k) (θ : Nat → Ty) :
    t.value (S.through θ) = (S.registry.resolveDeep t).value θ := by
  have hsolution := value_solution (kinding_bareKind S.kinds) (fun h => h.1) S.wellFormed_bare
    (hasKind hV h).bareKind
  rw [resolveDeep_bare S.acyclic, norm_bare, value_bare] at hsolution
  have hfill : ∀ x, (fill (S.through θ) x).norm =
      ((fill S.registry.bare.solution x).subst (fill θ)).norm := by
    intro x
    cases x with
    | gen g => rfl
    | flex v =>
      have hbare := resolveDeep_bare S.acyclic (.flex v)
      rw [bare_var] at hbare
      rw [fill, fill, solution, hbare, norm_subst_bare, through]
  calc t.value (S.through θ)
      = ((t.subst (fill S.registry.bare.solution)).subst (fill θ)).norm := by
        rw [subst_subst]
        exact norm_subst_congr fun x _ => hfill x
    _ = ((S.registry.resolveDeep t).norm.subst (fill θ)).norm := by
        rw [← norm_subst, ← hsolution]
        rfl
    _ = (S.registry.resolveDeep t).value θ := norm_subst _ _

theorem satisfies_through (S : Stage G) (θ : Nat → Ty) : S.Satisfies (S.through θ) := by
  intro v t hv
  obtain ⟨k, hk, ht⟩ := S.fits hv
  have hvar : S.Fits k (.flex v) := fits_flex.mpr hk
  rw [value_through S.role.allows_hasFlex hvar, value_through S.role.allows_hasFlex ht,
    value, ← norm_subst, norm_resolveDeep_binding hv, norm_subst]
  exact .refl _ _

theorem Satisfies.resolveDeep (sat : S.Satisfies θ) (hV : S.role.Allows V)
    (h : t.Fits G S.role.Has V k) :
    k.kind.Same ((S.registry.resolveDeep t).value θ) (t.value θ) :=
  Registry.Satisfies.bare_resolveDeep sat S.wellFormed_bare (hasKind hV h)

/-! ## Operations -/

open Check

section

variable {ε α β : Type} {Q : Stage G → α → Prop}

theorem leads_fromExcept {x : Except ε α} (h : ∀ a, x = .ok a → Q S a) :
    Leads At S (fromExcept x : Check ε α) Q := by
  cases x with
  | ok a => exact leads_pure (h a rfl)
  | error e => exact leads_throw e

theorem leads_registry_bind {f : Registry → Check ε α} (h : Leads At S (f S.registry) Q) :
    Leads At S (Check.registry >>= f) Q := by
  intro s hs
  have hrun : (Check.registry >>= f).run s = (f S.registry).run s := by
    rw [← (show s.registry = S.registry from hs)]
    rfl
  unfold after
  rw [hrun]
  exact h s hs

theorem leads_emit_bind {e : Event} {x : Check ε α} (h : Leads At S x Q) :
    Leads At S (emit e >>= fun _ => x) Q :=
  fun s hs => h { s with log := s.log.push e } hs

theorem leads_freshVar (k : Role) :
    Leads At S (freshVar : Check ε Ty) fun S' t => ∃ v, t = .flex v ∧ S'.role.Has (.flex v) k ∧
      S.registry.varCount ≤ v ∧ ∀ w, S'.registry.binding? w = S.registry.binding? w := by
  intro s hs
  refine ⟨S.addVar k, S.le_addVar k, ?_, fun t s' hrun => ?_⟩
  · exact congrArg Registry.addVar hs
  · cases hrun
    rw [show s.registry = S.registry from hs]
    exact ⟨_, rfl, S.addVar_has k, le_rfl, S.registry.binding?_addVar⟩

theorem leads_freshGen (k : Role) :
    Leads At S (freshGen : Check ε Nat) fun S' g => S'.role.Has (.gen g) k ∧
      S.registry.nextGen ≤ g := by
  intro s hs
  refine ⟨S.addGen k, S.le_addGen k, ?_, fun g s' hrun => ?_⟩
  · exact congrArg Registry.addGen hs
  · cases hrun
    rw [show s.registry = S.registry from hs]
    exact ⟨S.addGen_has k, le_rfl⟩

theorem leads_freshType : Leads At S (freshType : Check ε Nat) fun _ _ => True := by
  intro s hs
  refine ⟨S.rebase S.registry.addType (fun _ => rfl) le_rfl le_rfl, S.le_rebase _ _ _, ?_,
    fun _ _ _ => trivial⟩
  exact congrArg addType hs

theorem leads_located {x : Check TypeError α} (hx : Leads At S x Q) (span : Span) :
    Leads At S (located span x) Q := by
  intro s hs
  obtain ⟨S', hle, hat, hyield⟩ := hx s hs
  rw [after_located]
  exact ⟨S', hle, hat, fun a s' hrun => hyield a s' (run_located_ok.mp hrun)⟩

end

end Stage

end RowTyping
