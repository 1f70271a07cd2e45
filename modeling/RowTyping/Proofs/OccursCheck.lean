import RowTyping.Proofs.Reading
import RowTyping.Ty.Subst

/-!
# What the occurs check protects

The occurs check looks at the target of a synonym and not at the arguments it
was written with. It finds every way back to a variable as long as the
arguments of a synonym mention no variable that its target does not mention.
Then a binding that passes the check closes no cycle.
-/

namespace RowTyping

open Table Ty List

namespace Ty

variable {P Q : Ty → Prop} {t : Ty}

/-- A property of all subterms, the term itself included. -/
inductive All (P : Ty → Prop) : Ty → Prop where
  | intro (t : Ty) (here : P t) (parts : ∀ u ∈ t.children, All P u) : All P t

/-- A synonym's arguments mention only variables that its target mentions. -/
def ParamsInTarget : Ty → Prop
  | .synonym _ _ params target => ∀ p ∈ params, ∀ v, p.Mentions v → target.Mentions v
  | _ => True

/-- Every variable of a synonym's arguments stands in its target as well. -/
abbrev Covered : Ty → Prop := All ParamsInTarget

theorem All.here (h : All P t) : P t := by
  cases h with
  | intro _ here _ => exact here

theorem All.child {u : Ty} (h : All P t) (hu : u ∈ t.children) : All P u := by
  cases h with
  | intro _ _ parts => exact parts u hu

theorem All.imp (hPQ : ∀ t, P t → Q t) (h : All P t) : All Q t := by
  induction h with
  | intro t here _ ih => exact .intro t (hPQ t here) ih

theorem all_iff : All P t ↔ P t ∧ ∀ u ∈ t.children, All P u :=
  ⟨fun h => ⟨h.here, fun _ hu => h.child hu⟩, fun h => .intro t h.1 h.2⟩

section

variable {P : Ty → Prop}

@[simp] theorem all_var (x : TyVar) : All P (.var x) ↔ P (.var x) := by
  rw [all_iff]
  simp [children]

@[simp] theorem all_con (c : Con) (args : List Ty) :
    All P (.con c args) ↔ P (.con c args) ∧ ∀ t ∈ args, All P t :=
  all_iff

@[simp] theorem all_record (fs : Table Ty) (tail : Ty) :
    All P (.record fs tail) ↔ P (.record fs tail) ∧ (∀ e ∈ fs, All P e.2) ∧ All P tail := by
  rw [all_iff]
  simp only [children, forall_mem_append, forall_mem_map, forall_mem_singleton]

@[simp] theorem all_synonym (id : Nat) (labels : List String) (params : List Ty) (target : Ty) :
    All P (.synonym id labels params target) ↔
      P (.synonym id labels params target) ∧ (∀ p ∈ params, All P p) ∧ All P target := by
  rw [all_iff]
  simp only [children, forall_mem_append, forall_mem_singleton]

end

/-- Types hand `P` on to their parts, and have `Q` when parts that have it are put in the
place of theirs. -/
structure Rebuilds (P Q : Ty → Prop) : Prop where
  child : ∀ {t u : Ty}, P t → u ∈ t.children → P u
  con : ∀ {c : Con} {ts us : List Ty}, P (.con c ts) → us.length = ts.length → (∀ u ∈ us, Q u) →
    Q (.con c us)
  record : ∀ {fs : List (String × Ty)} {tail : Ty}, (∀ e ∈ fs, Q e.2) → Q tail → Q (.record fs tail)
  synonym : ∀ {id : Nat} {labels : List String} {ps qs : List Ty} {t u : Ty},
    P (.synonym id labels ps t) → (∀ q ∈ qs, Q q) → Q u → Q (.synonym id labels qs u)
  module : ∀ {name : String} {members : Env}, P (.module name members) → Q (.module name members)

theorem Rebuilds.record_inv (hPQ : Rebuilds P Q) {fs : Table Ty} {tail : Ty}
    (h : P (.record fs tail)) : (∀ e ∈ fs, P e.2) ∧ P tail :=
  ⟨fun e he => hPQ.child h (mem_children_record.mpr (.inl ⟨e, he, rfl⟩)),
    hPQ.child h (mem_children_record.mpr (.inr rfl))⟩

theorem Rebuilds.subst (hPQ : Rebuilds P Q) {f : TyVar → Ty} (h : P t)
    (hf : ∀ x ∈ t.occurrences, P (.var x) → Q (f x)) : Q (t.subst f) := by
  induction t using induct_children with
  | step t ih =>
    have hpart : ∀ u ∈ t.children, Q (u.subst f) := fun u hu =>
      ih u hu (hPQ.child h hu) fun x hx => hf x (mem_occurrences.mpr (.inr ⟨u, hu, hx⟩))
    cases t with
    | var x => exact hf x (by simp [occurrences]) h
    | con c args =>
      rw [Ty.subst, substList_eq]
      exact hPQ.con h (by simp) (forall_mem_map.mpr hpart)
    | record fs tail =>
      rw [Ty.subst, substFields_eq]
      exact hPQ.record
        (forall_mem_map.mpr fun e he => hpart e.2 (mem_children_record.mpr (.inl ⟨e, he, rfl⟩)))
        (hpart tail (mem_children_record.mpr (.inr rfl)))
    | synonym id labels params target =>
      rw [Ty.subst, substList_eq]
      exact hPQ.synonym h (forall_mem_map.mpr fun p hp => hpart p (mem_append_left _ hp))
        (hpart target (by simp [children]))
    | module name members => exact hPQ.module h

@[simp] theorem paramsInTarget_var (x : TyVar) : (var x).ParamsInTarget := trivial

@[simp] theorem paramsInTarget_con (c : Con) (args : List Ty) : (con c args).ParamsInTarget :=
  trivial

@[simp] theorem paramsInTarget_record (fs : Table Ty) (tail : Ty) :
    (record fs tail).ParamsInTarget :=
  trivial

theorem covered_var (x : TyVar) : (var x).Covered := by simp

theorem covered_con {c : Con} {args : List Ty} : (con c args).Covered ↔ ∀ t ∈ args, t.Covered := by
  simp

theorem covered_record {fs : Table Ty} {tail : Ty} :
    (record fs tail).Covered ↔ (∀ e ∈ fs, e.2.Covered) ∧ tail.Covered := by
  simp

theorem covered_synonym {id : Nat} {labels : List String} {params : List Ty} {target : Ty} :
    (synonym id labels params target).Covered ↔
      (∀ p ∈ params, ∀ v, p.Mentions v → target.Mentions v) ∧
        (∀ p ∈ params, p.Covered) ∧ target.Covered := by
  simp [ParamsInTarget]

end Ty

namespace Registry

variable {r : Registry} {P Q : Ty → Prop} {t : Ty} {v : Nat}

/-- A property of every binding. -/
def AllBindings (r : Registry) (P : Ty → Prop) : Prop := ∀ v t, r.binding? v = some t → P t

/-- A property that passes from variables to what they are bound to. -/
def Passes (r : Registry) (P : Ty → Prop) : Prop := ∀ v t, P (.flex v) → r.binding? v = some t → P t

theorem Passes.follow (hb : r.Passes P) (ht : P t) (n : Nat) : P (r.follow n t) := by
  induction n generalizing t with
  | zero => exact ht
  | succ n ih =>
    by_cases hflex : ∃ v, t = .flex v
    · obtain ⟨v, rfl⟩ := hflex
      rw [Registry.follow]
      cases hv : r.binding? v with
      | none => exact ht
      | some u => exact ih (hb v u ht hv)
    · rwa [follow_of_not_flex fun v hv => hflex ⟨v, hv⟩]

/-- What passes to the parts of a type passes to its whole row. -/
theorem Passes.collect (hb : r.Passes P) (hPQ : Rebuilds P Q) (ht : P t) (n : Nat)
    {fields : Table Ty} (hfields : ∀ e ∈ fields, P e.2) :
    (∀ e ∈ (r.collect n fields t).fields, P e.2) ∧ P (r.collect n fields t).tail := by
  induction n generalizing fields t with
  | zero => exact ⟨hfields, hb.follow ht _⟩
  | succ n ih =>
    have hres : P (r.resolve t) := hb.follow ht _
    rw [Registry.collect]
    split
    · next heq =>
      obtain ⟨hfs, htail⟩ := hPQ.record_inv (heq ▸ hres)
      exact ih htail fun e he => (mem_union he).elim (hfields e) (hfs e)
    · exact ⟨hfields, hres⟩

theorem Passes.row (hb : r.Passes P) (hPQ : Rebuilds P Q) (ht : P t) :
    (∀ e ∈ (r.row t).fields, P e.2) ∧ P (r.row t).tail :=
  hb.collect hPQ ht _ (by simp)

theorem Passes.resolveDeepN (hb : r.Passes P) (hP : Rebuilds P P) (hunit : P .unit) (ht : P t)
    (n : Nat) : P (r.resolveDeepN n t) := by
  induction n generalizing t with
  | zero => exact hunit
  | succ n ih =>
    have hres : P (r.resolve t) := hb.follow ht _
    rw [Registry.resolveDeepN]
    cases heq : r.resolve t with
    | var x => rwa [heq] at hres
    | con c args =>
      rw [heq] at hres
      exact hP.con hres (by simp) (forall_mem_map.mpr fun u hu => ih (hP.child hres hu))
    | record fs tail =>
      rw [heq] at hres
      obtain ⟨hfields, htail⟩ := hb.row hP hres
      exact hP.record (forall_mem_map.mpr fun e he => ih (hfields e he)) htail
    | synonym id labels params target =>
      rw [heq] at hres
      exact hP.synonym hres
        (forall_mem_map.mpr fun p hp => ih (hP.child hres (mem_append_left _ hp)))
        (ih (hP.child hres (by simp [children])))
    | module name members => rwa [heq] at hres

theorem AllBindings.passes (hb : r.AllBindings P) : r.Passes P :=
  fun v t _ => hb v t

theorem AllBindings.resolve (hb : r.AllBindings P) (hr : r.Acyclic) (ht : P t) :
    P (r.resolve t) := by
  induction t using resolve_induct hr with
  | bound v u hv ih =>
    rw [resolve_some hr hv]
    exact ih (hb v u hv)
  | done t hdone => rwa [hdone.resolve]

/-- What the parts of a type have, the fields of its row have; what passes to
parts, passes to what the row ends in. -/
theorem AllBindings.row (hb : r.AllBindings P) (hr : r.Acyclic)
    (child : ∀ {t u : Ty}, P t → u ∈ t.children → Q u) (weaken : ∀ {t : Ty}, Q t → P t) (ht : P t) :
    (∀ e ∈ (r.row t).fields, Q e.2) ∧ P (r.row t).tail := by
  refine row_induct hr (motive := fun t row => P t → (∀ e ∈ row.fields, Q e.2) ∧ P row.tail)
    ?_ ?_ t ht
  · intro t fs tail heq ih ht
    have hrec : P (.record fs tail) := heq ▸ hb.resolve hr ht
    obtain ⟨hfields, htail⟩ := ih (weaken (child hrec (by simp [children])))
    refine ⟨fun e he => ?_, htail⟩
    rcases mem_union he with he | he
    · rcases mem_union he with he | he
      · simp at he
      · refine child hrec ?_
        simp only [children, mem_append, mem_map]
        exact .inl ⟨e, he, rfl⟩
    · exact hfields e he
  · intro t _ ht
    exact ⟨by simp, hb.resolve hr ht⟩

/-- Some variable of the type leads to `v`. -/
def Reaches (r : Registry) (t : Ty) (v : Nat) : Prop :=
  ∃ w, t.Mentions w ∧ Relation.ReflTransGen r.Edge w v

/-- From an open variable no edge leads on. -/
theorem eq_of_reaches_open {w : Nat} (h : Relation.ReflTransGen r.Edge w v)
    (hw : r.binding? w = none) : w = v := by
  rcases h.cases_head with h | ⟨x, ⟨t, ht, -⟩, -⟩
  · exact h
  · rw [hw] at ht
    cases ht

theorem Reaches.resolve (hr : r.Acyclic) (hv : r.binding? v = none) (h : r.Reaches t v) :
    r.Reaches (r.resolve t) v := by
  induction t using resolve_induct hr with
  | bound u t hb ih =>
    rw [resolve_some hr hb]
    obtain ⟨w, hw, hwv⟩ := h
    cases mentions_flex.mp hw
    rcases hwv.cases_head with rfl | ⟨x, ⟨t', ht', hx⟩, hxv⟩
    · rw [hb] at hv
      cases hv
    · rw [hb] at ht'
      cases ht'
      exact ih ⟨x, hx, hxv⟩
  | done t ht => rwa [ht.resolve]

/-- The search finds an open variable wherever the bindings lead to it. -/
theorem occurs_of_reaches (hr : r.Acyclic) (hcov : r.AllBindings Covered) (hv : r.binding? v = none)
    (ht : t.Covered) (h : r.Reaches t v) : r.occurs v t = true := by
  induction t using part_induct hr with
  | step t ih =>
    obtain ⟨w, hw, hwv⟩ := h.resolve hr hv
    have hcovered : (r.resolve t).Covered := hcov.resolve hr ht
    have below : ∀ u ∈ (r.resolve t).children, r.Reaches u v → r.occurs v u = true :=
      fun u hu hreach => ih u (.inl hu) (hcovered.child hu) hreach
    rw [occurs_eq hr, occursStep]
    rcases mem_occurrences.mp hw with heq | ⟨u, hu, hwu⟩
    · rw [heq]
      simp [eq_of_reaches_open hwv (resolved_resolve hr t w heq)]
    · have hfound := below u hu ⟨w, hwu, hwv⟩
      cases hform : r.resolve t with
      | var x => simp [hform, children] at hu
      | con c args =>
        rw [hform] at hu
        exact any_eq_true.mpr ⟨u, hu, hfound⟩
      | record fs tail =>
        rw [hform] at hu
        rw [Bool.or_eq_true]
        rcases mem_children_record.mp hu with ⟨e, he, rfl⟩ | rfl
        · exact .inl (any_eq_true.mpr ⟨e, he, hfound⟩)
        · exact .inr hfound
      | synonym id labels params target =>
        -- the search reads the target only: a variable of an argument is in the target too
        have htarget : r.Reaches target v := by
          have hlocal := hcovered.here
          simp only [hform, children, mem_append, mem_singleton] at hu
          rw [hform] at hlocal
          rcases hu with hu | rfl
          · exact ⟨w, hlocal u hu w hwu, hwv⟩
          · exact ⟨w, hwu, hwv⟩
        exact below target (by simp [hform, children]) htarget
      | module name members => simp [hform, children] at hu

theorem edge_setBinding {x y : Nat} (h : (r.setBinding v t).Edge x y) :
    r.Edge x y ∨ (x = v ∧ t.Mentions y) := by
  obtain ⟨u, hu, hy⟩ := h
  rcases binding?_setBinding_inv hu with ⟨rfl, rfl⟩ | hu
  · exact .inr ⟨rfl, hy⟩
  · exact .inl ⟨u, hu, hy⟩

/-- A binding that does not lead back to its variable closes no cycle. -/
theorem Acyclic.setBinding (hr : r.Acyclic) (hv : r.binding? v = none) (ht : ¬ r.Reaches t v) :
    (r.setBinding v t).Acyclic := by
  -- from the variables of `t` the new edges are never met
  have old : ∀ w, t.Mentions w → ∀ y, Relation.ReflTransGen (r.setBinding v t).Edge w y →
      Relation.ReflTransGen r.Edge w y := by
    intro w hw y hy
    induction hy with
    | refl => exact .refl
    | tail _ hyz ih =>
      rcases edge_setBinding hyz with hyz | ⟨rfl, -⟩
      · exact ih.tail hyz
      · exact absurd ⟨w, hw, ih⟩ ht
  have back : ¬ Relation.TransGen (r.setBinding v t).Edge v v := by
    intro h
    obtain ⟨w, hvw, hwv⟩ := Relation.TransGen.head'_iff.mp h
    rcases edge_setBinding hvw with ⟨u, hu, -⟩ | ⟨-, hw⟩
    · rw [hv] at hu
      cases hu
    · exact ht ⟨w, hw, old w hw v hwv⟩
  -- a cycle that avoids `v` was there before
  have split : ∀ x y, Relation.TransGen (r.setBinding v t).Edge x y →
      Relation.TransGen r.Edge x y ∨
        (Relation.ReflTransGen (r.setBinding v t).Edge x v ∧
          Relation.TransGen (r.setBinding v t).Edge v y) := by
    intro x y h
    induction h with
    | single hxy =>
      rcases edge_setBinding hxy with h | ⟨rfl, hy⟩
      · exact .inl (.single h)
      · exact .inr ⟨.refl, .single hxy⟩
    | tail hxy hyz ih =>
      rcases ih with ih | ⟨hxv, hvy⟩
      · rcases edge_setBinding hyz with h | ⟨rfl, -⟩
        · exact .inl (ih.tail h)
        · exact .inr ⟨hxy.to_reflTransGen, .single hyz⟩
      · exact .inr ⟨hxv, hvy.tail hyz⟩
  intro x hx
  rcases split x x hx with h | ⟨hxv, hvx⟩
  · exact hr x h
  · exact back (hvx.trans_left hxv)

/-- With fewer bindings there are no more cycles. -/
theorem Acyclic.of_binding? {r' : Registry} (hr : r.Acyclic)
    (h : ∀ v t, r'.binding? v = some t → r.binding? v = some t) : r'.Acyclic := by
  intro v hv
  refine hr v (hv.lift id ?_)
  rintro x y ⟨t, ht, hy⟩
  exact ⟨t, h x t ht, hy⟩

/-- Bindings to earlier variables close no cycle. -/
theorem acyclic_of_scoped (h : ∀ v t, r.binding? v = some t → t.Scoped v) : r.Acyclic := by
  have descends : ∀ v w, Relation.TransGen r.Edge v w → w < v := by
    intro v w hvw
    induction hvw with
    | single hvw =>
      obtain ⟨t, ht, hw⟩ := hvw
      exact h v t ht _ hw
    | tail _ hwx ih =>
      obtain ⟨t, ht, hx⟩ := hwx
      exact (h _ t ht _ hx).trans ih
  exact fun v hv => Nat.lt_irrefl v (descends v v hv)

theorem acyclic_setBinding (hr : ∀ w u, r.binding? w ≠ some u) (ht : t.Scoped v) :
    (r.setBinding v t).Acyclic :=
  acyclic_of_scoped (forall_setBinding hr ht)

theorem Acyclic.addVar (hr : r.Acyclic) : r.addVar.Acyclic :=
  hr.of_binding? fun v t h => by simpa using h

end Registry

end RowTyping
