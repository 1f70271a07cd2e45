import Mathlib.Data.Finset.Card
import Mathlib.Data.Finset.Range
import Mathlib.Logic.Relation
import RowTyping.Registry.Resolve

/-!
# The graph of the bindings

A bound variable points to every variable that its binding mentions, the
arguments of synonyms included. Where this graph has no cycle, every variable
has a rank that falls along each edge and never exceeds the number of cells.
The rank is what bounds all reading through the bindings.
-/

namespace RowTyping

open Finset List Option Ty

namespace Ty

/-- The immediate parts of a type. Module members are no parts of it. -/
def children : Ty → List Ty
  | .var _ => []
  | .con _ args => args
  | .record fields tail => fields.map (·.2) ++ [tail]
  | .synonym _ _ params target => params ++ [target]
  | .module _ _ => []

/-- The variable stands somewhere in the term. -/
def Mentions (t : Ty) (v : Nat) : Prop := TyVar.flex v ∈ t.occurrences

/-- All variables of the term are among the first `n`. -/
def Scoped (n : Nat) (t : Ty) : Prop := ∀ v, t.Mentions v → v < n

/-! ## Parts, variables and heights -/

theorem mem_children_record {fs : Table Ty} {tail u : Ty} :
    u ∈ (record fs tail).children ↔ (∃ e ∈ fs, e.2 = u) ∨ u = tail := by
  simp [children]

theorem mem_occurrences {x : TyVar} {t : Ty} :
    x ∈ t.occurrences ↔ t = .var x ∨ ∃ u ∈ t.children, x ∈ u.occurrences := by
  cases t with
  | record fields tail =>
    simp only [occurrences, occurrencesFields_eq, children, List.mem_append, List.mem_flatMap,
      List.mem_map, List.mem_singleton, reduceCtorEq, false_or, or_and_right, exists_or]
    simp
  | _ => simp [occurrences, children, eq_comm, or_and_right, exists_or]

theorem height_lt_of_mem_children {u t : Ty} (h : u ∈ t.children) : u.height < t.height := by
  cases t with
  | var x => simp [children] at h
  | con c args =>
    have := height_le_heightList (show u ∈ args from h)
    simp only [height]
    omega
  | record fields tail =>
    simp only [children, List.mem_append, List.mem_map, List.mem_singleton] at h
    simp only [height]
    rcases h with ⟨e, he, rfl⟩ | rfl
    · have := height_le_heightFields he
      omega
    · omega
  | synonym id labels params target =>
    simp only [children, List.mem_append, List.mem_singleton] at h
    simp only [height]
    rcases h with h | rfl
    · have := height_le_heightList h
      omega
    · omega
  | module name members => simp [children] at h

theorem eq_record_of_isRecord {t : Ty} (h : t.isRecord = true) :
    ∃ fs tail, t = .record fs tail := by
  cases t with
  | record fs tail => exact ⟨fs, tail, rfl⟩
  | _ => simp [isRecord] at h

theorem heightFields_le {fs : Table Ty} {h : Nat} (hfs : ∀ e ∈ fs, e.2.height ≤ h) :
    heightFields fs ≤ h := by
  induction fs with
  | nil => simp [heightFields]
  | cons e fs ih =>
    have he := hfs e (by simp)
    have := ih fun f hf => hfs f (mem_cons_of_mem _ hf)
    rw [heightFields]
    omega

/-- Induction over the parts of a type, whatever role they play. -/
theorem induct_children {motive : Ty → Prop}
    (step : ∀ t, (∀ u ∈ t.children, motive u) → motive t) (t : Ty) : motive t := by
  suffices h : ∀ n t, t.height ≤ n → motive t from h t.height t le_rfl
  intro n
  induction n with
  | zero =>
    intro t ht
    refine step t fun u hu => ?_
    have := height_lt_of_mem_children hu
    omega
  | succ n ih =>
    intro t ht
    refine step t fun u hu => ih u ?_
    have := height_lt_of_mem_children hu
    omega

theorem mentions_flex {v w : Nat} : (flex v).Mentions w ↔ v = w := by
  simp [Mentions, occurrences, eq_comm]

theorem Mentions.of_child {u t : Ty} {v : Nat} (h : u.Mentions v) (hu : u ∈ t.children) :
    t.Mentions v :=
  mem_occurrences.mpr (.inr ⟨u, hu, h⟩)

end Ty

namespace Registry

variable {r : Registry}

@[simp] theorem binding?_empty (v : Nat) : ({} : Registry).binding? v = none := by
  simp [binding?]

theorem binding?_of_le {v : Nat} (h : r.varCount ≤ v) : r.binding? v = none := by
  cases hv : r.binding? v with
  | none => rfl
  | some t => exact absurd (lt_varCount_of_binding? hv) (Nat.not_lt.mpr h)

/-- A binding after one was set is that one, or was there before. -/
theorem binding?_setBinding_inv {v w : Nat} {t u : Ty}
    (h : (r.setBinding v t).binding? w = some u) : w = v ∧ u = t ∨ r.binding? w = some u := by
  rw [binding?_setBinding] at h
  split at h
  · next hv => exact .inl ⟨hv.1.symm, (some.inj h).symm⟩
  · exact .inr h

/-- What holds of the only binding holds of every binding. -/
theorem forall_setBinding {P : Nat → Ty → Prop} {v : Nat} {t : Ty}
    (hr : ∀ w u, r.binding? w ≠ some u) (h : P v t) (w : Nat) (u : Ty)
    (hw : (r.setBinding v t).binding? w = some u) : P w u := by
  obtain ⟨rfl, rfl⟩ := (binding?_setBinding_inv hw).resolve_right (hr w u)
  exact h

/-- Every binding is over issued variables. -/
def Scoped (r : Registry) : Prop := ∀ v t, r.binding? v = some t → t.Scoped r.varCount

/-- The first variable is bound to a type that mentions the second. -/
def Edge (r : Registry) (v w : Nat) : Prop := ∃ t, r.binding? v = some t ∧ t.Mentions w

/-- No variable is part of what it is bound to, however far the bindings are
followed. -/
def Acyclic (r : Registry) : Prop := ∀ v, ¬ Relation.TransGen r.Edge v v

open Classical in
/-- The number of bound variables that a variable leads to, itself included. -/
noncomputable def rank (r : Registry) (v : Nat) : Nat :=
  ((Finset.range r.varCount).filter fun w =>
    (r.binding? w).isSome ∧ Relation.ReflTransGen r.Edge v w).card

open Classical in
theorem rank_le (r : Registry) (v : Nat) : r.rank v ≤ r.varCount :=
  (card_filter_le _ _).trans_eq (card_range _)

theorem rank_pos {v : Nat} {t : Ty} (h : r.binding? v = some t) : 0 < r.rank v := by
  refine card_pos.mpr ⟨v, ?_⟩
  simp only [Finset.mem_filter, Finset.mem_range]
  exact ⟨lt_varCount_of_binding? h, by simp [h], .refl⟩

/-- The rank falls along every edge: what `w` leads to, `v` leads to as well,
and only `v` leads to itself. -/
theorem rank_lt (hr : r.Acyclic) {v w : Nat} (h : r.Edge v w) : r.rank w < r.rank v := by
  obtain ⟨t, ht, -⟩ := id h
  refine card_lt_card (ssubset_iff_of_subset ?_ |>.mpr ⟨v, ?_, ?_⟩)
  · intro x hx
    simp only [Finset.mem_filter, Finset.mem_range] at hx ⊢
    exact ⟨hx.1, hx.2.1, .head h hx.2.2⟩
  · simp only [Finset.mem_filter, Finset.mem_range]
    exact ⟨lt_varCount_of_binding? ht, by simp [ht], .refl⟩
  · simp only [Finset.mem_filter, not_and]
    intro _ _ hwv
    exact hr v (.head' h hwv)

end Registry

end RowTyping
