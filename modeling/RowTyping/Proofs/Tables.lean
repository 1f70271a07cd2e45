import Mathlib.Data.List.Perm.Subperm
import Mathlib.Data.String.Basic
import RowTyping.Table

/-!
# Tables as finite maps

A sorted table is determined by its lookups, so equality of tables is shown
label by label. The operations that rows are built with keep tables sorted,
and each has one equation that says what a lookup sees afterwards.
-/

namespace RowTyping

open List Option Table

namespace Table

variable {α β : Type} {t u : Table α} {k : String} {a : α} {e : String × α}

/-- The names increase strictly. -/
def Sorted (t : Table α) : Prop := t.Pairwise fun e f => e.1 < f.1

/-- The table with a function applied to every entry. -/
def mapValues (f : α → β) (t : Table α) : Table β := t.map fun e => (e.1, f e.2)

/-- The entries whose names have a property. -/
def restrict (p : String → Bool) (t : Table α) : Table α := t.filter fun e => p e.1

/-! ## Members and lookups -/

theorem mem_of_lookup (h : t.lookup k = some a) : (k, a) ∈ t := by
  induction t with
  | nil => simp at h
  | cons e t ih =>
    obtain ⟨l, b⟩ := e
    rw [lookup_entry] at h
    split at h
    · next hk => simp_all
    · exact mem_cons_of_mem _ (ih h)

theorem lookup_eq_none : t.lookup k = none ↔ ∀ e ∈ t, e.1 ≠ k := by
  rw [lookup_eq_none_iff]
  constructor
  · intro h e he hk
    simpa [hk] using h e he
  · intro h e he
    simpa using (h e he).symm

theorem isSome_lookup_of_mem (h : e ∈ t) : (t.lookup e.1).isSome := by
  cases hk : t.lookup e.1 with
  | none => exact absurd rfl (lookup_eq_none.mp hk e h)
  | some a => rfl

theorem mem_insert (h : e ∈ insert k a t) : e = (k, a) ∨ e ∈ t := by
  induction t with
  | nil => simpa [insert] using h
  | cons f t ih =>
    simp only [insert] at h
    split at h
    · simpa using h
    · split at h
      · rcases mem_cons.mp h with h | h
        · exact .inl h
        · exact .inr (mem_cons_of_mem _ h)
      · rcases mem_cons.mp h with rfl | h
        · exact .inr (by simp)
        · exact (ih h).imp_right (mem_cons_of_mem _)

theorem mem_insertNew (h : e ∈ insertNew k a t) : e = (k, a) ∨ e ∈ t := by
  unfold insertNew at h
  split at h
  · exact .inr h
  · exact mem_insert h

theorem mem_union (h : e ∈ t.union u) : e ∈ t ∨ e ∈ u := by
  induction u generalizing t with
  | nil => exact .inl h
  | cons f u ih =>
    rcases ih h with h | h
    · rcases mem_insertNew h with rfl | h
      · exact .inr (by simp)
      · exact .inl h
    · exact .inr (mem_cons_of_mem _ h)

theorem mem_ofList {entries : List (String × α)} (h : e ∈ ofList entries) : e ∈ entries := by
  suffices hfold : ∀ (entries : List (String × α)) t,
      e ∈ entries.foldl (fun t e => insert e.1 e.2 t) t → e ∈ t ∨ e ∈ entries from
    (hfold entries [] h).resolve_left (by simp)
  intro entries
  induction entries with
  | nil => exact fun t h => .inl h
  | cons d entries ih =>
    intro t h
    rcases ih _ h with h | h
    · rcases mem_insert h with rfl | h
      · exact .inr (by simp)
      · exact .inl h
    · exact .inr (mem_cons_of_mem d h)

/-- An entry whose name comes once is found. -/
theorem lookup_ofList {entries : List (String × α)} (hnodup : (entries.map (·.1)).Nodup)
    (h : e ∈ entries) : (ofList entries).lookup e.1 = some e.2 := by
  suffices hfold : ∀ (entries : List (String × α)) t, (entries.map (·.1)).Nodup →
      (e ∈ entries ∨ e.1 ∉ entries.map (·.1) ∧ t.lookup e.1 = some e.2) →
      (entries.foldl (fun t e => insert e.1 e.2 t) t).lookup e.1 = some e.2 from
    hfold entries [] hnodup (.inl h)
  intro entries
  induction entries with
  | nil =>
    rintro t - (h | h)
    · simp at h
    · exact h.2
  | cons d entries ih =>
    intro t hnodup h
    rw [map_cons, nodup_cons] at hnodup
    refine ih _ hnodup.2 ?_
    rcases h with h | ⟨hnot, h⟩
    · rcases mem_cons.mp h with rfl | h
      · exact .inr ⟨hnodup.1, by rw [lookup_insert, if_pos rfl]⟩
      · exact .inl h
    · rw [map_cons, mem_cons, not_or] at hnot
      exact .inr ⟨hnot.2, by rw [lookup_insert, if_neg hnot.1, h]⟩

/-- The values of a table with a new entry. -/
theorem exists_lookup_insert {b : α} (hk : t.lookup k = none) :
    (∃ l, (insert k a t).lookup l = some b) ↔ (∃ l, t.lookup l = some b) ∨ b = a := by
  constructor
  · rintro ⟨l, hl⟩
    rw [lookup_insert] at hl
    split at hl
    · exact .inr (some.inj hl).symm
    · exact .inl ⟨l, hl⟩
  · rintro (⟨l, hl⟩ | rfl)
    · refine ⟨l, ?_⟩
      rw [lookup_insert, if_neg]
      · exact hl
      · rintro rfl
        rw [hk] at hl
        cases hl
    · exact ⟨k, by rw [lookup_insert, if_pos rfl]⟩

@[simp] theorem lookup_union (t u : Table α) (k : String) :
    (t.union u).lookup k = (t.lookup k).or (u.lookup k) := by
  induction u generalizing t with
  | nil => simp [union]
  | cons f u ih =>
    have step : t.union (f :: u) = (insertNew f.1 f.2 t).union u := rfl
    rw [step, ih, lookup_insertNew, lookup_entry, Option.or_assoc]
    by_cases hk : k = f.1 <;> simp [hk]

@[simp] theorem lookup_mapValues (f : α → β) (t : Table α) (k : String) :
    (t.mapValues f).lookup k = (t.lookup k).map f := by
  induction t with
  | nil => rfl
  | cons e t ih =>
    have step : mapValues f (e :: t) = (e.1, f e.2) :: mapValues f t := rfl
    rw [step, lookup_entry, lookup_entry, ih]
    split <;> simp

@[simp] theorem mapValues_mapValues {γ : Type} (f : α → β) (g : β → γ) (t : Table α) :
    (t.mapValues f).mapValues g = t.mapValues (g ∘ f) := by
  simp [mapValues]

theorem mapValues_congr {f g : α → β} (h : ∀ e ∈ t, f e.2 = g e.2) :
    t.mapValues f = t.mapValues g :=
  map_congr_left fun e he => by rw [h e he]

@[simp] theorem lookup_restrict (p : String → Bool) (t : Table α) (k : String) :
    (t.restrict p).lookup k = if p k then t.lookup k else none := by
  induction t with
  | nil => simp [restrict]
  | cons e t ih =>
    unfold restrict at ih ⊢
    rw [filter_cons]
    by_cases hk : k = e.1
    · by_cases hp : p e.1
      · rw [if_pos hp, lookup_entry, lookup_entry, if_pos hk, if_pos hk, hk, if_pos hp]
      · rw [if_neg hp, ih]
        simp [hk, hp]
    · by_cases hp : p e.1
      · rw [if_pos hp, lookup_entry, lookup_entry, if_neg hk, if_neg hk, ih]
      · rw [if_neg hp, ih, lookup_entry, if_neg hk]

/-! ## Order -/

namespace Sorted

variable {t u : Table α}

theorem nil : Sorted ([] : Table α) := Pairwise.nil

theorem insert (h : t.Sorted) (k : String) (a : α) : (insert k a t).Sorted := by
  induction t with
  | nil => simp [Table.insert, Sorted]
  | cons e t ih =>
    obtain ⟨he, ht⟩ := pairwise_cons.mp h
    simp only [Table.insert]
    split
    · next hk =>
      refine pairwise_cons.mpr ⟨?_, h⟩
      intro f hf
      rcases mem_cons.mp hf with rfl | hf
      · exact hk
      · exact lt_trans hk (he f hf)
    · next hk =>
      split
      · next heq =>
        refine pairwise_cons.mpr ⟨?_, ht⟩
        intro f hf
        exact heq ▸ he f hf
      · next hne =>
        have hlt : e.1 < k := lt_of_le_of_ne (not_lt.mp hk) (Ne.symm hne)
        refine pairwise_cons.mpr ⟨?_, ih ht⟩
        intro f hf
        rcases mem_insert hf with rfl | hf
        · exact hlt
        · exact he f hf

theorem insertNew (h : t.Sorted) (k : String) (a : α) : (insertNew k a t).Sorted := by
  unfold Table.insertNew
  split
  · exact h
  · exact h.insert k a

theorem union (h : t.Sorted) (u : Table α) : (t.union u).Sorted := by
  induction u generalizing t with
  | nil => exact h
  | cons e u ih => exact ih (h.insertNew e.1 e.2)

theorem mapValues (h : t.Sorted) (f : α → β) : (t.mapValues f).Sorted := by
  unfold Table.mapValues Sorted
  rw [pairwise_map]
  exact h

theorem of_mapValues {f : α → β} (h : (t.mapValues f).Sorted) : t.Sorted := by
  rw [Sorted, Table.mapValues, pairwise_map] at h
  exact h

theorem restrict (h : t.Sorted) (p : String → Bool) : (t.restrict p).Sorted :=
  Pairwise.filter _ h

theorem lookup_of_mem (h : t.Sorted) {e : String × α} (he : e ∈ t) : t.lookup e.1 = some e.2 := by
  induction t with
  | nil => simp at he
  | cons f t ih =>
    obtain ⟨hf, ht⟩ := pairwise_cons.mp h
    rw [lookup_entry]
    rcases mem_cons.mp he with rfl | he
    · simp
    · rw [if_neg (ne_of_gt (hf e he)), ih ht he]

theorem subperm (ht : t.Sorted) (h : t ⊆ u) : t.Subperm u := by
  refine Nodup.subperm (Pairwise.imp ?_ ht) h
  intro e f hef heq
  exact absurd (heq ▸ hef) (lt_irrefl _)

/-- A sorted table has no other sorted table of its size inside. -/
theorem eq_of_subset (ht : t.Sorted) (hu : u.Sorted) (h : t ⊆ u) (hlen : u.length ≤ t.length) :
    t = u := by
  refine Perm.eq_of_pairwise ?_ ht hu ((ht.subperm h).perm_of_length_le hlen)
  intro e f _ _ hef hfe
  exact absurd (lt_trans hef hfe) (lt_irrefl _)

/-- A sorted table is what its lookups are. -/
theorem ext (ht : t.Sorted) (hu : u.Sorted) (h : ∀ k, t.lookup k = u.lookup k) : t = u := by
  have sub : ∀ {v w : Table α}, v.Sorted → (∀ k, v.lookup k = w.lookup k) → v ⊆ w := by
    intro v w hv hvw e he
    exact mem_of_lookup (hvw e.1 ▸ hv.lookup_of_mem he)
  exact ht.eq_of_subset hu (sub ht h) (hu.subperm (sub hu fun k => (h k).symm)).length_le

end Sorted

theorem union_congr {w : Table α} (ht : t.Sorted) (h : ∀ k, u.lookup k = w.lookup k) :
    t.union u = t.union w :=
  (ht.union u).ext (ht.union w) fun k => by simp [h]

theorem union_assoc (ht : t.Sorted) (u w : Table α) : (t.union u).union w = t.union (u.union w) :=
  ((ht.union u).union w).ext (ht.union _) fun k => by simp [Option.or_assoc]

theorem union_nil (h : t.Sorted) : union [] t = t :=
  (Sorted.nil.union t).ext h fun k => by simp

/-! ## Size -/

theorem sizeOf_insert [SizeOf α] (a : α) (h : t.lookup k = none) :
    sizeOf (insert k a t) = sizeOf t + sizeOf (k, a) + 1 := by
  induction t with
  | nil => simp [insert]
  | cons e t ih =>
    obtain ⟨k', b⟩ := e
    rw [lookup_entry] at h
    split at h
    · cases h
    · next hk =>
      simp only [insert, if_neg hk]
      split
      · simp only [cons.sizeOf_spec]
        omega
      · simp only [cons.sizeOf_spec, ih h]
        omega

/-- Tables without a common name are put together without loss. -/
theorem sizeOf_union [SizeOf α] (hu : u.Sorted) (h : ∀ e ∈ u, t.lookup e.1 = none) :
    sizeOf (t.union u) + 1 = sizeOf t + sizeOf u := by
  induction u generalizing t with
  | nil => simp [union]
  | cons e u ih =>
    obtain ⟨k, a⟩ := e
    obtain ⟨hk, hrest⟩ := pairwise_cons.mp hu
    obtain ⟨hnew, hothers⟩ := forall_mem_cons.mp h
    replace hnew : t.lookup k = none := hnew
    have step : t.union ((k, a) :: u) = (insert k a t).union u := by
      show (insertNew k a t).union u = _
      rw [insertNew, hnew]
      rfl
    have hlook : ∀ e ∈ u, (insert k a t).lookup e.1 = none := by
      intro e he
      rw [lookup_insert, if_neg (ne_of_gt (hk e he)), hothers e he]
    rw [step, ih hrest hlook, sizeOf_insert a hnew, cons.sizeOf_spec]
    omega

end Table

end RowTyping
