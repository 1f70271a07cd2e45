import RowTyping.Proofs.FreshInstances

/-!
# Substitution under quantifiers

A substitution passes the quantified variables of a scheme by, but it does not look
at what it puts in the place of the others. Where a type that it puts in mentions a
quantified variable, that variable is captured: it was free and is quantified
afterwards. Schemes that differ only in the choice of their quantifiers stay so under
exactly the substitutions that capture nothing.
-/

namespace RowTyping

open Ty List

/-- Two substitutions do the same to a term exactly when they agree on its variables. -/
theorem Ty.subst_eq_subst_iff {f g : TyVar → Ty} {t : Ty} :
    t.subst f = t.subst g ↔ ∀ x ∈ t.vars, f x = g x := by
  simp only [vars, mem_distinct]
  refine ⟨fun h x hx => ?_, subst_congr⟩
  induction t with
  | var y =>
    obtain rfl : x = y := by simpa [occurrences] using hx
    exact h
  | con c args ih =>
    obtain ⟨t, ht, hx⟩ := by simpa [occurrences] using hx
    simp only [subst, substList_eq, con.injEq, true_and, map_inj_left] at h
    exact ih t ht (h t ht) hx
  | record fs tail ihf iht =>
    simp only [subst, substFields_eq, record.injEq, map_inj_left, Prod.mk.injEq, true_and] at h
    simp only [occurrences, occurrencesFields_eq, mem_append, mem_flatMap] at hx
    obtain ⟨e, he, hx⟩ | hx := hx
    · exact ihf e he (h.1 e he) hx
    · exact iht h.2 hx
  | synonym id labels params target ihp iht =>
    simp only [subst, substList_eq, synonym.injEq, true_and, map_inj_left] at h
    simp only [occurrences, occurrencesList_eq, mem_append, mem_flatMap] at hx
    obtain ⟨t, ht, hx⟩ | hx := hx
    · exact ihp t ht (h.1 t ht) hx
    · exact iht h.2 hx
  | module name members => simp [occurrences] at hx

theorem Ty.mem_vars_subst {f : TyVar → Ty} {t : Ty} {y : TyVar} :
    y ∈ (t.subst f).vars ↔ ∃ x ∈ t.vars, y ∈ (f x).vars := by
  simp [vars, occurrences_subst]

namespace Scheme

/-- The variable is quantified by the scheme. -/
def Binds (σ : Scheme) (x : TyVar) : Prop := ∃ g ∈ σ.vars, x = .gen g

instance (σ : Scheme) (x : TyVar) : Decidable (σ.Binds x) :=
  inferInstanceAs (Decidable (∃ g ∈ σ.vars, x = .gen g))

/-- The variable stands in the body and is not quantified. -/
def Free (σ : Scheme) (x : TyVar) : Prop := x ∈ σ.body.vars ∧ ¬ σ.Binds x

instance (σ : Scheme) (x : TyVar) : Decidable (σ.Free x) :=
  inferInstanceAs (Decidable (x ∈ σ.body.vars ∧ ¬ σ.Binds x))

/-- The quantified variables under new numbers, all others as they are. -/
def renumber (σ : Scheme) (ρ : Nat → Nat) : TyVar → Ty
  | .gen g => .gen (if g ∈ σ.vars then ρ g else g)
  | .flex v => .flex v

/-- The second scheme is the first with other quantifiers: `ρ` renames them apart from
each other and from the variables that are free in the body. -/
structure RenamedBy (ρ : Nat → Nat) (σ σ' : Scheme) : Prop where
  vars : σ'.vars = σ.vars.map ρ
  body : σ'.body = σ.body.subst (σ.renumber ρ)
  injOn : Set.InjOn ρ {g | g ∈ σ.vars}
  fresh : ∀ g ∈ σ.vars, ¬ σ.Free (.gen (ρ g))

variable {σ σ' : Scheme} {ρ : Nat → Nat} {x : TyVar}

theorem renumber_of_mem {g : Nat} (hg : g ∈ σ.vars) : σ.renumber ρ (.gen g) = .gen (ρ g) := by
  simp [renumber, hg]

theorem renumber_of_not_binds (hx : ¬ σ.Binds x) : σ.renumber ρ x = .var x := by
  cases x with
  | flex v => rfl
  | gen g => simp [renumber, show g ∉ σ.vars from fun hg => hx ⟨g, hg, rfl⟩]

/-- Renumbering leaves a type alone exactly when it keeps the quantifiers in it. -/
theorem subst_renumber_eq_iff {t : Ty} :
    t.subst (σ.renumber ρ) = t ↔ ∀ g ∈ σ.vars, .gen g ∈ t.vars → ρ g = g := by
  conv_lhs => rhs; rw [← t.subst_var]
  rw [subst_eq_subst_iff]
  constructor
  · intro h g hg hgt
    simpa [renumber_of_mem hg] using h _ hgt
  · intro h x hx
    by_cases hb : σ.Binds x
    · obtain ⟨g, hg, rfl⟩ := hb
      rw [renumber_of_mem hg, h g hg hx]
    · exact renumber_of_not_binds hb

namespace RenamedBy

theorem not_binds (h : RenamedBy ρ σ σ') (hx : σ.Free x) : ¬ σ'.Binds x := by
  rintro ⟨g', hg', rfl⟩
  rw [h.vars, mem_map] at hg'
  obtain ⟨g, hg, rfl⟩ := hg'
  exact h.fresh g hg hx

theorem free (h : RenamedBy ρ σ σ') (hx : σ.Free x) : σ'.Free x := by
  refine ⟨?_, h.not_binds hx⟩
  rw [h.body, mem_vars_subst]
  exact ⟨x, hx.1, by simp [renumber_of_not_binds hx.2, Ty.vars, Ty.occurrences, distinct]⟩

end RenamedBy

end Scheme

namespace Subst

/-- A variable that was free is quantified after the substitution: it stands in a type
that is put in the place of a free variable of the scheme. -/
def Captures (s : Subst) (σ : Scheme) : Prop :=
  ∃ x, σ.Free x ∧ ∃ y ∈ (s.image x).vars, σ.Binds y

instance (s : Subst) (σ : Scheme) : Decidable (s.Captures σ) :=
  decidable_of_iff (∃ x ∈ σ.body.vars, ¬ σ.Binds x ∧ ∃ y ∈ (s.image x).vars, σ.Binds y)
    (by simp only [Captures, Scheme.Free, and_assoc])

variable {s : Subst} {σ σ' : Scheme} {ρ : Nat → Nat} {x y : TyVar}

theorem image_without (s : Subst) (σ : Scheme) (x : TyVar) :
    (s.without σ.vars).image x = if σ.Binds x then .var x else s.image x := by
  obtain ⟨entries⟩ := s
  simp only [image, get?, without]
  induction entries with
  | nil => simp
  | cons e es ih =>
    by_cases he : σ.Binds e.1
    · have hdrop : (σ.vars.any fun g => e.1 = .gen g) = true := by simpa [Scheme.Binds] using he
      rw [filter_cons_of_neg (by simp [hdrop]), ih]
      split
      · rfl
      · next hx =>
        rw [lookup_cons, beq_false_of_ne fun heq : x = e.1 => hx (heq ▸ he)]
    · have hkeep : (σ.vars.any fun g => e.1 = .gen g) = false := by
        simpa [Scheme.Binds] using he
      rw [filter_cons_of_pos (by simp [hkeep]), lookup_cons, lookup_cons]
      by_cases hx : x = e.1
      · simp [hx, he]
      · rw [beq_false_of_ne hx]
        exact ih

theorem image_without_of_binds (hx : σ.Binds x) : (s.without σ.vars).image x = .var x := by
  rw [image_without, if_pos hx]

theorem image_without_of_not_binds (hx : ¬ σ.Binds x) : (s.without σ.vars).image x = s.image x := by
  rw [image_without, if_neg hx]

/-- What is free after a substitution: what the images of the free variables bring, as
far as it is not captured. -/
theorem free_applyScheme : (s.applyScheme σ).Free y ↔
    (∃ x, σ.Free x ∧ y ∈ (s.image x).vars) ∧ ¬ σ.Binds y := by
  refine and_congr_left fun hy => ?_
  rw [applyScheme, apply, mem_vars_subst]
  constructor
  · rintro ⟨x, hx, hyx⟩
    by_cases hb : σ.Binds x
    · rw [image_without_of_binds hb] at hyx
      obtain rfl : y = x := by simpa [vars, occurrences] using hyx
      exact absurd hb hy
    · exact ⟨x, ⟨hx, hb⟩, by rwa [image_without_of_not_binds hb] at hyx⟩
  · rintro ⟨x, hx, hyx⟩
    exact ⟨x, hx.1, by rwa [image_without_of_not_binds hx.2]⟩

/-- Substituting and renaming the quantifiers commute on the body exactly when no
quantifier that changes its name is captured. -/
theorem applyScheme_body_iff (h : σ.RenamedBy ρ σ') :
    (s.applyScheme σ').body = (s.applyScheme σ).body.subst (σ.renumber ρ) ↔
      ∀ x, σ.Free x → ∀ g ∈ σ.vars, .gen g ∈ (s.image x).vars → ρ g = g := by
  simp only [applyScheme, apply, h.body, subst_subst, subst_eq_subst_iff]
  have hfree : ∀ x, σ.Free x → ((σ.renumber ρ x).subst (s.without σ'.vars).image =
      ((s.without σ.vars).image x).subst (σ.renumber ρ) ↔
        ∀ g ∈ σ.vars, .gen g ∈ (s.image x).vars → ρ g = g) := fun x hx => by
    rw [Scheme.renumber_of_not_binds hx.2, subst, image_without_of_not_binds (h.not_binds hx),
      image_without_of_not_binds hx.2, eq_comm, Scheme.subst_renumber_eq_iff]
  refine ⟨fun H x hx => (hfree x hx).mp (H x hx.1), fun H x hx => ?_⟩
  by_cases hb : σ.Binds x
  · obtain ⟨g, hg, rfl⟩ := hb
    rw [Scheme.renumber_of_mem hg, image_without_of_binds ⟨g, hg, rfl⟩, subst, subst,
      image_without_of_binds ⟨ρ g, h.vars ▸ mem_map_of_mem hg, rfl⟩,
      Scheme.renumber_of_mem hg]
  · exact (hfree x ⟨hx, hb⟩).mpr (H x ⟨hx, hb⟩)

/-- The substitution keeps two schemes the same up to the choice of their quantifiers
where it captures none of either. -/
theorem renamedBy_applyScheme (h : σ.RenamedBy ρ σ') (hc : ¬ s.Captures σ)
    (hc' : ¬ s.Captures σ') : (s.applyScheme σ).RenamedBy ρ (s.applyScheme σ') where
  vars := h.vars
  body := (applyScheme_body_iff h).mpr fun x hx g hg hgx =>
    absurd ⟨x, hx, _, hgx, g, hg, rfl⟩ hc
  injOn := h.injOn
  fresh g hg hfree := by
    obtain ⟨⟨x, hx, hgx⟩, -⟩ := free_applyScheme.mp hfree
    exact hc' ⟨x, h.free hx, _, hgx, ρ g, h.vars ▸ mem_map_of_mem hg, rfl⟩

/-- A substitution respects the quantifiers of a scheme exactly when it captures none:
no variable of a type that is put in becomes quantified, and a scheme that differs only
in the choice of its quantifiers, from which nothing is captured, differs only in that
choice afterwards. -/
theorem applyScheme_respects_iff (s : Subst) (h : σ.RenamedBy ρ σ') :
    (¬ s.Captures σ ↔ ∀ y, (s.applyScheme σ).Free y ↔ ∃ x, σ.Free x ∧ y ∈ (s.image x).vars) ∧
    (¬ s.Captures σ' →
      (¬ s.Captures σ ↔ ∃ ρ', (s.applyScheme σ).RenamedBy ρ' (s.applyScheme σ'))) := by
  refine ⟨⟨fun hc y => ?_, fun H => ?_⟩, fun hc' =>
    ⟨fun hc => ⟨ρ, renamedBy_applyScheme h hc hc'⟩, ?_⟩⟩
  · rw [free_applyScheme, and_iff_left_iff_imp]
    rintro ⟨x, hx, hyx⟩ hy
    exact hc ⟨x, hx, y, hyx, hy⟩
  · rintro ⟨x, hx, y, hyx, hy⟩
    exact ((H y).mpr ⟨x, hx, hyx⟩).2 hy
  · rintro ⟨ρ', h'⟩ ⟨x, hx, _, hgx, g, hg, rfl⟩
    -- the lists of quantifiers leave no choice, and the captured one keeps its name
    have hρ : σ.vars.map ρ = σ.vars.map ρ' := h.vars.symm.trans h'.vars
    rw [List.map_inj_left] at hρ
    have hrenumber : (s.applyScheme σ).renumber ρ' = σ.renumber ρ := by
      funext z
      cases z with
      | flex v => rfl
      | gen k =>
        by_cases hk : k ∈ σ.vars
        · rw [Scheme.renumber_of_mem hk, Scheme.renumber_of_mem (σ := s.applyScheme σ) hk, hρ k hk]
        · simp [Scheme.renumber, applyScheme, hk]
    have hkeep := (applyScheme_body_iff h).mp (hrenumber ▸ h'.body) x hx g hg hgx
    exact hc' ⟨x, h.free hx, _, hgx, g, h.vars ▸ List.mem_map.mpr ⟨g, hg, hkeep⟩, rfl⟩

/-- `∀ a. a → b`, with the given number for `a` and with `1` for `b`. -/
def toFree (a : Nat) : Scheme := ⟨[a], .arrow (.gen a) (.gen 1)⟩

theorem toFree_renamedBy : (toFree 0).RenamedBy (fun _ => 2) (toFree 2) where
  vars := rfl
  body := by simp [toFree, subst, Scheme.renumber]
  injOn := by simp [toFree]
  fresh := by decide +kernel

/-- `c → d` in the place of `b`. -/
def openArrow : Subst := single (.gen 1) (.arrow (.flex 0) (.gen 3))

theorem toFree_respects :
    (∃ ρ, (openArrow.applyScheme (toFree 0)).RenamedBy ρ (openArrow.applyScheme (toFree 2))) ∧
    ∀ y, (openArrow.applyScheme (toFree 0)).Free y ↔
      ∃ x, (toFree 0).Free x ∧ y ∈ (openArrow.image x).vars := by
  have h := applyScheme_respects_iff openArrow toFree_renamedBy
  exact ⟨(h.2 (by decide +kernel)).mp (by decide +kernel), h.1.mp (by decide +kernel)⟩

/-- Put in the place of `b`, the variable that the scheme quantifies is captured. -/
theorem toFree_captured :
    (toFree 0).RenamedBy (fun _ => 2) (toFree 2) ∧
    (single (.gen 1) (.gen 0)).Captures (toFree 0) ∧
    ¬ ∃ ρ, ((single (.gen 1) (.gen 0)).applyScheme (toFree 0)).RenamedBy ρ
      ((single (.gen 1) (.gen 0)).applyScheme (toFree 2)) := by
  refine ⟨toFree_renamedBy, by decide +kernel, ?_⟩
  rintro ⟨ρ, h⟩
  have hbody : Ty.arrow (.gen 2) (.gen 0) = .arrow (.gen (ρ 0)) (.gen (ρ 0)) := h.body
  simp only [Ty.con.injEq, List.cons.injEq, Ty.var.injEq, TyVar.gen.injEq] at hbody
  omega

end Subst

end RowTyping
