import RowTyping.Proofs.Quantifiers

/-!
# Substitutions, one after the other

Two substitutions one after the other are a single one, whose images are those of the
first with the second applied to them. What a substitution does to a type is decided by
the type's variables, and by nothing less: it reaches exactly the positions at which
the variables are collected.
-/

namespace RowTyping

open List

namespace Subst

/-- The first substitution and then the second, as one. -/
def andThen (s₁ s₂ : Subst) : Subst :=
  ⟨s₁.entries.map (fun e => (e.1, s₂.apply e.2)) ++ s₂.entries⟩

variable (s₁ s₂ : Subst)

/-- An entry of the first substitution hides the one of the second. -/
theorem get?_andThen (x : TyVar) :
    (s₁.andThen s₂).get? x = ((s₁.get? x).map s₂.apply).or (s₂.get? x) := by
  obtain ⟨entries⟩ := s₁
  simp only [get?, andThen]
  induction entries with
  | nil => simp
  | cons e es ih =>
    rw [map_cons, cons_append, lookup_cons, lookup_cons]
    cases x == e.1 with
    | true => simp
    | false => exact ih

theorem image_andThen (x : TyVar) : (s₁.andThen s₂).image x = s₂.apply (s₁.image x) := by
  rw [image, get?_andThen, image]
  cases s₁.get? x with
  | none => rfl
  | some t => rfl

/-- Applying one substitution after another is applying the composed one, which maps a
variable to what the second makes of its image under the first, and to its image under
the second where the first has none. Substitutions do the same to a type exactly when
they agree on the variables that are collected from it; each of these is collected
once; and the variables of what comes out are those of their images. -/
theorem apply_describes_vars (t : Ty) :
    (∀ x, (s₁.andThen s₂).get? x = ((s₁.get? x).map s₂.apply).or (s₂.get? x)) ∧
    s₂.apply (s₁.apply t) = (s₁.andThen s₂).apply t ∧
    (s₁.apply t = s₂.apply t ↔ ∀ x ∈ t.vars, s₁.image x = s₂.image x) ∧
    t.vars.Nodup ∧
    ∀ y, y ∈ (s₁.apply t).vars ↔ ∃ x ∈ t.vars, y ∈ (s₁.image x).vars := by
  refine ⟨get?_andThen s₁ s₂, ?_, Ty.subst_eq_subst_iff, nodup_distinct _,
    fun y => Ty.mem_vars_subst⟩
  rw [apply, apply, Ty.subst_subst]
  exact Ty.subst_congr fun x _ => (image_andThen s₁ s₂ x).symm

end Subst

end RowTyping
