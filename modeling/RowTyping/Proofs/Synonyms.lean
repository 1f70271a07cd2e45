import RowTyping.Proofs.Preservation
import RowTyping.Ty.Subst

/-!
# Synonyms that show their arguments

A synonym keeps the arguments it was written with beside its target. If the
target shows each of them, the occurs check misses nothing by looking at the
target alone. This is a property of all types that a program makes, as long as
no synonym is declared with a parameter that it does not use: substitution,
deep resolution and unification keep it. A part that stands in the tail of a
record does not count as shown, because merging the record may hide it.
-/

namespace RowTyping

open Table Ty List

namespace Ty

/-- The second type is part of the first, reached through arguments, fields and
the targets of synonyms only. -/
inductive Shows : Ty → Ty → Prop where
  | self (t : Ty) : Shows t t
  | arg {c : Con} {args : List Ty} {t u : Ty} (ht : t ∈ args) (h : Shows t u) :
      Shows (.con c args) u
  | field {fs : List (String × Ty)} {tail : Ty} {l : String} {t u : Ty}
      (hl : fs.lookup l = some t) (h : Shows t u) : Shows (.record fs tail) u
  | target {id : Nat} {labels : List String} {params : List Ty} {target u : Ty}
      (h : Shows target u) : Shows (.synonym id labels params target) u

namespace Shows

variable {t u w : Ty}

theorem trans (h : Shows t u) (h' : Shows u w) : Shows t w := by
  induction h with
  | self => exact h'
  | arg ht _ ih => exact .arg ht (ih h')
  | field hl _ ih => exact .field hl (ih h')
  | target _ ih => exact .target (ih h')

/-- What is shown brings its variables. -/
theorem mem_occurrences (h : Shows t u) {x : TyVar} (hx : x ∈ u.occurrences) :
    x ∈ t.occurrences := by
  induction h with
  | self => exact hx
  | @arg c args t _ ht _ ih => exact Ty.mem_occurrences.mpr (.inr ⟨t, ht, ih hx⟩)
  | @field fs tail l t _ hl _ ih =>
    exact Ty.mem_occurrences.mpr
      (.inr ⟨t, mem_children_record.mpr (.inl ⟨_, mem_of_lookup hl, rfl⟩), ih hx⟩)
  | @target id labels params target _ _ ih =>
    exact Ty.mem_occurrences.mpr (.inr ⟨target, by simp [children], ih hx⟩)

/-- What is shown brings its tails. -/
theorem mem_tailOccurrences (h : Shows t u) {x : TyVar} (hx : x ∈ u.tailOccurrences) :
    x ∈ t.tailOccurrences := by
  induction h with
  | self => exact hx
  | @arg c args t _ ht _ ih =>
    rw [tailOccurrences, tailOccurrencesList_eq]
    exact mem_flatMap.mpr ⟨t, ht, ih hx⟩
  | @field fs tail l t _ hl _ ih =>
    rw [tailOccurrences, tailOccurrencesFields_eq]
    refine mem_append_left _ (mem_append_left _ ?_)
    exact mem_flatMap.mpr ⟨_, mem_of_lookup hl, ih hx⟩
  | target _ ih => exact ih hx

theorem subst (f : TyVar → Ty) (h : Shows t u) : Shows (t.subst f) (u.subst f) := by
  induction h with
  | self => exact .self _
  | arg ht _ ih =>
    rw [Ty.subst, substList_eq]
    exact .arg (mem_map_of_mem ht) ih
  | @field fs tail l t u hl _ ih =>
    rw [Ty.subst, substFields_eq]
    refine .field (l := l) ?_ ih
    have := Table.lookup_mapValues (Ty.subst f) fs l
    rw [hl] at this
    exact this
  | target _ ih => exact .target ih

end Shows

/-- Every synonym in the type shows the arguments it was written with, also in
the values of modules. -/
inductive Faithful : Ty → Prop where
  | var (x : TyVar) : Faithful (.var x)
  | con {c : Con} {args : List Ty} (hargs : ∀ t ∈ args, Faithful t) : Faithful (.con c args)
  | record {fs : List (String × Ty)} {tail : Ty} (hfields : ∀ e ∈ fs, Faithful e.2)
      (htail : Faithful tail) : Faithful (.record fs tail)
  | synonym {id : Nat} {labels : List String} {params : List Ty} {target : Ty}
      (hparams : ∀ p ∈ params, Faithful p) (htarget : Faithful target)
      (hshows : ∀ p ∈ params, target.Shows p) : Faithful (.synonym id labels params target)
  | module {name : String} {members : Env} (hvalues : ∀ e ∈ members.values, Faithful e.2.body) :
      Faithful (.module name members)

@[simp] theorem faithful_var {x : TyVar} : (var x).Faithful := .var x

@[simp] theorem faithful_con {c : Con} {args : List Ty} :
    (con c args).Faithful ↔ ∀ t ∈ args, t.Faithful :=
  ⟨fun | .con h => h, .con⟩

namespace Faithful

variable {t u : Ty}

theorem child (h : t.Faithful) (hu : u ∈ t.children) : u.Faithful := by
  cases h with
  | var => simp [children] at hu
  | con hargs => exact hargs u hu
  | record hfields htail =>
    rcases mem_children_record.mp hu with ⟨e, he, rfl⟩ | rfl
    · exact hfields e he
    · exact htail
  | synonym hparams htarget _ =>
    rcases mem_append.mp hu with hu | hu
    · exact hparams u hu
    · exact mem_singleton.mp hu ▸ htarget
  | module => simp [children] at hu

theorem covered (h : t.Faithful) : t.Covered := by
  induction t with
  | var x => simp
  | con c args ih => exact covered_con.mpr fun u hu => ih u hu (h.child hu)
  | record fs tail ihf iht =>
    refine covered_record.mpr ⟨fun e he => ihf e he (h.child ?_), iht (h.child ?_)⟩
    · exact mem_children_record.mpr (.inl ⟨e, he, rfl⟩)
    · exact mem_children_record.mpr (.inr rfl)
  | synonym id labels params target ihp iht =>
    cases h with
    | synonym hparams htarget hshows =>
      exact covered_synonym.mpr ⟨fun p hp v hv => (hshows p hp).mem_occurrences hv,
        fun p hp => ihp p hp (hparams p hp), iht htarget⟩
  | module name members => exact .intro _ trivial (by simp [children])

theorem subst {f : TyVar → Ty} (h : t.Faithful) (hf : ∀ x, (f x).Faithful) :
    (t.subst f).Faithful := by
  induction t with
  | var x => exact hf x
  | con c args ih =>
    rw [Ty.subst, substList_eq]
    refine .con fun u hu => ?_
    obtain ⟨t, ht, rfl⟩ := mem_map.mp hu
    exact ih t ht (h.child ht)
  | record fs tail ihf iht =>
    rw [Ty.subst, substFields_eq]
    refine .record (fun e he => ?_) (iht (h.child (mem_children_record.mpr (.inr rfl))))
    obtain ⟨d, hd, rfl⟩ := mem_map.mp he
    exact ihf d hd (h.child (mem_children_record.mpr (.inl ⟨d, hd, rfl⟩)))
  | synonym id labels params target ihp iht =>
    cases h with
    | synonym hparams htarget hshows =>
      rw [Ty.subst, substList_eq]
      refine .synonym (fun u hu => ?_) (iht htarget) fun u hu => ?_
      · obtain ⟨p, hp, rfl⟩ := mem_map.mp hu
        exact ihp p hp (hparams p hp)
      · obtain ⟨p, hp, rfl⟩ := mem_map.mp hu
        exact (hshows p hp).subst f
  | module name members => exact h

end Faithful

end Ty

/-- The parts of faithful types are faithful, whatever they stand for. -/
theorem kinding_faithful : Kinding fun _ t => t.Faithful where
  covered h := h.covered
  var _ _ h := h
  args h t ht := h.child ht
  fields h e he := h.child (mem_children_record.mpr (.inl ⟨e, he, rfl⟩))
  tail h := h.child (mem_children_record.mpr (.inr rfl))
  target h := h.child (by simp [children])
  asRow h _ := h
  record _ hfs htail := .record hfs htail

namespace Registry

variable {r : Registry} {t u : Ty}

/-- Merging a record keeps the fields that were in front. -/
theorem shows_resolveDeep (hr : r.Acyclic) (h : t.Shows u) :
    (r.resolveDeep t).Shows (r.resolveDeep u) := by
  induction h with
  | self => exact .self _
  | arg ht _ ih =>
    rw [resolveDeep_con hr resolve_con]
    exact .arg (mem_map_of_mem ht) ih
  | @field fs tail l t u hl _ ih =>
    rw [resolveDeep_record hr resolve_record]
    refine .field (l := l) ?_ ih
    rw [row_record hr resolve_record]
    simp [hl]
  | target _ ih =>
    rw [resolveDeep_synonym hr resolve_synonym]
    exact .target ih

theorem faithful_resolveDeep (hr : r.Acyclic) (hb : r.AllBindings Faithful) (h : t.Faithful) :
    (r.resolveDeep t).Faithful := by
  induction t using part_induct hr with
  | step t ih =>
    have hres := hb.resolve hr h
    have child : ∀ u ∈ (r.resolve t).children, (r.resolveDeep u).Faithful :=
      fun u hu => ih u (.inl hu) (hres.child hu)
    cases heq : r.resolve t with
    | var x => exact resolveDeep_var hr heq ▸ .var x
    | con c args =>
      rw [resolveDeep_con hr heq]
      refine .con (forall_mem_map.mpr fun u hu => child u ?_)
      rw [heq]
      exact hu
    | record fs tail =>
      obtain ⟨hfields, htail⟩ := hb.row hr (fun h hu => h.child hu) (fun h => h) h
      rw [resolveDeep_record hr heq]
      refine .record (forall_mem_map.mpr fun e he => ?_) htail
      exact ih e.2 (.inr ⟨e, he, rfl⟩) (hfields e he)
    | synonym id labels params target =>
      rw [heq] at hres child
      rw [resolveDeep_synonym hr heq]
      cases hres with
      | synonym hparams htarget hshows =>
        -- parameters and target are resolved alike, so what was shown is still shown
        refine .synonym (forall_mem_map.mpr fun p hp => child p ?_) (child target ?_)
          (forall_mem_map.mpr fun p hp => shows_resolveDeep hr (hshows p hp))
        · simp [children, hp]
        · simp [children]
    | module name members => exact resolveDeep_module hr heq ▸ heq ▸ hres

end Registry

end RowTyping
