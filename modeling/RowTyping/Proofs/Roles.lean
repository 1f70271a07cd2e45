import RowTyping.Proofs.Shown

/-!
# Roles

Every part of a type has a role: it is a type of values, or the rest of a record
behind given labels. A variable has one role wherever it stands, so the labels
in front of a row variable are the same in all records that end in it. A type
fits a role when all its parts fit theirs: no label repeats along a record, and
what a record goes on with is a row.

The roles of the variables that a type shows and of those that it hides, in the
arguments of synonyms and in the members of modules, are given separately. Types
may further be asked to have solid synonyms, none of which is just a name for a
variable, and closed modules.
-/

namespace RowTyping

open Table Ty Finset Function List Option

/-- What a part of a type is there for: a type of values, or the rest of a record
with the labels `front` before it. -/
inductive Role where
  | type
  | rest (front : Finset String)

/-- The head forms types of values: it is not the empty row, nor a value
constructor. -/
def Con.IsFormer (c : Con) : Prop := c ≠ .emptyRow ∧ ∀ name, c ≠ .ctor name

theorem Con.IsFormer.plain {c : Con} (h : c.IsFormer) : c.plain.IsFormer := by
  cases c <;> simp_all [IsFormer, Con.plain]

namespace Table

variable {α β : Type}

/-- The names of a table. -/
def names (t : Table α) : Finset String := (t.map (·.1)).toFinset

theorem mem_names {t : Table α} {l : String} : l ∈ t.names ↔ ∃ e ∈ t, e.1 = l := by
  simp [names]

theorem mem_names_iff_lookup {t : Table α} {l : String} : l ∈ t.names ↔ (t.lookup l).isSome := by
  rw [mem_names]
  constructor
  · rintro ⟨e, he, rfl⟩
    exact isSome_lookup_of_mem he
  · intro h
    obtain ⟨a, ha⟩ := isSome_iff_exists.mp h
    exact ⟨(l, a), mem_of_lookup ha, rfl⟩

@[simp] theorem names_nil : names ([] : Table α) = ∅ := rfl

@[simp] theorem names_mapValues (f : α → β) (t : Table α) : (t.mapValues f).names = t.names := by
  simp [names, mapValues, comp_def]

@[simp] theorem names_union (t u : Table α) : (t.union u).names = t.names ∪ u.names := by
  ext l
  simp only [Finset.mem_union, mem_names_iff_lookup, lookup_union, Option.isSome_or,
    Bool.or_eq_true]

/-- A union hides nothing of what it adds under new names. -/
theorem mem_union_of_new {t u : Table α} (ht : t.Sorted) (hu : u.Sorted)
    (hnew : ∀ e ∈ u, e.1 ∉ t.names) {e : String × α} : e ∈ t.union u ↔ e ∈ t ∨ e ∈ u := by
  refine ⟨mem_union, fun he => mem_of_lookup ?_⟩
  rw [lookup_union]
  rcases he with he | he
  · rw [ht.lookup_of_mem he]
    rfl
  · have hnone := hnew e he
    rw [mem_names_iff_lookup, not_isSome_iff_eq_none] at hnone
    rw [hnone, hu.lookup_of_mem he]
    rfl

end Table

namespace Role

/-- The labels in front; a type of values has none. -/
def front : Role → Finset String
  | .type => ∅
  | .rest front => front

/-- The role of what comes behind further fields. -/
def behind (k : Role) (fs : Table Ty) : Role := .rest (k.front ∪ fs.names)

def kind : Role → Kind
  | .type => .type
  | .rest _ => .row

@[simp] theorem front_behind (k : Role) (fs : Table Ty) :
    (k.behind fs).front = k.front ∪ fs.names := rfl

@[simp] theorem kind_behind (k : Role) (fs : Table Ty) : (k.behind fs).kind = .row := rfl

theorem behind_union (k : Role) (fs gs : Table Ty) :
    k.behind (fs.union gs) = (k.behind fs).behind gs := by
  simp [behind, front]

theorem behind_nil (k : Role) : k.behind [] = .rest k.front := by
  simp [behind]

theorem behind_mapValues (k : Role) (f : Ty → Ty) (fs : Table Ty) :
    k.behind (fs.mapValues f) = k.behind fs := by
  simp [behind]

end Role

/-- The variables that a use of the scheme replaces or that were never
quantified: its quantifiers, the rows that it leaves open, and all variables that
can be solved. -/
def Scheme.Opens (σ : Scheme) : TyVar → Prop
  | .flex _ => True
  | .gen g => g ∈ σ.vars ∨ .gen g ∈ σ.body.tailOccurrences

namespace Ty

/-- The types of values that a scheme's body is about: the owner and the argument
of a value constructor, else the body itself. -/
def parts : Ty → List Ty
  | .con (.ctor _) args => args
  | t => [t]

/-- The type fits a role, given the roles `V` of the variables it shows and the
roles `H` of the variables it hides. If `G`, no synonym is a mere name for a
variable, and modules leave nothing to be solved. The type of a constructor is no
type of values; the schemes of a module's values may be about one, and show no
variable that is not open. -/
inductive Fits (G : Prop) (H : TyVar → Role → Prop) :
    (TyVar → Role → Prop) → Role → Ty → Prop where
  | var {V : TyVar → Role → Prop} {k : Role} {x : TyVar} (h : V x k) : Fits G H V k (.var x)
  | con {V : TyVar → Role → Prop} {c : Con} {args : List Ty} (hc : c.IsFormer)
      (htuple : c = .tuple → args ≠ []) (hargs : ∀ t ∈ args, Fits G H V .type t) :
      Fits G H V .type (.con c args)
  | emptyRow {V : TyVar → Role → Prop} (front : Finset String) : Fits G H V (.rest front) .emptyRow
  | record {V : TyVar → Role → Prop} {k : Role} {fs : List (String × Ty)} {tail : Ty}
      (hsorted : Table.Sorted fs) (hfront : ∀ e ∈ fs, e.1 ∉ k.front)
      (hfields : ∀ e ∈ fs, Fits G H V .type e.2) (htail : Fits G H V (k.behind fs) tail) :
      Fits G H V k (.record fs tail)
  | synonym {V : TyVar → Role → Prop} {id : Nat} {labels : List String} {params : List Ty}
      {target : Ty} (hparams : ∀ p ∈ params, Fits G H H .type p)
      (htarget : Fits G H V .type target) (hsolid : G → ∀ x, target ≠ .var x) :
      Fits G H V .type (.synonym id labels params target)
  | module {V : TyVar → Role → Prop} {name : String} {members : Env}
      (hparts : ∀ e ∈ members.values, e.2.body.parts ≠ [] ∧ e.2.body.parts.length ≤ 2)
      (hvalues : ∀ e ∈ members.values, ∀ t ∈ e.2.body.parts,
        Fits G H (fun x k => H x k ∧ e.2.Opens x) .type t)
      (htypes : ∀ e ∈ members.types, Fits G H H .type e.2.body)
      (hclosed : G → ∀ e ∈ members.values, ∀ v, .flex v ∉ e.2.body.shown) :
      Fits G H V .type (.module name members)

variable {G G' : Prop} {H H' V V' : TyVar → Role → Prop} {k k' : Role} {t : Ty}

namespace Fits

variable {x : TyVar} {fs : Table Ty}

theorem mono (h : t.Fits G H V k) (hV : ∀ x k, V x k → V' x k) (hH : ∀ x k, H x k → H' x k)
    (hG : G' → G) : t.Fits G' H' V' k := by
  induction h generalizing V' with
  | var h => exact .var (hV _ _ h)
  | con hc htuple _ ih => exact .con hc htuple fun t ht => ih t ht hV
  | emptyRow front => exact .emptyRow front
  | record hs hfront _ _ ihf iht =>
    exact .record hs hfront (fun e he => ihf e he hV) (iht hV)
  | synonym _ _ hsolid ihp iht =>
    exact .synonym (fun p hp => ihp p hp hH) (iht hV) fun hg => hsolid (hG hg)
  | module hparts _ _ hclosed ihv iht =>
    exact .module hparts (fun e he t ht => ihv e he t ht fun _ _ hx => ⟨hH _ _ hx.1, hx.2⟩)
      (fun e he => iht e he hH) fun hg => hclosed (hG hg)

theorem var_iff : (Ty.var x).Fits G H V k ↔ V x k := by
  constructor
  · intro h
    cases h with
    | var h => exact h
  · exact .var

/-- Only the roles of the variables that are shown matter. -/
theorem restrict (h : t.Fits G H V k) : t.Fits G H (fun x k => V x k ∧ x ∈ t.shown) k := by
  induction h with
  | var h => exact .var ⟨h, by simp⟩
  | con hc htuple _ ih =>
    refine .con hc htuple fun t ht => (ih t ht).mono (fun x _ hx => ⟨hx.1, ?_⟩) (fun _ _ => id) id
    exact mem_shown_con.mpr ⟨t, ht, hx.2⟩
  | emptyRow front => exact .emptyRow front
  | record hs hfront _ _ ihf iht =>
    refine .record hs hfront (fun e he => ?_) ?_
    · refine (ihf e he).mono (fun x _ hx => ⟨hx.1, ?_⟩) (fun _ _ => id) id
      exact mem_shown_record.mpr (.inl ⟨e, he, hx.2⟩)
    · refine iht.mono (fun x _ hx => ⟨hx.1, ?_⟩) (fun _ _ => id) id
      exact mem_shown_record.mpr (.inr hx.2)
  | synonym hparams _ hsolid _ iht =>
    refine .synonym hparams (iht.mono (fun x _ hx => ⟨hx.1, ?_⟩) (fun _ _ => id) id) hsolid
    exact mem_shown_synonym.mpr hx.2
  | module hparts hvalues htypes hclosed => exact .module hparts hvalues htypes hclosed

/-- Every variable that is shown has its role. -/
theorem role_of_shown (h : t.Fits G H V k) (hx : x ∈ t.shown) : ∃ k, V x k := by
  induction h with
  | var h =>
    cases mem_shown_var.mp hx
    exact ⟨_, h⟩
  | con _ _ _ ih =>
    obtain ⟨t, ht, hx⟩ := mem_shown_con.mp hx
    exact ih t ht hx
  | emptyRow => simp at hx
  | record _ _ _ _ ihf iht =>
    rcases mem_shown_record.mp hx with ⟨e, he, hx⟩ | hx
    · exact ihf e he hx
    · exact iht hx
  | synonym _ _ _ _ iht => exact iht (mem_shown_synonym.mp hx)
  | module => exact absurd hx mem_shown_module

/-- Types in the place of variables, each with the variable's role. -/
theorem subst {f : TyVar → Ty} (h : t.Fits G H V k) (hV : ∀ x k, V x k → (f x).Fits G H' V' k)
    (hH : ∀ x k, H x k → (f x).Fits G H' H' k) (hHH : ∀ x k, H x k → H' x k) :
    (t.subst f).Fits G H' V' k := by
  induction h generalizing V' with
  | var h => exact hV _ _ h
  | con hc htuple _ ih =>
    rw [subst, substList_eq]
    refine .con hc (by simpa using htuple) fun u hu => ?_
    obtain ⟨t, ht, rfl⟩ := mem_map.mp hu
    exact ih t ht hV
  | emptyRow front => exact .emptyRow front
  | @record _ k fs tail hs hfront _ _ ihf iht =>
    rw [subst, substFields_eq]
    refine .record (hs.mapValues (subst f)) ?_ ?_ ?_
    · exact forall_mem_map.mpr hfront
    · exact forall_mem_map.mpr fun e he => ihf e he hV
    · rw [show k.behind (fs.map fun e => (e.1, subst f e.2)) = k.behind fs from
        k.behind_mapValues (subst f) fs]
      exact iht hV
  | @synonym _ _ _ params target _ _ hsolid ihp iht =>
    rw [subst, substList_eq]
    refine .synonym (forall_mem_map.mpr fun p hp => ihp p hp hH) (iht hV) fun hg x hx => ?_
    cases target with
    | var y => exact hsolid hg y rfl
    | con | record | synonym | module => simp [subst] at hx
  | module hparts hvalues htypes hclosed =>
    refine .module hparts (fun e he t ht => ?_) (fun e he => (htypes e he).mono hHH hHH id) hclosed
    exact (hvalues e he t ht).mono (fun _ _ hx => ⟨hHH _ _ hx.1, hx.2⟩) hHH id

theorem base (b : Base) : (base b).Fits G H V .type :=
  .con (by simp [Con.IsFormer]) (by simp) (by simp)

theorem arrow {a r : Ty} (ha : a.Fits G H V .type) (hr : r.Fits G H V .type) :
    (arrow a r).Fits G H V .type :=
  .con (by simp [Con.IsFormer]) (by simp) (forall_mem_cons.mpr ⟨ha, forall_mem_singleton.mpr hr⟩)

theorem tuple {ts : List Ty} (h : ∀ t ∈ ts, t.Fits G H V .type) : (tuple ts).Fits G H V .type := by
  unfold Ty.tuple
  split
  · exact .base .unit
  · exact forall_mem_singleton.mp h
  · next hne _ => exact .con (by simp [Con.IsFormer]) (fun _ => hne) h

/-! ## Records -/

theorem closedRecord (hs : Sorted fs) (h : ∀ e ∈ fs, e.2.Fits G H V .type) :
    (Ty.record fs .emptyRow).Fits G H V .type :=
  .record hs (by simp [Role.front]) h (.emptyRow _)

/-- For a record only the labels in front matter. -/
theorem record_congr {tail : Ty} (h : (Ty.record fs tail).Fits G H V k) (hk : k.front = k'.front) :
    (Ty.record fs tail).Fits G H V k' := by
  cases h with
  | record hs hfront hfields htail =>
    refine .record hs (hk ▸ hfront) hfields ?_
    rwa [Role.behind, ← hk]

/-- A record in two pieces is one record. -/
theorem merge {gs : Table Ty} {tail : Ty} (h : (Ty.record fs (.record gs tail)).Fits G H V k) :
    (Ty.record (fs.union gs) tail).Fits G H V k := by
  cases h with
  | record hs hfront hfields htail =>
    cases htail with
    | record hs' hfront' hfields' htail' =>
      refine .record (hs.union gs) (fun e he => ?_) (fun e he => ?_) ?_
      · rcases mem_union he with he | he
        · exact hfront e he
        · intro hmem
          exact hfront' e he (mem_union_left _ hmem)
      · rcases mem_union he with he | he
        · exact hfields e he
        · exact hfields' e he
      · rw [Role.behind_union]
        exact htail'

/-- What a record goes on with, as a row in front of its end. -/
theorem asRow {front : Finset String} (h : t.Fits G H V (.rest front)) :
    (Ty.record t.asRow.fields t.asRow.tail).Fits G H V (.rest front) := by
  have hend : (Ty.record [] t).Fits G H V (.rest front) := by
    refine .record .nil (by simp) (by simp) ?_
    rwa [Role.behind_nil]
  cases h with
  | record hs hfront hfields htail => exact .record hs hfront hfields htail
  | _ => exact hend

theorem norm (h : t.Fits G H V k) : t.norm.Fits G' H' V k := by
  induction h with
  | var h => exact .var h
  | @con _ c args hc htuple _ ih =>
    rw [norm_con hc.1]
    refine .con hc.plain ?_ fun u hu => ?_
    · intro hplain
      have hct : c = .tuple := by cases c <;> simp_all [Con.plain]
      simpa using htuple hct
    · obtain ⟨t, ht, rfl⟩ := mem_map.mp hu
      exact ih t ht
  | emptyRow front =>
    exact .record .nil (by simp) (by simp) (.emptyRow _)
  | @record V k fs tail hs hfront _ _ ihf iht =>
    rw [norm_record]
    have hmine : (Ty.record (Table.mapValues Ty.norm fs)
        (.record tail.norm.asRow.fields tail.norm.asRow.tail)).Fits G' H' V k := by
      refine .record (hs.mapValues _) (forall_mem_map.mpr hfront) (forall_mem_map.mpr ihf) ?_
      rw [Role.behind_mapValues]
      exact iht.asRow
    rw [Row.prepend, Table.union_nil (Table.Sorted.mapValues hs _)]
    exact hmine.merge
  | synonym _ _ _ _ iht =>
    exact iht
  | module => exact .module (by simp) (by simp) (by simp) (by simp)

/-- A type of values is its own part. -/
theorem parts_eq (h : t.Fits G H V k) : t.parts = [t] := by
  cases h with
  | @con _ c args hc =>
    cases c with
    | ctor name => exact absurd rfl (hc.2 name)
    | _ => rfl
  | _ => rfl

/-- A shown variable that stands for a row is a tail. -/
theorem mem_tailOccurrences (h : t.Fits G H V k) (hx : x ∈ t.shown) :
    t = .var x ∨ V x .type ∨ x ∈ t.tailOccurrences := by
  induction h with
  | var => exact .inl (congrArg _ (mem_shown_var.mp hx).symm)
  | con _ _ hargs ih =>
    obtain ⟨u, hu, hx⟩ := mem_shown_con.mp hx
    rcases ih u hu hx with rfl | htype | htail
    · exact .inr (.inl (var_iff.mp (hargs _ hu)))
    · exact .inr (.inl htype)
    · refine .inr (.inr ?_)
      rw [tailOccurrences, tailOccurrencesList_eq]
      exact mem_flatMap.mpr ⟨u, hu, htail⟩
  | emptyRow => simp at hx
  | record _ _ hfields _ ihf iht =>
    rcases mem_shown_record.mp hx with ⟨e, he, hx⟩ | hx
    · rcases ihf e he hx with heq | htype | htail
      · exact .inr (.inl (var_iff.mp (heq ▸ hfields e he)))
      · exact .inr (.inl htype)
      · refine .inr (.inr ?_)
        rw [tailOccurrences, tailOccurrencesFields_eq]
        exact mem_append_left _ (mem_append_left _ (mem_flatMap.mpr ⟨e, he, htail⟩))
    · rcases iht hx with rfl | htype | htail
      · refine .inr (.inr ?_)
        simp [tailOccurrences, varSelf]
      · exact .inr (.inl htype)
      · refine .inr (.inr ?_)
        exact mem_append_right _ htail
  | synonym _ htarget _ _ iht =>
    rcases iht (mem_shown_synonym.mp hx) with rfl | h
    · exact .inr (.inl (var_iff.mp htarget))
    · exact .inr h
  | module => exact absurd hx mem_shown_module

/-- A tail stands for a row. -/
theorem rest_of_tail (h : t.Fits G H V k) (hx : x ∈ t.tailOccurrences) :
    ∃ front, V x (.rest front) := by
  induction h with
  | var => simp [tailOccurrences] at hx
  | con _ _ _ ih =>
    rw [tailOccurrences, tailOccurrencesList_eq] at hx
    obtain ⟨u, hu, hx⟩ := mem_flatMap.mp hx
    exact ih u hu hx
  | emptyRow => simp [tailOccurrences] at hx
  | @record _ _ _ tail _ _ _ htail ihf iht =>
    rw [tailOccurrences, tailOccurrencesFields_eq, append_assoc] at hx
    rcases mem_append.mp hx with hx | hx
    · obtain ⟨e, he, hx⟩ := mem_flatMap.mp hx
      exact ihf e he hx
    · rcases mem_append.mp hx with hx | hx
      · cases tail with
        | var y =>
          cases List.mem_singleton.mp hx
          exact ⟨_, var_iff.mp htail⟩
        | con | record | synonym | module => simp [varSelf] at hx
      · exact iht hx
  | synonym _ _ _ _ iht => exact iht hx
  | module => simp [tailOccurrences] at hx

/-- Types with roles have kinds. -/
theorem hasKind {E : Prop} {K : Nat → Kind} (h : t.Fits G H V k)
    (hK : ∀ v k, V (.flex v) k → K v = k.kind) : t.HasKind E K k.kind := by
  induction h with
  | @var _ k x h =>
    cases x with
    | flex v => exact .flex (hK v k h)
    | gen g => exact .gen _ g
  | con hc _ _ ih => exact .con hc.1 fun t ht => ih t ht hK
  | emptyRow => exact .emptyRow (.inl rfl)
  | record _ _ _ _ ihf iht => exact .record (fun e he => ihf e he hK) (iht hK)
  | synonym _ _ _ _ iht => exact .synonym (iht hK)
  | module => exact .module _ _

end Fits

theorem mem_shown_parts {x : TyVar} : x ∈ t.shown ↔ ∃ u ∈ t.parts, x ∈ u.shown := by
  unfold parts
  split
  · exact mem_shown_con
  · simp

theorem parts_eq_self (h : ∀ name args, t ≠ .con (.ctor name) args) : t.parts = [t] := by
  unfold parts
  split
  · exact absurd rfl (h _ _)
  · rfl

/-- What a scheme may be about: a type of values, or a value constructor whose
owner and argument are such types. -/
structure IsBody (P : Ty → Prop) (t : Ty) : Prop where
  size : t.parts ≠ [] ∧ t.parts.length ≤ 2
  parts : ∀ u ∈ t.parts, P u

namespace IsBody

variable {P Q : Ty → Prop}

theorem of_value (h : P t) (hP : t.parts = [t]) : t.IsBody P :=
  ⟨by simp [hP], by simpa [hP] using h⟩

theorem imp (h : t.IsBody P) (hPQ : ∀ u, P u → Q u) : t.IsBody Q :=
  ⟨h.size, fun u hu => hPQ u (h.parts u hu)⟩

/-- An operation on types that passes to the parts of a constructor. -/
theorem map {f : Ty → Ty} (h : t.IsBody P)
    (hf : ∀ name args, f (.con (.ctor name) args) = .con (.ctor name) (args.map f))
    (hPQ : ∀ u, P u → Q (f u)) (hQ : ∀ u, Q u → u.parts = [u]) : (f t).IsBody Q := by
  by_cases hc : ∃ name args, t = .con (.ctor name) args
  · obtain ⟨name, args, rfl⟩ := hc
    rw [hf]
    exact ⟨by simpa [Ty.parts] using h.size, forall_mem_map.mpr fun u hu => hPQ u (h.parts u hu)⟩
  · have hparts := parts_eq_self fun name args h => hc ⟨name, args, h⟩
    have ht := hPQ t (h.parts t (by simp [hparts]))
    exact of_value ht (hQ _ ht)

end IsBody

end Ty

end RowTyping
