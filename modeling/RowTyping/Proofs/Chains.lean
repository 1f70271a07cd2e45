import RowTyping.Proofs.Agreement
import RowTyping.Proofs.Completeness

/-!
# Records followed through the bindings

A record is followed from tail to tail, through variables that are bound to
further fields. Only where it ends in an open variable do the labels on the way
matter: they have to be the same for all records that end there. A bound
variable may continue different records, as long as none of them meets a label
twice.

A run of unification keeps such roles: what had a role before has it after. The
labels behind which a variable stands that is issued on the way are those of
both records that it is the common rest of.
-/

namespace RowTyping

variable {E : Prop} {K : Nat → Kind} {k : Kind} {t : Ty}

open Registry Row Table Ty Finset Function List

/-- The role of what stands for the kind; a row has the given labels in front. -/
def Kind.role (front : Finset String) : Kind → Role
  | .type => .type
  | .row => .rest front

@[simp] theorem Kind.kind_role (front : Finset String) (k : Kind) : (k.role front).kind = k := by
  cases k <;> rfl

/-- Read through the bindings of a registry, the type has a role: its records go
on in rows, with tables of fields that repeat no label, and end in the empty row,
a generalized variable or an open variable, which then stands behind the labels
`φ` says. Variables have the kinds `K`, and synonyms have no role. The empty row
may be a type of values if `E`. -/
inductive Ty.HasRole (E : Prop) (K : Nat → Kind) (φ : Nat → Finset String) (r : Registry) :
    Role → Ty → Prop where
  | bound {k : Role} {v : Nat} {t : Ty} (hv : r.binding? v = some t) (hk : K v = k.kind)
      (ht : HasRole E K φ r k t) : HasRole E K φ r k (.flex v)
  | free {k : Role} {v : Nat} (hv : r.binding? v = none) (hlt : v < r.varCount)
      (hk : (K v).role (φ v) = k) : HasRole E K φ r k (.flex v)
  | gen (k : Role) (g : Nat) : HasRole E K φ r k (.gen g)
  | con {c : Con} {args : List Ty} (hc : c ≠ .emptyRow)
      (hargs : ∀ t ∈ args, HasRole E K φ r .type t) : HasRole E K φ r .type (.con c args)
  | emptyRow {k : Role} (hk : k.kind = .row ∨ E) : HasRole E K φ r k .emptyRow
  | record {k : Role} {fs : Table Ty} {tail : Ty} (hs : fs.Sorted)
      (hfront : ∀ e ∈ fs, e.1 ∉ k.front) (hfields : ∀ e ∈ fs, HasRole E K φ r .type e.2)
      (htail : HasRole E K φ r (k.behind fs) tail) : HasRole E K φ r k (.record fs tail)
  | module (name : String) (members : Env) : HasRole E K φ r .type (.module name members)

/-- A type of the kind over the first `n` variables, without synonyms. The empty
row may be a type of values if `E`. -/
def SimpleKind (E : Prop) (K : Nat → Kind) (n : Nat) (k : Kind) (t : Ty) : Prop :=
  t.HasKind E K k ∧ t.Plain n

theorem kinding_simple (E : Prop) (K : Nat → Kind) (n : Nat) : Kinding (SimpleKind E K n) :=
  kinding_hasKind (fun _ h => h.paramsInTarget) fun _ _ hs => hs

/-- Where the empty row is no type of values, it may be one. -/
theorem Ty.HasKind.weaken (h : t.HasKind E K k) : t.HasKind True K k := by
  induction h with
  | flex hv => exact .flex hv
  | gen k g => exact .gen k g
  | con hc _ ih => exact .con hc ih
  | emptyRow => exact .emptyRow (.inr trivial)
  | record _ _ ihf iht => exact .record ihf iht
  | synonym _ ih => exact .synonym ih
  | module name members => exact .module name members

theorem SimpleKind.plainKind {n : Nat} (h : SimpleKind E K n k t) : PlainKind K n k t :=
  ⟨h.1.weaken, h.2⟩

theorem SimpleKind.mono {n m : Nat} (h : SimpleKind E K n k t) (hnm : n ≤ m) :
    SimpleKind E K m k t :=
  ⟨h.1, h.2.mono hnm⟩

namespace Ty.HasRole

open Registry

variable {E : Prop} {K : Nat → Kind} {φ φ' : Nat → Finset String} {r r' : Registry} {k : Role}
  {t b : Ty} {v : Nat} {front : Finset String}

theorem hasKind (h : t.HasRole E K φ r k) : t.HasKind E K k.kind := by
  induction h with
  | bound _ hk => exact .flex hk
  | free _ _ hk => exact .flex (by rw [← hk, Kind.kind_role])
  | gen k g => exact .gen _ g
  | con hc _ ih => exact .con hc ih
  | emptyRow hk => exact .emptyRow hk
  | record _ _ _ _ ihf iht => exact .record ihf iht
  | module name members => exact .module name members

theorem plain (h : t.HasRole E K φ r k) : t.Plain r.varCount := by
  induction h with
  | bound hv => exact (all_var _).mpr (lt_varCount_of_binding? hv)
  | free _ hlt => exact (all_var _).mpr hlt
  | gen => exact (all_var _).mpr trivial
  | con _ _ ih => exact (all_con _ _).mpr ⟨trivial, ih⟩
  | emptyRow => exact (all_con _ _).mpr ⟨trivial, by simp⟩
  | record hs _ _ _ ihf iht => exact (all_record _ _).mpr ⟨hs, ihf, iht⟩
  | module name members => exact all_iff.mpr ⟨trivial, by simp [children]⟩

theorem simple (h : t.HasRole E K φ r k) : SimpleKind E K r.varCount k.kind t :=
  ⟨h.hasKind, h.plain⟩

theorem covered (h : t.HasRole E K φ r k) : t.Covered := h.plain.imp fun _ h => h.paramsInTarget

theorem not_synonym {id : Nat} {labels : List String} {params : List Ty} {target : Ty} :
    ¬ (synonym id labels params target).HasRole E K φ r k := by
  intro h
  cases h

/-- An open variable has the role it was given. -/
theorem role_of_open (h : (flex v).HasRole E K φ r k) (hv : r.binding? v = none) :
    (K v).role (φ v) = k := by
  cases h with
  | bound hv' => rw [hv] at hv'; cases hv'
  | free _ _ hk => exact hk

/-- Only the kinds of issued variables matter. -/
theorem congr {K' : Nat → Kind} (h : t.HasRole E K φ r k)
    (hK : ∀ v, v < r.varCount → K' v = K v) : t.HasRole E K' φ r k := by
  induction h with
  | bound hv hk _ ih => exact .bound hv (by rwa [hK _ (lt_varCount_of_binding? hv)]) ih
  | free hv hlt hk => exact .free hv hlt (by rwa [hK _ hlt])
  | gen k g => exact .gen k g
  | con hc _ ih => exact .con hc ih
  | emptyRow hk => exact .emptyRow hk
  | record hs hfront _ _ ihf iht => exact .record hs hfront ihf iht
  | module name members => exact .module name members

/-! ## Reading -/

theorem resolve (h : t.HasRole E K φ r k) (hr : r.Acyclic) : (r.resolve t).HasRole E K φ r k := by
  induction h with
  | bound hv _ _ ih => rwa [resolve_some hr hv]
  | free hv hlt hk =>
    rw [resolve_none hv]
    exact .free hv hlt hk
  | gen k g =>
    rw [resolve_gen]
    exact .gen k g
  | con hc hargs =>
    rw [resolve_con]
    exact .con hc hargs
  | emptyRow hk =>
    rw [resolve_con]
    exact .emptyRow hk
  | record hs hfront hfields htail =>
    rw [resolve_record]
    exact .record hs hfront hfields htail
  | module name members =>
    rw [resolve_module]
    exact .module name members

theorem args {c : Con} {ts : List Ty} (h : (Ty.con c ts).HasRole E K φ r k) :
    ∀ t ∈ ts, t.HasRole E K φ r .type := by
  cases h with
  | con _ hargs => exact hargs
  | emptyRow => simp

/-- A record or the empty row also comes behind the labels in front of it. -/
theorem asRow (h : t.HasRole E K φ r k) (hform : t.IsRowForm) :
    t.HasRole E K φ r (.rest k.front) := by
  cases h with
  | record hs hfront hfields htail => exact .record hs hfront hfields htail
  | emptyRow => exact .emptyRow (.inl rfl)
  | con hc => simp_all [IsRowForm, isRecord]
  | _ => simp_all [IsRowForm, isRecord]

/-- A row that is followed has no label in front of it again, and ends behind
all its labels. -/
theorem row (h : t.HasRole E K φ r (.rest front)) (hr : r.Acyclic) :
    (∀ e ∈ (r.row t).fields, e.1 ∉ front ∧ e.2.HasRole E K φ r .type) ∧
      (r.row t).tail.HasRole E K φ r (.rest (front ∪ (r.row t).fields.names)) := by
  generalize hk : Role.rest front = k at h
  have hother : ∀ {t : Ty} {front : Finset String}, t.HasRole E K φ r (.rest front) →
      (∀ fs tail, r.resolve t ≠ .record fs tail) →
      (∀ e ∈ (r.row t).fields, e.1 ∉ front ∧ e.2.HasRole E K φ r .type) ∧
        (r.row t).tail.HasRole E K φ r (.rest (front ∪ (r.row t).fields.names)) := by
    intro t front h ht
    rw [row_other ht]
    simpa using h.resolve hr
  induction h generalizing front with
  | @bound _ v t hv _ _ ih =>
    have hrow : r.row (.flex v) = r.row t := by
      rw [← row_resolve hr, resolve_some hr hv, row_resolve hr]
    rw [hrow]
    exact ih hk
  | free hv hlt hK =>
    subst hk
    exact hother (.free hv hlt hK) (by simp [resolve_none hv])
  | gen k g =>
    exact hother (.gen _ g) (by simp)
  | con | module => cases hk
  | emptyRow hk' =>
    subst hk
    exact hother (.emptyRow hk') (by simp)
  | @record _ fs tail hs hfront hfields htail _ iht =>
    subst hk
    obtain ⟨hmore, hend⟩ := iht rfl
    rw [row_record hr resolve_record, union_nil hs]
    refine ⟨fun e he => ?_, ?_⟩
    · rcases mem_union he with he | he
      · exact ⟨hfront e he, hfields e he⟩
      · exact ⟨fun hmem => (hmore e he).1 (mem_union_left _ hmem), (hmore e he).2⟩
    · rw [names_union, ← Finset.union_assoc]
      exact hend

/-! ## Steps -/

theorem addVar (h : t.HasRole E K φ r k) (hφ : ∀ v, v < r.varCount → φ' v = φ v) :
    t.HasRole E K φ' r.addVar k := by
  induction h with
  | bound hv hk _ ih => exact .bound (by simpa using hv) hk ih
  | free hv hlt hk =>
    exact .free (by simpa using hv) (by simp only [varCount_addVar]; omega) (by rwa [hφ _ hlt])
  | gen k g => exact .gen k g
  | con hc _ ih => exact .con hc ih
  | emptyRow hk => exact .emptyRow hk
  | record hs hfront _ _ ihf iht => exact .record hs hfront ihf iht
  | module name members => exact .module name members

section

variable (hr : r.Acyclic) (hv : r.binding? v = none)
include hr hv

/-- A type keeps its role if, where it leads to the variable, the solution has that of the
variable. -/
theorem setBinding_of (h : t.HasRole E K φ r k) (hsol : r.occurs v t = true →
    v < r.varCount ∧ b.HasRole E K φ (r.setBinding v b) ((K v).role (φ v))) :
    t.HasRole E K φ (r.setBinding v b) k := by
  induction h with
  | @bound _ w t hw hk _ ih =>
    have hne : ¬ (v = w ∧ v < r.varCount) := fun h => by simp [← h.1, hv] at hw
    rw [occurs_eq hr, occursStep, resolve_some hr hw, ← occursStep, ← occurs_eq hr] at hsol
    exact .bound (by rw [binding?_setBinding, if_neg hne, hw]) hk (ih hsol)
  | @free _ w hw hlt hk =>
    rw [occurs_eq hr, occursStep, resolve_none hw] at hsol
    by_cases hvw : v = w
    · subst hvw hk
      obtain ⟨hlt, hb⟩ := hsol (by simp)
      exact .bound (by rw [binding?_setBinding, if_pos ⟨rfl, hlt⟩]) (by simp) hb
    · exact .free (by rw [binding?_setBinding, if_neg fun h => hvw h.1, hw]) (by simpa using hlt) hk
  | gen k g => exact .gen k g
  | con hc _ ih =>
    rw [occurs_eq hr, occursStep, resolve_con] at hsol
    exact .con hc fun t ht => ih t ht fun hocc => hsol (any_eq_true.mpr ⟨t, ht, hocc⟩)
  | emptyRow hk => exact .emptyRow hk
  | record hs hfront _ _ ihf iht =>
    rw [occurs_eq hr, occursStep, resolve_record, Bool.or_eq_true] at hsol
    exact .record hs hfront (fun e he => ihf e he fun hocc =>
      hsol (.inl (any_eq_true.mpr ⟨e, he, hocc⟩))) (iht fun hocc => hsol (.inr hocc))
  | module name members => exact .module name members

theorem setBinding_of_not_occurs (h : t.HasRole E K φ r k) (hocc : r.occurs v t = false) :
    t.HasRole E K φ (r.setBinding v b) k :=
  h.setBinding_of hr hv fun h => by simp [hocc] at h

/-- A variable is bound to what has its role. -/
theorem setBinding (h : t.HasRole E K φ r k) (hlt : v < r.varCount)
    (hb : b.HasRole E K φ r ((K v).role (φ v))) (hocc : r.occurs v b = false) :
    t.HasRole E K φ (r.setBinding v b) k :=
  h.setBinding_of hr hv fun _ => ⟨hlt, hb.setBinding_of_not_occurs hr hv hocc⟩

end

end Ty.HasRole

/-! ## Registries -/

/-- The bindings have no cycle and are row-coherent: every type that a variable is
bound to has the role of the variable, where a row variable stands behind some
labels. -/
structure Registry.RowCoherent (E : Prop) (K : Nat → Kind) (φ : Nat → Finset String)
    (r : Registry) : Prop where
  acyclic : r.Acyclic
  bindings : ∀ v t, r.binding? v = some t → ∃ front, t.HasRole E K φ r ((K v).role front)

namespace Registry.RowCoherent

variable {E : Prop} {K K' : Nat → Kind} {φ : Nat → Finset String} {r : Registry} {n : Nat}

theorem congr (h : r.RowCoherent E K φ) (hK : ∀ v, v < r.varCount → K' v = K v) :
    r.RowCoherent E K' φ := by
  refine ⟨h.acyclic, fun v t hv => ?_⟩
  obtain ⟨front, ht⟩ := h.bindings v t hv
  exact ⟨front, hK v (lt_varCount_of_binding? hv) ▸ ht.congr hK⟩

theorem covered (h : r.RowCoherent E K φ) : r.AllBindings Covered := by
  intro v t hv
  obtain ⟨front, ht⟩ := h.bindings v t hv
  exact ht.covered

theorem scoped_bindings (h : r.RowCoherent E K φ) : r.AllBindings (Ty.Scoped r.varCount) := by
  intro v t hv
  obtain ⟨front, ht⟩ := h.bindings v t hv
  exact ht.plain.scoped

theorem wellFormed (h : r.RowCoherent E K φ) (hn : r.varCount ≤ n) :
    r.WellFormed (SimpleKind E K n) := by
  refine ⟨h.acyclic, h.covered, fun v t hv k hk => ?_⟩
  obtain ⟨front, ht⟩ := h.bindings v t hv
  have hkind := ht.simple.mono hn
  rwa [Kind.kind_role, hasKind_flex.mp hk.1] at hkind

theorem plain (h : r.RowCoherent E K φ) : r.WellFormed (PlainKind K r.varCount) := by
  have hr := h.wellFormed le_rfl
  refine ⟨hr.acyclic, hr.covered, fun v t hv k hk => (hr.bindings v t hv k ⟨?_, hk.2⟩).plainKind⟩
  exact .flex (hasKind_flex.mp hk.1)

end Registry.RowCoherent

theorem Registry.Extends.open_of_open {r r' : Registry} {v : Nat} (h : r.Extends r')
    (hv : r'.binding? v = none) : r.binding? v = none := by
  cases hb : r.binding? v with
  | none => rfl
  | some t =>
    rw [h.binding v t hb] at hv
    cases hv

/-! ## Runs -/

section

variable {E : Prop} {K : Nat → Kind} {φ φ₁ φ₂ : Nat → Finset String} {r r₁ r₂ : Registry}
  {a b t : Ty} {v : Nat}

/-- What a row variable that was open in the registry may be bound to: no variable
that was bound, and no record without fields. -/
structure Registry.Binds (r : Registry) (k : Kind) (t : Ty) : Prop where
  resolved : r.Resolved t
  fields : k = .row → ∀ tail, t ≠ .record [] tail

/-- The second registry continues the first: bindings and roles are kept, and what
is bound has the role of its variable. -/
structure Continues (E : Prop) (K : Nat → Kind) (r : Registry) (φ : Nat → Finset String)
    (r' : Registry) (φ' : Nat → Finset String) : Prop where
  grows : r.Extends r'
  roles : ∀ {k : Role} {t : Ty}, t.HasRole E K φ r k → t.HasRole E K φ' r' k
  bindings : ∀ (v : Nat) (t : Ty), r'.binding? v = some t → r.binding? v = some t ∨
    (∃ front, t.HasRole E K φ' r' ((K v).role front)) ∧ r.Binds (K v) t

namespace Continues

theorem refl (r : Registry) (φ : Nat → Finset String) : Continues E K r φ r φ :=
  ⟨.refl r, id, fun _ _ => .inl⟩

theorem trans (h : Continues E K r φ r₁ φ₁) (h' : Continues E K r₁ φ₁ r₂ φ₂) :
    Continues E K r φ r₂ φ₂ where
  grows := h.grows.trans h'.grows
  roles ht := h'.roles (h.roles ht)
  bindings v t hv := by
    rcases h'.bindings v t hv with hv | ⟨hrole, hbinds⟩
    · rcases h.bindings v t hv with hv | ⟨⟨front, ht⟩, hbinds⟩
      · exact .inl hv
      · exact .inr ⟨⟨front, h'.roles ht⟩, hbinds⟩
    · exact .inr ⟨hrole, fun w hw => h.grows.open_of_open (hbinds.resolved w hw), hbinds.fields⟩

theorem rowCoherent (h : Continues E K r φ r₁ φ₁) (hr : r.RowCoherent E K φ) (hr₁ : r₁.Acyclic) :
    r₁.RowCoherent E K φ₁ := by
  refine ⟨hr₁, fun v t hv => ?_⟩
  rcases h.bindings v t hv with hv | ⟨hnew, -⟩
  · obtain ⟨front, ht⟩ := hr.bindings v t hv
    exact ⟨front, h.roles ht⟩
  · exact hnew

/-- A row variable that was open becomes no record without fields. -/
theorem fields_ne (h : Continues E K r φ r₁ φ₁) (hr₁ : r₁.Acyclic) (hv : r.binding? v = none)
    (hK : K v = .row) {fs : Table Ty} {tail : Ty}
    (heq : r₁.resolve (.flex v) = .record fs tail) : fs ≠ [] := by
  generalize ht : flex v = t at heq
  induction t using resolve_induct hr₁ generalizing v with
  | bound w t hw ih =>
    cases ht
    rw [resolve_some hr₁ hw] at heq
    rcases h.bindings _ t hw with hold | ⟨⟨front, hrole⟩, hbinds⟩
    · rw [hv] at hold
      cases hold
    · by_cases hflex : ∃ w, t = .flex w
      · obtain ⟨w, rfl⟩ := hflex
        have hkind := hasKind_flex.mp hrole.hasKind
        exact ih (hbinds.resolved w rfl) (by rw [hkind, Kind.kind_role, hK]) rfl heq
      · rw [resolve_of_not_flex fun w hw => hflex ⟨w, hw⟩] at heq
        rintro rfl
        exact hbinds.fields hK tail heq
  | done t hdone =>
    rw [hdone.resolve, ← ht] at heq
    cases heq

/-- A variable is issued that stands behind the given labels. -/
theorem addVar (r : Registry) (φ : Nat → Finset String) (front : Finset String) :
    Continues E K r φ r.addVar (update φ r.varCount front) where
  grows := .addVar r
  roles ht := ht.addVar fun v hv => update_of_ne (by omega) _ _
  bindings v t hv := .inl (by simpa using hv)

theorem solved (hr : r.Acyclic) (hv : r.binding? v = none) {out : Except TypeError Unit}
    (h : Solved r v t out r₁) (hout : out = .ok ()) (ht : t.HasRole E K φ r ((K v).role (φ v)))
    (hbinds : r.Binds (K v) t) : Continues E K r φ r₁ φ := by
  cases h with
  | bind hocc hlt =>
    refine ⟨.setBinding hv t, fun hu => hu.setBinding hr hv hlt ht hocc, fun w u hw => ?_⟩
    rcases binding?_setBinding_inv hw with ⟨rfl, rfl⟩ | hw
    · exact .inr ⟨⟨φ w, ht.setBinding_of_not_occurs hr hv hocc⟩, hbinds⟩
    · exact .inl hw
  | unknown | cyclic => cases hout

end Continues

/-- The types of a task have one role, two rows stand behind the same labels, and
what rows end in is no record. -/
def Task.HasRoles (E : Prop) (K : Nat → Kind) (φ : Nat → Finset String) (r : Registry) : Task → Prop
  | .types a b => ∃ k, a.HasRole E K φ r k ∧ b.HasRole E K φ r k ∧
      (k.kind = .row → (r.resolve a).isRecord = false ∧ (r.resolve b).isRecord = false)
  | .rows a b => ∃ front, a.HasRole E K φ r (.rest front) ∧ b.HasRole E K φ r (.rest front)
  | .all pairs => ∀ p ∈ pairs, p.1.HasRole E K φ r .type ∧ p.2.HasRole E K φ r .type

namespace Task.HasRoles

theorem solve (hr : r.Acyclic) (h : (Task.types a b).HasRoles E K φ r)
    (meet : (r.resolve a).meet (r.resolve b) = .solve v t) :
    t.HasRole E K φ r ((K v).role (φ v)) ∧ r.Binds (K v) t := by
  obtain ⟨k, ha, hb, hends⟩ := h
  have hv := hr.solve_open meet
  have ha' := ha.resolve hr
  have hb' := hb.resolve hr
  rcases ((Meets.of_meet meet).solve_inv).1 with ⟨hav, rfl⟩ | ⟨hbv, rfl⟩
  · rw [hav] at ha'
    obtain rfl := ha'.role_of_open hv
    refine ⟨hb', resolved_resolve hr b, fun hK tail heq => ?_⟩
    simpa [heq, isRecord] using (hends (by simpa using hK)).2
  · rw [hbv] at hb'
    obtain rfl := hb'.role_of_open hv
    refine ⟨ha', resolved_resolve hr a, fun hK tail heq => ?_⟩
    simpa [heq, isRecord] using (hends (by simpa using hK)).1

theorem not_expand (hr : r.Acyclic) (h : (Task.types a b).HasRoles E K φ r) (t u : Ty) :
    (r.resolve a).meet (r.resolve b) ≠ .expand t u := by
  intro meet
  obtain ⟨k, ha, hb, -⟩ := h
  obtain ⟨_, _, _, ⟨heq, -⟩ | ⟨heq, -⟩⟩ := (Meets.of_meet meet).expand_inv
  · exact HasRole.not_synonym (heq ▸ ha.resolve hr)
  · exact HasRole.not_synonym (heq ▸ hb.resolve hr)

theorem children (hr : r.Acyclic) (h : (Task.types a b).HasRoles E K φ r)
    {pairs : List (Ty × Ty)} {ragged : Bool}
    (meet : (r.resolve a).meet (r.resolve b) = .children pairs ragged) :
    (Task.all pairs).HasRoles E K φ r := by
  obtain ⟨k, ha, hb, -⟩ := h
  obtain ⟨c, d, ts, us, hac, hbd, rfl, -⟩ := (Meets.of_meet meet).children_inv
  intro p hp
  exact ⟨(hac ▸ ha.resolve hr).args p.1 (of_mem_zip hp).1,
    (hbd ▸ hb.resolve hr).args p.2 (of_mem_zip hp).2⟩

theorem rows (hr : r.Acyclic) (h : (Task.types a b).HasRoles E K φ r)
    (meet : (r.resolve a).meet (r.resolve b) = .rows) :
    (Task.rows (r.resolve a) (r.resolve b)).HasRoles E K φ r := by
  obtain ⟨k, ha, hb, -⟩ := h
  obtain ⟨hfa, hfb, -⟩ := (Meets.of_meet meet).rows_inv
  exact ⟨k.front, (ha.resolve hr).asRow hfa, (hb.resolve hr).asRow hfb⟩

theorem shared (hr : r.Acyclic) (h : (Task.rows a b).HasRoles E K φ r) :
    (Task.all ((r.row a).shared (r.row b))).HasRoles E K φ r := by
  obtain ⟨front, ha, hb⟩ := h
  intro p hp
  obtain ⟨l, hmine, htheirs⟩ := mem_shared hp
  exact ⟨((ha.row hr).1 _ hmine).2, ((hb.row hr).1 _ (mem_of_lookup htheirs)).2⟩

end Task.HasRoles

/-- Two rows behind the same labels, and what they end in. -/
structure RowRoles (E : Prop) (K : Nat → Kind) (φ : Nat → Finset String) (r : Registry)
    (front : Finset String) (mine theirs : Row) (t u : Ty) : Prop where
  sorted : mine.fields.Sorted ∧ theirs.fields.Sorted
  fieldsLeft : ∀ e ∈ mine.fields, e.1 ∉ front ∧ e.2.HasRole E K φ r .type
  fieldsRight : ∀ e ∈ theirs.fields, e.1 ∉ front ∧ e.2.HasRole E K φ r .type
  tailLeft : t.HasRole E K φ r (.rest (front ∪ mine.fields.names))
  tailRight : u.HasRole E K φ r (.rest (front ∪ theirs.fields.names))

namespace RowRoles

variable {front : Finset String} {mine theirs : Row} {u z : Ty}

theorem symm (h : RowRoles E K φ r front mine theirs t u) :
    RowRoles E K φ r front theirs mine u t :=
  ⟨h.sorted.symm, h.fieldsRight, h.fieldsLeft, h.tailRight, h.tailLeft⟩

theorem mono (h : RowRoles E K φ r front mine theirs t u) (hc : Continues E K r φ r₁ φ₁) :
    RowRoles E K φ₁ r₁ front mine theirs t u where
  sorted := h.sorted
  fieldsLeft e he := ⟨(h.fieldsLeft e he).1, hc.roles (h.fieldsLeft e he).2⟩
  fieldsRight e he := ⟨(h.fieldsRight e he).1, hc.roles (h.fieldsRight e he).2⟩
  tailLeft := hc.roles h.tailLeft
  tailRight := hc.roles h.tailRight

/-- The rows of a task and their tails, after the shared fields have met. -/
theorem after (hr : r.Acyclic) (h : (Task.rows a b).HasRoles E K φ r) (hr₁ : r₁.Acyclic)
    (hc : Continues E K r φ r₁ φ₁) : ∃ front, RowRoles E K φ₁ r₁ front (r.row a) (r.row b)
      (r₁.resolve (r.row a).tail) (r₁.resolve (r.row b).tail) := by
  obtain ⟨front, ha, hb⟩ := h
  obtain ⟨hmine, htail⟩ := ha.row hr
  obtain ⟨htheirs, htail'⟩ := hb.row hr
  exact ⟨front, ⟨row_sorted hr a, row_sorted hr b⟩,
    fun e he => ⟨(hmine e he).1, hc.roles (hmine e he).2⟩,
    fun e he => ⟨(htheirs e he).1, hc.roles (htheirs e he).2⟩,
    (hc.roles htail).resolve hr₁, (hc.roles htail').resolve hr₁⟩

/-- A tail whose row lacks no field comes behind the labels of both rows. -/
theorem full (h : RowRoles E K φ r front mine theirs t u) (hfull : mine.lacking theirs = []) :
    t.HasRole E K φ r (.rest (allLabels front mine theirs)) := by
  rw [← front_full hfull]
  exact h.tailLeft

/-- The fields that a row lacks stand behind its own, and go on with what comes
behind the labels of both rows. -/
theorem lacking (h : RowRoles E K φ r front mine theirs t u)
    (hz : z.HasRole E K φ r (.rest (allLabels front mine theirs))) :
    (record (mine.lacking theirs) z).HasRole E K φ r (.rest (front ∪ mine.fields.names)) := by
  refine .record (lacking_sorted h.sorted.2) (fun e he => ?_) (fun e he => ?_) ?_
  · obtain ⟨hmem, hnone⟩ := mem_lacking he
    have hmine : e.1 ∉ mine.fields.names := by simp [mem_names_iff_lookup, hnone]
    simpa [Role.front, hmine] using (h.fieldsRight e hmem).1
  · exact (h.fieldsRight e (mem_lacking he).1).2
  · rw [Role.behind, Role.front, front_lacking]
    exact hz

/-- An open tail takes the fields that its row lacks. -/
theorem solved (h : RowRoles E K φ r front mine theirs (.flex v) u) (hr : r.Acyclic)
    (hv : r.binding? v = none) (hne : mine.lacking theirs ≠ [])
    (hz : z.HasRole E K φ r (.rest (allLabels front mine theirs)))
    {out : Except TypeError Unit} (hs : Solved r v (.record (mine.lacking theirs) z) out r₁)
    (hout : out = .ok ()) : Continues E K r φ r₁ φ := by
  refine .solved hr hv hs hout ?_ ⟨by simp [Resolved], fun _ tail heq => hne (record.inj heq).1⟩
  rw [h.tailLeft.role_of_open hv]
  exact h.lacking hz

end RowRoles

end

end RowTyping
