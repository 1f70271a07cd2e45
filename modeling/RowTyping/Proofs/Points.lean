import RowTyping.Proofs.Completeness
import RowTyping.Proofs.Declarations

/-!
# Points of a run

A point is a registry together with an assignment to its variables that satisfies
it. A variable has every role that its value has, and all of them are of one kind;
so a row variable may come behind different labels in different records, as long as
its value has none of them. A later point knows more variables and keeps the values
of those that were there, so whatever has a value at a point keeps it. `Finds` says
of an operation that it succeeds and comes to a later point, and composes along
`bind`.

Unification finds: two types with the same value at a point meet, also through
synonyms, and the assignment extends to the variables that are issued on the
way.
-/

namespace RowTyping

open Registry Table Ty Finset Function List Option

section

variable {ε σ ι α β : Type} [Preorder ι] {At : ι → σ → Prop} {i : ι} {Q : ι → α → Prop}

/-- From every state at `i` the operation succeeds and leads to a state at a later
`j`, where what it yields satisfies `Q`. -/
def Finds (At : ι → σ → Prop) (i : ι) (x : EStateM ε σ α) (Q : ι → α → Prop) : Prop :=
  ∀ s, At i s → ∃ a s' j, x.run s = .ok a s' ∧ i ≤ j ∧ At j s' ∧ Q j a

theorem Finds.bind {x : EStateM ε σ α} {f : α → EStateM ε σ β} {R : ι → β → Prop}
    (hx : Finds At i x Q) (hf : ∀ j a, i ≤ j → Q j a → Finds At j (f a) R) :
    Finds At i (x >>= f) R := by
  intro s hs
  obtain ⟨a, s₁, j, hrun, hij, hj, ha⟩ := hx s hs
  obtain ⟨b, s₂, l, hrun', hjl, hl, hb⟩ := hf j a hij ha s₁ hj
  exact ⟨b, s₂, l, (run_bind_ok hrun).trans hrun', hij.trans hjl, hl, hb⟩

theorem Finds.imp {x : EStateM ε σ α} {R : ι → α → Prop} (hx : Finds At i x Q)
    (hQR : ∀ j a, i ≤ j → Q j a → R j a) : Finds At i x R := by
  intro s hs
  obtain ⟨a, s', j, hrun, hij, hj, ha⟩ := hx s hs
  exact ⟨a, s', j, hrun, hij, hj, hQR j a hij ha⟩

theorem finds_pure {a : α} (h : Q i a) : Finds At i (pure a : EStateM ε σ α) Q :=
  fun s hs => ⟨a, s, i, rfl, le_rfl, hs, h⟩

end

namespace Role

/-- What a type comes to in the role. -/
def form : Role → Ty → Ty
  | .type, t => t.norm
  | .rest _, t => t.norm.asRow.toRecord

theorem form_eq {k : Role} {s t : Ty} (h : k.kind.Same s.norm t.norm) : k.form s = k.form t := by
  cases k with
  | type => exact h
  | rest front => exact congrArg Row.toRecord h

theorem form_record (k : Role) (fs : Table Ty) (tail : Ty) :
    k.form (.record fs tail) = (Row.prepend (mapValues norm fs) tail.norm.asRow).toRecord := by
  cases k <;> rw [form, norm_record]
  rw [asRow_toRecord]

end Role

namespace Ty

variable {G G' : Prop} {H H' V V' V₁ : TyVar → Role → Prop} {k k₁ : Role} {t : Ty}
  {f : TyVar → Ty} {front : Finset String}

/-- The rest of a record has none of the labels in front. -/
theorem Fits.lookup_front (h : t.Fits G H V (.rest front)) {l : String} (hl : l ∈ front) :
    t.norm.asRow.fields.lookup l = none := by
  have hnorm : t.norm.Fits False (fun _ _ => False) V (.rest front) := h.norm
  cases hnorm.asRow with
  | record _ hfront _ _ =>
    cases hu : t.norm.asRow.fields.lookup l with
    | none => rfl
    | some u => exact absurd hl (hfront _ (mem_of_lookup hu))

/-- The rest of a record without some labels that it has comes behind these
labels. -/
theorem Fits.restrict_row {gone : Finset String} {keep : String → Bool}
    (hkeep : ∀ l, keep l = true ↔ l ∉ gone) (h : t.Fits G H V (.rest front))
    (hgone : gone ⊆ front ∪ t.norm.asRow.fields.names) :
    ∃ u : Ty, u.Fits G H V (.rest (front ∪ gone)) ∧
      u.norm.asRow = ⟨t.norm.asRow.fields.restrict keep, t.norm.asRow.tail⟩ := by
  generalize hk : Role.rest front = k at h
  induction h generalizing front with
  | con | synonym | module => cases hk
  | @var _ _ x hx =>
    have hempty : (Ty.var x).norm.asRow.fields.names = ∅ := rfl
    rw [hempty, union_empty] at hgone
    rw [union_eq_left.mpr hgone]
    exact ⟨.var x, .var (hk ▸ hx), rfl⟩
  | emptyRow => exact ⟨.emptyRow, .emptyRow _, rfl⟩
  | @record V k fs tail hs hfront hfields _ _ iht =>
    subst hk
    rw [norm_record] at hgone ⊢
    have hgone : gone ⊆ front ∪ Table.names fs ∪ tail.norm.asRow.fields.names := by
      simpa [Row.prepend, union_assoc] using hgone
    obtain ⟨u, hu, heq⟩ := iht hgone rfl
    have hnames :
        front ∪ gone ∪ (Table.restrict keep fs).names = front ∪ Table.names fs ∪ gone := by
      ext l
      simp only [Finset.mem_union, Table.mem_names_iff_lookup, Table.lookup_restrict]
      by_cases hl : l ∈ gone
      · simp [hl]
      · simp [hl, (hkeep l).mpr hl]
    refine ⟨.record (Table.restrict keep fs) u, .record (hs.restrict keep) ?_ ?_ ?_, ?_⟩
    · intro e he hmem
      obtain ⟨he, hke⟩ := mem_filter.mp he
      rcases mem_union.mp hmem with hmem | hmem
      · exact hfront e he hmem
      · exact (hkeep e.1).mp hke hmem
    · exact fun e he => hfields e (mem_filter.mp he).1
    · rwa [Role.behind, Role.front, hnames]
    · rw [norm_record, asRow_toRecord, heq]
      refine Row.eq_of_lookup (Row.prepend_sorted _ _) ((Row.prepend_sorted _ _).restrict keep)
        (fun l => ?_) rfl
      simp only [Row.lookup_prepend, Table.lookup_mapValues, Table.lookup_restrict]
      split <;> simp

theorem Fits.form (h : t.Fits G H V k) : (k.form t).Fits G' H' V k := by
  cases k with
  | type => exact h.norm
  | rest front => exact Fits.asRow h.norm

/-- A record in one piece is a record in two pieces if they share no label. -/
theorem Fits.of_prepend {fs : Table Ty} {row : Row} (hs : Sorted fs) (hrow : Sorted row.fields)
    (hnew : ∀ e ∈ row.fields, e.1 ∉ fs.names) (h : (Row.prepend fs row).toRecord.Fits G H V k) :
    (∀ e ∈ fs, e.1 ∉ k.front ∧ e.2.Fits G H V .type) ∧ row.toRecord.Fits G H V (k.behind fs) := by
  rw [Row.prepend, union_nil hs] at h
  have hmem := fun {e} => mem_union_of_new hs hrow hnew (e := e)
  cases h with
  | record _ hfront hfields htail =>
    refine ⟨fun e he => ⟨hfront e (hmem.mpr (.inl he)), hfields e (hmem.mpr (.inl he))⟩,
      .record hrow (fun e he hfs => ?_) (fun e he => hfields e (hmem.mpr (.inr he))) ?_⟩
    · rcases mem_union.mp hfs with hfs | hfs
      · exact hfront e (hmem.mpr (.inr he)) hfs
      · exact hnew e he hfs
    · rwa [← Role.behind_union]

/-- A type has another role, of the same kind, if what it comes to has it. -/
theorem Fits.reform (h : t.Fits G H V k₁) (hk : k₁.kind = k.kind)
    (hform : (k.form t).Fits G H V' k) : t.Fits G H V' k := by
  induction h generalizing k with
  | @var _ _ x =>
    cases k with
    | type => exact hform
    | rest front =>
      cases hform with
      | record _ _ _ htail => exact Role.behind_nil (.rest front) ▸ htail
  | con hc htuple _ ih =>
    cases k with
    | rest => cases hk
    | type =>
      rw [Role.form, norm_con hc.1] at hform
      cases hform with
      | con _ _ hargs => exact .con hc htuple fun u hu => ih u hu rfl (hargs _ (mem_map_of_mem hu))
  | emptyRow =>
    cases k with
    | rest front => exact .emptyRow front
    | type => cases hk
  | @record _ _ fs tail hs _ _ htail ihf iht =>
    rw [Role.form_record] at hform
    cases (show (Ty.record _ _).Fits G H _ _ from Fits.asRow htail.norm) with
    | record hrest hfront _ _ =>
      obtain ⟨hfs, htail'⟩ := Fits.of_prepend (Sorted.mapValues hs _) hrest (fun e he hmem =>
        hfront e he (mem_union_right _ (by rwa [names_mapValues] at hmem))) hform
      have hfs' := forall_mem_map.mp hfs
      refine .record hs (fun e he => (hfs' e he).1) (fun e he => ihf e he rfl (hfs' e he).2)
        (iht rfl ?_)
      rwa [Role.behind_mapValues] at htail'
  | synonym hparams _ hsolid _ iht =>
    cases k with
    | rest => cases hk
    | type => exact .synonym hparams (iht rfl hform) hsolid
  | module hparts hvalues htypes hclosed =>
    cases k with
    | rest => cases hk
    | type => exact .module hparts hvalues htypes hclosed

/-- If a type has a role with types in the place of its variables, then it has this role
and the types have the roles of the variables. These are of the same kind as the roles
that the variables had, and the same ones if the type had the role before. -/
theorem Fits.roles_of_subst {P : Prop} (h : t.Fits G H V k₁) (hf : (t.subst f).Fits G' H' V' k)
    (hk : k₁.kind = k.kind) (hP : P → k₁ = k) :
    t.Fits G H (fun x k => (∃ k₁, V x k₁ ∧ k₁.kind = k.kind ∧ (P → k₁ = k)) ∧
      (f x).Fits G' H' V' k) k := by
  induction h generalizing k with
  | var hx => exact .var ⟨⟨_, hx, hk, hP⟩, hf⟩
  | con hc htuple _ ih =>
    rw [Ty.subst, substList_eq] at hf
    cases k with
    | rest => cases hk
    | type =>
      cases hf with
      | con _ _ hargs =>
        exact .con hc htuple fun u hu => ih u hu (hargs _ (mem_map_of_mem hu)) rfl fun _ => rfl
  | emptyRow =>
    cases k with
    | rest front => exact .emptyRow front
    | type => cases hk
  | record hs _ _ _ ihf iht =>
    rw [Ty.subst, substFields_eq] at hf
    cases hf with
    | record _ hfront hfields htail =>
      refine .record hs (fun e he => hfront (e.1, e.2.subst f) (mem_map_of_mem he))
        (fun e he => ?_)
        (iht (Role.behind_mapValues _ _ _ ▸ htail) rfl fun h => by rw [hP h])
      exact ihf e he (hfields _ (mem_map_of_mem he)) rfl fun _ => rfl
  | synonym hparams _ hsolid _ iht =>
    cases hf with
    | synonym _ htarget => exact .synonym hparams (iht htarget rfl fun _ => rfl) hsolid
  | module hparts hvalues htypes hclosed =>
    cases k with
    | rest => cases hk
    | type => exact .module hparts hvalues htypes hclosed

end Ty

/-- Something of the role. -/
def Role.default : Role → Ty
  | .type => .base .unit
  | .rest _ => .emptyRow

theorem Role.rowed_default (κ : Nat → Role) (k : Role) : k.default.Rowed κ k := by
  cases k with
  | type => exact .base _
  | rest front => exact .emptyRow front

open Classical in
/-- The type, if it has the role, or else something that has it. -/
noncomputable def Role.orDefault (κ : Nat → Role) (k : Role) (t : Ty) : Ty :=
  if t.Rowed κ k then t else k.default

theorem Role.orDefault_eq {κ : Nat → Role} {k : Role} {t : Ty} (h : t.Rowed κ k) :
    k.orDefault κ t = t :=
  if_pos h

theorem Role.rowed_orDefault (κ : Nat → Role) (k : Role) (t : Ty) :
    (k.orDefault κ t).Rowed κ k := by
  unfold orDefault
  split
  · assumption
  · exact k.rowed_default κ

/-- The roles that the variables have by their values. Generalized variables, which
have none, are not told apart. -/
def Suited (κ : Nat → Role) (n : Nat) (K : Nat → Kind) (θ : Nat → Ty) : TyVar → Role → Prop
  | .flex v, k => v < n ∧ K v = k.kind ∧ (θ v).Rowed κ k
  | .gen _, _ => True

/-- A registry with an assignment that satisfies it. Synonyms are solid. -/
structure Point (κ : Nat → Role) where
  registry : Registry
  kind : Nat → Kind
  assign : Nat → Ty
  fits : ∀ {v : Nat} {t : Ty}, registry.binding? v = some t →
    ∃ k, Suited κ registry.varCount kind assign (.flex v) k ∧
      t.Fits True (Suited κ registry.varCount kind assign)
        (fun x k => Suited κ registry.varCount kind assign x k ∧ ∃ v, x = .flex v) k
  satisfies : registry.Satisfies kind assign
  acyclic : registry.bare.Acyclic

namespace Point

variable {κ : Nat → Role} {p q : Point κ} {k : Role} {a b s t : Ty} {x : TyVar} {v : Nat}
  {front : Finset String}

/-- A role of a variable at the point. -/
def Has (p : Point κ) : TyVar → Role → Prop := Suited κ p.registry.varCount p.kind p.assign

/-- A role of a variable that can be solved. -/
def HasFlex (p : Point κ) (x : TyVar) (k : Role) : Prop := p.Has x k ∧ ∃ v, x = .flex v

/-- The type fits the role and shows no generalized variables. -/
def Fits (p : Point κ) (k : Role) (t : Ty) : Prop := t.Fits True p.Has p.HasFlex k

/-- The later point knows all variables and bindings of the earlier one, and what the
variables stand for. -/
structure Le (p q : Point κ) : Prop where
  registry : p.registry.Extends q.registry
  kind : ∀ {v}, v < p.registry.varCount → q.kind v = p.kind v
  assign : ∀ {v}, v < p.registry.varCount → q.assign v = p.assign v

instance : Preorder (Point κ) where
  le := Le
  le_refl p := ⟨.refl _, fun _ => rfl, fun _ => rfl⟩
  le_trans _ _ _ h h' := ⟨h.registry.trans h'.registry,
    fun hv => (h'.kind (hv.trans_le h.registry.varCount_le)).trans (h.kind hv),
    fun hv => (h'.assign (hv.trans_le h.registry.varCount_le)).trans (h.assign hv)⟩

theorem Le.has (hle : p ≤ q) (hx : p.Has x k) : q.Has x k := by
  cases x with
  | gen g => trivial
  | flex v =>
    obtain ⟨hlt, hkind, hrowed⟩ := hx
    refine ⟨hlt.trans_le hle.registry.varCount_le, (hle.kind hlt).trans hkind, ?_⟩
    rwa [hle.assign hlt]

theorem Fits.mono (h : p.Fits k t) (hle : p ≤ q) : q.Fits k t :=
  Ty.Fits.mono h (fun _ _ hx => ⟨hle.has hx.1, hx.2⟩) (fun _ _ => hle.has) id

theorem fits_flex : p.Fits k (.flex v) ↔ p.Has (.flex v) k :=
  Fits.var_iff.trans ⟨fun h => h.1, fun h => ⟨h, v, rfl⟩⟩

/-- The state is sound and has the registry of the point. -/
def At (p : Point κ) (s : State) : Prop := s.registry = p.registry ∧ s.Sound

/-- The value of a type at the point. -/
def value (p : Point κ) (t : Ty) : Ty := t.value p.assign

theorem value_mono (hle : p ≤ q) (ht : t.Fits True p.Has p.Has k) : q.value t = p.value t := by
  refine norm_subst_congr fun x hx => ?_
  cases x with
  | gen g => rfl
  | flex v =>
    obtain ⟨k', hk'⟩ := ht.role_of_shown hx
    rw [fill, fill, hle.assign hk'.1]

theorem Fits.has (h : p.Fits k t) : t.Fits True p.Has p.Has k :=
  Ty.Fits.mono h (fun _ _ hx => hx.1) (fun _ _ => id) id

theorem value_eq (hle : p ≤ q) (ht : p.Fits k t) : q.value t = p.value t := value_mono hle ht.has

theorem fits_fill (hx : p.Has x k) :
    (fill p.assign x).Fits False (fun _ _ => True) (fun _ _ => True) k := by
  cases x with
  | flex v => exact hx.2.2.mono (fun _ _ _ => trivial) (fun _ _ => id) id
  | gen g => exact .var trivial

/-- Under the assignment a type keeps its role. -/
theorem fits_subst {V V' : TyVar → Role → Prop} (ht : t.Fits True p.Has V k)
    (hV : ∀ x k, V x k → (fill p.assign x).Fits False (fun _ _ => True) V' k) :
    (t.subst (fill p.assign)).Fits False (fun _ _ => True) V' k :=
  Ty.Fits.subst (ht.mono (fun _ _ => id) (fun _ _ => id) False.elim) hV (fun _ _ => fits_fill)
    fun _ _ _ => trivial

theorem rowed_subst (ht : p.Fits k t) : (t.subst (fill p.assign)).Rowed κ k := by
  refine fits_subst ht ?_
  rintro x k ⟨hx, v, rfl⟩
  exact hx.2.2

theorem rowed (p : Point κ) (ht : p.Fits k t) : (p.value t).Rowed κ k := (rowed_subst ht).norm

/-! ## Reading -/

/-- What is bound to a variable has the value of the variable, and so all its
roles. -/
theorem obeys (p : Point κ) : p.registry.Obeys True p.Has p.HasFlex := by
  intro v t k hv hk
  obtain ⟨k₁, hk₁, ht⟩ := p.fits hv
  have hkind : k₁.kind = k.kind := hk₁.2.1.symm.trans hk.1.2.1
  have hsame : k.kind.Same (fill p.assign (.flex v)).norm (t.subst (fill p.assign)).norm := by
    rw [← hk.1.2.1]
    exact p.satisfies v t hv
  have hform : (k.form (t.subst (fill p.assign))).Rowed κ k := by
    rw [← Role.form_eq hsame]
    exact Ty.Fits.form hk.1.2.2
  have hrowed := Ty.Fits.reform (rowed_subst ht) hkind hform
  refine (Ty.Fits.roles_of_subst ht hrowed hkind False.elim).mono (fun x k hx => ?_)
    (fun _ _ => id) id
  obtain ⟨⟨k₁, ⟨hw, w, rfl⟩, hkind, -⟩, hrowed⟩ := hx
  exact ⟨⟨hw.1, hw.2.1.trans hkind, hrowed⟩, w, rfl⟩

theorem obeys_has (p : Point κ) : p.registry.Obeys True p.Has p.Has :=
  fun v t k hv hk => Fits.has (p.obeys v t k hv ⟨hk, v, rfl⟩)

theorem hasKind (ht : t.Fits True p.Has p.Has k) : t.HasKind False p.kind k.kind :=
  ht.hasKind fun _ _ hv => hv.2.1

theorem wellFormed_bare (p : Point κ) : p.registry.bare.WellFormed (BareKind p.kind) := by
  refine Registry.wellFormed_bare p.acyclic fun v t hv => ?_
  obtain ⟨k, hk, ht⟩ := p.fits hv
  rw [hk.2.1]
  exact hasKind (Fits.has ht)

theorem value_resolve (ht : p.Fits k t) :
    k.kind.Same (p.value (p.registry.resolve t)) (p.value t) :=
  p.satisfies.bare_resolve p.wellFormed_bare (hasKind ht.has)

theorem value_resolveDeep (ht : t.Fits True p.Has p.Has k) :
    k.kind.Same (p.value (p.registry.resolveDeep t)) (p.value t) :=
  p.satisfies.bare_resolveDeep p.wellFormed_bare (hasKind ht)

theorem Fits.resolveDeep (ht : p.Fits k t) : p.Fits k (p.registry.resolveDeep t) :=
  p.obeys.resolveDeep p.obeys_has ht

/-- What a variable of the resolved type stands for is part of the value. -/
theorem mem_shown_value (hsound : p.registry.Sound) (ht : t.Fits True p.Has p.Has .type)
    (hfaithful : t.Faithful) (hv : .flex v ∈ (p.registry.resolveDeep t).occurrences)
    (hx : x ∈ (p.assign v).shown) : x ∈ (p.value t).shown := by
  have hshown := (faithful_resolveDeep hsound.acyclic hsound.faithful hfaithful).mem_shown hv
  have hdeep := p.obeys_has.resolveDeep p.obeys_has ht
  have hvalue : p.value (p.registry.resolveDeep t) = p.value t := value_resolveDeep ht
  rw [← hvalue]
  exact (fits_subst hdeep fun _ _ => fits_fill).mem_shown_norm
    (mem_shown_subst.mpr ⟨_, hshown, hx⟩)

/-! ## Two types with the same value -/

/-- The two types have one role and, as what they are taken for, the same value. -/
structure Same (p : Point κ) (k : Role) (a b : Ty) : Prop where
  left : p.Fits k a
  right : p.Fits k b
  same : k.kind.Same (p.value a) (p.value b)

theorem apartAt (p : Point κ) {fs : Table Ty} {tail : Ty} (h : p.Fits k (.record fs tail)) :
    (record fs tail).ApartAt p.assign := by
  cases h with
  | record _ _ _ htail =>
    intro l hl
    exact (rowed_subst htail).lookup_front (mem_union_right _ (mem_names_iff_lookup.mpr hl))

/-! ## Later points -/

/-- The variable has been issued, with the kind and the value. -/
structure Issued (p : Point κ) (v : Nat) (K : Kind) (s : Ty) : Prop where
  lt : v < p.registry.varCount
  kind : p.kind v = K
  assign : p.assign v = s

theorem Issued.mono {K : Kind} (h : p.Issued v K s) (hle : p ≤ q) : q.Issued v K s :=
  ⟨h.lt.trans_le hle.registry.varCount_le, (hle.kind h.lt).trans h.kind,
    (hle.assign h.lt).trans h.assign⟩

theorem Issued.has (h : p.Issued v k.kind s) (hs : s.Rowed κ k) : p.Has (.flex v) k :=
  ⟨h.lt, h.kind, h.assign.symm ▸ hs⟩

/-- The assignment extends to variables that are issued, as long as no binding is
made. -/
def extend (p : Point κ) (r : Registry) (K : Nat → Kind) (θ : Nat → Ty)
    (hle : p.registry.varCount ≤ r.varCount) (hb : ∀ w, r.binding? w = p.registry.binding? w)
    (hK : ∀ v, v < p.registry.varCount → K v = p.kind v)
    (hθ : ∀ v, v < p.registry.varCount → θ v = p.assign v) : Point κ where
  registry := r
  kind := K
  assign := θ
  fits {v t} hv := by
    have hsuited : ∀ x k, p.Has x k → Suited κ r.varCount K θ x k := by
      intro x k hx
      cases x with
      | gen g => trivial
      | flex w => exact ⟨hx.1.trans_le hle, (hK w hx.1).trans hx.2.1, hθ w hx.1 ▸ hx.2.2⟩
    obtain ⟨k, hk, ht⟩ := p.fits (hb v ▸ hv)
    exact ⟨k, hsuited _ _ hk, ht.mono (fun x k hx => ⟨hsuited x k hx.1, hx.2⟩) hsuited id⟩
  satisfies := by
    intro v t hv
    rw [hb] at hv
    obtain ⟨k, hk, ht⟩ := p.fits hv
    have hvalue : t.value θ = t.value p.assign := by
      refine norm_subst_congr fun x hx => ?_
      obtain ⟨k', hk', w, rfl⟩ := Ty.Fits.role_of_shown ht hx
      rw [fill, fill, hθ w hk'.1]
    rw [hK v hk.1, hvalue, value_flex, hθ v hk.1]
    exact p.satisfies v t hv
  acyclic := p.acyclic.of_binding? fun v t h => by simpa [hb] using h

/-- A new variable with a value. -/
def addVar (p : Point κ) (K : Kind) (s : Ty) : Point κ :=
  p.extend p.registry.addVar (update p.kind p.registry.varCount K)
    (update p.assign p.registry.varCount s) (by simp) (by simp)
    (fun _ hv => update_of_ne hv.ne _ _) fun _ hv => update_of_ne hv.ne _ _

theorem le_addVar (p : Point κ) (K : Kind) (s : Ty) : p ≤ p.addVar K s :=
  ⟨⟨by simp [addVar, extend], fun v t hv => by simpa [addVar, extend] using hv⟩,
    fun hv => update_of_ne hv.ne _ _, fun hv => update_of_ne hv.ne _ _⟩

theorem issued_addVar (p : Point κ) (K : Kind) (s : Ty) :
    (p.addVar K s).Issued p.registry.varCount K s :=
  ⟨by simp [addVar, extend], update_self _ _ _, update_self _ _ _⟩

/-- Generalized variables are issued. -/
def addGens (p : Point κ) (n : Nat) : Point κ :=
  p.extend { p.registry with nextGen := n } p.kind p.assign le_rfl (fun _ => rfl)
    (fun _ _ => rfl) fun _ _ => rfl

theorem le_addGens (p : Point κ) (n : Nat) : p ≤ p.addGens n :=
  ⟨⟨le_rfl, fun _ _ h => h⟩, fun _ => rfl, fun _ => rfl⟩

/-- A variable is bound to a type with its value. -/
def setBinding (p : Point κ) (h : p.Same k (.flex v) t)
    (hopen : p.registry.binding? v = none) (hocc : p.registry.occurs v t = false) : Point κ where
  registry := p.registry.setBinding v t
  kind := p.kind
  assign := p.assign
  fits {w u} hw := by
    rw [varCount_setBinding]
    rcases Registry.binding?_setBinding_inv hw with ⟨rfl, rfl⟩ | hw
    · exact ⟨k, fits_flex.mp h.left, h.right⟩
    · exact p.fits hw
  satisfies := by
    intro w u hw
    rcases Registry.binding?_setBinding_inv hw with ⟨rfl, rfl⟩ | hw
    · rw [(fits_flex.mp h.left).2.1]
      exact h.same
    · exact p.satisfies w u hw
  acyclic := Registry.acyclic_bare_setBinding p.acyclic hopen hocc

theorem le_setBinding (p : Point κ) (h : p.Same k (.flex v) t)
    (hopen : p.registry.binding? v = none) (hocc : p.registry.occurs v t = false) :
    p ≤ p.setBinding h hopen hocc :=
  ⟨.setBinding hopen t, fun _ => rfl, fun _ => rfl⟩

/-- A new variable is given a row without the fields of another one, and comes
behind their labels. -/
theorem issue (p : Point κ) (hv : p.Fits (.rest front) (.flex v)) {theirs : Row}
    (hgone : theirs.fields.names ⊆ front ∪ (p.value (.flex v)).asRow.fields.names) :
    ∃ q, p ≤ q ∧ q.registry = p.registry.addVar ∧
      q.Fits (.rest (front ∪ theirs.fields.names)) (.flex p.registry.varCount) ∧
      (q.value (.flex p.registry.varCount)).asRow =
        (p.value (.flex v)).asRow.without theirs := by
  have hkeep : ∀ l, (theirs.fields.lookup l).isNone = true ↔ l ∉ theirs.fields.names := by
    intro l
    rw [mem_names_iff_lookup, not_isSome_iff_eq_none, isNone_iff_eq_none]
  have hnorm : (p.value (.flex v)).norm = p.value (.flex v) := norm_norm _
  obtain ⟨z, hz, heq⟩ := (p.rowed hv).restrict_row hkeep (by rwa [hnorm])
  rw [hnorm] at heq
  have hnew := p.issued_addVar .row z
  refine ⟨p.addVar .row z, p.le_addVar .row z, rfl, fits_flex.mpr (hnew.has hz), ?_⟩
  rw [value, value_flex, hnew.assign]
  exact heq

/-- Points are points of runs on types that fit the roles of the variables. -/
def system (κ : Nat → Role) : PointSystem (Point κ) where
  registry := registry
  assign := assign
  Fits := Fits
  fits_mono hle h := h.mono hle
  value_mono hle h := value_eq hle h
  open_of_resolve {p _ _} h := Registry.open_of_resolve p.acyclic h
  fits_resolve {p _ _} h := p.obeys.resolve h
  value_resolve h := value_resolve h
  fits_row {p _ _} h := p.obeys.row h
  value_row {p _ _} h := p.satisfies.bare_row p.wellFormed_bare (hasKind h.has)
  issued h := (fits_flex.mp h).1
  kind_eq h h' := (fits_flex.mp h).2.1.symm.trans (fits_flex.mp h').2.1
  con h := by
    cases h with
    | con hc _ hargs => exact .inr ⟨hc.1, rfl, hargs⟩
    | emptyRow => exact .inl ⟨rfl, rfl⟩
  record {p _ _ _} h := by
    have hapart := p.apartAt h
    cases h with
    | record hs _ hfields htail => exact ⟨hs, hfields, htail, hapart⟩
  synonym h := by
    cases h with
    | synonym _ htarget hsolid => exact ⟨rfl, htarget, hsolid trivial⟩
  ends h hrec := by
    cases h with
    | var => exact .inl ⟨_, rfl⟩
    | emptyRow => exact .inr rfl
    | record => cases hrec
  asRest h hform := Ty.Fits.asRest h hform
  fits_resolve_tail {p _ _ _} h := p.obeys.resolve_tail h
  fits_lacking h hrest _ := Ty.Fits.lacking h hrest
  issue {p _ _ _} hv hgone := p.issue hv hgone
  bind {p _ _ _} hv ht hsame hopen hocc :=
    ⟨p.setBinding ⟨hv, ht, hsame⟩ hopen hocc, p.le_setBinding ⟨hv, ht, hsame⟩ hopen hocc, rfl⟩

end Point

namespace Point

open Check

variable {κ : Nat → Role} {p q : Point κ} {k : Role} {a b s t : Ty}

/-- Unification finds a later point. -/
theorem finds_unify (h : p.Same .type a b) (ha : a.Faithful) (hb : b.Faithful) :
    Finds At p (unify a b) fun _ _ => True := by
  intro st hst
  obtain ⟨hreg, hsound⟩ := hst
  have hcov : st.registry.AllBindings Covered :=
    fun v t hv => (hsound.registry.faithful v t hv).covered
  have hunifies := unify_unifies (.of_covered hsound.registry.acyclic hcov) ha.covered hb.covered
  obtain ⟨hok, q, hle, hq⟩ := hunifies.finds (M := system κ) hreg.symm
    (.of_types ⟨h.left, h.right, h.same⟩)
  have hkeeps := (State.Sound.discipline.keeps_unify ha hb st hsound le_rfl).1
  unfold Check.ends at hok hq
  cases hrun : (unify a b).run st with
  | ok u st' =>
    rw [hrun] at hq
    rw [after_ok hrun] at hkeeps
    exact ⟨u, st', q, rfl, hle, ⟨hq.symm, hkeeps⟩, trivial⟩
  | error e st' =>
    rw [hrun] at hok
    cases hok

/-! ## Operations -/

section

variable {ε α β : Type} {Q : Point κ → α → Prop}

theorem finds_registry_bind {f : Registry → Check ε α} (h : Finds At p (f p.registry) Q) :
    Finds At p (Check.registry >>= f) Q := by
  intro st hst
  have hrun : (Check.registry >>= f).run st = (f p.registry).run st := by
    rw [← hst.1]
    rfl
  rw [hrun]
  exact h st hst

theorem finds_located {x : Check TypeError α} (hx : Finds At p x Q) (span : Span) :
    Finds At p (located span x) Q := by
  intro st hst
  obtain ⟨a, st', q, hrun, hq⟩ := hx st hst
  exact ⟨a, st', q, run_located_ok.mpr hrun, hq⟩

/-- A new variable with a value. -/
theorem finds_freshVar (K : Kind) (s : Ty) :
    Finds At p (freshVar : Check ε Ty) fun q t => ∃ v, t = .flex v ∧ q.Issued v K s ∧
      p.registry.varCount ≤ v ∧ ∀ w, q.registry.binding? w = p.registry.binding? w := by
  intro st hst
  obtain ⟨hreg, hsound⟩ := hst
  have hkeeps := (State.Sound.discipline.keeps_freshVar (ε := ε) st hsound le_rfl).1
  refine ⟨_, _, p.addVar K s, run_freshVar st, p.le_addVar K s,
    ⟨congrArg Registry.addVar hreg, hkeeps⟩, p.registry.varCount, by rw [hreg],
    p.issued_addVar K s, le_rfl, p.registry.binding?_addVar⟩

/-- New variables for the members of a list, with values. -/
theorem finds_freshVars (K : β → Kind) (val : β → Ty) (bs : List β) :
    Finds At p (freshFor freshVar bs : Check ε _) fun q es => es.map (·.1) = bs ∧
      (∀ w, q.registry.binding? w = p.registry.binding? w) ∧
      ∀ e ∈ es, ∃ v, e.2 = .flex v ∧ q.Issued v (K e.1) (val e.1) ∧ p.registry.varCount ≤ v := by
  induction bs generalizing p with
  | nil => exact finds_pure ⟨rfl, fun _ => rfl, by simp⟩
  | cons b bs ih =>
    refine (finds_freshVar (K b) (val b)).bind fun p₁ t hle₁ ht =>
      ih.bind fun p₂ es hle₂ hes => finds_pure ?_
    obtain ⟨v, rfl, hv, hge, hb₁⟩ := ht
    obtain ⟨hkeys, hb₂, hes⟩ := hes
    refine ⟨by simp [hkeys], fun w => (hb₂ w).trans (hb₁ w), forall_mem_cons.mpr ⟨?_, ?_⟩⟩
    · exact ⟨v, rfl, hv.mono hle₂, hge⟩
    · intro e he
      obtain ⟨u, hu, hissued, hge'⟩ := hes e he
      exact ⟨u, hu, hissued, hle₁.registry.varCount_le.trans hge'⟩

end

end Point

end RowTyping
