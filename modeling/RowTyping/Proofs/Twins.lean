import RowTyping.Proofs.Matching

/-!
# Registries with the same solutions

Two registries that grew from the same variables may look different and still have
the same solutions on those. Types that have the same value under all of them are
twins: they are read alike, up to the names of open variables. For the registries
have solutions in which every open variable has a generalized variable of its own,
so that nothing has the value of an open variable but an open variable.
-/

namespace RowTyping

variable {K : Nat → Kind} {n : Nat}

open Registry Row Table Ty Function List Option

theorem SimpleKind.not_synonym {E : Prop} {k : Kind} {t : Ty} (h : SimpleKind E K n k t) (id : Nat)
    (labels : List String) (params : List Ty) (target : Ty) :
    t ≠ .synonym id labels params target := by
  rintro rfl
  exact h.2.here

/-- Solutions of two registries that agree on the first `n` variables. -/
structure Joint (K : Nat → Kind) (n : Nat) (r e : Registry) (θ η : Nat → Ty) : Prop where
  left : r.Posed K θ
  right : e.Posed K η
  agree : ∀ v, v < n → θ v = η v

theorem Joint.symm {r e : Registry} {θ η : Nat → Ty} (h : Joint K n r e θ η) : Joint K n e r η θ :=
  ⟨h.right, h.left, fun v hv => (h.agree v hv).symm⟩

/-- Whatever one registry leaves open, a solution of the other may tell apart. -/
structure Equisolvable (E : Prop) (K : Nat → Kind) (n : Nat) (r e : Registry) : Prop where
  left : r.WellFormed (SimpleKind E K r.varCount)
  right : e.WellFormed (SimpleKind E K e.varCount)
  rigidLeft : ∀ N, ∃ η, Joint K n r e (r.rigid N) η
  rigidRight : ∀ N, ∃ θ, Joint K n r e θ (e.rigid N)

theorem Equisolvable.symm {E : Prop} {r e : Registry} (h : Equisolvable E K n r e) :
    Equisolvable E K n e r where
  left := h.right
  right := h.left
  rigidLeft N := (h.rigidRight N).imp fun _ h => h.symm
  rigidRight N := (h.rigidLeft N).imp fun _ h => h.symm

/-- Two types with the same value, as what they are taken for, under all solutions
that agree. -/
structure Twin (E : Prop) (K : Nat → Kind) (n : Nat) (r e : Registry) (k : Kind) (x y : Ty) :
    Prop where
  left : SimpleKind E K r.varCount k x
  right : SimpleKind E K e.varCount k y
  apart : ∀ {θ η : Nat → Ty}, Joint K n r e θ η → x.Apart θ ∧ y.Apart η
  same : ∀ {θ η : Nat → Ty}, Joint K n r e θ η → k.Same (x.value θ) (y.value η)

namespace Twin

variable {E : Prop} {K : Nat → Kind} {n : Nat} {r e : Registry} {k : Kind} {x y : Ty}
  {θ η : Nat → Ty}

theorem symm (h : Twin E K n r e k x y) : Twin E K n e r k y x where
  left := h.right
  right := h.left
  apart hj := (h.apart hj.symm).symm
  same hj := (h.same hj.symm).symm

theorem properLeft (h : Twin E K n r e k x y) (hj : Joint K n r e θ η) :
    Proper K θ r.varCount k x :=
  ⟨h.left.plainKind, (h.apart hj).1⟩

theorem properRight (h : Twin E K n r e k x y) (hj : Joint K n r e θ η) :
    Proper K η e.varCount k y :=
  ⟨h.right.plainKind, (h.apart hj).2⟩

/-- Two records are also twins as rows. -/
theorem asRow (h : Twin E K n r e k x y) (hx : x.IsRowForm) (hy : y.IsRowForm) :
    Twin E K n r e .row x y where
  left := (kinding_simple E K _).asRow h.left hx
  right := (kinding_simple E K _).asRow h.right hy
  apart := h.apart
  same hj := (h.same hj).asRow

/-- The arguments of twins are twins. -/
theorem args {c d : Con} {ts us : List Ty} (h : Twin E K n r e .type (.con c ts) (.con d us))
    (hc : c ≠ .emptyRow) (hd : d ≠ .emptyRow) {p : Ty × Ty} (hp : p ∈ ts.zip us) :
    Twin E K n r e .type p.1 p.2 where
  left := (kinding_simple E K _).args h.left _ (of_mem_zip hp).1
  right := (kinding_simple E K _).args h.right _ (of_mem_zip hp).2
  apart hj := ⟨(h.apart hj).1.child (of_mem_zip hp).1, (h.apart hj).2.child (of_mem_zip hp).2⟩
  same {θ η} hj := by
    have hsame : (con c ts).value θ = (con d us).value η := h.same hj
    rw [value_con hc, value_con hd, con.injEq] at hsame
    obtain ⟨i, hi⟩ := mem_iff_getElem?.mp hp
    obtain ⟨ht, hu⟩ := getElem?_zip_eq_some.mp hi
    have hget := congrArg (fun ts : List Ty => ts[i]?) hsame.2
    show p.1.value θ = p.2.value η
    simpa [ht, hu] using hget

/-- The rows of twins have the same value, piece by piece. -/
theorem row_eq (h : Twin E K n r e .row x y) (hj : Joint K n r e θ η) :
    prepend (mapValues (value θ) (r.row x).fields) ((r.row x).tail.value θ).asRow =
      prepend (mapValues (value η) (e.row y).fields) ((e.row y).tail.value η).asRow := by
  have hx := hj.left.solution.satisfies.row (kinding_plain K _) hj.left.wellFormed
    (fun h => h.1) h.left.plainKind
  have hy := hj.right.solution.satisfies.row (kinding_plain K _) hj.right.wellFormed
    (fun h => h.1) h.right.plainKind
  have hsame : (x.value θ).asRow = (y.value η).asRow := h.same hj
  rwa [hx, hy] at hsame

theorem lookup_row (h : Twin E K n r e .row x y) (hj : Joint K n r e θ η) (l : String) :
    (((r.row x).fields.lookup l).map (value θ)).or
        (((r.row x).tail.value θ).asRow.fields.lookup l) =
      (((e.row y).fields.lookup l).map (value η)).or
        (((e.row y).tail.value η).asRow.fields.lookup l) := by
  simpa using congrArg (fun row : Row => row.fields.lookup l) (h.row_eq hj)

section

variable (hre : Equisolvable E K n r e)
include hre

theorem resolve (h : Twin E K n r e k x y) : Twin E K n r e k (r.resolve x) (e.resolve y) where
  left := hre.left.resolve h.left
  right := hre.right.resolve h.right
  apart hj := ⟨(hj.left.resolve (h.properLeft hj)).1.2, (hj.right.resolve (h.properRight hj)).1.2⟩
  same hj := ((hj.left.resolve (h.properLeft hj)).2.trans (h.same hj)).trans
    (hj.right.resolve (h.properRight hj)).2.symm

/-- What has the value of an open variable is an open variable. -/
theorem exists_flex (h : Twin E K n r e k x y) (hrec : k = .row → x.isRecord = false) {w : Nat}
    (hy : y = .flex w) (hw : e.binding? w = none) : ∃ v, x = .flex v := by
  by_contra hflex
  have hvalue : ∀ N, ∃ θ, k.Same (x.value θ) (.gen (N + w)) := by
    intro N
    obtain ⟨θ, hj⟩ := hre.rigidRight N
    have hsame := h.same hj
    rw [hy, value_rigid_open hre.right.acyclic hw] at hsame
    exact ⟨θ, hsame⟩
  have hgen : ∀ N, x = .gen (N + w) := by
    intro N
    obtain ⟨θ, hsame⟩ := hvalue N
    cases k with
    | type =>
      have hform := hasForm θ (fun v hv => hflex ⟨v, hv⟩) h.left.not_synonym
      have heq : x.value θ = .gen (N + w) := hsame
      rw [heq] at hform
      cases hform
      rfl
    | row =>
      have hrow : (x.value θ).asRow = ⟨[], .gen (N + w)⟩ := hsame
      rcases h.left.1.isEnd (hrec rfl) with ⟨z, rfl⟩ | rfl
      · cases z with
        | flex v => exact absurd ⟨v, rfl⟩ hflex
        | gen g => simpa [Ty.asRow] using hrow
      · simp [Ty.asRow, Ty.emptyRow] at hrow
  have h₀ := hgen 0
  rw [hgen 1] at h₀
  simp at h₀

/-! ## Rows -/

/-- Twins have the labels of each other. -/
theorem names_subset (h : Twin E K n r e .row x y) :
    (r.row x).fields.names ⊆ (e.row y).fields.names := by
  intro l hl
  obtain ⟨θ, hj⟩ := hre.rigidRight 0
  have hlook := h.lookup_row hj l
  have hend := asRow_rigid_end (N := 0) hre.right.acyclic
    (hre.right.isEnd_tail (kinding_simple E K _) (fun h => h.1) h.right)
    (row_tail hre.right.acyclic y).1
  rw [mem_names_iff_lookup] at hl ⊢
  obtain ⟨t, ht⟩ := isSome_iff_exists.mp hl
  rw [ht, hend] at hlook
  cases hy : (e.row y).fields.lookup l with
  | none => simp [hy] at hlook
  | some u => rfl

theorem names_eq (h : Twin E K n r e .row x y) : (r.row x).fields.names = (e.row y).fields.names :=
  (h.names_subset hre).antisymm (h.symm.names_subset hre.symm)

theorem field (h : Twin E K n r e .row x y) {l : String} {t u : Ty}
    (ht : (r.row x).fields.lookup l = some t) (hu : (e.row y).fields.lookup l = some u) :
    Twin E K n r e .type t u where
  left := (hre.left.row (kinding_simple E K _) h.left).1 _ (mem_of_lookup ht)
  right := (hre.right.row (kinding_simple E K _) h.right).1 _ (mem_of_lookup hu)
  apart hj :=
    ⟨((hj.left.row (h.properLeft hj)).of_record.2.1 _ (mem_of_lookup ht)).2,
      ((hj.right.row (h.properRight hj)).of_record.2.1 _ (mem_of_lookup hu)).2⟩
  same hj := by
    have hlook := h.lookup_row hj l
    rw [ht, hu] at hlook
    exact some.inj hlook

theorem tail (h : Twin E K n r e .row x y) : Twin E K n r e .row (r.row x).tail (e.row y).tail where
  left := (hre.left.row (kinding_simple E K _) h.left).2
  right := (hre.right.row (kinding_simple E K _) h.right).2
  apart hj := ⟨(hj.left.row (h.properLeft hj)).of_record.2.2.1.2,
    (hj.right.row (h.properRight hj)).of_record.2.2.1.2⟩
  same {θ η} hj := by
    refine eq_of_lookup (asRow_value_sorted θ _) (asRow_value_sorted η _) (fun l => ?_) ?_
    · by_cases hl : l ∈ (r.row x).fields.names
      · have hl' : l ∈ (e.row y).fields.names := h.names_eq hre ▸ hl
        rw [hj.left.solution.row_apart hj.left.wellFormed h.left.plainKind (h.apart hj).1
            (mem_names_iff_lookup.mp hl),
          hj.right.solution.row_apart hj.right.wellFormed h.right.plainKind (h.apart hj).2
            (mem_names_iff_lookup.mp hl')]
      · have hl' : l ∉ (e.row y).fields.names := h.names_eq hre ▸ hl
        have hlook := h.lookup_row hj l
        rw [mem_names_iff_lookup, not_isSome_iff_eq_none] at hl hl'
        simpa [hl, hl'] using hlook
    · simpa using congrArg Row.tail (h.row_eq hj)

end

end Twin

/-! ## What matches -/

section

variable {E : Prop} {K : Nat → Kind} {n : Nat} {r e : Registry}

/-- Types that are read alike over the two registries: twins, where twin rows are
both records or both not, and the same types over the first variables. -/
inductive Counterpart (E : Prop) (K : Nat → Kind) (n : Nat) (r e : Registry) : Ty → Ty → Prop where
  | type {x y : Ty} (h : Twin E K n r e .type x y) : Counterpart E K n r e x y
  | row {x y : Ty} (h : Twin E K n r e .row x y)
      (hrec : (r.resolve x).isRecord = (e.resolve y).isRecord) : Counterpart E K n r e x y
  | known {t : Ty} (h : t.Scoped n) : Counterpart E K n r e t t

/-- Open variables that are twins. -/
def TwinVars (E : Prop) (K : Nat → Kind) (n : Nat) (r e : Registry) (v w : Nat) : Prop :=
  r.binding? v = none ∧ e.binding? w = none ∧ ∃ k, Twin E K n r e k (.flex v) (.flex w)

variable (hre : Equisolvable E K n r e)
include hre

/-- Open variables are twins one to one. -/
theorem TwinVars.eq_of_eq {v v' w w' : Nat} (h : TwinVars E K n r e v w)
    (h' : TwinVars E K n r e v' w') (hv : v = v') : w = w' := by
  subst hv
  obtain ⟨-, hw, k, htwin⟩ := h
  obtain ⟨-, hw', k', htwin'⟩ := h'
  obtain ⟨θ, hj⟩ := hre.rigidRight 0
  have hsame := (htwin.same hj).asRow
  have hsame' := (htwin'.same hj).asRow
  rw [value_rigid_open hre.right.acyclic hw] at hsame
  rw [value_rigid_open hre.right.acyclic hw', hsame] at hsame'
  simpa [asRow] using hsame'

/-- Twin rows are related field by field, and so is what they end in. -/
theorem Twin.related {x y : Ty} (h : Twin E K n r e .row x y) :
    Related (Counterpart E K n r e) (r.row x) (e.row y) := by
  have hx := row_sorted hre.left.acyclic x
  have hy := row_sorted hre.right.acyclic y
  have hsome : ∀ l, ((r.row x).fields.lookup l).isSome ↔ ((e.row y).fields.lookup l).isSome := by
    intro l
    rw [← mem_names_iff_lookup, ← mem_names_iff_lookup, h.names_eq hre]
  refine ⟨(r.row x).fields.join (e.row y).fields, ?_, ?_, fun z hz => ?_, ?_⟩
  · refine hx.ext ((hx.join _).mapValues _) fun l => ?_
    rw [lookup_mapValues, lookup_join]
    have := hsome l
    cases hl : (r.row x).fields.lookup l <;> cases hl' : (e.row y).fields.lookup l <;> simp_all
  · refine hy.ext ((hx.join _).mapValues _) fun l => ?_
    rw [lookup_mapValues, lookup_join]
    have := hsome l
    cases hl : (r.row x).fields.lookup l <;> cases hl' : (e.row y).fields.lookup l <;> simp_all
  · have hlook := (hx.join _).lookup_of_mem hz
    rw [lookup_join] at hlook
    obtain ⟨t, ht, hlook⟩ := bind_eq_some_iff.mp hlook
    obtain ⟨u, hu, hpair⟩ := map_eq_some_iff.mp hlook
    rw [← hpair]
    exact .type (h.field hre ht hu)
  · obtain ⟨hres, hrec⟩ := row_tail hre.left.acyclic x
    obtain ⟨hres', hrec'⟩ := row_tail hre.right.acyclic y
    exact .row (h.tail hre) (by rw [hres.resolve, hres'.resolve, hrec, hrec'])

omit hre in
theorem isRecord_of_isRowForm (hE : ¬ E) {t : Ty} {m : Nat} (h : SimpleKind E K m .type t)
    (hform : t.IsRowForm) : t.isRecord = true := by
  rcases hform with hrec | ⟨ts, rfl⟩
  · exact hrec
  · cases h.1 with
    | con hc => exact absurd rfl hc
    | emptyRow hk => exact absurd hk (by simp [hE])

/-- Twin types other than variables have the same head. -/
theorem Twin.head_type (hE : ¬ E) {x y : Ty} (h : Twin E K n r e .type x y)
    (hx : ∀ v, x ≠ .flex v) (hy : ∀ w, y ≠ .flex w) :
    r.SameHead e (TwinVars E K n r e) (Counterpart E K n r e) x y := by
  obtain ⟨η, hj⟩ := hre.rigidLeft 0
  have hsame : x.value (r.rigid 0) = y.value η := h.same hj
  have hformx := hasForm (r.rigid 0) hx h.left.not_synonym
  have hformy := hasForm η hy h.right.not_synonym
  generalize x.value (r.rigid 0) = a at hsame hformx
  generalize y.value η = b at hsame hformy
  cases hformx with
  | gen g =>
    subst hsame
    cases hformy
    exact .gen g
  | @con c hc ts =>
    cases hformy with
    | @con d hd us =>
      rw [con.injEq] at hsame
      have hlen : ts.length = us.length := by simpa using congrArg length hsame.2
      have hpairs := SameHead.con (r := r) (e := e) (V := TwinVars E K n r e) hsame.1
        fun p hp => Counterpart.type (h.args hc hd hp)
      rwa [map_fst_zip hlen.le, map_snd_zip hlen.ge] at hpairs
    | _ => cases hsame
  | row hrow fs tail =>
    cases hformy with
    | row hrow' gs tail' =>
      obtain ⟨_, _, rfl⟩ := eq_record_of_isRecord (isRecord_of_isRowForm hE h.left hrow)
      obtain ⟨_, _, rfl⟩ := eq_record_of_isRecord (isRecord_of_isRowForm hE h.right hrow')
      exact .record ((h.asRow hrow hrow').related hre)
    | _ => cases hsame
  | module name members =>
    cases hformy with
    | module name' members' =>
      cases hsame
      exact .module name _ _
    | _ => cases hsame

/-- Twin rows other than variables have the same head, if both are records or
neither is. -/
theorem Twin.head_row {x y : Ty} (h : Twin E K n r e .row x y) (hx : ∀ v, x ≠ .flex v)
    (hy : ∀ w, y ≠ .flex w) (hrec : x.isRecord = y.isRecord) :
    r.SameHead e (TwinVars E K n r e) (Counterpart E K n r e) x y := by
  cases hxr : x.isRecord with
  | true =>
    obtain ⟨_, _, rfl⟩ := eq_record_of_isRecord hxr
    obtain ⟨_, _, rfl⟩ := eq_record_of_isRecord (hrec ▸ hxr)
    exact .record (h.related hre)
  | false =>
    obtain ⟨η, hj⟩ := hre.rigidLeft 0
    have hsame : (x.value (r.rigid 0)).asRow = (y.value η).asRow := h.same hj
    rcases h.left.1.isEnd hxr with ⟨a, rfl⟩ | rfl
    · rcases h.right.1.isEnd (hrec ▸ hxr) with ⟨b, rfl⟩ | rfl
      · cases a with
        | flex v => exact absurd rfl (hx v)
        | gen g =>
          cases b with
          | flex w => exact absurd rfl (hy w)
          | gen g' =>
            have hg : g = g' := by simpa [Ty.asRow] using hsame
            subst hg
            exact .gen g
      · cases a with
        | flex v => exact absurd rfl (hx v)
        | gen g => simp [Ty.asRow, Ty.emptyRow] at hsame
    · rcases h.right.1.isEnd (hrec ▸ hxr) with ⟨b, rfl⟩ | rfl
      · cases b with
        | flex w => exact absurd rfl (hy w)
        | gen g => simp [Ty.asRow, Ty.emptyRow] at hsame
      · exact SameHead.con rfl fun p (hp : p ∈ ([])) =>
          absurd hp not_mem_nil

/-- Twins that are resolved have the same head. -/
theorem Twin.head (hE : ¬ E) {k : Kind} {x y : Ty} (h : Twin E K n r e k x y) (hx : r.Resolved x)
    (hy : e.Resolved y) (hrec : k = .row → x.isRecord = y.isRecord) :
    r.SameHead e (TwinVars E K n r e) (Counterpart E K n r e) x y := by
  by_cases hflex : ∃ v, x = .flex v
  · obtain ⟨v, rfl⟩ := hflex
    obtain ⟨w, rfl⟩ := h.symm.exists_flex hre.symm (fun hk => (hrec hk).symm) rfl (hx v rfl)
    exact .flex ⟨hx v rfl, hy w rfl, k, h⟩
  · have hflex' : ∀ w, y ≠ .flex w := by
      rintro w rfl
      exact hflex (h.exists_flex hre hrec rfl (hy w rfl))
    cases k with
    | type => exact h.head_type hre hE (fun v hv => hflex ⟨v, hv⟩) hflex'
    | row => exact h.head_row hre (fun v hv => hflex ⟨v, hv⟩) hflex' (hrec rfl)

end

/-! ## Registries that continue the same one -/

theorem Registry.Extends.resolve_resolve {r r' : Registry} (h : r.Extends r') (hr : r.Acyclic)
    (hr' : r'.Acyclic) (t : Ty) : r'.resolve (r.resolve t) = r'.resolve t := by
  induction t using resolve_induct hr with
  | bound v t hv ih => rw [resolve_some hr hv, resolve_some hr' (h.binding v t hv), ih]
  | done t hdone => rw [hdone.resolve]

section

variable {E : Prop} {K : Nat → Kind} {φ φ₁ φ₂ : Nat → Finset String} {base r e : Registry} {v : Nat}

/-- A variable has one value. -/
theorem twin_flex (hr : v < r.varCount) (he : v < e.varCount) {n : Nat} (hv : v < n) :
    Twin E K n r e (K v) (.flex v) (.flex v) where
  left := ⟨.flex rfl, (all_var _).mpr hr⟩
  right := ⟨.flex rfl, (all_var _).mpr he⟩
  apart _ := ⟨(all_var _).mpr trivial, (all_var _).mpr trivial⟩
  same {θ η} hj := by
    rw [value_flex, hj.agree v hv]
    exact .refl _ _

/-- A row variable that becomes a record in one registry does so in the other. -/
theorem isRecord_of_twin {n : Nat} (hre : Equisolvable E K n r e)
    (hr : Continues E K base φ r φ₁) (hopen : base.binding? v = none) (hK : K v = .row)
    (h : Twin E K n r e .row (.flex v) (.flex v)) (hrec : (r.resolve (.flex v)).isRecord = true) :
    (e.resolve (.flex v)).isRecord = true := by
  obtain ⟨fs, tail, heq⟩ := eq_record_of_isRecord hrec
  have hne := hr.fields_ne hre.left.acyclic hopen hK heq
  obtain ⟨f, hf⟩ := exists_mem_of_ne_nil fs hne
  have hname : f.1 ∈ (r.row (.flex v)).fields.names := by
    rw [row_record hre.left.acyclic heq, names_union, names_union]
    exact Finset.mem_union_left _ (Finset.mem_union_right _ (mem_names.mpr ⟨f, hf, rfl⟩))
  rw [h.names_eq hre] at hname
  by_contra hother
  rw [row_other fun gs b heq' => hother (by rw [heq']; rfl)] at hname
  simp at hname

variable (hr : Continues E K base φ r φ₁) (he : Continues E K base φ e φ₂)
  (hre : Equisolvable E K base.varCount r e) (hE : ¬ E)
include hr he hre hE

/-- A variable that was open is read alike in both registries. -/
theorem head_open (hv : v < base.varCount) (hopen : base.binding? v = none) :
    Counterpart E K base.varCount r e (r.resolve (.flex v)) (e.resolve (.flex v)) ∧
      r.SameHead e (TwinVars E K base.varCount r e) (Counterpart E K base.varCount r e)
        (r.resolve (.flex v)) (e.resolve (.flex v)) := by
  have htwin : Twin E K base.varCount r e (K v) (.flex v) (.flex v) :=
    twin_flex (hv.trans_le hr.grows.varCount_le) (hv.trans_le he.grows.varCount_le) hv
  have hrec : K v = .row → (r.resolve (.flex v)).isRecord = (e.resolve (.flex v)).isRecord := by
    intro hK
    have htwin' := hK ▸ htwin
    rw [Bool.eq_iff_iff]
    exact ⟨isRecord_of_twin hre hr hopen hK htwin',
      isRecord_of_twin hre.symm he hopen hK htwin'.symm⟩
  have hres := htwin.resolve hre
  refine ⟨?_, hres.head hre hE (resolved_resolve hre.left.acyclic _)
    (resolved_resolve hre.right.acyclic _) hrec⟩
  cases hK : K v with
  | type =>
    rw [hK] at hres
    exact .type hres
  | row =>
    rw [hK] at hres
    refine .row hres ?_
    rw [resolve_resolve hre.left.acyclic, resolve_resolve hre.right.acyclic]
    exact hrec hK

variable (hbase : base.RowCoherent E K φ)
include hbase

omit hE in
/-- A type over the first variables leads to one that was open, or has its head
in both registries. -/
theorem known_cases {t : Ty} (ht : t.Scoped base.varCount) :
    (∃ v, v < base.varCount ∧ base.binding? v = none ∧ r.resolve t = r.resolve (.flex v) ∧
      e.resolve t = e.resolve (.flex v)) ∨
    ∃ s, s.Scoped base.varCount ∧ (∀ v, s ≠ .flex v) ∧ base.resolve t = s ∧ r.resolve t = s ∧
      e.resolve t = s := by
  have hscope := hbase.scoped_bindings.resolve hbase.acyclic ht
  have hres := hr.grows.resolve_resolve hbase.acyclic hre.left.acyclic t
  have hres' := he.grows.resolve_resolve hbase.acyclic hre.right.acyclic t
  by_cases hflex : ∃ v, base.resolve t = .flex v
  · obtain ⟨v, hv⟩ := hflex
    rw [hv] at hres hres' hscope
    exact .inl ⟨v, hscope v (mentions_flex.mpr rfl), binding?_of_resolve hbase.acyclic hv,
      hres.symm, hres'.symm⟩
  · have hne : ∀ v, base.resolve t ≠ .flex v := fun v hv => hflex ⟨v, hv⟩
    rw [resolve_of_not_flex hne] at hres hres'
    exact .inr ⟨_, hscope, hne, rfl, hres.symm, hres'.symm⟩

/-- A type over the first variables has the same head in both registries, with
related parts; for a record, if the rows are related. -/
theorem known_head {t : Ty} (ht : t.Scoped base.varCount)
    (hrows : ∀ fs tail, base.resolve t = .record fs tail →
      Related (Counterpart E K base.varCount r e) (r.row t) (e.row t)) :
    Counterpart E K base.varCount r e (r.resolve t) (e.resolve t) ∧
      r.SameHead e (TwinVars E K base.varCount r e) (Counterpart E K base.varCount r e)
        (r.resolve t) (e.resolve t) := by
  rcases known_cases hr he hre hbase ht with
    ⟨v, hv, hopen, heq, heq'⟩ | ⟨s, hscope, hne, hs, heq, heq'⟩
  · rw [heq, heq']
    exact head_open hr he hre hE hv hopen
  · have hrow := row_resolve hre.left.acyclic t
    have hrow' := row_resolve hre.right.acyclic t
    rw [heq] at hrow
    rw [heq'] at hrow'
    rw [heq, heq']
    refine ⟨.known hscope, ?_⟩
    have hparts : ∀ ts : List Ty, (∀ u ∈ ts, u ∈ s.children) →
        ∀ p ∈ ts.map fun u => (u, u), Counterpart E K base.varCount r e p.1 p.2 := by
      intro ts hts
      refine forall_mem_map.mpr fun u hu => .known fun w hw => hscope w ?_
      exact hw.of_child (hts u hu)
    have hdouble : ∀ ts : List Ty, (ts.map fun u => (u, u)).map Prod.fst = ts ∧
        (ts.map fun u => (u, u)).map Prod.snd = ts := by
      simp [comp_def]
    cases s with
    | var x =>
      cases x with
      | flex v => exact absurd rfl (hne v)
      | gen g => exact .gen g
    | con c args =>
      have h := SameHead.con (r := r) (e := e) (V := TwinVars E K base.varCount r e) (c := c) rfl
        (hparts args (by simp [children]))
      rwa [(hdouble args).1, (hdouble args).2] at h
    | record fs tail =>
      refine .record ?_
      rw [hrow, hrow']
      exact hrows fs tail hs
    | synonym id labels params target =>
      have h := SameHead.synonym (r := r) (e := e) (V := TwinVars E K base.varCount r e) id labels
        labels (hparts params (by simp +contextual [children]))
        (hparts [target] (by simp [children]) _ mem_cons_self)
      rwa [(hdouble params).1, (hdouble params).2] at h
    | module name members => exact .module name members members

/-- A type over the first variables has related rows in both registries. -/
theorem known_rows {t : Ty} (ht : t.Scoped base.varCount) :
    Related (Counterpart E K base.varCount r e) (r.row t) (e.row t) := by
  revert ht
  refine row_induct hbase.acyclic (motive := fun t _ => t.Scoped base.varCount →
    Related (Counterpart E K base.varCount r e) (r.row t) (e.row t)) ?_ ?_ t
  · intro t fs tail heq ih ht
    have hscope := hbase.scoped_bindings.resolve hbase.acyclic ht
    have hres := hr.grows.resolve_resolve hbase.acyclic hre.left.acyclic t
    have hres' := he.grows.resolve_resolve hbase.acyclic hre.right.acyclic t
    rw [heq, resolve_record] at hres hres'
    rw [heq] at hscope
    have hchild : ∀ u ∈ (record fs tail).children, u.Scoped base.varCount :=
      fun u hu w hw => hscope w (hw.of_child hu)
    rw [row_record hre.left.acyclic hres.symm, row_record hre.right.acyclic hres'.symm]
    refine (ih (hchild tail (mem_children_record.mpr (.inr rfl)))).behind fun f hf => ?_
    exact .known (hchild f.2 (mem_children_record.mpr (.inl ⟨f, hf, rfl⟩)))
  · intro t hother ht
    obtain ⟨hR, hhead⟩ := known_head hr he hre hE hbase ht fun fs tail heq =>
      absurd heq (hother fs tail)
    exact hhead.rows hre.left.acyclic hre.right.acyclic hR

theorem matching_counterpart :
    r.Matching e (TwinVars E K base.varCount r e) (Counterpart E K base.varCount r e) where
  left := hre.left.acyclic
  right := hre.right.acyclic
  resolve h := by
    cases h with
    | type h => exact .type (h.resolve hre)
    | row h hrec =>
      refine .row (h.resolve hre) ?_
      rwa [resolve_resolve hre.left.acyclic, resolve_resolve hre.right.acyclic]
    | known ht =>
      exact (known_head hr he hre hE hbase ht fun _ _ _ => known_rows hr he hre hE hbase ht).1
  head h := by
    have hres := resolved_resolve hre.left.acyclic
    have hres' := resolved_resolve hre.right.acyclic
    cases h with
    | type h => exact (h.resolve hre).head hre hE (hres _) (hres' _) (by simp)
    | row h hrec => exact (h.resolve hre).head hre hE (hres _) (hres' _) fun _ => hrec
    | known ht =>
      exact (known_head hr he hre hE hbase ht fun _ _ _ => known_rows hr he hre hE hbase ht).2
  vars h h' := ⟨h.eq_of_eq hre h', fun hw => by
    have hswap : ∀ {v w}, TwinVars E K base.varCount r e v w → TwinVars E K base.varCount e r w v :=
      fun h => ⟨h.2.1, h.1, h.2.2.imp fun _ h => h.symm⟩
    exact (hswap h).eq_of_eq hre.symm (hswap h') hw⟩

end

end RowTyping
