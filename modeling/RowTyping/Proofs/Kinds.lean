import RowTyping.Proofs.Preservation
import RowTyping.Proofs.Values

/-!
# Kinds, and assignments that satisfy a registry

Every variable is either a type of values or the rest of a record, and every
type uses it as such. An assignment satisfies a registry when each bound
variable and its binding have the same value, or the same row where the
variable stands for the rest of a record. Reading through the bindings does
not change values then, and the row of a type is the row of its value.
-/

namespace RowTyping

open Row Table Ty

namespace Ty

/-- The type can stand for a `k`, given what the variables stand for. Whether
the empty row can also stand for a type of values is left open by `E`. The
arguments of a synonym are not looked at. -/
inductive HasKind (E : Prop) (K : Nat → Kind) : Kind → Ty → Prop where
  | flex {k : Kind} {v : Nat} (hv : K v = k) : HasKind E K k (.flex v)
  | gen (k : Kind) (g : Nat) : HasKind E K k (.gen g)
  | con {c : Con} {args : List Ty} (hc : c ≠ .emptyRow) (hargs : ∀ t ∈ args, HasKind E K .type t) :
      HasKind E K .type (.con c args)
  | emptyRow {k : Kind} (hk : k = .row ∨ E) : HasKind E K k .emptyRow
  | record {k : Kind} {fs : List (String × Ty)} {tail : Ty}
      (hfields : ∀ e ∈ fs, HasKind E K .type e.2) (htail : HasKind E K .row tail) :
      HasKind E K k (.record fs tail)
  | synonym {id : Nat} {labels : List String} {params : List Ty} {target : Ty}
      (htarget : HasKind E K .type target) : HasKind E K .type (.synonym id labels params target)
  | module (name : String) (members : Env) : HasKind E K .type (.module name members)

variable {E : Prop} {K : Nat → Kind} {k : Kind}

theorem hasKind_flex {v : Nat} : (flex v).HasKind E K k ↔ K v = k := by
  refine ⟨fun h => ?_, .flex⟩
  cases h with
  | flex hv => exact hv

theorem HasKind.base (b : Base) : (base b).HasKind E K .type := .con (by simp) (by simp)

theorem HasKind.arrow {a r : Ty} (ha : a.HasKind E K .type) (hr : r.HasKind E K .type) :
    (arrow a r).HasKind E K .type :=
  .con (by simp) (by simpa using ⟨ha, hr⟩)

/-- Only the variables of a type matter for its kind. -/
theorem HasKind.congr {K' : Nat → Kind} {t : Ty} (h : t.HasKind E K k)
    (hK : ∀ v, t.Mentions v → K v = K' v) : t.HasKind E K' k := by
  induction h with
  | flex hv => exact .flex (hK _ (mentions_flex.mpr rfl) ▸ hv)
  | gen k g => exact .gen k g
  | @con c args hc hargs ih =>
    refine .con hc fun t ht => ih t ht fun v hv => hK v ?_
    exact hv.of_child (show t ∈ (Ty.con c args).children from ht)
  | emptyRow hk => exact .emptyRow hk
  | record _ _ ihf iht =>
    refine .record (fun e he => ihf e he fun v hv => hK v ?_) (iht fun v hv => hK v ?_)
    · exact hv.of_child (mem_children_record.mpr (.inl ⟨e, he, rfl⟩))
    · exact hv.of_child (mem_children_record.mpr (.inr rfl))
  | synonym _ ih => exact .synonym (ih fun v hv => hK v (hv.of_child (by simp [children])))
  | module name members => exact .module name members

/-- The parts of a type have kinds as the type has. -/
theorem kinding_hasKind {L : Ty → Prop} (hL : ∀ t, L t → t.ParamsInTarget)
    (hrecord : ∀ (fs : Table Ty) (tail : Ty), fs.Sorted → L (.record fs tail)) :
    Kinding fun k t => t.HasKind E K k ∧ t.All L where
  covered h := h.2.imp hL
  var h h' ht := by
    rw [← hasKind_flex.mp h'.1, hasKind_flex.mp h.1]
    exact ht
  args {k c ts} h t ht := by
    refine ⟨?_, h.2.child (show t ∈ (con c ts).children from ht)⟩
    cases h.1 with
    | con hc hargs => exact hargs t ht
    | emptyRow => simp at ht
  fields {k fs tail} h e he := by
    refine ⟨?_, h.2.child (mem_children_record.mpr (.inl ⟨e, he, rfl⟩))⟩
    cases h.1 with
    | record hfields _ => exact hfields e he
  tail {k fs tail} h := by
    refine ⟨?_, h.2.child (by simp [children])⟩
    cases h.1 with
    | record _ htail => exact htail
  target {k id labels params target} h := by
    refine ⟨?_, h.2.child (by simp [children])⟩
    cases h.1 with
    | synonym htarget => exact htarget
  asRow {k t} h hform := by
    refine ⟨?_, h.2⟩
    rcases hform with hrec | ⟨ts, rfl⟩
    · obtain ⟨fs, tail, rfl⟩ := eq_record_of_isRecord hrec
      cases h.1 with
      | record hfields htail => exact .record hfields htail
    · cases h.1 with
      | con hc => exact absurd rfl hc
      | emptyRow => exact .emptyRow (.inl rfl)
  record {fs tail} hs hfs htail := by
    refine ⟨.record (fun e he => (hfs e he).1) htail.1, .intro _ (hrecord fs tail hs) ?_⟩
    intro u hu
    rcases mem_children_record.mp hu with ⟨e, he, rfl⟩ | rfl
    · exact (hfs e he).2
    · exact htail.2

end Ty

/-- The kinds with every variable from `n` on standing for a row. -/
def Kind.upTo (n : Nat) (K : Nat → Kind) (v : Nat) : Kind := if v < n then K v else .row

/-- Two values agree as what they are taken for. -/
def Kind.Same : Kind → Ty → Ty → Prop
  | .type, x, y => x = y
  | .row, x, y => x.asRow = y.asRow

namespace Kind.Same

variable {k : Kind} {x y z : Ty}

theorem refl (k : Kind) (x : Ty) : k.Same x x := by
  cases k <;> rfl

theorem symm (h : k.Same x y) : k.Same y x := by
  cases k with
  | type => exact Eq.symm h
  | row => exact Eq.symm h

theorem trans (h : k.Same x y) (h' : k.Same y z) : k.Same x z := by
  cases k with
  | type => exact Eq.trans h h'
  | row => exact Eq.trans h h'

theorem asRow (h : k.Same x y) : x.asRow = y.asRow := by
  cases k with
  | type => exact congrArg asRow h
  | row => exact h

end Kind.Same

namespace Registry

variable {E : Prop} {K : Nat → Kind} {t : Ty}

/-- Every binding can stand for what its variable stands for. -/
def Kinded (E : Prop) (K : Nat → Kind) (r : Registry) : Prop :=
  ∀ v t, r.binding? v = some t → t.HasKind E K (K v)

/-- The kinds of types over the variables of a registry are those they have when
all later variables stand for rows. -/
theorem hasKind_upTo {n : Nat} {k : Kind} (h : t.HasKind E K k) (hscope : t.Scoped n) :
    t.HasKind E (Kind.upTo n K) k :=
  h.congr fun v hv => by rw [Kind.upTo, if_pos (hscope v hv)]

/-- A registry with kinds is well formed, with any kinds for the variables that
are not issued yet. -/
theorem Kinded.wellFormed {r : Registry} {L : Ty → Prop} (h : r.Kinded E K) (hscope : r.Scoped)
    (hacyclic : r.Acyclic) (hL : r.AllBindings (All L)) (hcov : ∀ t, L t → t.ParamsInTarget) :
    r.WellFormed fun k t => t.HasKind E (Kind.upTo r.varCount K) k ∧ t.All L where
  acyclic := hacyclic
  covered v t hv := (hL v t hv).imp hcov
  bindings v t hv k hk := by
    have hkv := hasKind_flex.mp hk.1
    rw [Kind.upTo, if_pos (lt_varCount_of_binding? hv)] at hkv
    exact ⟨hasKind_upTo (hkv ▸ h v t hv) (hscope v t hv), hL v t hv⟩

/-- Unification of two types of values over a registry with kinds. The variables
that it issues stand for rows. -/
theorem Kinded.run {r : Registry} (h : r.Kinded E K) (hscope : r.Scoped) (hacyclic : r.Acyclic)
    (hcov : r.AllBindings Covered) {a b : Ty}
    (ha : a.Scoped r.varCount ∧ a.Covered ∧ a.HasKind E K .type)
    (hb : b.Scoped r.varCount ∧ b.Covered ∧ b.HasKind E K .type) (r' : Registry) :
    KindedRun (fun k t => t.HasKind E (Kind.upTo r.varCount K) k ∧ t.Covered) r (.types a b)
      r' where
  wellFormed := h.wellFormed hscope hacyclic hcov fun _ h => h
  kinded := ⟨.type, ⟨hasKind_upTo ha.2.2 ha.1, ha.2.1⟩, hasKind_upTo hb.2.2 hb.1, hb.2.1⟩
  fresh v hv _ := ⟨.flex (by rw [Kind.upTo, if_neg (Nat.not_lt.mpr hv)]), covered_var _⟩

/-- Every bound variable has the value of its binding, as far as it matters
for what it stands for. -/
def Satisfies (K : Nat → Kind) (θ : Nat → Ty) (r : Registry) : Prop :=
  ∀ v t, r.binding? v = some t → (K v).Same ((Ty.flex v).value θ) (t.value θ)

variable {E : Prop} {K : Nat → Kind} {P : Kind → Ty → Prop} {θ : Nat → Ty} {r r' : Registry}

theorem Satisfies.of_extends (h : r'.Satisfies K θ) (hex : r.Extends r') : r.Satisfies K θ :=
  fun v t hv => h v t (hex.binding v t hv)

/-- Following the bindings does not change the value. -/
theorem Satisfies.resolve (h : r.Satisfies K θ) (hr : r.WellFormed P)
    (hPK : ∀ {k t}, P k t → t.HasKind E K k) {k : Kind} (ht : P k t) :
    k.Same ((r.resolve t).value θ) (t.value θ) := by
  induction t using resolve_induct hr.acyclic with
  | bound v u hv ih =>
    rw [resolve_some hr.acyclic hv]
    have hstep := h v u hv
    rw [hasKind_flex.mp (hPK ht)] at hstep
    exact (ih (hr.bindings v u hv k ht)).trans hstep.symm
  | done t hdone =>
    rw [hdone.resolve]
    exact .refl k _

/-- The row of a value consists of the values of the row. -/
theorem Satisfies.row (h : r.Satisfies K θ) (hP : Kinding P) (hr : r.WellFormed P)
    (hPK : ∀ {k t}, P k t → t.HasKind E K k) (ht : P .row t) :
    (t.value θ).asRow =
      .prepend (mapValues (value θ) (r.row t).fields) ((r.row t).tail.value θ).asRow := by
  refine row_induct hr.acyclic (motive := fun t row => P .row t → (t.value θ).asRow =
    .prepend (mapValues (value θ) row.fields) (row.tail.value θ).asRow) ?_ ?_ t ht
  · intro t fs tail heq ih ht
    have hsame := (h.resolve hr hPK ht).asRow
    have hrec := hr.resolve ht
    rw [heq] at hsame hrec
    rw [← hsame, value_record, ih (hP.tail hrec)]
    exact prepend_congr (by simp [Option.map_or, Option.or_assoc]) rfl
  · intro t _ ht
    rw [← (h.resolve hr hPK ht).asRow]
    exact (prepend_nil (asRow_value_sorted θ _)).symm

end Registry

end RowTyping
