import RowTyping.Proofs.OccursCheck

/-!
# Well-formed registries

A type stands for a type of values or for the rest of a record. A kinding says
which types can stand for which, in a way that passes to the parts of a type.
A registry is well formed under a kinding when its bindings have no cycle and
every variable is bound to something that can stand where the variable can.
Issuing a variable and binding an open one after the occurs check keep all of
it, and no step takes a binding back.
-/

namespace RowTyping

open Table Ty

/-- What a type stands for: a type of values, or the rest of a record. -/
inductive Kind where
  | type
  | row
  deriving DecidableEq

/-- A record or the empty row. -/
def Ty.IsRowForm (t : Ty) : Prop := t.isRecord = true ∨ ∃ ts, t = .con .emptyRow ts

/-- `P k t` can be read as "`t` can stand for a `k`": it passes to the parts of
`t`, each in its own role, and to the records made of such parts. A variable
stands for one kind only, where kinds make a difference, and a synonym with an
argument outside its target stands for none. -/
structure Kinding (P : Kind → Ty → Prop) : Prop where
  covered : ∀ {k : Kind} {t : Ty}, P k t → t.Covered
  var : ∀ {k k' : Kind} {v : Nat} {t : Ty}, P k (.flex v) → P k' (.flex v) → P k t → P k' t
  args : ∀ {k : Kind} {c : Con} {ts : List Ty}, P k (.con c ts) → ∀ t ∈ ts, P .type t
  fields : ∀ {k : Kind} {fs : List (String × Ty)} {tail : Ty}, P k (.record fs tail) →
    ∀ e ∈ fs, P .type e.2
  tail : ∀ {k : Kind} {fs : List (String × Ty)} {tail : Ty}, P k (.record fs tail) → P .row tail
  target : ∀ {k : Kind} {id : Nat} {labels : List String} {params : List Ty} {target : Ty},
    P k (.synonym id labels params target) → P k target
  asRow : ∀ {k : Kind} {t : Ty}, P k t → t.IsRowForm → P .row t
  record : ∀ {fs : Table Ty} {tail : Ty}, fs.Sorted → (∀ e ∈ fs, P .type e.2) → P .row tail →
    P .row (.record fs tail)

/-- The kinding that does not tell kinds apart. -/
def AnyKind (_ : Kind) (t : Ty) : Prop := t.Covered

theorem kinding_anyKind : Kinding AnyKind where
  covered h := h
  var _ _ h := h
  args h := covered_con.mp h
  fields h := (covered_record.mp h).1
  tail h := (covered_record.mp h).2
  target h := (covered_synonym.mp h).2.2
  asRow h _ := h
  record _ hfs htail := covered_record.mpr ⟨hfs, htail⟩

namespace Registry

variable {r r' r'' : Registry} {P : Kind → Ty → Prop}

/-- What was known stays known. -/
structure Extends (r r' : Registry) : Prop where
  varCount_le : r.varCount ≤ r'.varCount
  binding : ∀ v t, r.binding? v = some t → r'.binding? v = some t

/-- The bindings have no cycle, and each can stand where its variable can. -/
structure WellFormed (P : Kind → Ty → Prop) (r : Registry) : Prop where
  acyclic : r.Acyclic
  covered : r.AllBindings Ty.Covered
  bindings : ∀ v t, r.binding? v = some t → ∀ k, P k (.flex v) → P k t

namespace Extends

theorem refl (r : Registry) : r.Extends r := ⟨le_rfl, fun _ _ h => h⟩

theorem trans (h : r.Extends r') (h' : r'.Extends r'') : r.Extends r'' :=
  ⟨le_trans h.varCount_le h'.varCount_le, fun v t hv => h'.binding v t (h.binding v t hv)⟩

theorem addVar (r : Registry) : r.Extends r.addVar :=
  ⟨by simp, fun v t h => by simpa using h⟩

theorem setBinding {v : Nat} (hv : r.binding? v = none) (t : Ty) :
    r.Extends (r.setBinding v t) := by
  refine ⟨by simp, fun w u hw => ?_⟩
  rw [binding?_setBinding, if_neg]
  · exact hw
  · rintro ⟨rfl, -⟩
    rw [hv] at hw
    cases hw

end Extends

theorem AllBindings.setBinding {Q : Ty → Prop} {v : Nat} {t : Ty} (h : r.AllBindings Q)
    (ht : Q t) : (r.setBinding v t).AllBindings Q := by
  intro w u hw
  rcases binding?_setBinding_inv hw with ⟨-, rfl⟩ | hw
  · exact ht
  · exact h w u hw

namespace WellFormed

theorem of_covered (hr : r.Acyclic) (hcov : r.AllBindings Ty.Covered) : r.WellFormed AnyKind :=
  ⟨hr, hcov, fun v t hv _ _ => hcov v t hv⟩

theorem resolve (h : r.WellFormed P) {k : Kind} {t : Ty} (ht : P k t) : P k (r.resolve t) := by
  induction t using resolve_induct h.acyclic with
  | bound v u hv ih =>
    rw [resolve_some h.acyclic hv]
    exact ih (h.bindings v u hv k ht)
  | done t hdone => rwa [hdone.resolve]

/-- The fields of a row are types of values, and what it ends in is a row. -/
theorem row (hP : Kinding P) (h : r.WellFormed P) {t : Ty} (ht : P .row t) :
    (∀ e ∈ (r.row t).fields, P .type e.2) ∧ P .row (r.row t).tail := by
  refine row_induct h.acyclic (motive := fun t row => P .row t →
    (∀ e ∈ row.fields, P .type e.2) ∧ P .row row.tail) ?_ ?_ t ht
  · intro t fs tail heq ih ht
    have hrec : P .row (.record fs tail) := heq ▸ h.resolve ht
    obtain ⟨hfields, htail⟩ := ih (hP.tail hrec)
    refine ⟨fun e he => ?_, htail⟩
    rcases mem_union he with he | he
    · rcases mem_union he with he | he
      · simp at he
      · exact hP.fields hrec e he
    · exact hfields e he
  · intro t _ ht
    exact ⟨by simp, h.resolve ht⟩

/-- The row of a type that is resolved to a record, whatever it stands for. -/
theorem record_row (hP : Kinding P) (h : r.WellFormed P) {k : Kind} {t tail : Ty}
    {fs : Table Ty} (ht : P k t) (heq : r.resolve t = .record fs tail) :
    (∀ e ∈ (r.row t).fields, P .type e.2) ∧ P .row (r.row t).tail := by
  rw [← row_resolve h.acyclic t]
  exact h.row hP (hP.asRow (h.resolve ht) (.inl (by rw [heq, isRecord])))

theorem addVar (h : r.WellFormed P) : r.addVar.WellFormed P where
  acyclic := h.acyclic.addVar
  covered v t hv := h.covered v t (by simpa using hv)
  bindings v t hv := h.bindings v t (by simpa using hv)

/-- Binding an open variable to a type in which it does not occur. -/
theorem setBinding (hP : Kinding P) (h : r.WellFormed P) {k : Kind} {v : Nat} {t : Ty}
    (hv : r.binding? v = none) (hk : P k (.flex v)) (ht : P k t) (hocc : r.occurs v t = false) :
    (r.setBinding v t).WellFormed P where
  acyclic := by
    refine h.acyclic.setBinding hv fun hreach => ?_
    rw [occurs_of_reaches h.acyclic h.covered hv (hP.covered ht) hreach] at hocc
    cases hocc
  covered := h.covered.setBinding (hP.covered ht)
  bindings w u hw := by
    rcases binding?_setBinding_inv hw with ⟨rfl, rfl⟩ | hw
    · exact fun k' hk' => hP.var hk hk' ht
    · exact h.bindings w u hw

end WellFormed

end Registry

end RowTyping
