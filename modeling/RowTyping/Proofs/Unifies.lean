import RowTyping.Proofs.WellFormed
import RowTyping.Unify

/-!
# Finished runs of unification

`Unifies r task out r'` says that unification of a task over the registry `r`
comes to an end with the outcome `out` and leaves the registry `r'`. It has one
rule for each way the algorithm takes and no fuel, so a derivation is a run
that ended by itself. Everything that unification guarantees is shown by
induction over these derivations.
-/

namespace RowTyping

open Registry Ty List Option Row

/-- The failure of two types to meet, both as far as they are known. -/
def Registry.mismatch (r : Registry) (a b : Ty) : TypeError :=
  .mismatch (r.resolveDeep a) (r.resolveDeep b)

/-- What remains to be done about two rows of `r` whose shared fields have met,
over the registry `r₁` that this left. -/
def Registry.remainder (r r₁ : Registry) (a b : Ty) : Remainder :=
  (r.row a).remainder (r.row b) (r₁.resolve (r.row a).tail) (r₁.resolve (r.row b).tail)

/-- What unification works on. -/
inductive Task where
  /-- Two types have to meet. -/
  | types (a b : Ty)
  /-- Two rows have to meet. -/
  | rows (a b : Ty)
  /-- Several pairs of types have to meet, one after the other. -/
  | all (pairs : List (Ty × Ty))

/-- An open variable is solved, unless it was never issued or would be part of
its solution. -/
inductive Solved (r : Registry) (v : Nat) (t : Ty) : Except TypeError Unit → Registry → Prop where
  | bind (h : r.occurs v t = false) (hv : v < r.varCount) : Solved r v t (.ok ()) (r.setBinding v t)
  | unknown (h : r.occurs v t = false) (hv : r.varCount ≤ v) :
      Solved r v t (.error (.unknownVariable v)) r
  | cyclic (h : r.occurs v t = true) : Solved r v t (.error (.cyclic v (r.resolveDeep t))) r

/-- Unification of a task ends with an outcome and a registry. -/
inductive Unifies : Registry → Task → Except TypeError Unit → Registry → Prop where
  | same {r a b} (meet : (r.resolve a).meet (r.resolve b) = .same) :
      Unifies r (.types a b) (.ok ()) r
  | solve {r a b v t out r'} (meet : (r.resolve a).meet (r.resolve b) = .solve v t)
      (solved : Solved r v t out r') : Unifies r (.types a b) out r'
  | expand {r a b t u out r'} (meet : (r.resolve a).meet (r.resolve b) = .expand t u)
      (inner : Unifies r (.types t u) out r') : Unifies r (.types a b) out r'
  | children {r a b pairs ragged out r'}
      (meet : (r.resolve a).meet (r.resolve b) = .children pairs ragged)
      (inner : Unifies r (.all pairs) out r') (even : ragged = true → out ≠ .ok ()) :
      Unifies r (.types a b) out r'
  | ragged {r a b pairs r'} (meet : (r.resolve a).meet (r.resolve b) = .children pairs true)
      (inner : Unifies r (.all pairs) (.ok ()) r') :
      Unifies r (.types a b) (.error (r'.mismatch (r.resolve a) (r.resolve b))) r'
  | rows {r a b out r'} (meet : (r.resolve a).meet (r.resolve b) = .rows)
      (inner : Unifies r (.rows (r.resolve a) (r.resolve b)) out r') :
      Unifies r (.types a b) out r'
  | clash {r a b} (meet : (r.resolve a).meet (r.resolve b) = .clash) :
      Unifies r (.types a b) (.error (r.mismatch (r.resolve a) (r.resolve b))) r
  | nil {r} : Unifies r (.all []) (.ok ()) r
  | cons {r a b pairs r₁ out r₂} (head : Unifies r (.types a b) (.ok ()) r₁)
      (rest : Unifies r₁ (.all pairs) out r₂) : Unifies r (.all ((a, b) :: pairs)) out r₂
  | stop {r a b pairs e r₁} (head : Unifies r (.types a b) (.error e) r₁) :
      Unifies r (.all ((a, b) :: pairs)) (.error e) r₁
  | fields {r a b e r₁} (shared : Unifies r (.all ((r.row a).shared (r.row b))) (.error e) r₁) :
      Unifies r (.rows a b) (.error e) r₁
  | again {r a b r₁ out r₂}
      (shared : Unifies r (.all ((r.row a).shared (r.row b))) (.ok ()) r₁)
      (left : r.remainder r₁ a b = .again) (rest : Unifies r₁ (.rows a b) out r₂) :
      Unifies r (.rows a b) out r₂
  | tails {r a b r₁ t u out r₂}
      (shared : Unifies r (.all ((r.row a).shared (r.row b))) (.ok ()) r₁)
      (left : r.remainder r₁ a b = .tails t u) (rest : Unifies r₁ (.types t u) out r₂) :
      Unifies r (.rows a b) out r₂
  | extend {r a b r₁ v fs t out r₂}
      (shared : Unifies r (.all ((r.row a).shared (r.row b))) (.ok ()) r₁)
      (left : r.remainder r₁ a b = .extend v fs t) (solved : Solved r₁ v (.record fs t) out r₂) :
      Unifies r (.rows a b) out r₂
  | split {r a b r₁ v w fs gs r₂ out r₃}
      (shared : Unifies r (.all ((r.row a).shared (r.row b))) (.ok ()) r₁)
      (left : r.remainder r₁ a b = .split v w fs gs)
      (mine : Solved r₁.addVar v (.record fs (.flex r₁.varCount)) (.ok ()) r₂)
      (theirs : Solved r₂ w (.record gs (.flex r₁.varCount)) out r₃) :
      Unifies r (.rows a b) out r₃
  | splitStop {r a b r₁ v w fs gs e r₂}
      (shared : Unifies r (.all ((r.row a).shared (r.row b))) (.ok ()) r₁)
      (left : r.remainder r₁ a b = .split v w fs gs)
      (mine : Solved r₁.addVar v (.record fs (.flex r₁.varCount)) (.error e) r₂) :
      Unifies r (.rows a b) (.error e) r₂
  | lacking {r a b r₁}
      (shared : Unifies r (.all ((r.row a).shared (r.row b))) (.ok ()) r₁)
      (left : r.remainder r₁ a b = .clash) :
      Unifies r (.rows a b) (.error (r₁.mismatch a b)) r₁

variable {out : Except TypeError Unit} {a b t : Ty} {r r' : Registry} {v : Nat}

theorem eq_ok_of_isOk (h : out.isOk = true) : out = .ok () := by
  cases out with
  | ok => rfl
  | error err => cases h

/-! ## How two resolved types can meet -/

theorem Con.meet_cases (c d : Con) (ts us : List Ty) :
    (∃ ragged, c.meet d ts us = .children (ts.zip us) ragged ∧ c.agrees d = true ∧
      (ragged = false ↔ ts.length = us.length)) ∨ c.meet d ts us = .clash := by
  unfold Con.meet
  by_cases hcd : c.agrees d = true
  · by_cases hlen : ts.length = us.length
    · exact .inl ⟨false, by simp [hcd, hlen], hcd, by simp [hlen]⟩
    · cases c with
      | ctor name => exact .inl ⟨true, by simp [hcd, hlen], hcd, by simp [hlen]⟩
      | _ => exact .inr (by simp [hcd, hlen])
  · exact .inr (by simp [hcd])

/-- All that two types can be when they meet in a certain way. -/
inductive Meets : Ty → Ty → Meeting → Prop where
  | var (x : TyVar) : Meets (.var x) (.var x) .same
  | module (name : String) (e f : Env) : Meets (.module name e) (.module name f) .same
  | solveLeft {v : Nat} {t : Ty} (ne : t ≠ .flex v) : Meets (.flex v) t (.solve v t)
  | solveRight {v : Nat} {t : Ty} (ne : t ≠ .flex v) : Meets t (.flex v) (.solve v t)
  | expandLeft {i ls ps target} {u : Ty} : Meets (.synonym i ls ps target) u (.expand target u)
  | expandRight {i ls ps target} {t : Ty} : Meets t (.synonym i ls ps target) (.expand target t)
  | con {c d : Con} {ts us : List Ty} {ragged : Bool} (agree : c.agrees d = true)
      (even : ragged = false ↔ ts.length = us.length) :
      Meets (.con c ts) (.con d us) (.children (ts.zip us) ragged)
  | rows {a b : Ty} (ha : a.IsRowForm) (hb : b.IsRowForm)
      (record : a.isRecord = true ∨ b.isRecord = true) : Meets a b .rows
  | clash {a b : Ty} : Meets a b .clash

theorem Ty.meets (a b : Ty) : Meets a b (a.meet b) := by
  unfold meet
  split
  · split
    · next h => exact h ▸ .var _
    · next h => exact .solveLeft fun h' => h (by simpa using h'.symm)
  · next h => exact .solveLeft fun h' => h _ h'
  · next h => exact .solveRight fun h' => h _ h'
  · exact .expandLeft
  · exact .expandRight
  · split
    · next h => exact h ▸ .var _
    · exact .clash
  · next c ts d us =>
    rcases Con.meet_cases c d ts us with ⟨ragged, hm, agree, even⟩ | hm
    · exact hm ▸ .con agree even
    · exact hm ▸ .clash
  · exact .rows (.inl rfl) (.inl rfl) (.inl rfl)
  · exact .rows (.inl rfl) (.inr ⟨_, rfl⟩) (.inl rfl)
  · exact .rows (.inr ⟨_, rfl⟩) (.inl rfl) (.inr rfl)
  · split
    · next h => exact h ▸ .module _ _ _
    · exact .clash
  · exact .clash

theorem Meets.of_meet {m : Meeting} (h : a.meet b = m) : Meets a b m :=
  h ▸ a.meets b

/-! ## What remains of two rows -/

namespace Row

/-- All that can remain of two rows with given tails. -/
inductive Remains (mine theirs : Row) : Ty → Ty → Remainder → Prop where
  | again {t u : Ty} (record : t.isRecord = true ∨ u.isRecord = true) :
      Remains mine theirs t u .again
  | tails {t u : Ty} (ht : t.isRecord = false) (hu : u.isRecord = false)
      (toMine : mine.lacking theirs = []) (toTheirs : theirs.lacking mine = []) :
      Remains mine theirs t u (.tails t u)
  | extendMine {v : Nat} {u : Ty} (hu : u.isRecord = false)
      (toMine : mine.lacking theirs ≠ []) (toTheirs : theirs.lacking mine = []) :
      Remains mine theirs (.flex v) u (.extend v (mine.lacking theirs) u)
  | extendTheirs {w : Nat} {t : Ty} (ht : t.isRecord = false)
      (toMine : mine.lacking theirs = []) (toTheirs : theirs.lacking mine ≠ []) :
      Remains mine theirs t (.flex w) (.extend w (theirs.lacking mine) t)
  | split {v w : Nat} (ne : v ≠ w)
      (toMine : mine.lacking theirs ≠ []) (toTheirs : theirs.lacking mine ≠ []) :
      Remains mine theirs (.flex v) (.flex w)
        (.split v w (mine.lacking theirs) (theirs.lacking mine))
  | clash {t u : Ty} (ht : t.isRecord = false) (hu : u.isRecord = false)
      (full : (mine.lacking theirs ≠ [] ∧ ∀ v, t ≠ .flex v) ∨
        (theirs.lacking mine ≠ [] ∧ ∀ w, u ≠ .flex w) ∨
        (mine.lacking theirs ≠ [] ∧ theirs.lacking mine ≠ [] ∧ t = u)) :
      Remains mine theirs t u .clash

theorem remains (mine theirs : Row) (t u : Ty) :
    Remains mine theirs t u (mine.remainder theirs t u) := by
  unfold remainder
  split
  · next h => exact .again (by simpa using h)
  · next h =>
    have ht : t.isRecord = false := by
      cases hb : t.isRecord with
      | false => rfl
      | true => simp [hb] at h
    have hu : u.isRecord = false := by
      cases hb : u.isRecord with
      | false => rfl
      | true => simp [hb] at h
    split
    · next h₁ h₂ => exact .tails ht hu h₁ h₂
    · next h₂ h₁ =>
      split
      · exact .extendMine hu h₁ h₂
      · next hv => exact .clash ht hu (.inl ⟨h₁, hv⟩)
    · next h₁ h₂ =>
      split
      · exact .extendTheirs ht h₁ h₂
      · next hw => exact .clash ht hu (.inr (.inl ⟨h₂, hw⟩))
    · next h₁ h₂ _ =>
      split
      · next v w =>
        by_cases hvw : v = w
        · rw [if_pos hvw]
          exact .clash rfl rfl (.inr (.inr ⟨h₁, h₂, by rw [hvw]⟩))
        · rw [if_neg hvw]
          exact .split hvw h₁ h₂
      · next hvw =>
        refine .clash ht hu ?_
        by_cases hv : ∃ v, t = .flex v
        · obtain ⟨v, rfl⟩ := hv
          exact .inr (.inl ⟨h₂, fun w hw => hvw v w rfl hw⟩)
        · exact .inl ⟨h₁, fun v hv' => hv ⟨v, hv'⟩⟩

/-! ## Shared and lacking fields -/

theorem mem_shared {mine theirs : Row} {p : Ty × Ty} (h : p ∈ mine.shared theirs) :
    ∃ l, (l, p.1) ∈ mine.fields ∧ theirs.fields.lookup l = some p.2 := by
  obtain ⟨e, he, hp⟩ := mem_filterMap.mp h
  obtain ⟨t, ht, rfl⟩ := map_eq_some_iff.mp hp
  exact ⟨e.1, he, ht⟩

theorem mem_lacking {mine theirs : Row} {e : String × Ty} (h : e ∈ mine.lacking theirs) :
    e ∈ theirs.fields ∧ mine.fields.lookup e.1 = none := by
  simpa [lacking] using h

theorem lacking_sorted {mine theirs : Row} (h : theirs.fields.Sorted) :
    (mine.lacking theirs).Sorted :=
  Pairwise.filter _ h

end Row

theorem Registry.remains {r₁ : Registry} {m : Remainder} (h : r.remainder r₁ a b = m) :
    Remains (r.row a) (r.row b) (r₁.resolve (r.row a).tail) (r₁.resolve (r.row b).tail) m :=
  h ▸ Row.remains _ _ _ _

/-! ## What the parts of a task inherit -/

namespace Task

/-- A property of every type of a task. -/
def Forall (P : Ty → Prop) : Task → Prop
  | .types a b => P a ∧ P b
  | .rows a b => P a ∧ P b
  | .all pairs => ∀ p ∈ pairs, P p.1 ∧ P p.2

theorem forall_cons {P : Ty → Prop} {a b : Ty} {pairs : List (Ty × Ty)} :
    (Task.all ((a, b) :: pairs)).Forall P ↔ (Task.types a b).Forall P ∧ (Task.all pairs).Forall P :=
  forall_mem_cons

theorem Forall.imp {P Q : Ty → Prop} (hPQ : ∀ t, P t → Q t) {task : Task} (h : task.Forall P) :
    task.Forall Q := by
  cases task with
  | types a b => exact ⟨hPQ a h.1, hPQ b h.2⟩
  | rows a b => exact ⟨hPQ a h.1, hPQ b h.2⟩
  | all pairs => exact fun p hp => ⟨hPQ p.1 (h p hp).1, hPQ p.2 (h p hp).2⟩

end Task

namespace Meets

variable {a b t u : Ty}

theorem same_inv (h : Meets a b .same) :
    (∃ x, a = .var x ∧ b = .var x) ∨ ∃ name e f, a = .module name e ∧ b = .module name f := by
  cases h with
  | var x => exact .inl ⟨x, rfl, rfl⟩
  | module name e f => exact .inr ⟨name, e, f, rfl, rfl⟩

/-- A variable to be solved is one of the two types, and the other one is its
solution. -/
theorem solve_inv {v : Nat} (h : Meets a b (.solve v t)) :
    (a = .flex v ∧ b = t ∨ b = .flex v ∧ a = t) ∧ t ≠ .flex v := by
  cases h with
  | solveLeft ne => exact ⟨.inl ⟨rfl, rfl⟩, ne⟩
  | solveRight ne => exact ⟨.inr ⟨rfl, rfl⟩, ne⟩

theorem expand_inv (h : Meets a b (.expand t u)) :
    ∃ i ls ps, (a = .synonym i ls ps t ∧ b = u) ∨ (b = .synonym i ls ps t ∧ a = u) := by
  cases h with
  | expandLeft => exact ⟨_, _, _, .inl ⟨rfl, rfl⟩⟩
  | expandRight => exact ⟨_, _, _, .inr ⟨rfl, rfl⟩⟩

theorem children_inv {pairs : List (Ty × Ty)} {ragged : Bool}
    (h : Meets a b (.children pairs ragged)) :
    ∃ c d ts us, a = .con c ts ∧ b = .con d us ∧ pairs = ts.zip us ∧ c.agrees d = true ∧
      (ragged = false ↔ ts.length = us.length) := by
  cases h with
  | con agree even => exact ⟨_, _, _, _, rfl, rfl, rfl, agree, even⟩

theorem rows_inv (h : Meets a b .rows) :
    a.IsRowForm ∧ b.IsRowForm ∧ (a.isRecord = true ∨ b.isRecord = true) := by
  cases h with
  | rows ha hb record => exact ⟨ha, hb, record⟩

end Meets

/-- A property of every type that a meeting hands on. -/
def Meeting.Forall (P : Ty → Prop) : Meeting → Prop
  | .solve v t => P (.flex v) ∧ P t
  | .expand t u => P t ∧ P u
  | .children pairs _ => ∀ p ∈ pairs, P p.1 ∧ P p.2
  | _ => True

/-- A property of what remains of the tails of two rows, and one of what remains
of their fields. -/
def Remainder.Forall (P Q : Ty → Prop) : Remainder → Prop
  | .tails t u => P t ∧ P u
  | .extend v fs rest => P (.flex v) ∧ (∀ e ∈ fs, Q e.2) ∧ P rest
  | .split v w fs gs => (P (.flex v) ∧ ∀ e ∈ fs, Q e.2) ∧ P (.flex w) ∧ ∀ e ∈ gs, Q e.2
  | _ => True

/-- What two types hand on when they meet has every property that both have and
that parts inherit. -/
theorem Meets.inherit {P : Ty → Prop} (child : ∀ {t u : Ty}, P t → u ∈ t.children → P u)
    {m : Meeting} (h : Meets a b m) (ha : P a) (hb : P b) : m.Forall P := by
  cases h with
  | solveLeft => exact ⟨ha, hb⟩
  | solveRight => exact ⟨hb, ha⟩
  | expandLeft => exact ⟨child ha (by simp [children]), hb⟩
  | expandRight => exact ⟨child hb (by simp [children]), ha⟩
  | con =>
    intro p hp
    obtain ⟨h₁, h₂⟩ := of_mem_zip hp
    exact ⟨child ha h₁, child hb h₂⟩
  | _ => trivial

namespace Row.Remains

variable {mine theirs : Row} {t u : Ty} {m : Remainder}

/-- The fields and tails that remain are those of the two rows. -/
theorem inherit {P Q : Ty → Prop} (h : Remains mine theirs t u m)
    (hmine : ∀ e ∈ mine.fields, Q e.2) (htheirs : ∀ e ∈ theirs.fields, Q e.2)
    (ht : P t) (hu : P u) : m.Forall P Q := by
  have toMine : ∀ e ∈ mine.lacking theirs, Q e.2 := fun e he => htheirs e (mem_lacking he).1
  have toTheirs : ∀ e ∈ theirs.lacking mine, Q e.2 := fun e he => hmine e (mem_lacking he).1
  cases h with
  | tails => exact ⟨ht, hu⟩
  | extendMine => exact ⟨ht, toMine, hu⟩
  | extendTheirs => exact ⟨hu, toTheirs, ht⟩
  | split => exact ⟨⟨ht, toMine⟩, hu, toTheirs⟩
  | _ => trivial

theorem again_inv (h : Remains mine theirs t u .again) : t.isRecord = true ∨ u.isRecord = true := by
  cases h with
  | again record => exact record

theorem tails_inv {t' u' : Ty} (h : Remains mine theirs t u (.tails t' u')) :
    t = t' ∧ u = u' ∧ mine.lacking theirs = [] ∧ theirs.lacking mine = [] := by
  cases h with
  | tails _ _ toMine toTheirs => exact ⟨rfl, rfl, toMine, toTheirs⟩

theorem tails_ends {t' u' : Ty} (h : Remains mine theirs t u (.tails t' u')) :
    t.isRecord = false ∧ u.isRecord = false := by
  cases h with
  | tails ht hu _ _ => exact ⟨ht, hu⟩

/-- Rows that clash lack fields that one of them cannot take, or that both would
have to take in the same place. -/
theorem clash_inv (h : Remains mine theirs t u .clash) :
    (t.isRecord = false ∧ u.isRecord = false) ∧
      ((mine.lacking theirs ≠ [] ∧ ∀ v, t ≠ .flex v) ∨
        (theirs.lacking mine ≠ [] ∧ ∀ w, u ≠ .flex w) ∨
        (mine.lacking theirs ≠ [] ∧ theirs.lacking mine ≠ [] ∧ t = u)) := by
  cases h with
  | clash ht hu full => exact ⟨⟨ht, hu⟩, full⟩

theorem extend_ne {v : Nat} {fs : Table Ty} {rest : Ty}
    (h : Remains mine theirs t u (.extend v fs rest)) : fs ≠ [] := by
  cases h with
  | extendMine _ toMine _ => exact toMine
  | extendTheirs _ _ toTheirs => exact toTheirs

/-- A variable that takes missing fields is one of the tails; the other tail
remains. -/
theorem extend_inv {v : Nat} {fs : Table Ty} {rest : Ty}
    (h : Remains mine theirs t u (.extend v fs rest)) :
    (t = .flex v ∧ u = rest ∧ fs = mine.lacking theirs ∧ theirs.lacking mine = []) ∨
      (u = .flex v ∧ t = rest ∧ fs = theirs.lacking mine ∧ mine.lacking theirs = []) := by
  cases h with
  | extendMine _ _ toTheirs => exact .inl ⟨rfl, rfl, rfl, toTheirs⟩
  | extendTheirs _ toMine _ => exact .inr ⟨rfl, rfl, rfl, toMine⟩

/-- Two variables that take missing fields are the two tails. -/
theorem split_inv {v w : Nat} {fs gs : Table Ty}
    (h : Remains mine theirs t u (.split v w fs gs)) :
    t = .flex v ∧ u = .flex w ∧ v ≠ w ∧
      (fs = mine.lacking theirs ∧ fs ≠ []) ∧ gs = theirs.lacking mine ∧ gs ≠ [] := by
  cases h with
  | split ne toMine toTheirs => exact ⟨rfl, rfl, ne, ⟨rfl, toMine⟩, rfl, toTheirs⟩

end Row.Remains

theorem Solved.varCount (h : Solved r v t out r') : r'.varCount = r.varCount := by
  cases h with
  | bind => exact varCount_setBinding r v t
  | unknown => rfl
  | cyclic => rfl

/-- Solving after a variable was issued. -/
theorem Solved.lt_varCount (h : Solved r.addVar v t out r') : r.varCount < r'.varCount := by
  rw [h.varCount, varCount_addVar]
  exact Nat.lt_succ_self _

/-- A variable other than the one that was solved stays open. -/
theorem Solved.open_of_ne {w : Nat} (h : Solved r v t out r') (hw : r.binding? w = none)
    (hvw : v ≠ w) : r'.binding? w = none := by
  cases h with
  | bind =>
    rw [binding?_setBinding, if_neg]
    · exact hw
    · exact fun hv => hvw hv.1
  | unknown => exact hw
  | cyclic => exact hw

theorem Solved.unique {r₁ r₂ : Registry} {o₁ o₂ : Except TypeError Unit} (h₁ : Solved r v t o₁ r₁)
    (h₂ : Solved r v t o₂ r₂) : o₁ = o₂ ∧ r₁ = r₂ := by
  cases h₁ <;> cases h₂ <;> first | exact ⟨rfl, rfl⟩ | (simp_all; done) | omega

namespace Registry.Acyclic

variable {r r₁ : Registry} {a b : Ty}

/-- A variable to be solved is open. -/
theorem solve_open (hr : r.Acyclic) {v : Nat} {t : Ty}
    (h : (r.resolve a).meet (r.resolve b) = .solve v t) : r.binding? v = none := by
  rcases (Meets.of_meet h).solve_inv.1 with ⟨ha, -⟩ | ⟨hb, -⟩
  · exact binding?_of_resolve hr ha
  · exact binding?_of_resolve hr hb

theorem extend_open (hr : r₁.Acyclic) {v : Nat} {fs : Table Ty} {t : Ty}
    (h : r.remainder r₁ a b = .extend v fs t) : r₁.binding? v = none := by
  rcases (remains h).extend_inv with ⟨ha, -⟩ | ⟨hb, -⟩
  · exact binding?_of_resolve hr ha
  · exact binding?_of_resolve hr hb

theorem split_open (hr : r₁.Acyclic) {v w : Nat} {fs gs : Table Ty}
    (h : r.remainder r₁ a b = .split v w fs gs) :
    r₁.binding? v = none ∧ r₁.binding? w = none ∧ v ≠ w := by
  obtain ⟨ha, hb, hne, -⟩ := (remains h).split_inv
  exact ⟨binding?_of_resolve hr ha, binding?_of_resolve hr hb, hne⟩

end Registry.Acyclic

namespace Unifies

theorem varCount_le {r r' : Registry} {task : Task} {out : Except TypeError Unit}
    (h : Unifies r task out r') : r.varCount ≤ r'.varCount := by
  induction h with
  | same | clash | nil => exact le_rfl
  | solve _ solved => exact solved.varCount.ge
  | expand _ _ ih | children _ _ _ ih | ragged _ _ ih | rows _ _ ih | stop _ ih | fields _ ih
  | lacking _ _ ih => exact ih
  | cons _ _ ih₁ ih₂ | again _ _ _ ih₁ ih₂ | tails _ _ _ ih₁ ih₂ => exact ih₁.trans ih₂
  | extend _ _ solved ih => exact ih.trans solved.varCount.ge
  | split _ _ mine theirs ih => exact ih.trans (mine.lt_varCount.trans_eq theirs.varCount.symm).le
  | splitStop _ _ mine ih => exact ih.trans mine.lt_varCount.le

/-- A run that ends by itself ends in one way. -/
theorem unique {r r₁ r₂ : Registry} {task : Task} {o₁ o₂ : Except TypeError Unit}
    (h₁ : Unifies r task o₁ r₁) (h₂ : Unifies r task o₂ r₂) : o₁ = o₂ ∧ r₁ = r₂ := by
  -- a derivation of another rule disagrees on a meeting, on a remainder or on an outcome
  induction h₁ generalizing o₂ r₂ with
  | same meet | clash meet => cases h₂ <;> simp_all
  | solve meet solved =>
    cases h₂ with
    | solve meet' solved' =>
      cases meet.symm.trans meet'
      exact solved.unique solved'
    | _ => simp_all
  | expand meet _ ih =>
    cases h₂ with
    | expand meet' inner' =>
      cases meet.symm.trans meet'
      exact ih inner'
    | _ => simp_all
  | children meet _ even ih =>
    cases h₂ with
    | children meet' inner' _ =>
      cases meet.symm.trans meet'
      exact ih inner'
    | ragged meet' inner' =>
      cases meet.symm.trans meet'
      exact absurd (ih inner').1 (even rfl)
    | _ => simp_all
  | ragged meet _ ih =>
    cases h₂ with
    | children meet' inner' even =>
      cases meet.symm.trans meet'
      exact absurd (ih inner').1.symm (even rfl)
    | ragged meet' inner' =>
      cases meet.symm.trans meet'
      exact ⟨by rw [(ih inner').2], (ih inner').2⟩
    | _ => simp_all
  | rows meet _ ih =>
    cases h₂ with
    | rows _ inner' => exact ih inner'
    | _ => simp_all
  | nil => cases h₂; exact ⟨rfl, rfl⟩
  | cons _ _ ih₁ ih₂ =>
    cases h₂ with
    | cons head' rest' =>
      obtain ⟨-, rfl⟩ := ih₁ head'
      exact ih₂ rest'
    | stop head' => cases (ih₁ head').1
  | stop _ ih =>
    cases h₂ with
    | cons head' _ => cases (ih head').1
    | stop head' => exact ih head'
  | fields _ ih =>
    cases h₂ with
    | fields shared' => exact ih shared'
    | _ => grind
  | again _ left _ ih ih' =>
    cases h₂ with
    | again shared' _ rest' =>
      obtain ⟨-, rfl⟩ := ih shared'
      exact ih' rest'
    | _ => grind
  | tails _ left _ ih ih' =>
    cases h₂ with
    | tails shared' left' rest' =>
      obtain ⟨-, rfl⟩ := ih shared'
      cases left.symm.trans left'
      exact ih' rest'
    | _ => grind
  | extend _ left solved ih =>
    cases h₂ with
    | extend shared' left' solved' =>
      obtain ⟨-, rfl⟩ := ih shared'
      cases left.symm.trans left'
      exact solved.unique solved'
    | _ => grind
  | split _ left mine theirs ih =>
    cases h₂ with
    | split shared' left' mine' theirs' =>
      obtain ⟨-, rfl⟩ := ih shared'
      cases left.symm.trans left'
      obtain ⟨-, rfl⟩ := mine.unique mine'
      exact theirs.unique theirs'
    | _ => grind [Solved.unique]
  | splitStop _ left mine ih =>
    cases h₂ with
    | splitStop shared' left' mine' =>
      obtain ⟨-, rfl⟩ := ih shared'
      cases left.symm.trans left'
      exact mine.unique mine'
    | _ => grind [Solved.unique]
  | lacking _ left ih =>
    cases h₂ with
    | lacking shared' _ =>
      obtain ⟨-, rfl⟩ := ih shared'
      exact ⟨rfl, rfl⟩
    | _ => grind
end Unifies

end RowTyping
