import RowTyping.Proofs.Chains
import RowTyping.Proofs.Likeness
import RowTyping.Proofs.Sealing

/-!
# Errors of unification last

A pair of types that unification reports cannot meet later either, whatever is bound
in between. Heads that differ go on to differ, and a closed row goes on to lack a
field. The occurs check is right for good because a run that succeeds leaves two
types with the same members, step by step as far down as they go, and no type is a
member of itself.

Nothing is asked of the kinds of a later registry: its variables may be bound to
anything that has no synonyms.
-/

namespace RowTyping

open Check Registry Row Table Ty Finset Function List Option

/-! ## Types without synonyms -/

namespace Ty

def NotSynonym : Ty → Prop
  | .synonym _ _ _ _ => False
  | _ => True

/-- No part of the type is a synonym. -/
abbrev SynonymFree : Ty → Prop := All NotSynonym

end Ty

/-- The kinding that only excludes synonyms. -/
def SynonymFreeKind (_ : Kind) (t : Ty) : Prop := t.SynonymFree

theorem kinding_synonymFree : Kinding SynonymFreeKind where
  covered h := All.imp (fun t ht => by cases t <;> first | exact ht.elim | trivial) h
  var _ _ h := h
  args h t ht := All.child h ht
  fields h e he := All.child h (mem_children_record.mpr (.inl ⟨e, he, rfl⟩))
  tail h := All.child h (mem_children_record.mpr (.inr rfl))
  target h := (All.here h).elim
  asRow h _ := h
  record _ hfs htail := (all_record _ _).mpr ⟨trivial, hfs, htail⟩

theorem Ty.Plain.synonymFree {n : Nat} {t : Ty} (h : t.Plain n) : t.SynonymFree :=
  h.imp fun t ht => by cases t <;> first | exact ht.elim | trivial

/-! ## Rows of a later registry -/

namespace Registry.Extends

variable {r r' : Registry} (hext : r.Extends r') (hr : r.Acyclic) (hr' : r'.Acyclic)
include hext hr hr'

/-- A row goes on from what it ended in. -/
theorem row (t : Ty) : r'.row t = .prepend (r.row t).fields (r'.row (r.row t).tail) := by
  have h := hext.row_subst hr hr' (fun _ => rfl) (fun _ u _ => u.subst_var) t
  simpa [subst_var, mapValues] using h

theorem row_resolve (t : Ty) : r'.row (r.resolve t) = r'.row t := by
  rw [← Registry.row_resolve hr', hext.resolve_resolve hr hr', Registry.row_resolve hr']

end Registry.Extends

/-! ## Types that a run has made equal -/

theorem Con.agrees_emptyRow {c d : Con} (h : c.agrees d = true) :
    c = .emptyRow ↔ d = .emptyRow := by
  cases c <;> cases d <;> simp_all [Con.agrees]

namespace Registry

/-- Read through the bindings, the two types have the same form and members that are
read alike. Unless the reading is strict, the empty row is a record without fields. -/
inductive ReadAlike (strict : Prop) (r : Registry) : Ty → Ty → Prop where
  | read {a b : Ty} (h : r.resolve a = r.resolve b) : ReadAlike strict r a b
  | module {a b : Ty} {name : String} {e f : Env} (ha : r.resolve a = .module name e)
      (hb : r.resolve b = .module name f) : ReadAlike strict r a b
  | con {a b : Ty} {c d : Con} {ts us : List Ty} (ha : r.resolve a = .con c ts)
      (hb : r.resolve b = .con d us) (hlen : ts.length = us.length)
      (hargs : ∀ p ∈ ts.zip us, ReadAlike strict r p.1 p.2) (hcd : c.agrees d = true) :
      ReadAlike strict r a b
  | rows {a b : Ty} (ha : (r.resolve a).IsRowForm) (hb : (r.resolve b).IsRowForm)
      (record : (r.resolve a).isRecord = true ∨ (r.resolve b).isRecord = true)
      (both : strict → (r.resolve a).isRecord = true ∧ (r.resolve b).isRecord = true)
      (labels : ∀ l, ((r.row a).fields.lookup l).isSome = ((r.row b).fields.lookup l).isSome)
      (fields : ∀ l t u, (r.row a).fields.lookup l = some t → (r.row b).fields.lookup l = some u →
        ReadAlike strict r t u)
      (tail : ReadAlike strict r (r.row a).tail (r.row b).tail) : ReadAlike strict r a b

/-- The two types have been made equal. -/
abbrev Equated (r : Registry) : Ty → Ty → Prop := r.ReadAlike False

/-- The argument of a type former or the field of a record. -/
def Inner (r : Registry) (u t : Ty) : Prop :=
  (∃ c args, r.resolve t = .con c args ∧ c ≠ .emptyRow ∧ u ∈ args) ∨
    ∃ l, (r.row t).fields.lookup l = some u

variable {strict : Prop} {r r' : Registry} {a b t u : Ty}

theorem Inner.part (h : r.Inner u t) : r.Part u t := by
  rcases h with ⟨c, args, heq, -, hu⟩ | ⟨l, hl⟩
  · exact .inl (heq ▸ hu)
  · exact .inr ⟨_, mem_of_lookup hl, rfl⟩

theorem not_inner_of_module {name : String} {e : Env} (h : r.resolve t = .module name e) :
    ¬ r.Inner u t := by
  rintro (⟨c, args, heq, -⟩ | ⟨l, hl⟩)
  · rw [h] at heq
    cases heq
  · rw [row_other (by simp [h])] at hl
    cases hl

theorem row_congr (hr : r.Acyclic) (h : r.resolve a = r.resolve b) : r.row a = r.row b := by
  rw [← row_resolve hr, h, row_resolve hr]

/-- A member of one type has a partner in the other one. -/
theorem ReadAlike.exists_inner (hr : r.Acyclic) (h : r.ReadAlike strict a b) (hu : r.Inner u b) :
    ∃ t, r.Inner t a ∧ r.ReadAlike strict t u := by
  cases h with
  | read h =>
    refine ⟨u, ?_, .read rfl⟩
    unfold Inner
    rwa [h, row_congr hr h]
  | module _ hb => exact absurd hu (not_inner_of_module hb)
  | @con _ _ c d ts us ha hb hlen hargs hcd =>
    rcases hu with ⟨_, _, heq, hd, hu⟩ | ⟨l, hl⟩
    · cases hb.symm.trans heq
      obtain ⟨i, hi, rfl⟩ := mem_iff_getElem.mp hu
      have hmem : (ts[i], us[i]) ∈ ts.zip us :=
        mem_iff_getElem.mpr ⟨i, by simp [hlen, hi], by simp⟩
      exact ⟨ts[i], .inl ⟨c, ts, ha, fun hc => hd ((Con.agrees_emptyRow hcd).mp hc), getElem_mem _⟩,
        hargs _ hmem⟩
    · rw [row_other (by simp [hb])] at hl
      cases hl
  | rows ha hb _ _ labels fields tail =>
    rcases hu with ⟨_, _, heq, hd, hu⟩ | ⟨l, hl⟩
    · rcases hb with hb | ⟨_, hb⟩ <;> rw [heq] at hb
      · cases hb
      · cases hb
        exact absurd rfl hd
    · obtain ⟨t, ht⟩ := isSome_iff_exists.mp ((labels l).trans (by rw [hl]; rfl))
      exact ⟨t, .inr ⟨l, ht⟩, fields l t u ht hl⟩

/-- Two rows with the same labels, whose fields and ends are read alike. -/
structure RowsReadAlike (strict : Prop) (r : Registry) (x y : Row) : Prop where
  labels : ∀ l, (x.fields.lookup l).isSome = (y.fields.lookup l).isSome
  fields : ∀ l t u, x.fields.lookup l = some t → y.fields.lookup l = some u → r.ReadAlike strict t u
  tail : r.ReadAlike strict x.tail y.tail

abbrev EquatedRows (r : Registry) : Row → Row → Prop := r.RowsReadAlike False

theorem RowsReadAlike.refl (r : Registry) (x : Row) : r.RowsReadAlike strict x x where
  labels _ := rfl
  fields l t u ht hu := by
    rw [ht] at hu
    cases hu
    exact .read rfl
  tail := .read rfl

/-- Types that are read alike are so as rows. -/
theorem ReadAlike.row (hr : r.Acyclic) (h : r.ReadAlike strict a b) :
    r.RowsReadAlike strict (r.row a) (r.row b) := by
  cases h with
  | read h =>
    rw [row_congr hr h]
    exact .refl r _
  | module ha hb =>
    rw [row_other (by simp [ha]), row_other (by simp [hb])]
    exact ⟨fun _ => rfl, by simp, .module ((resolve_resolve hr a).trans ha)
      ((resolve_resolve hr b).trans hb)⟩
  | con ha hb hlen hargs hcd =>
    rw [row_other (by simp [ha]), row_other (by simp [hb])]
    exact ⟨fun _ => rfl, by simp, .con ((resolve_resolve hr a).trans ha)
      ((resolve_resolve hr b).trans hb) hlen hargs hcd⟩
  | rows _ _ _ _ labels fields tail => exact ⟨labels, fields, tail⟩

/-- Fields in front hide the same labels on both sides. -/
theorem RowsReadAlike.prepend {x y : Row} {fs gs : Table Ty} (h : r.RowsReadAlike strict x y)
    (labels : ∀ l, (fs.lookup l).isSome = (gs.lookup l).isSome)
    (fields : ∀ l t u, fs.lookup l = some t → gs.lookup l = some u → r.ReadAlike strict t u) :
    r.RowsReadAlike strict (.prepend fs x) (.prepend gs y) where
  labels l := by simp [isSome_or, labels l, h.labels l]
  fields l t u := by
    have hl := labels l
    have hfields := fields l t u
    simp only [lookup_prepend]
    cases hf : fs.lookup l <;> cases hg : gs.lookup l <;> simp_all [h.fields l t u]
  tail := h.tail

/-- Two rows whose shared fields are equal become equal when each gets the fields it
lacks, in front of equal rests. -/
theorem EquatedRows.prepend_lacking {mine theirs x y : Row}
    (shared : ∀ p ∈ mine.shared theirs, r.Equated p.1 p.2) (h : r.EquatedRows x y) :
    r.EquatedRows (.prepend mine.fields (.prepend (mine.lacking theirs) x))
      (.prepend theirs.fields (.prepend (theirs.lacking mine) y)) where
  labels l := by
    simp only [lookup_prepend, lookup_lacking]
    cases mine.fields.lookup l <;> cases theirs.fields.lookup l <;> simp [h.labels l]
  fields l t u := by
    simp only [lookup_prepend, lookup_lacking]
    cases hm : mine.fields.lookup l with
    | none =>
      cases ht : theirs.fields.lookup l with
      | none => simpa using h.fields l t u
      | some w =>
        rintro ⟨rfl⟩ ⟨rfl⟩
        exact .read rfl
    | some w =>
      cases ht : theirs.fields.lookup l with
      | none =>
        rintro ⟨rfl⟩ ⟨rfl⟩
        exact .read rfl
      | some w' =>
        rintro ⟨rfl⟩ ⟨rfl⟩
        exact shared _ (mem_shared_of_lookup hm ht)
  tail := h.tail

/-- What is read alike stays so. -/
theorem ReadAlike.mono (hext : r.Extends r') (hr : r.Acyclic) (hr' : r'.Acyclic)
    (h : r.ReadAlike strict a b) : r'.ReadAlike strict a b := by
  have hnext : ∀ {t u : Ty}, r.resolve t = u → (∀ v, u ≠ .flex v) → r'.resolve t = u := by
    intro t u ht hu
    rw [← hext.resolve_resolve hr hr', ht, resolve_of_not_flex hu]
  induction h with
  | @read a b h =>
    refine .read ?_
    rw [← hext.resolve_resolve hr hr' a, h, hext.resolve_resolve hr hr']
  | module ha hb => exact .module (hnext ha (by simp)) (hnext hb (by simp))
  | con ha hb hlen _ hcd ih => exact .con (hnext ha (by simp)) (hnext hb (by simp)) hlen ih hcd
  | @rows a b ha hb record both labels _ _ ihf iht =>
    have hkept : ∀ {t : Ty}, (r.resolve t).IsRowForm → r'.resolve t = r.resolve t := by
      refine fun ht => hnext rfl fun v hv => ?_
      rw [hv] at ht
      simp [IsRowForm, isRecord] at ht
    have hrows := (iht.row hr').prepend labels ihf
    rw [← hext.row hr hr' a, ← hext.row hr hr' b] at hrows
    rw [← hkept ha, ← hkept hb] at record both
    exact .rows (hkept ha ▸ ha) (hkept hb ▸ hb) record both hrows.labels hrows.fields hrows.tail

/-- No type is equal to a member of a member of itself. -/
theorem ReadAlike.not_inside (hr : r.Acyclic) (h : r.ReadAlike strict a b)
    (hin : Relation.TransGen r.Inner a b) : False := by
  induction b using part_induct hr generalizing a with
  | step b ih =>
    obtain ⟨c, hac, hcb⟩ := Relation.TransGen.tail'_iff.mp hin
    obtain ⟨a', ha', heq⟩ := h.exists_inner hr hcb
    exact ih c hcb.part heq (.head' ha' hac)

end Registry

/-- What a run that succeeds does about its task. -/
def Task.Equated (r : Registry) : Task → Prop
  | .types a b => r.Equated a b
  | .rows a b => r.EquatedRows (r.row a) (r.row b)
  | .all pairs => ∀ p ∈ pairs, r.Equated p.1 p.2

section

variable {r r₁ r' : Registry} {a b t : Ty} {v : Nat}

theorem Solved.binding (h : Solved r v t (.ok ()) r') : r'.binding? v = some t := by
  cases h with
  | bind _ hv => rw [binding?_setBinding, if_pos ⟨rfl, hv⟩]

/-- Two rows whose shared fields are equal are equal once they go on with the fields
they lack, in front of equal rests. -/
theorem Registry.Extends.equatedRows (hex : r.Extends r') (hr : r.Acyclic) (hr' : r'.Acyclic)
    {x y : Row} (shared : ∀ p ∈ (r.row a).shared (r.row b), r'.Equated p.1 p.2)
    (hx : r'.row (r.row a).tail = .prepend ((r.row a).lacking (r.row b)) x)
    (hy : r'.row (r.row b).tail = .prepend ((r.row b).lacking (r.row a)) y)
    (h : r'.EquatedRows x y) : r'.EquatedRows (r'.row a) (r'.row b) := by
  rw [hex.row hr hr' a, hex.row hr hr' b, hx, hy]
  exact h.prepend_lacking shared

/-- A row that lacks no field goes on with its tail. -/
theorem Registry.Extends.row_full (hex : r₁.Extends r') (hr₁ : r₁.Acyclic) (hr' : r'.Acyclic)
    {fs : Table Ty} (hfull : fs = []) (t : Ty) :
      r'.row t = .prepend fs (r'.row (r₁.resolve t)) := by
  rw [hex.row_resolve hr₁ hr', hfull, prepend_nil (row_sorted hr' t)]

/-- A tail that takes fields goes on with them. -/
theorem Registry.Extends.row_solved (hex : r₁.Extends r') (hr₁ : r₁.Acyclic) (hr' : r'.Acyclic)
    {fs : Table Ty}
    {u tail : Ty} (hv : r₁.resolve tail = .flex v) (hsolved : r'.binding? v = some (.record fs u)) :
    r'.row tail = .prepend fs (r'.row u) := by
  rw [← hex.row_resolve hr₁ hr', hv, ← Registry.row_resolve hr', Registry.resolve_some hr' hsolved,
    Registry.row_resolve hr', Registry.row_record hr' resolve_record]
  rfl

theorem Unifies.equated {task : Task} {out : Except TypeError Unit} (h : Unifies r task out r')
    (hout : out = .ok ()) (hk : KindedRun SynonymFreeKind r task r') :
    task.Equated r' := by
  have hP := kinding_synonymFree
  induction h with
  | @same r a b meet =>
    rcases (Meets.of_meet meet).same_inv with ⟨x, ha, hb⟩ | ⟨name, e, f, ha, hb⟩
    · exact .read (ha.trans hb.symm)
    · exact .module ha hb
  | @solve r a b v t out r' meet solved =>
    subst hout
    obtain ⟨k, hv, ht⟩ := hk.solve meet
    obtain ⟨hr', hex⟩ := solved.keeps hP hk.wellFormed (hk.acyclic.solve_open meet) hv ht
    refine .read ?_
    rw [← hex.resolve_resolve hk.acyclic hr'.acyclic a,
      ← hex.resolve_resolve hk.acyclic hr'.acyclic b]
    rcases (Meets.of_meet meet).solve_inv.1 with ⟨ha, hb⟩ | ⟨hb, ha⟩
    · rw [ha, hb, resolve_some hr'.acyclic solved.binding]
    · rw [ha, hb, resolve_some hr'.acyclic solved.binding]
  | @expand r a b t u out r' meet inner ih =>
    obtain ⟨k, ha, hb⟩ := hk.resolve
    obtain ⟨_, _, _, ⟨heq, -⟩ | ⟨heq, -⟩⟩ := (Meets.of_meet meet).expand_inv
    · rw [heq] at ha
      exact (All.here ha).elim
    · rw [heq] at hb
      exact (All.here hb).elim
  | @children r a b pairs ragged out r' meet inner even ih =>
    cases ragged with
    | true => exact absurd hout (even rfl)
    | false =>
      have hk' := hk.children hP meet
      obtain ⟨hr', hex⟩ := inner.keeps hP hk'
      obtain ⟨c, d, ts, us, ha, hb, rfl, hcd, hlen⟩ := (Meets.of_meet meet).children_inv
      refine .con ?_ ?_ (hlen.mp rfl) (ih hout hk') hcd
      · rw [← hex.resolve_resolve hk.acyclic hr'.acyclic, ha, resolve_con]
      · rw [← hex.resolve_resolve hk.acyclic hr'.acyclic, hb, resolve_con]
  | @rows r a b out r' meet inner ih =>
    have hk' := hk.rows hP meet
    obtain ⟨hr', hex⟩ := inner.keeps hP hk'
    obtain ⟨ha, hb, record⟩ := (Meets.of_meet meet).rows_inv
    have hkept : ∀ {t : Ty}, (r.resolve t).IsRowForm → r'.resolve t = r.resolve t := by
      intro t ht
      rw [← hex.resolve_resolve hk.acyclic hr'.acyclic, resolve_of_not_flex]
      rintro v hv
      rw [hv] at ht
      simp [IsRowForm, isRecord] at ht
    have hrows := ih hout hk'
    rw [Task.Equated, hex.row_resolve hk.acyclic hr'.acyclic,
      hex.row_resolve hk.acyclic hr'.acyclic] at hrows
    rw [← hkept ha, ← hkept hb] at record
    exact .rows (hkept ha ▸ ha) (hkept hb ▸ hb) record False.elim hrows.labels hrows.fields
      hrows.tail
  | ragged | clash | stop | fields | splitStop | lacking => cases hout
  | nil => simp [Task.Equated]
  | cons head rest ih₁ ih₂ =>
    have hk₁ := hk.head rest.varCount_le
    obtain ⟨hr₁, -⟩ := head.keeps hP hk₁
    have hk₂ := hk.rest hr₁ head.varCount_le
    obtain ⟨hr₂, hex₂⟩ := rest.keeps hP hk₂
    exact forall_mem_cons.mpr ⟨(ih₁ rfl hk₁).mono hex₂ hr₁.acyclic hr₂.acyclic, ih₂ hout hk₂⟩
  | again shared left rest ih₁ ih₂ =>
    obtain ⟨hr₁, -⟩ := shared.keeps hP (hk.shared hP rest.varCount_le)
    exact ih₂ hout (hk.again hr₁ shared.varCount_le)
  | tails shared left rest ih₁ ih₂ =>
    have hk₁ := hk.shared hP rest.varCount_le
    obtain ⟨hr₁, hex₁⟩ := shared.keeps hP hk₁
    have hk₂ := hk.tails hP hr₁ shared.varCount_le left
    obtain ⟨hr₂, hex₂⟩ := rest.keeps hP hk₂
    obtain ⟨rfl, rfl, hmine, htheirs⟩ := (remains left).tails_inv
    refine (hex₁.trans hex₂).equatedRows hk.acyclic hr₂.acyclic
      (fun p hp => (ih₁ rfl hk₁ p hp).mono hex₂ hr₁.acyclic hr₂.acyclic)
      (hex₂.row_full hr₁.acyclic hr₂.acyclic hmine _)
      (hex₂.row_full hr₁.acyclic hr₂.acyclic htheirs _) ?_
    exact Registry.ReadAlike.row hr₂.acyclic (ih₂ hout hk₂)
  | extend shared left solved ih =>
    subst hout
    have hk₁ := hk.shared hP solved.varCount.ge
    obtain ⟨hr₁, hex₁⟩ := shared.keeps hP hk₁
    obtain ⟨hv, ht⟩ := hk.extend hP hr₁ left
    obtain ⟨hr₂, hex₂⟩ := solved.keeps hP hr₁ (hr₁.acyclic.extend_open left) hv ht
    have hshared := fun p hp => (ih rfl hk₁ p hp).mono hex₂ hr₁.acyclic hr₂.acyclic
    rcases (remains left).extend_inv with ⟨hv, rfl, rfl, hfull⟩ | ⟨hv, rfl, rfl, hfull⟩
    · exact (hex₁.trans hex₂).equatedRows hk.acyclic hr₂.acyclic hshared
        (hex₂.row_solved hr₁.acyclic hr₂.acyclic hv solved.binding)
        (hex₂.row_full hr₁.acyclic hr₂.acyclic hfull _) (.refl _ _)
    · exact (hex₁.trans hex₂).equatedRows hk.acyclic hr₂.acyclic hshared
        (hex₂.row_full hr₁.acyclic hr₂.acyclic hfull _)
        (hex₂.row_solved hr₁.acyclic hr₂.acyclic hv solved.binding) (.refl _ _)
  | @split r a b r₁ v w fs gs r₂ out r₃ shared left mine theirs ih =>
    subst hout
    have hlt : r₁.varCount < r₃.varCount := mine.lt_varCount.trans_eq theirs.varCount.symm
    have hk₁ := hk.shared hP hlt.le
    obtain ⟨hr₁, hex₁⟩ := shared.keeps hP hk₁
    obtain ⟨⟨hv, hmine⟩, hw, htheirs⟩ := hk.split hP hr₁ shared.varCount_le hlt left
    obtain ⟨hvo, hwo, hne⟩ := hr₁.acyclic.split_open left
    obtain ⟨hr₂, hex₂⟩ := mine.keeps hP hr₁.addVar (by simpa using hvo) hv hmine
    obtain ⟨hr₃, hex₃⟩ :=
      theirs.keeps hP hr₂ (mine.open_of_ne (by simpa using hwo) hne) hw htheirs
    have hex := ((Extends.addVar r₁).trans hex₂).trans hex₃
    obtain ⟨hv', hw', -, ⟨rfl, -⟩, rfl, -⟩ := (remains left).split_inv
    exact (hex₁.trans hex).equatedRows hk.acyclic hr₃.acyclic
      (fun p hp => (ih rfl hk₁ p hp).mono hex hr₁.acyclic hr₃.acyclic)
      (hex.row_solved hr₁.acyclic hr₃.acyclic hv' (hex₃.binding _ _ mine.binding))
      (hex.row_solved hr₁.acyclic hr₃.acyclic hw' theirs.binding) (.refl _ _)

end

/-! ## Heads that differ, and rows that lack a field -/

namespace Registry

variable {r r' : Registry} {a b t u : Ty} {l : String}

/-- The two types hold no synonym, and they cannot be made equal, now or in a later
registry. -/
structure Refutes (r : Registry) (a b : Ty) : Prop where
  left : a.SynonymFree
  right : b.SynonymFree
  apart : ∀ r' r'', r.Extends r' → r'.WellFormed SynonymFreeKind →
    ¬ Unifies r' (.types a b) (.ok ()) r''

theorem sameForm_resolveDeep (hr : r.Acyclic) (h : t.IsRigid) :
    SameForm (fun _ _ => True) t (r.resolveDeep t) := by
  have hself : r.resolve t = t := resolve_of_not_flex h.1
  cases t with
  | var x =>
    cases x with
    | flex v => exact absurd rfl (h.1 v)
    | gen g =>
      rw [resolveDeep_var hr hself]
      exact .gen g
  | con c args =>
    let pairs := args.map fun t => (t, r.resolveDeep t)
    have hpairs : SameForm (fun _ _ => True) (.con c (pairs.map Prod.fst))
        (.con c (pairs.map Prod.snd)) := .con c fun _ _ => trivial
    rw [resolveDeep_con hr hself]
    simpa [pairs, comp_def] using hpairs
  | record fs tail =>
    rw [resolveDeep_record hr hself]
    exact .record _ _ _ _
  | synonym id labels params target => exact absurd rfl (h.2 id labels params target)
  | module name members =>
    rw [resolveDeep_module hr hself]
    exact .module name members

theorem resolve_resolveDeep (hr : r.Acyclic) (h : t.IsRigid) (r' : Registry) :
    r'.resolve (r.resolveDeep t) = r.resolveDeep t := by
  have hform := sameForm_resolveDeep hr h
  refine resolve_of_not_flex fun v hv => ?_
  rw [hv] at hform
  cases hform

/-- Rigid types meet in a later registry as they did when they were resolved. -/
theorem meet_resolveDeep (hr : r.Acyclic) (ha : a.IsRigid) (hb : b.IsRigid) (r' : Registry) :
    Meeting.Mirrored False (fun _ _ => True) (a.meet b)
      ((r'.resolve (r.resolveDeep a)).meet (r'.resolve (r.resolveDeep b))) := by
  rw [resolve_resolveDeep hr ha, resolve_resolveDeep hr hb]
  exact ((sameForm_resolveDeep hr ha).meet (sameForm_resolveDeep hr hb)).1

/-- Rigid types that clash, or that differ in the number of their children, do so for
good. -/
theorem refutes_of_heads (hr : r.Acyclic) (ha : a.IsRigid) (hb : b.IsRigid)
    (hafree : (r.resolveDeep a).SynonymFree) (hbfree : (r.resolveDeep b).SynonymFree)
    (meet : a.meet b = .clash ∨ ∃ pairs, a.meet b = .children pairs true) :
    r.Refutes (r.resolveDeep a) (r.resolveDeep b) := by
  refine ⟨hafree, hbfree, fun r' r'' _ _ h => ?_⟩
  have hmeet := meet_resolveDeep hr ha hb r'
  generalize hm : (r'.resolve (r.resolveDeep a)).meet (r'.resolve (r.resolveDeep b)) = m at hmeet
  rcases meet with meet | ⟨pairs, meet⟩ <;> rw [meet] at hmeet
  · cases hmeet with
    | clash => cases h <;> simp_all
  · cases hmeet with
    | children _ =>
      cases h with
      | children meet' _ even =>
        rw [hm] at meet'
        cases meet'
        exact even rfl rfl
      | _ => simp_all

/-- The row of `a` is closed and lacks a field that `b` has. -/
structure Misses (r : Registry) (a b : Ty) (l : String) : Prop where
  closed : ∀ v, (r.row a).tail ≠ .flex v
  lacks : (r.row a).fields.lookup l = none
  has : ((r.row b).fields.lookup l).isSome = true

namespace Misses

theorem lacking_ne (h : r.Misses a b l) : (r.row a).lacking (r.row b) ≠ [] := by
  intro hnil
  have hl := lookup_lacking (r.row a) (r.row b) l
  have hhas := h.has
  rw [hnil, h.lacks] at hl
  rw [show (r.row b).fields.lookup l = none by simpa using hl.symm] at hhas
  cases hhas

theorem tail_ne (h : r.Misses a b l) (r₁ : Registry) (v : Nat) :
    r₁.resolve (r.row a).tail ≠ .flex v := by
  rw [resolve_of_not_flex h.closed]
  exact h.closed v

theorem mono (h : r.Misses a b l) (hext : r.Extends r') (hr : r.Acyclic) (hr' : r'.Acyclic) :
    r'.Misses a b l := by
  have hend : r'.row (r.row a).tail = ⟨[], (r.row a).tail⟩ := by
    have hself : r'.resolve (r.row a).tail = (r.row a).tail := resolve_of_not_flex h.closed
    rw [row_other, hself]
    intro fs tail heq
    have := (row_tail hr a).2
    rw [← hself, heq] at this
    cases this
  refine ⟨fun v => ?_, ?_, ?_⟩
  · rw [hext.row hr hr' a, hend]
    exact h.closed v
  · rw [hext.row hr hr' a, hend, lookup_prepend, h.lacks]
    rfl
  · rw [hext.row hr hr' b]
    simp [h.has]

end Misses

end Registry

/-- Two rows of which one is closed and lacks a field of the other never meet. -/
theorem Unifies.rows_ne_ok {r r' : Registry} {task : Task} {out : Except TypeError Unit}
    (h : Unifies r task out r') {a b : Ty} {l : String} (htask : task = .rows a b)
    (hk : KindedRun SynonymFreeKind r task r') (hm : r.Misses a b l ∨ r.Misses b a l) :
    out ≠ .ok () := by
  have hP := kinding_synonymFree
  induction h with
  | same | solve | expand | children | ragged | rows | clash | nil | cons | stop => cases htask
  | fields | splitStop | lacking => simp
  | again shared left rest _ ih =>
    cases htask
    obtain ⟨hr₁, hex₁⟩ := shared.keeps hP (hk.shared hP rest.varCount_le)
    exact ih rfl (hk.again hr₁ shared.varCount_le)
      (hm.imp (·.mono hex₁ hk.acyclic hr₁.acyclic) (·.mono hex₁ hk.acyclic hr₁.acyclic))
  | tails _ left _ =>
    cases htask
    obtain ⟨-, -, hmine, htheirs⟩ := (remains left).tails_inv
    exact (hm.elim (fun hm => hm.lacking_ne hmine) fun hm => hm.lacking_ne htheirs).elim
  | extend _ left _ =>
    cases htask
    rcases (remains left).extend_inv with ⟨hv, -, -, hfull⟩ | ⟨hv, -, -, hfull⟩
    · exact (hm.elim (fun hm => hm.tail_ne _ _ hv) fun hm => hm.lacking_ne hfull).elim
    · exact (hm.elim (fun hm => hm.lacking_ne hfull) fun hm => hm.tail_ne _ _ hv).elim
  | split _ left _ _ =>
    cases htask
    obtain ⟨hv, hw, -⟩ := (remains left).split_inv
    exact (hm.elim (fun hm => hm.tail_ne _ _ hv) fun hm => hm.tail_ne _ _ hw).elim

namespace Registry

variable {r r' : Registry} {a b t u : Ty} {l : String}

/-- Deep resolution keeps the labels of a row, and its end if that is open. -/
theorem row_resolveDeep (hr : r.Acyclic) (ht : t.IsRowForm) :
    (∀ l, ((r.row (r.resolveDeep t)).fields.lookup l).isSome = ((r.row t).fields.lookup l).isSome) ∧
      ∀ v, (r.row (r.resolveDeep t)).tail = .flex v → (r.row t).tail = .flex v := by
  cases t with
  | record fs tail =>
    obtain ⟨hres, hend⟩ := row_tail hr (.record fs tail)
    have hrow : r.row (r.row (.record fs tail)).tail = ⟨[], (r.row (.record fs tail)).tail⟩ := by
      rw [row_other, hres.resolve]
      intro gs u heq
      rw [hres.resolve] at heq
      rw [heq] at hend
      cases hend
    rw [resolveDeep_record hr resolve_record]
    generalize r.row (.record fs tail) = row at *
    rw [row_record hr resolve_record, hrow]
    refine ⟨fun l => ?_, fun v hv => hv⟩
    cases hl : row.fields.lookup l <;> simp [hl]
  | con c args =>
    rw [resolveDeep_con hr resolve_con, row_other (by simp), row_other (by simp)]
    exact ⟨fun _ => rfl, fun v hv => by simp at hv⟩
  | _ => simp [IsRowForm, isRecord] at ht

theorem Misses.resolveDeep (h : r.Misses a b l) (hr : r.Acyclic) (ha : a.IsRowForm)
    (hb : b.IsRowForm) : r.Misses (r.resolveDeep a) (r.resolveDeep b) l := by
  obtain ⟨hlabels, htail⟩ := row_resolveDeep hr ha
  refine ⟨fun v hv => h.closed v (htail v hv), ?_, ?_⟩
  · rw [← not_isSome_iff_eq_none, hlabels l, h.lacks]
    simp
  · rw [(row_resolveDeep hr hb).1 l, h.has]

theorem meet_rows (ha : a.IsRowForm) (hb : b.IsRowForm)
    (hrec : a.isRecord = true ∨ b.isRecord = true) : a.meet b = .rows ∧ a.IsRigid ∧ b.IsRigid := by
  have hrigid : ∀ {t : Ty}, t.IsRowForm → t.IsRigid := by
    rintro t (ht | ⟨ts, rfl⟩)
    · cases t <;> simp_all [isRecord, IsRigid]
    · simp [IsRigid]
  refine ⟨?_, hrigid ha, hrigid hb⟩
  rcases ha with ha | ⟨ts, rfl⟩ <;> rcases hb with hb | ⟨us, rfl⟩
  · cases a <;> cases b <;> simp_all [isRecord, meet]
  · cases a <;> simp_all [isRecord, meet]
  · cases b <;> simp_all [isRecord, meet]
  · simp [isRecord] at hrec

/-- Rows of which one is closed and lacks a field of the other do not meet later
either. -/
theorem refutes_of_misses (hr : r.Acyclic) (ha : a.IsRowForm) (hb : b.IsRowForm)
    (hrec : a.isRecord = true ∨ b.isRecord = true) (hafree : (r.resolveDeep a).SynonymFree)
    (hbfree : (r.resolveDeep b).SynonymFree) (hm : r.Misses a b l ∨ r.Misses b a l) :
    r.Refutes (r.resolveDeep a) (r.resolveDeep b) := by
  refine ⟨hafree, hbfree, fun r' r'' hext hr' h => ?_⟩
  obtain ⟨hmeet, hrigida, hrigidb⟩ := meet_rows ha hb hrec
  have hm' : r'.Misses (r.resolveDeep a) (r.resolveDeep b) l ∨
      r'.Misses (r.resolveDeep b) (r.resolveDeep a) l :=
    hm.imp (fun hm => (hm.resolveDeep hr ha hb).mono hext hr hr'.acyclic) fun hm =>
      (hm.resolveDeep hr hb ha).mono hext hr hr'.acyclic
  have hrows := meet_resolveDeep hr hrigida hrigidb r'
  rw [hmeet] at hrows
  generalize hdeep : (r'.resolve (r.resolveDeep a)).meet (r'.resolve (r.resolveDeep b)) = m at hrows
  cases hrows
  cases h with
  | rows _ inner =>
    rw [resolve_resolveDeep hr hrigida, resolve_resolveDeep hr hrigidb] at inner
    exact inner.rows_ne_ok rfl ⟨hr', ⟨hafree, hbfree⟩, fun v _ _ => (all_var _).mpr trivial⟩ hm' rfl
  | _ => simp_all

end Registry

/-! ## The occurs check -/

namespace Ty.HasRole

open Registry

variable {E : Prop} {K : Nat → Kind} {φ : Nat → Finset String} {r r' : Registry} {k : Role}
  {t : Ty} {v : Nat} {front : Finset String}

theorem resolveDeep (h : t.HasRole E K φ r k) (hr : r.Acyclic) :
    (r.resolveDeep t).HasRole E K φ r k := by
  induction t using part_induct hr generalizing k with
  | step t ih =>
    have hres := h.resolve hr
    cases heq : r.resolve t with
    | var x => rwa [resolveDeep_var hr heq, ← heq]
    | con c args =>
      rw [heq] at hres
      rw [resolveDeep_con hr heq]
      cases hres with
      | con hc hargs =>
        exact .con hc (forall_mem_map.mpr fun u hu => ih u (.inl (heq ▸ hu)) (hargs u hu))
      | emptyRow hk => exact .emptyRow hk
    | record fs tail =>
      rw [heq] at hres
      obtain ⟨hfields, htail⟩ := (hres.asRow (.inl rfl)).row hr
      rw [← heq, row_resolve hr] at hfields htail
      rw [resolveDeep_record hr heq]
      refine .record ((row_sorted hr t).mapValues _) (forall_mem_map.mpr fun e he => ?_)
        (forall_mem_map.mpr fun e he => ?_) ?_
      · exact (hfields e he).1
      · exact ih e.2 (.inr ⟨e, he, rfl⟩) (hfields e he).2
      · rw [Role.behind, names_mapValues]
        exact htail
    | synonym id labels params target => exact (not_synonym (heq ▸ hres)).elim
    | module name members => rwa [resolveDeep_module hr heq, ← heq]

theorem synonymFree_resolveDeep (h : t.HasRole E K φ r k) (hr : r.Acyclic) :
    (r.resolveDeep t).SynonymFree :=
  (h.resolveDeep hr).plain.synonymFree

/-- The fields of a record and of what it goes on with are fields of its row. -/
theorem mem_row {fs : Table Ty} {tail : Ty} (h : (Ty.record fs tail).HasRole E K φ r k)
    (hr : r.Acyclic) {e : String × Ty} (he : e ∈ fs ∨ e ∈ (r.row tail).fields) :
    e ∈ (r.row (.record fs tail)).fields := by
  cases h with
  | record hs _ _ htail =>
    rw [row_record hr resolve_record, union_nil hs]
    refine (mem_union_of_new hs (row_sorted hr tail) fun e he hmem => ?_).mpr he
    exact ((htail.row hr).1 e he).1 (Finset.mem_union_right _ hmem)

/-- The occurs check finds what occurs in the resolved type, as no field is hidden. -/
theorem mem_of_occurs (h : t.HasRole E K φ r k) (hr : r.Acyclic) (hocc : r.occurs v t = true) :
    .flex v ∈ (r.resolveDeep t).occurrences := by
  induction t using part_induct hr generalizing k with
  | step t ih =>
    have hres := h.resolve hr
    rw [occurs_eq hr, occursStep] at hocc
    cases heq : r.resolve t with
    | var x =>
      rw [heq] at hocc
      rw [resolveDeep_var hr heq]
      cases x with
      | flex w => simpa [occurrences] using hocc
      | gen g => cases hocc
    | con c args =>
      rw [heq] at hocc hres
      obtain ⟨u, hu, hocc⟩ := any_eq_true.mp hocc
      have hin := ih u (.inl (heq ▸ hu)) (hres.args u hu) hocc
      rw [resolveDeep_con hr heq]
      exact mem_occurrences.mpr (.inr ⟨_, mem_map_of_mem hu, hin⟩)
    | record fs tail =>
      rw [heq] at hocc hres
      have hrow : r.row t = r.row (.record fs tail) := by rw [← heq, row_resolve hr]
      have hfield : ∀ e, e ∈ fs ∨ e ∈ (r.row tail).fields →
          .flex v ∈ (r.resolveDeep e.2).occurrences → .flex v ∈ (r.resolveDeep t).occurrences := by
        intro e he hin
        rw [resolveDeep_record hr heq, hrow]
        refine mem_occurrences.mpr (.inr ⟨r.resolveDeep e.2, ?_, hin⟩)
        exact mem_children_record.mpr (.inl ⟨_, mem_map_of_mem (hres.mem_row hr he), rfl⟩)
      rcases Bool.or_eq_true_iff.mp hocc with hocc | hocc
      · obtain ⟨e, he, hocc⟩ := any_eq_true.mp hocc
        refine hfield e (.inl he) (ih e.2 (.inl ?_) (k := .type) ?_ hocc)
        · exact heq ▸ mem_children_record.mpr (.inl ⟨e, he, rfl⟩)
        · cases hres with
          | record _ _ hfields _ => exact hfields e he
      · have htail : tail.HasRole E K φ r (k.behind fs) := by
          cases hres with
          | record _ _ _ htail => exact htail
        have hin := ih tail (.inl (heq ▸ mem_children_record.mpr (.inr rfl))) htail hocc
        have hend : (r.row t).tail = (r.row tail).tail := by
          rw [hrow, row_record hr resolve_record]
        have hlast : .flex v ∈ (r.row tail).tail.occurrences →
            .flex v ∈ (r.resolveDeep t).occurrences := by
          intro hin
          rw [resolveDeep_record hr heq, hend]
          exact mem_occurrences.mpr (.inr ⟨_, mem_children_record.mpr (.inr rfl), hin⟩)
        -- what the tail resolves to is a part of the whole record
        cases htl : r.resolve tail with
        | record gs u =>
          rw [resolveDeep_record hr htl] at hin
          obtain ⟨w, hw, hin⟩ := (mem_occurrences.mp hin).resolve_left (by simp)
          rcases mem_children_record.mp hw with ⟨f, hf, rfl⟩ | rfl
          · obtain ⟨e, he, rfl⟩ := mem_map.mp hf
            exact hfield e (.inr he) hin
          · exact hlast hin
        | var x =>
          rw [resolveDeep_var hr htl] at hin
          refine hlast ?_
          rwa [row_other (by simp [htl]), htl]
        | con c args =>
          have hrest := htl ▸ htail.resolve hr
          rw [resolveDeep_con hr htl] at hin
          cases hrest with
          | emptyRow => simp [occurrences] at hin
        | synonym id labels params target => exact (not_synonym (htl ▸ htail.resolve hr)).elim
        | module name members =>
          rw [resolveDeep_module hr htl] at hin
          simp [occurrences] at hin
    | synonym id labels params target => exact (not_synonym (heq ▸ hres)).elim
    | module name members => simp [heq] at hocc

/-- An open variable in the end of a record is that end, and stands behind the labels
of the record. -/
theorem eq_of_mem_end {tail : Ty} (h : tail.HasRole E K φ r (.rest front))
    (hend : tail.isRecord = false) (hv : r.binding? v = none) (hin : .flex v ∈ tail.occurrences) :
    tail = .flex v ∧ K v = .row ∧ φ v = front := by
  have hflex : tail = .flex v := by
    cases h with
    | bound | free => simpa [occurrences, eq_comm] using hin
    | gen | emptyRow => simp [occurrences] at hin
    | record => cases hend
  subst hflex
  have hrole := h.role_of_open hv
  cases hK : K v <;> simp_all [Kind.role]

section

variable (hv : r.binding? v = none) (hr' : r'.Acyclic)
include hr'

/-- The fields of a record are fields of its row. -/
theorem lookup_field {fs : Table Ty} {tail : Ty} (hs : fs.Sorted) {e : String × Ty} (he : e ∈ fs) :
    (r'.row (.record fs tail)).fields.lookup e.1 = some e.2 := by
  rw [row_record hr' resolve_record, lookup_union, union_nil hs, hs.lookup_of_mem he]
  rfl

include hv

/-- An open variable in a resolved type stands for a member of a member of it, or it
ends a record that is one. -/
theorem exists_inner (h : t.HasRole E K φ r k) (hk : k = .type) (hflat : r.Flat t)
    (hin : .flex v ∈ t.occurrences) : ∃ u, Relation.ReflTransGen r'.Inner u t ∧
      (K v = .type ∧ u = .flex v ∨
        K v = .row ∧ ∃ fs : Table Ty, u = .record fs (.flex v) ∧ φ v = fs.names) := by
  induction h with
  | bound hw =>
    cases hflat with
    | var hres =>
      rw [hres _ rfl] at hw
      cases hw
  | @free k w _ _ hrole =>
    obtain rfl : v = w := by simpa [occurrences] using hin
    refine ⟨_, .refl, .inl ⟨?_, rfl⟩⟩
    rw [← Kind.kind_role (φ v) (K v), hrole, hk]
    rfl
  | gen | emptyRow | module => simp [occurrences] at hin
  | con hc hargs ih =>
    obtain ⟨a, ha, hin⟩ := (mem_occurrences.mp hin).resolve_left (by simp)
    cases hflat with
    | con hflat =>
      obtain ⟨u, hpath, hu⟩ := ih a ha rfl (hflat a ha) hin
      exact ⟨u, hpath.tail (.inl ⟨_, _, resolve_con, hc, ha⟩), hu⟩
  | @record k fs tail hs hfront hfields htail ihf iht =>
    obtain ⟨a, ha, hina⟩ := (mem_occurrences.mp hin).resolve_left (by simp)
    cases hflat with
    | record _ hflat _ hend =>
      rcases mem_children_record.mp ha with ⟨e, he, rfl⟩ | rfl
      · obtain ⟨u, hpath, hu⟩ := ihf e he rfl (hflat e he) hina
        exact ⟨u, hpath.tail (.inr ⟨e.1, lookup_field hr' hs he⟩), hu⟩
      · obtain ⟨rfl, hK, hφ⟩ := htail.eq_of_mem_end hend hv hina
        refine ⟨_, .refl, .inr ⟨hK, fs, rfl, ?_⟩⟩
        rw [hφ, hk, Role.front, empty_union]

end

end Ty.HasRole

namespace Registry

variable {E : Prop} {K : Nat → Kind} {φ : Nat → Finset String} {r : Registry} {t : Ty} {v : Nat}

theorem isRecord_resolveDeep (hr : r.Acyclic) (t : Ty) :
    (r.resolveDeep t).isRecord = (r.resolve t).isRecord := by
  cases heq : r.resolve t with
  | var x => rw [resolveDeep_var hr heq]
  | con c args => rw [resolveDeep_con hr heq]; rfl
  | record fs tail => rw [resolveDeep_record hr heq]; rfl
  | synonym id labels params target => rw [resolveDeep_synonym hr heq]; rfl
  | module name members => rw [resolveDeep_module hr heq]

/-- A row variable is no record that holds it in a field. -/
theorem ReadAlike.not_in_field (hr : r.Acyclic) {fs gs : Table Ty} {tail : Ty} (hs : fs.Sorted)
    (h : r.Equated (.flex v) (.record fs tail)) {e : String × Ty} (he : e ∈ fs)
    (hpath : Relation.ReflTransGen r.Inner (.record gs (.flex v)) e.2) : e.1 ∈ gs.names := by
  by_contra hnew
  rw [mem_names_iff_lookup, not_isSome_iff_eq_none] at hnew
  have hrows := h.row hr
  have hfield : (r.row (.record fs tail)).fields.lookup e.1 = some e.2 :=
    HasRole.lookup_field hr hs he
  obtain ⟨u, hu⟩ := isSome_iff_exists.mp ((hrows.labels e.1).trans (by rw [hfield]; rfl))
  -- the variable has the field too, and it is not hidden in the record that it ends
  have hinner : r.Inner u (.record gs (.flex v)) := by
    refine .inr ⟨e.1, ?_⟩
    rw [row_record hr resolve_record]
    simp [hnew, hu]
  exact (hrows.fields e.1 u e.2 hu hfield).not_inside hr (.head' hinner hpath)

/-- A variable that occurs in a type of its role never becomes that type: the
variable, or a field that it would have to share with the type, would be a member of
a member of itself. -/
theorem refutes_of_occurs (hr : r.Acyclic) (hv : r.binding? v = none)
    (ht : t.HasRole E K φ r ((K v).role (φ v))) (hbinds : r.Binds (K v) t)
    (hocc : r.occurs v t = true) (hself : t ≠ .flex v) :
    r.Refutes (.flex v) (r.resolveDeep t) := by
  have hdeep := ht.resolveDeep hr
  refine ⟨(all_var _).mpr trivial, hdeep.plain.synonymFree, fun r' r'' hext hr' h => ?_⟩
  have hres : r.resolve t = t := hbinds.resolved.resolve
  have hflat := flat_resolveDeep hr t
  have hin := ht.mem_of_occurs hr hocc
  have hne : r.resolveDeep t ≠ .flex v := fun h => hself (hres ▸ resolve_of_var hr h)
  have hk : KindedRun SynonymFreeKind r' (.types (.flex v) (r.resolveDeep t)) r'' :=
    ⟨hr', ⟨.type, (all_var _).mpr trivial, hdeep.plain.synonymFree⟩,
      fun v _ _ => (all_var _).mpr trivial⟩
  have heq : r''.Equated (.flex v) (r.resolveDeep t) := h.equated rfl hk
  have hr'' := (h.keeps kinding_synonymFree hk).1.acyclic
  cases hK : K v with
  | type =>
    rw [hK] at hdeep
    obtain ⟨u, hpath, ⟨-, rfl⟩ | ⟨hrow, -⟩⟩ := hdeep.exists_inner hv hr'' rfl hflat hin
    · exact heq.not_inside hr''
        ((Relation.reflTransGen_iff_eq_or_transGen.mp hpath).resolve_left hne)
    · rw [hK] at hrow
      cases hrow
  | row =>
    rw [hK] at hdeep
    by_cases hrec : ∃ fs tail, t = .record fs tail
    · obtain ⟨fs, tail, rfl⟩ := hrec
      rw [resolveDeep_record hr hres] at hdeep hflat hin heq
      obtain ⟨a, ha, hina⟩ := (mem_occurrences.mp hin).resolve_left (by simp)
      cases hdeep with
      | record hs hfront hfields htail =>
        cases hflat with
        | record _ hflat _ hend =>
          rcases mem_children_record.mp ha with ⟨e, he, rfl⟩ | rfl
          · obtain ⟨u, hpath, ⟨htype, -⟩ | ⟨-, gs, rfl, hφ⟩⟩ :=
              (hfields e he).exists_inner hv hr'' rfl (hflat e he) hina
            · rw [hK] at htype
              cases htype
            · exact hfront e he (hφ ▸ heq.not_in_field hr'' hs he hpath)
          · obtain ⟨-, -, hφ⟩ := htail.eq_of_mem_end hend hv hina
            have hfs : fs ≠ [] := fun hfs => hbinds.fields hK tail (by rw [hfs])
            obtain ⟨e, he⟩ := exists_mem_of_ne_nil fs hfs
            have he' := mem_map_of_mem (f := fun e => (e.1, r.resolveDeep e.2))
              (ht.mem_row hr (.inl he))
            refine hfront _ he' ?_
            rw [hφ]
            exact mem_union_right _ (mem_names.mpr ⟨_, he', rfl⟩)
    · refine hne (hdeep.eq_of_mem_end ?_ hv hin).1
      rw [isRecord_resolveDeep hr, hres]
      cases t with
      | record fs tail => exact (hrec ⟨fs, tail, rfl⟩).elim
      | _ => rfl

end Registry

/-! ## What an error names -/

/-- The two types that an error says cannot be made equal. -/
def TypeError.conflict? : TypeError → Option (Ty × Ty)
  | .mismatch left right => some (left, right)
  | .cyclic v t => some (.flex v, t)
  | _ => none

/-- The error names two types that cannot be made equal, now or in a later registry. -/
def TypeError.Lasts (r : Registry) (e : TypeError) : Prop :=
  ∃ left right, e.conflict? = some (left, right) ∧ r.Refutes left right

/-- Rows meet where both types are rows and one is a record. -/
def Task.Formed : Task → Prop
  | .rows a b => a.IsRowForm ∧ b.IsRowForm ∧ (a.isRecord = true ∨ b.isRecord = true)
  | _ => True

section

variable {E : Prop} {K : Nat → Kind} {φ : Nat → Finset String} {r r' r₁ : Registry} {a b t : Ty}
  {v : Nat} {e : TypeError} {task : Task} {out : Except TypeError Unit} {front : Finset String}
  {mine theirs : Row}

theorem Solved.lasts (h : Solved r v t (.error e) r') (hr : r.Acyclic) (hv : r.binding? v = none)
    {k : Role} (hrole : (flex v).HasRole E K φ r k) (ht : t.HasRole E K φ r k)
    (hbinds : r.Binds (K v) t) (hself : t ≠ .flex v) : e.Lasts r' := by
  cases h with
  | unknown _ hlt =>
    have hscoped := hrole.plain.scoped
    simp [Ty.Scoped, Ty.Mentions, Ty.occurrences] at hscoped
    omega
  | cyclic hocc =>
    obtain rfl := hrole.role_of_open hv
    exact ⟨_, _, rfl, refutes_of_occurs hr hv ht hbinds hocc hself⟩

/-- How a run of the task ends: it continues the registry that it starts from, or it
fails with an error that lasts. -/
def Task.Settles (E : Prop) (K : Nat → Kind) (φ : Nat → Finset String) (r : Registry) (task : Task)
    (r' : Registry) : Except TypeError Unit → Prop
  | .ok _ => ∃ φ', Continues E K r φ r' φ'
  | .error e => task.Formed → e.Lasts r'

/-- A part of the run comes before. -/
theorem Task.Settles.after {task' : Task} {φ₁ : Nat → Finset String}
    (h : task'.Settles E K φ₁ r₁ r' out) (hc : Continues E K r φ r₁ φ₁)
    (hform : task.Formed → task'.Formed) : task.Settles E K φ r r' out := by
  cases out with
  | ok =>
    obtain ⟨φ', h⟩ := h
    exact ⟨φ', hc.trans h⟩
  | error => exact fun hf => h (hform hf)

theorem Solved.settles (h : Solved r v t out r') (hr : r.Acyclic) (hv : r.binding? v = none)
    {k : Role} (hrole : (flex v).HasRole E K φ r k) (ht : t.HasRole E K φ r k)
    (hbinds : r.Binds (K v) t) (hself : t ≠ .flex v) : task.Settles E K φ r r' out := by
  cases out with
  | ok => exact ⟨φ, .solved hr hv h rfl (hrole.role_of_open hv ▸ ht) hbinds⟩
  | error => exact fun _ => h.lasts hr hv hrole ht hbinds hself

/-- An open tail takes the fields that its row lacks, unless it occurs in them. -/
theorem RowRoles.settles {u z : Ty} (h : RowRoles E K φ r front mine theirs (.flex v) u)
    (hr : r.Acyclic) (hv : r.binding? v = none) (hne : mine.lacking theirs ≠ [])
    (hz : z.HasRole E K φ r (.rest (allLabels front mine theirs)))
    (hs : Solved r v (.record (mine.lacking theirs) z) out r₁) : task.Settles E K φ r r₁ out :=
  hs.settles hr hv h.tailLeft (h.lacking hz)
    ⟨by simp [Resolved], fun _ tail heq => hne (record.inj heq).1⟩ (by simp)

/-- A new variable can stand behind the labels of both rows. -/
theorem RowRoles.addVar {u : Ty} (h : RowRoles E K φ r front mine theirs t u)
    (hK : K r.varCount = .row) :
    ∃ φ', Continues E K r φ r.addVar φ' ∧ RowRoles E K φ' r.addVar front mine theirs t u ∧
      (flex r.varCount).HasRole E K φ' r.addVar (.rest (allLabels front mine theirs)) := by
  have hc := Continues.addVar (E := E) (K := K) r φ (allLabels front mine theirs)
  refine ⟨_, hc, h.mono hc, ?_⟩
  refine .free (by simpa using binding?_of_le le_rfl) (by simp) ?_
  rw [hK, update_self]
  rfl

/-- Rows with the same open tail have the same labels. -/
theorem RowRoles.lacking_eq_nil (h : RowRoles E K φ r front mine theirs (.flex v) (.flex v))
    (hv : r.binding? v = none) : mine.lacking theirs = [] := by
  have hnames : front ∪ mine.fields.names = front ∪ theirs.fields.names := by
    have := (h.tailLeft.role_of_open hv).symm.trans (h.tailRight.role_of_open hv)
    simpa using this
  rw [eq_nil_iff_forall_not_mem]
  intro e he
  obtain ⟨hmem, hnone⟩ := mem_lacking he
  have hin : e.1 ∈ front ∪ mine.fields.names := by
    rw [hnames]
    exact mem_union_right _ (mem_names.mpr ⟨e, hmem, rfl⟩)
  rcases mem_union.mp hin with hin | hin
  · exact (h.fieldsRight e hmem).1 hin
  · simp [mem_names_iff_lookup, hnone] at hin

/-- A row that lacks a field of another and has come to a closed end misses it. -/
theorem Registry.Extends.misses (hext : r.Extends r₁) (hr : r.Acyclic) (hr₁ : r₁.Acyclic)
    (hend : (r₁.resolve (r.row a).tail).isRecord = false)
    (hclosed : ∀ v, r₁.resolve (r.row a).tail ≠ .flex v)
    (hne : (r.row a).lacking (r.row b) ≠ []) : ∃ l, r₁.Misses a b l := by
  obtain ⟨e, he⟩ := exists_mem_of_ne_nil _ hne
  obtain ⟨hmem, hnone⟩ := mem_lacking he
  have hrow : r₁.row (r.row a).tail = ⟨[], r₁.resolve (r.row a).tail⟩ :=
    row_other fun fs tail heq => by simp [heq, isRecord] at hend
  refine ⟨e.1, fun v => ?_, ?_, ?_⟩
  · rw [hext.row hr hr₁ a, hrow]
    exact hclosed v
  · rw [hext.row hr hr₁ a, hrow, lookup_prepend, hnone]
    rfl
  · rw [hext.row hr hr₁ b, lookup_prepend, (row_sorted hr b).lookup_of_mem hmem]
    rfl

/-- Rows that clash after their shared fields have met do not meet later either. -/
theorem Registry.refutes_of_lacking (hr : r.Acyclic) (hr₁ : r₁.Acyclic) {φ₁ : Nat → Finset String}
    (hc : Continues E K r φ r₁ φ₁) (htask : (Task.rows a b).HasRoles E K φ r)
    (hform : (Task.rows a b).Formed) (left : r.remainder r₁ a b = .clash) :
    r₁.Refutes (r₁.resolveDeep a) (r₁.resolveDeep b) := by
  obtain ⟨hfa, hfb, hrec⟩ := hform
  obtain ⟨front, hrows⟩ := RowRoles.after hr htask hr₁ hc
  obtain ⟨⟨henda, hendb⟩, hfull⟩ := (remains left).clash_inv
  have hm : ∃ l, r₁.Misses a b l ∨ r₁.Misses b a l := by
    rcases hfull with ⟨hne, hclosed⟩ | ⟨hne, hclosed⟩ | ⟨hne, -, heq⟩
    · exact (hc.grows.misses hr hr₁ henda hclosed hne).imp fun _ => .inl
    · exact (hc.grows.misses hr hr₁ hendb hclosed hne).imp fun _ => .inr
    · refine (hc.grows.misses hr hr₁ henda (fun v hv => hne ?_) hne).imp fun _ => .inl
      rw [← heq, hv] at hrows
      exact hrows.lacking_eq_nil (binding?_of_resolve hr₁ hv)
  obtain ⟨l, hm⟩ := hm
  obtain ⟨front, ha, hb⟩ := htask
  exact refutes_of_misses hr₁ hfa hfb hrec ((hc.roles ha).synonymFree_resolveDeep hr₁)
    ((hc.roles hb).synonymFree_resolveDeep hr₁) hm

/-- A run that succeeds continues the registry it starts from, and the error of a run
that fails names types that never meet later. -/
theorem Unifies.settles {P : Kind → Ty → Prop} (hP : Kinding P) (h : Unifies r task out r')
    (hk : KindedRun P r task r') (hlater : ∀ v, r.varCount ≤ v → K v = .row)
    (htask : task.HasRoles E K φ r) : task.Settles E K φ r r' out := by
  induction h generalizing φ with
  | same | nil => exact ⟨φ, .refl _ φ⟩
  | solve meet solved =>
    obtain ⟨-, hbinds⟩ := htask.solve hk.acyclic meet
    obtain ⟨k, ha, hb, -⟩ := htask
    have hv := hk.acyclic.solve_open meet
    obtain ⟨hsides, hself⟩ := (Meets.of_meet meet).solve_inv
    rcases hsides with ⟨hav, rfl⟩ | ⟨hbv, rfl⟩
    · exact solved.settles hk.acyclic hv (hav ▸ ha.resolve hk.acyclic) (hb.resolve hk.acyclic)
        hbinds
        hself
    · exact solved.settles hk.acyclic hv (hbv ▸ hb.resolve hk.acyclic) (ha.resolve hk.acyclic)
        hbinds
        hself
  | expand meet => exact absurd meet (htask.not_expand hk.acyclic _ _)
  | children meet inner _ ih =>
    exact (ih (hk.children hP meet) hlater (htask.children hk.acyclic meet)).after (.refl _ φ) id
  | ragged meet inner ih =>
    have hk₁ := hk.children hP meet
    have hr' := (inner.keeps hP hk₁).1.acyclic
    obtain ⟨φ₁, hc₁⟩ := ih hk₁ hlater (htask.children hk.acyclic meet)
    obtain ⟨c, d, ts, us, hac, hbd, -⟩ := (Meets.of_meet meet).children_inv
    obtain ⟨k, ha, hb, -⟩ := htask
    refine fun _ => ⟨_, _, rfl, refutes_of_heads hr' ?_ ?_
      ((hc₁.roles (ha.resolve hk.acyclic)).synonymFree_resolveDeep hr')
      ((hc₁.roles (hb.resolve hk.acyclic)).synonymFree_resolveDeep hr') (.inr ⟨_, meet⟩)⟩
    · simp [hac, IsRigid]
    · simp [hbd, IsRigid]
  | rows meet inner ih =>
    exact (ih (hk.rows hP meet) hlater (htask.rows hk.acyclic meet)).after (.refl _ φ)
      fun _ => (Meets.of_meet meet).rows_inv
  | clash meet =>
    have hrigid := rigid_of_meet (fun v t => meet.trans_ne (by simp))
      fun t u => meet.trans_ne (by simp)
    rcases hrigid with ⟨v, ha, hb⟩ | ⟨ha, hb⟩
    · simp [ha, hb, Ty.meet] at meet
    · obtain ⟨k, hra, hrb, -⟩ := htask
      exact fun _ => ⟨_, _, rfl, refutes_of_heads hk.acyclic ha hb
        ((hra.resolve hk.acyclic).synonymFree_resolveDeep hk.acyclic)
        ((hrb.resolve hk.acyclic).synonymFree_resolveDeep hk.acyclic) (.inl meet)⟩
  | cons head rest ih₁ ih₂ =>
    obtain ⟨hhead, hrest⟩ := forall_mem_cons.mp htask
    have hk₁ := hk.head rest.varCount_le
    obtain ⟨φ₁, hc₁⟩ := ih₁ hk₁ hlater ⟨.type, hhead.1, hhead.2, by simp [Role.kind]⟩
    exact (ih₂ (hk.rest (head.keeps hP hk₁).1 head.varCount_le)
      (fun v hv => hlater v (head.varCount_le.trans hv))
      fun p hp => ⟨hc₁.roles (hrest p hp).1, hc₁.roles (hrest p hp).2⟩).after hc₁ id
  | stop head ih =>
    obtain ⟨hhead, -⟩ := forall_mem_cons.mp htask
    exact (ih (hk.head le_rfl) hlater ⟨.type, hhead.1, hhead.2, by simp [Role.kind]⟩).after
      (.refl _ φ) id
  | fields shared ih =>
    exact (ih (hk.shared hP le_rfl) hlater (htask.shared hk.acyclic)).after (.refl _ φ)
      fun _ => trivial
  | again shared left rest ih₁ ih₂ =>
    have hk₁ := hk.shared hP rest.varCount_le
    obtain ⟨φ₁, hc₁⟩ := ih₁ hk₁ hlater (htask.shared hk.acyclic)
    obtain ⟨front, ha, hb⟩ := htask
    exact (ih₂ (hk.again (shared.keeps hP hk₁).1 shared.varCount_le)
      (fun v hv => hlater v (shared.varCount_le.trans hv))
      ⟨front, hc₁.roles ha, hc₁.roles hb⟩).after hc₁ id
  | tails shared left rest ih₁ ih₂ =>
    have hk₁ := hk.shared hP rest.varCount_le
    have hr₁ := (shared.keeps hP hk₁).1
    obtain ⟨φ₁, hc₁⟩ := ih₁ hk₁ hlater (htask.shared hk.acyclic)
    obtain ⟨front, hrows⟩ := RowRoles.after hk.acyclic htask hr₁.acyclic hc₁
    have hends := (remains left).tails_ends
    obtain ⟨rfl, rfl, hmine, htheirs⟩ := (remains left).tails_inv
    refine (ih₂ (hk.tails hP hr₁ shared.varCount_le left)
      (fun v hv => hlater v (shared.varCount_le.trans hv))
      ⟨_, hrows.full hmine, allLabels_comm ▸ hrows.symm.full htheirs, fun _ => ?_⟩).after hc₁
        fun _ => trivial
    simpa [resolve_resolve hr₁.acyclic] using hends
  | extend shared left solved ih =>
    have hk₁ := hk.shared hP solved.varCount.ge
    have hr₁ := (shared.keeps hP hk₁).1.acyclic
    obtain ⟨φ₁, hc₁⟩ := ih hk₁ hlater (htask.shared hk.acyclic)
    obtain ⟨front, hrows⟩ := RowRoles.after hk.acyclic htask hr₁ hc₁
    have hopen := hr₁.extend_open left
    have hne := (remains left).extend_ne
    refine Task.Settles.after ?_ hc₁ id
    rcases (remains left).extend_inv with ⟨hv, rfl, rfl, hfull⟩ | ⟨hv, rfl, rfl, hfull⟩
    · rw [hv] at hrows
      exact hrows.settles hr₁ hopen hne (allLabels_comm ▸ hrows.symm.full hfull) solved
    · rw [hv] at hrows
      exact hrows.symm.settles hr₁ hopen hne (allLabels_comm ▸ hrows.full hfull) solved
  | @split r a b r₁ v w fs gs r₂ out r₃ shared left mine theirs ih =>
    have hlt : r₁.varCount < r₃.varCount := mine.lt_varCount.trans_eq theirs.varCount.symm
    have hk₁ := hk.shared hP hlt.le
    have hr₁ := (shared.keeps hP hk₁).1
    obtain ⟨φ₁, hc₁⟩ := ih hk₁ hlater (htask.shared hk.acyclic)
    obtain ⟨front, hrows⟩ := RowRoles.after hk.acyclic htask hr₁.acyclic hc₁
    obtain ⟨⟨hkv, hkmine⟩, -⟩ := hk.split hP hr₁ shared.varCount_le hlt left
    obtain ⟨hvo, hwo, hne⟩ := hr₁.acyclic.split_open left
    have hr₂ := (mine.keeps hP hr₁.addVar (by simpa using hvo) hkv hkmine).1.acyclic
    obtain ⟨hv, hw, -, ⟨rfl, hfs⟩, rfl, hgs⟩ := (remains left).split_inv
    rw [hv, hw] at hrows
    obtain ⟨φ₂, hc₂, hrows₂, hz⟩ := hrows.addVar (hlater _ shared.varCount_le)
    have hc₃ := hrows₂.solved hr₁.addVar.acyclic (by simpa using hvo) hfs hz mine rfl
    exact ((hrows₂.mono hc₃).symm.settles hr₂ (mine.open_of_ne (by simpa using hwo) hne) hgs
      (allLabels_comm ▸ hc₃.roles hz) theirs).after (hc₁.trans (hc₂.trans hc₃)) id
  | splitStop shared left mine ih =>
    have hk₁ := hk.shared hP mine.lt_varCount.le
    have hr₁ := (shared.keeps hP hk₁).1
    obtain ⟨φ₁, hc₁⟩ := ih hk₁ hlater (htask.shared hk.acyclic)
    obtain ⟨front, hrows⟩ := RowRoles.after hk.acyclic htask hr₁.acyclic hc₁
    obtain ⟨hvo, -⟩ := hr₁.acyclic.split_open left
    obtain ⟨hv, -, -, ⟨rfl, hfs⟩, -⟩ := (remains left).split_inv
    rw [hv] at hrows
    obtain ⟨φ₂, -, hrows₂, hz⟩ := hrows.addVar (hlater _ shared.varCount_le)
    exact hrows₂.settles hr₁.addVar.acyclic (by simpa using hvo) hfs hz mine
  | lacking shared left ih =>
    have hk₁ := hk.shared hP le_rfl
    obtain ⟨φ₁, hc₁⟩ := ih hk₁ hlater (htask.shared hk.acyclic)
    exact fun hform => ⟨_, _, rfl, refutes_of_lacking hk.acyclic (shared.keeps hP hk₁).1.acyclic hc₁
      htask hform left⟩

/-! ## Errors of unification -/

/-- Calls of unification, successful or not, one after the other. Each leaves a
registry without synonyms whose rows are coherent. -/
inductive UnifyCalls : State → State → Prop where
  | refl (s : State) : UnifyCalls s s
  | call {s s' : State} (a b : Ty) (before : UnifyCalls s s')
      (coherent : ∃ K φ, (after (unify a b) s').registry.RowCoherent True K φ) :
      UnifyCalls s (after (unify a b) s')

theorem extends_after_unify (s : State) (a b : Ty) :
    s.registry.Extends (after (unify a b) s).registry :=
  ((Extends.discipline s.registry).keeps_unify trivial trivial s (.refl _)
    (Nat.zero_le _)).1

theorem Registry.RowCoherent.synonymFree (h : r.RowCoherent E K φ) :
    r.WellFormed SynonymFreeKind := by
  refine ⟨h.acyclic, h.covered, fun v t hv _ _ => ?_⟩
  obtain ⟨front, ht⟩ := h.bindings v t hv
  exact ht.plain.synonymFree

theorem UnifyCalls.later {s s' : State} (h : UnifyCalls s s')
    (hs : s.registry.WellFormed SynonymFreeKind) :
    s.registry.Extends s'.registry ∧ s'.registry.WellFormed SynonymFreeKind := by
  induction h with
  | refl => exact ⟨.refl _, hs⟩
  | call a b _ coherent ih =>
    obtain ⟨K, φ, hr⟩ := coherent
    exact ⟨ih.1.trans (extends_after_unify _ a b), hr.synonymFree⟩

theorem Registry.Refutes.unify_error {s : State} (h : r.Refutes a b) (hext : r.Extends s.registry)
    (hs : s.registry.WellFormed SynonymFreeKind) : ∃ e', ((unify a b).ends s).1 = .error e' := by
  have hP := kinding_synonymFree
  have hrun := unify_unifies (.of_covered hs.acyclic hs.covered) (hP.covered (k := .type) h.left)
    (hP.covered (k := .type) h.right)
  cases hout : ((unify a b).ends s).1 with
  | error e' => exact ⟨e', rfl⟩
  | ok _ =>
    rw [hout] at hrun
    exact (h.apart _ _ hext hs hrun).elim

/-- An error of unification names two types that cannot be made equal: unifying them
fails in the registry that the error leaves, and it fails after any calls of
unification, successful or not, that go on from there and keep rows coherent. The
registry in which the error arises and the two types are row-coherent: they are well
scoped and without synonyms, the bindings have no cycle, variables are rows or types
of values as `K` says, no label repeats along a record, and all records that end in
the same open variable have the labels that `φ` gives for it. -/
theorem unify_error_lasts {s s' : State} (hr : s.registry.RowCoherent E K φ)
    (ha : a.HasRole E K φ s.registry .type) (hb : b.HasRole E K φ s.registry .type)
    (herror : ((unify a b).ends s).1 = .error e) (hcalls : UnifyCalls (after (unify a b) s) s') :
    ∃ left right, e.conflict? = some (left, right) ∧
      ∃ e', ((unify left right).ends s').1 = .error e' := by
  have hK : ∀ v, v < s.registry.varCount → Kind.upTo s.registry.varCount K v = K v :=
    fun v hv => if_pos hv
  have hlater : ∀ v, s.registry.varCount ≤ v → Kind.upTo s.registry.varCount K v = .row :=
    fun v hv => if_neg (Nat.not_lt.mpr hv)
  have hrun := unify_unifies (.of_covered hr.acyclic hr.covered) ha.covered hb.covered
  have hk : KindedRun SynonymFreeKind s.registry (.types a b) ((unify a b).ends s).2 :=
    ⟨hr.synonymFree, ⟨.type, ha.plain.synonymFree, hb.plain.synonymFree⟩,
      fun v _ _ => (Ty.all_var _).mpr trivial⟩
  have hsettles := hrun.settles kinding_synonymFree hk hlater
    ⟨.type, ha.congr hK, hb.congr hK, by simp [Role.kind]⟩
  rw [herror] at hsettles
  obtain ⟨left, right, hconflict, hrefutes⟩ := hsettles trivial
  have hleft := (hrun.keeps kinding_synonymFree hk).1
  rw [ends_registry] at hrefutes hleft
  obtain ⟨hext, hs'⟩ := hcalls.later hleft
  exact ⟨left, right, hconflict, hrefutes.unify_error hext hs'⟩

end

/-- An open record that lacks a field of a closed one, which lacks a field of it: they
are still told apart after the open one was closed with the field that it lacked. -/
theorem unify_open_record_error_lasts :
    let s : State := ⟨({} : Registry).addVar.addVar.addVar, #[]⟩
    let a : Ty := .record [("x", .flex 2), ("z", .int)] (.flex 0)
    let b : Ty := .record [("x", .bool), ("y", .int)] .emptyRow
    let left : Ty := .record [("x", .bool), ("z", .int)] (.flex 0)
    let s' := after (unify (.flex 0) (.record [("y", .int)] .emptyRow)) (after (unify a b) s)
    ((unify a b).ends s).1 = .error (.mismatch left b) ∧
      ((unify (.flex 0) (.record [("y", .int)] .emptyRow)).ends (after (unify a b) s)).1 = .ok () ∧
      ∃ e, ((unify left b).ends s').1 = .error e := by
  intro s a b left s'
  let K : Nat → Kind := fun v => if v = 2 then .type else .row
  let φ : Nat → Finset String := fun _ => {"x", "z"}
  have hbase : ∀ (r : Registry) (c : Base), (Ty.base c).HasRole True K φ r .type :=
    fun r c => .con (by simp) (by simp)
  have hr : s.registry.RowCoherent True K φ :=
    ⟨Registry.acyclic_of_scoped fun v t hv => by simp [s] at hv, fun v t hv => by simp [s] at hv⟩
  have ha : a.HasRole True K φ s.registry .type := by
    refine .record (List.pairwise_pair.mpr (by decide +kernel)) (by simp [Role.front]) ?_ ?_
    · simpa using ⟨.free (by decide) (by decide) rfl, hbase _ .int⟩
    · exact .free (by decide) (by decide) (congrArg Role.rest (by decide))
  have hb : b.HasRole True K φ s.registry .type :=
    .record (List.pairwise_pair.mpr (by decide +kernel)) (by simp [Role.front])
      (by simpa using ⟨hbase _ .bool, hbase _ .int⟩) (.emptyRow (.inl rfl))
  have hbindings : ∀ v t, s'.registry.binding? v = some t →
      v = 0 ∧ t = .record [("y", .int)] .emptyRow ∨ v = 2 ∧ t = .bool := by
    have hzero : s'.registry.binding? 0 = some (.record [("y", .int)] .emptyRow) := by
      decide +kernel
    have hone : s'.registry.binding? 1 = none := by decide +kernel
    have htwo : s'.registry.binding? 2 = some .bool := by decide +kernel
    have hcount : s'.registry.varCount = 3 := by decide +kernel
    intro v t hv
    have hlt : v < 3 := hcount ▸ Registry.lt_varCount_of_binding? hv
    obtain rfl | rfl | rfl : v = 0 ∨ v = 1 ∨ v = 2 := by omega
    · exact .inl ⟨rfl, Option.some.inj (hv.symm.trans hzero)⟩
    · cases hone.symm.trans hv
    · exact .inr ⟨rfl, Option.some.inj (hv.symm.trans htwo)⟩
  have hcoherent : s'.registry.RowCoherent True K φ := by
    refine ⟨Registry.acyclic_of_scoped fun v t hv => ?_, fun v t hv => ?_⟩
    · rcases hbindings v t hv with ⟨rfl, rfl⟩ | ⟨rfl, rfl⟩ <;>
        simp [Ty.Scoped, Ty.Mentions, Ty.occurrences]
    · rcases hbindings v t hv with ⟨rfl, rfl⟩ | ⟨rfl, rfl⟩
      · exact ⟨{"x"}, .record (by simp [Table.Sorted]) (by simp [Role.front, Kind.role, K])
          (by simpa using hbase _ .int) (.emptyRow (.inl rfl))⟩
      · exact ⟨∅, hbase _ .bool⟩
  have herror : ((unify a b).ends s).1 = .error (.mismatch left b) := by decide +kernel
  obtain ⟨_, _, hconflict, hagain⟩ := unify_error_lasts hr ha hb herror
    (.call _ _ (.refl _) ⟨K, φ, hcoherent⟩)
  cases hconflict
  exact ⟨herror, by decide +kernel, hagain⟩

end RowTyping
