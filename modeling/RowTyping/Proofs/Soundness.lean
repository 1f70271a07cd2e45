import RowTyping.Proofs.Kinds
import RowTyping.Proofs.Termination

/-!
# Unification makes types equal

After a run that succeeds, every assignment that satisfies the registry gives
the two types the same value. One such assignment sends each variable to what
deep resolution makes of it, so the two types are resolved to the same thing
and have the same shape.
-/

namespace RowTyping

open Registry Row Table Ty List

namespace Row

theorem lookup_lacking (mine theirs : Row) (l : String) :
    (mine.lacking theirs).lookup l =
      if (mine.fields.lookup l).isNone then theirs.fields.lookup l else none :=
  lookup_restrict (fun l => (mine.fields.lookup l).isNone) theirs.fields l

theorem mem_shared_of_lookup {mine theirs : Row} {l : String} {t u : Ty}
    (ht : mine.fields.lookup l = some t) (hu : theirs.fields.lookup l = some u) :
    (t, u) ∈ mine.shared theirs :=
  mem_filterMap.mpr ⟨(l, t), mem_of_lookup ht, by simp [hu]⟩

/-- Two rows whose shared fields agree become one when each gets the fields it
lacks in front of a common rest. -/
theorem prepend_lacking {mine theirs : Row} {f : Ty → Ty}
    (agree : ∀ p ∈ mine.shared theirs, f p.1 = f p.2) (rest : Row) :
    prepend (mapValues f mine.fields) (prepend (mapValues f (mine.lacking theirs)) rest) =
      prepend (mapValues f theirs.fields) (prepend (mapValues f (theirs.lacking mine)) rest) := by
  refine prepend_congr (fun l => ?_) rfl
  simp only [lookup_prepend, lookup_mapValues, lookup_lacking]
  cases ht : mine.fields.lookup l with
  | none => cases hu : theirs.fields.lookup l <;> simp
  | some t =>
    cases hu : theirs.fields.lookup l with
    | none => simp
    | some u => simp [agree (t, u) (mem_shared_of_lookup ht hu)]

end Row

namespace Ty

variable {θ : Nat → Ty}

/-- The value of a record or of the empty row is a record. -/
theorem value_of_isRowForm {t : Ty} (h : t.IsRowForm) : t.value θ = (t.value θ).asRow.toRecord := by
  rcases h with hrec | ⟨ts, rfl⟩
  · obtain ⟨fs, tail, rfl⟩ := eq_record_of_isRecord hrec
    simp
  · simp [asRow, toRecord]

theorem map_value_eq {ts us : List Ty} (hlen : ts.length = us.length)
    (h : ∀ p ∈ ts.zip us, p.1.value θ = p.2.value θ) : ts.map (value θ) = us.map (value θ) := by
  induction ts generalizing us with
  | nil => simp [length_eq_zero_iff.mp hlen.symm]
  | cons t ts ih =>
    cases us with
    | nil => simp at hlen
    | cons u us =>
      rw [zip_cons_cons, forall_mem_cons] at h
      rw [map_cons, map_cons, h.1, ih (by simpa using hlen) h.2]

theorem value_eq_of_mem_zip {ts us : List Ty} (h : ts.map (value θ) = us.map (value θ))
    {p : Ty × Ty} (hp : p ∈ ts.zip us) : p.1.value θ = p.2.value θ := by
  induction ts generalizing us with
  | nil => simp at hp
  | cons t ts ih =>
    cases us with
    | nil => simp at hp
    | cons u us =>
      obtain ⟨hhead, hrest⟩ := cons.inj h
      rcases mem_cons.mp hp with rfl | hp
      · exact hhead
      · exact ih hrest hp

/-- Type formers that agree make equal values of equal values. -/
theorem value_con_congr {c d : Con} {ts us : List Ty} (hcd : c.agrees d = true)
    (h : ts.map (value θ) = us.map (value θ)) : (con c ts).value θ = (con d us).value θ := by
  have hplain := Con.agrees_iff.mp hcd
  by_cases hc : c = .emptyRow
  · subst hc
    have hd : d = .emptyRow := by cases d <;> simp_all [Con.plain]
    simp [hd]
  · have hd : d ≠ .emptyRow := by
      rintro rfl
      cases c <;> simp_all [Con.plain]
    rw [value_con hc, value_con hd, hplain, h]

end Ty

/-- What a run is to achieve, under an assignment. -/
def Task.Holds (P : Kind → Ty → Prop) (θ : Nat → Ty) : Task → Prop
  | .types a b => ∀ k, P k a → P k b → k.Same (a.value θ) (b.value θ)
  | .rows a b => (a.value θ).asRow = (b.value θ).asRow
  | .all pairs => ∀ p ∈ pairs, p.1.value θ = p.2.value θ

section

variable {E : Prop} {K : Nat → Kind} {P : Kind → Ty → Prop} {θ : Nat → Ty}
  {r r₁ r' : Registry} {a b : Ty}

/-- It is enough that two types agree once they are resolved. -/
theorem types_hold (hPK : ∀ {k t}, P k t → t.HasKind E K k) (sat : r.Satisfies K θ)
    (hr : r.WellFormed P) (hsame : ∀ k, P k (r.resolve a) → P k (r.resolve b) →
      k.Same ((r.resolve a).value θ) ((r.resolve b).value θ)) : (Task.types a b).Holds P θ := by
  intro k ha hb
  have hmine := (sat.resolve hr hPK ha).symm
  exact hmine.trans ((hsame k (hr.resolve ha) (hr.resolve hb)).trans (sat.resolve hr hPK hb))

/-- Types that meet at once are equal. -/
theorem same_holds (hPK : ∀ {k t}, P k t → t.HasKind E K k) (sat : r.Satisfies K θ)
    (hr : r.WellFormed P) (meet : (r.resolve a).meet (r.resolve b) = .same) :
    (Task.types a b).Holds P θ := by
  refine types_hold hPK sat hr fun k _ _ => ?_
  rcases (Meets.of_meet meet).same_inv with ⟨x, ha, hb⟩ | ⟨name, e, f, ha, hb⟩
  · rw [ha, hb]
    exact .refl k _
  · rw [ha, hb]
    exact .refl k _

/-- A variable and its solution, whichever side the variable is on. -/
theorem solve_holds (hPK : ∀ {k t}, P k t → t.HasKind E K k) (sat : r.Satisfies K θ)
    (hr : r.WellFormed P) {v : Nat} {t : Ty}
    (meet : (r.resolve a).meet (r.resolve b) = .solve v t)
    (hsolved : (K v).Same ((flex v).value θ) (t.value θ)) : (Task.types a b).Holds P θ := by
  refine types_hold hPK sat hr fun k ha hb => ?_
  rcases (Meets.of_meet meet).solve_inv.1 with ⟨ha', hb'⟩ | ⟨hb', ha'⟩
  · rw [ha'] at ha
    rw [hasKind_flex.mp (hPK ha)] at hsolved
    rw [ha', hb']
    exact hsolved
  · rw [hb'] at hb
    rw [hasKind_flex.mp (hPK hb)] at hsolved
    rw [ha', hb']
    exact hsolved.symm

/-- A synonym and its target have the same value. -/
theorem expand_holds (hP : Kinding P) (hPK : ∀ {k t}, P k t → t.HasKind E K k)
    (sat : r.Satisfies K θ) (hr : r.WellFormed P) {t u : Ty}
    (meet : (r.resolve a).meet (r.resolve b) = .expand t u)
    (hinner : (Task.types t u).Holds P θ) : (Task.types a b).Holds P θ := by
  refine types_hold hPK sat hr fun k ha hb => ?_
  obtain ⟨id, ls, ps, ⟨ha', rfl⟩ | ⟨hb', rfl⟩⟩ := (Meets.of_meet meet).expand_inv
  · rw [ha'] at ha ⊢
    exact hinner k (hP.target ha) hb
  · rw [hb'] at hb ⊢
    exact (hinner k (hP.target hb) ha).symm

theorem children_hold (hPK : ∀ {k t}, P k t → t.HasKind E K k) (sat : r.Satisfies K θ)
    (hr : r.WellFormed P) {pairs : List (Ty × Ty)}
    (meet : (r.resolve a).meet (r.resolve b) = .children pairs false)
    (hinner : (Task.all pairs).Holds P θ) : (Task.types a b).Holds P θ := by
  obtain ⟨c, d, ts, us, ha, hb, rfl, hcd, hragged⟩ := (Meets.of_meet meet).children_inv
  refine types_hold hPK sat hr fun k _ _ => ?_
  rw [ha, hb, value_con_congr hcd (map_value_eq (hragged.mp rfl) hinner)]
  exact .refl k _

/-- Rows whose shared fields have met are equal as soon as both tails come from
one common rest. -/
theorem rows_hold (hP : Kinding P) (hPK : ∀ {k t}, P k t → t.HasKind E K k)
    (sat : r.Satisfies K θ) (hr : r.WellFormed P) (hab : (Task.rows a b).Kinded P)
    (shared : (Task.all ((r.row a).shared (r.row b))).Holds P θ) (rest : Row)
    (hmine : ((r.row a).tail.value θ).asRow =
      .prepend (mapValues (value θ) ((r.row a).lacking (r.row b))) rest)
    (htheirs : ((r.row b).tail.value θ).asRow =
      .prepend (mapValues (value θ) ((r.row b).lacking (r.row a))) rest) :
    (Task.rows a b).Holds P θ := by
  have ha := sat.row hP hr hPK hab.1
  have hb := sat.row hP hr hPK hab.2
  rw [hmine] at ha
  rw [htheirs] at hb
  exact ha.trans ((prepend_lacking shared rest).trans hb.symm)

/-- A solved variable has the value of its solution. -/
theorem Solved.sound {v : Nat} {t : Ty} (h : Solved r v t (.ok ()) r') (sat : r'.Satisfies K θ) :
    (K v).Same ((flex v).value θ) (t.value θ) := by
  cases h with
  | bind hocc hv =>
    refine sat v t ?_
    rw [binding?_setBinding, if_pos ⟨rfl, hv⟩]

/-- A tail that was solved by a record is the row of that record. -/
theorem Solved.tail_sound (hPK : ∀ {k t}, P k t → t.HasKind E K k) {v : Nat} {fs : Table Ty}
    {rest tail : Ty} (h : Solved r v (.record fs rest) (.ok ()) r')
    (sat : r'.Satisfies K θ) (hr₁ : r₁.WellFormed P) (sat₁ : r₁.Satisfies K θ)
    (htail : P .row tail) (heq : r₁.resolve tail = .flex v) :
    (tail.value θ).asRow = .prepend (mapValues (value θ) fs) (rest.value θ).asRow := by
  have hres := (sat₁.resolve hr₁ hPK htail).asRow
  have hsolved := h.sound sat
  rw [← hres, heq, hsolved.asRow, value_record, asRow_toRecord]

/-- A tail that lacks no fields is its own rest. -/
theorem tail_rest (hPK : ∀ {k t}, P k t → t.HasKind E K k) {tail : Ty} (hr₁ : r₁.WellFormed P)
    (sat₁ : r₁.Satisfies K θ) (htail : P .row tail) {fs : Table Ty} (hfs : fs = []) :
    (tail.value θ).asRow = .prepend (mapValues (value θ) fs) ((r₁.resolve tail).value θ).asRow := by
  subst hfs
  rw [← (sat₁.resolve hr₁ hPK htail).asRow]
  exact (prepend_nil (asRow_value_sorted θ _)).symm

/-- A run that succeeds achieves what it was to achieve, under every assignment
that satisfies the registry it leaves. -/
theorem Unifies.sound (hP : Kinding P) (hPK : ∀ {k t}, P k t → t.HasKind E K k) {task : Task}
    {out : Except TypeError Unit} (h : Unifies r task out r') (hout : out = .ok ())
    (hk : KindedRun P r task r') (sat : r'.Satisfies K θ) : task.Holds P θ := by
  -- bindings are never taken back, so the assignment satisfies every registry on the way
  induction h with
  | same meet => exact same_holds hPK sat hk.wellFormed meet
  | solve meet solved =>
    subst hout
    obtain ⟨k', hv, ht⟩ := hk.solve meet
    have hex := (solved.keeps hP hk.wellFormed (hk.acyclic.solve_open meet) hv ht).2
    exact solve_holds hPK (sat.of_extends hex) hk.wellFormed meet (solved.sound sat)
  | expand meet inner ih =>
    have hk' := hk.expand hP meet
    exact expand_holds hP hPK (sat.of_extends (inner.keeps hP hk').2) hk.wellFormed meet
      (ih hout hk' sat)
  | @children _ _ _ _ ragged _ _ meet inner even ih =>
    cases ragged with
    | true => exact absurd hout (even rfl)
    | false =>
      have hk' := hk.children hP meet
      exact children_hold hPK (sat.of_extends (inner.keeps hP hk').2) hk.wellFormed meet
        (ih hout hk' sat)
  | rows meet inner ih =>
    have hk' := hk.rows hP meet
    have hinner := ih hout hk' sat
    obtain ⟨ha, hb, -⟩ := (Meets.of_meet meet).rows_inv
    refine types_hold hPK (sat.of_extends (inner.keeps hP hk').2) hk.wellFormed fun k _ _ => ?_
    rw [value_of_isRowForm ha, hinner, ← value_of_isRowForm hb]
    exact .refl k _
  | ragged | clash | stop | fields | splitStop | lacking => cases hout
  | nil => simp [Task.Holds]
  | cons head rest ih₁ ih₂ =>
    have hk₁ := hk.head rest.varCount_le
    have hk₂ := hk.rest (head.keeps hP hk₁).1 head.varCount_le
    obtain ⟨ha, hb⟩ := (forall_mem_cons.mp hk.kinded).1
    refine forall_mem_cons.mpr ⟨?_, ih₂ hout hk₂ sat⟩
    exact ih₁ rfl hk₁ (sat.of_extends (rest.keeps hP hk₂).2) .type ha hb
  | again shared left rest ih₁ ih₂ =>
    have hr₁ := (shared.keeps hP (hk.shared hP rest.varCount_le)).1
    exact ih₂ hout (hk.again hr₁ shared.varCount_le) sat
  | tails shared left rest ih₁ ih₂ =>
    have hk₁ := hk.shared hP rest.varCount_le
    obtain ⟨hr₁, hex₁⟩ := shared.keeps hP hk₁
    have hk₂ := hk.tails hP hr₁ shared.varCount_le left
    have sat₁ := sat.of_extends (rest.keeps hP hk₂).2
    obtain ⟨rfl, rfl, hmine, htheirs⟩ := (remains left).tails_inv
    obtain ⟨-, ha⟩ := hk.wellFormed.row hP hk.kinded.1
    obtain ⟨-, hb⟩ := hk.wellFormed.row hP hk.kinded.2
    have heq := ih₂ hout hk₂ sat .row (hr₁.resolve ha) (hr₁.resolve hb)
    refine rows_hold hP hPK (sat₁.of_extends hex₁) hk.wellFormed hk.kinded (ih₁ rfl hk₁ sat₁) _
      (tail_rest hPK hr₁ sat₁ ha hmine) ?_
    rw [heq.asRow]
    exact tail_rest hPK hr₁ sat₁ hb htheirs
  | extend shared left solved ih =>
    subst hout
    have hk₁ := hk.shared hP solved.varCount.ge
    obtain ⟨hr₁, hex₁⟩ := shared.keeps hP hk₁
    obtain ⟨hv, ht⟩ := hk.extend hP hr₁ left
    have sat₁ := sat.of_extends (solved.keeps hP hr₁ (hr₁.acyclic.extend_open left) hv ht).2
    obtain ⟨-, ha⟩ := hk.wellFormed.row hP hk.kinded.1
    obtain ⟨-, hb⟩ := hk.wellFormed.row hP hk.kinded.2
    have hrows := rows_hold hP hPK (sat₁.of_extends hex₁) hk.wellFormed hk.kinded (ih rfl hk₁ sat₁)
    rcases (remains left).extend_inv with ⟨hv', rfl, rfl, hfull⟩ | ⟨hv', rfl, rfl, hfull⟩
    · exact hrows _ (solved.tail_sound hPK sat hr₁ sat₁ ha hv') (tail_rest hPK hr₁ sat₁ hb hfull)
    · exact hrows _ (tail_rest hPK hr₁ sat₁ ha hfull) (solved.tail_sound hPK sat hr₁ sat₁ hb hv')
  | @split r a b r₁ v w fs gs r₂ out r₃ shared left mine theirs ih =>
    subst hout
    have hlt : r₁.varCount < r₃.varCount := mine.lt_varCount.trans_eq theirs.varCount.symm
    have hk₁ := hk.shared hP hlt.le
    obtain ⟨hr₁, hex₁⟩ := shared.keeps hP hk₁
    obtain ⟨⟨hv, hmine⟩, hw, htheirs⟩ := hk.split hP hr₁ shared.varCount_le hlt left
    obtain ⟨hvo, hwo, hne⟩ := hr₁.acyclic.split_open left
    obtain ⟨hr₂, hex₂⟩ := mine.keeps hP hr₁.addVar (by simpa using hvo) hv hmine
    have hex₃ := (theirs.keeps hP hr₂ (mine.open_of_ne (by simpa using hwo) hne) hw htheirs).2
    have sat₂ := sat.of_extends hex₃
    have sat₁ := sat₂.of_extends ((Extends.addVar r₁).trans hex₂)
    obtain ⟨-, ha⟩ := hk.wellFormed.row hP hk.kinded.1
    obtain ⟨-, hb⟩ := hk.wellFormed.row hP hk.kinded.2
    obtain ⟨hv', hw', -, ⟨rfl, -⟩, rfl, -⟩ := (remains left).split_inv
    exact rows_hold hP hPK (sat₁.of_extends hex₁) hk.wellFormed hk.kinded (ih rfl hk₁ sat₁) _
      (mine.tail_sound hPK sat₂ hr₁ sat₁ ha hv')
      (theirs.tail_sound hPK sat hr₁ sat₁ hb hw')

end

end RowTyping
