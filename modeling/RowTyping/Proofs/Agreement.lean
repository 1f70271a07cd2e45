import RowTyping.Proofs.Meeting
import RowTyping.Proofs.Stages
import RowTyping.Typing.Constructor

/-!
# Unification between stages

Unification of two types of one role leads to a later stage at which the types
agree: every assignment that satisfies the registry gives them the same value.
It does so with any fuel and whatever the arguments of synonyms hide. What a
record tail is bound to has the role of that tail, because the labels that one
row lacks are put behind those that it has.
-/

namespace RowTyping

open Registry Row Table Ty Finset List

namespace Ty.Fits

variable {G : Prop} {H V : TyVar → Role → Prop} {k : Role} {t z : Ty} {front : Finset String}
  {mine theirs : Row}

/-- A record or the empty row stands for what comes behind the labels in front
of it. -/
theorem asRest (h : t.Fits G H V k) (hform : t.IsRowForm) : t.Fits G H V (.rest k.front) := by
  rcases hform with hrec | ⟨ts, rfl⟩
  · obtain ⟨fs, tail, rfl⟩ := eq_record_of_isRecord hrec
    exact h.record_congr rfl
  · cases h with
    | con hc => exact absurd rfl hc.1
    | emptyRow front => exact .emptyRow _

/-- The record of the fields that a row lacks, behind the labels that it has. -/
theorem lacking (hb : theirs.toRecord.Fits G H V (.rest front))
    (hz : z.Fits G H V (.rest (allLabels front mine theirs))) :
    (Ty.record (mine.lacking theirs) z).Fits G H V (.rest (front ∪ mine.fields.names)) := by
  cases hb with
  | record hs hfront hfields htail =>
    refine .record (lacking_sorted hs) (fun e he hmem => ?_)
      (fun e he => hfields e (mem_lacking he).1) ?_
    · obtain ⟨he, hnone⟩ := mem_lacking he
      rcases mem_union.mp hmem with hmem | hmem
      · exact hfront e he hmem
      · rw [mem_names_iff_lookup, hnone] at hmem
        cases hmem
    · rwa [Role.behind, Role.front, front_lacking]

end Ty.Fits

namespace Stage

open Check

variable {G : Prop} {S S' : Stage G} {k : Role} {a b t : Ty} {v : Nat} {front : Finset String}
  {mine theirs : Row}

/-- Every assignment that satisfies the stage gives the two types the same
value, as what they are taken for. -/
def Agree (S : Stage G) (k : Kind) (a b : Ty) : Prop :=
  ∀ θ, S.Satisfies θ → k.Same (a.value θ) (b.value θ)

theorem Agree.mono {k : Kind} (h : S.Agree k a b) (hle : S ≤ S') : S'.Agree k a b :=
  fun θ sat => h θ (sat.mono hle)

theorem Agree.symm {k : Kind} (h : S.Agree k a b) : S.Agree k b a :=
  fun θ sat => (h θ sat).symm

theorem Agree.value_eq (h : S.Agree .type a b) {θ : Nat → Ty} (sat : S.Satisfies θ) :
    a.value θ = b.value θ :=
  h θ sat

/-- It is enough that two types agree once they are resolved. -/
theorem Agree.of_resolve (ha : S.Fits k a) (hb : S.Fits k b) (hle : S ≤ S')
    (h : S'.Agree k.kind (S.registry.resolve a) (S.registry.resolve b)) : S'.Agree k.kind a b := by
  intro θ sat
  have hmine := (sat.mono hle).resolve S.role.allows_hasFlex ha
  have htheirs := (sat.mono hle).resolve S.role.allows_hasFlex hb
  exact hmine.symm.trans ((h θ sat).trans htheirs)

/-- Two rows whose shared fields agree do so themselves when both tails come from
one common rest. -/
theorem Agree.rows (ha : S.Fits (.rest front) a) (hb : S.Fits (.rest front) b) (hle : S ≤ S')
    (hshared : ∀ p ∈ (S.registry.row a).shared (S.registry.row b), S'.Agree .type p.1 p.2)
    (hrest : ∀ θ, S'.Satisfies θ → ∃ rest : Row,
      ((S.registry.row a).tail.value θ).asRow = .prepend
        (mapValues (value θ) ((S.registry.row a).lacking (S.registry.row b))) rest ∧
      ((S.registry.row b).tail.value θ).asRow = .prepend
        (mapValues (value θ) ((S.registry.row b).lacking (S.registry.row a))) rest) :
    S'.Agree .row a b := by
  intro θ sat
  obtain ⟨rest, hmine, htheirs⟩ := hrest θ sat
  have hrowa := (sat.mono hle).row S.role.allows_hasFlex ha
  have hrowb := (sat.mono hle).row S.role.allows_hasFlex hb
  rw [hmine] at hrowa
  rw [htheirs] at hrowb
  exact hrowa.trans ((prepend_lacking (fun p hp => hshared p hp θ sat) rest).trans hrowb.symm)

theorem leads_mismatch {α : Type} {Q : Stage G → α → Prop} :
    Leads At S (mismatch a b : Check TypeError α) Q :=
  leads_registry_bind (leads_throw _)

theorem leads_solve (hv : S.role.Has (.flex v) k) (ht : S.Fits k t) :
    Leads At S (solve v t) fun S' _ => S'.Agree k.kind (.flex v) t := by
  intro s hs
  have hreg : s.registry = S.registry := hs
  cases hopen : S.registry.binding? v with
  | some u =>
    have hrun : (solve v t).run s = .error (.cyclic v (s.registry.resolveDeep t)) s := by
      simp [solve, hreg, hopen]
    refine ⟨S, le_rfl, ?_, fun _ _ h => by rw [hrun] at h; cases h⟩
    rwa [after_error hrun]
  | none =>
    have hsolved := solve_solved (hreg ▸ hopen) t
    cases hrun : (solve v t).run s with
    | ok u s' =>
      rw [ends, hrun, hreg] at hsolved
      rw [after_ok hrun]
      dsimp only at hsolved
      generalize hreg' : s'.registry = r' at hsolved
      cases hsolved with
      | bind hocc hlt =>
        refine ⟨S.setBinding hv ht hopen hocc, S.le_setBinding hv ht hopen hocc, hreg', ?_⟩
        intro _ _ _ θ sat
        have hbound := sat v t (by
          show (S.registry.setBinding v t).binding? v = some t
          rw [binding?_setBinding, if_pos ⟨rfl, hlt⟩])
        rwa [show (S.setBinding hv ht hopen hocc).kinds v = k.kind from kinds_eq hv] at hbound
    | error e s' =>
      rw [ends, hrun, hreg] at hsolved
      rw [after_error hrun]
      refine ⟨S, le_rfl, ?_, fun _ _ h => by cases h⟩
      dsimp only at hsolved
      generalize hreg' : s'.registry = r' at hsolved
      cases hsolved with
      | unknown | cyclic => exact hreg'

/-- What one unit of fuel less is known to do. -/
def Unites (G : Prop) (n : Nat) : Prop :=
  ∀ (S : Stage G) (k : Role) (a b : Ty), S.Fits k a → S.Fits k b →
    Leads At S (unifyN n a b) fun S' _ => S'.Agree k.kind a b

def UnitesRows (G : Prop) (n : Nat) : Prop :=
  ∀ (S : Stage G) (front : Finset String) (a b : Ty), S.Fits (.rest front) a →
    S.Fits (.rest front) b → Leads At S (unifyRowsN n a b) fun S' _ => S'.Agree .row a b

section

variable {n : Nat}

theorem leads_all (ih : Unites G n) {pairs : List (Ty × Ty)}
    (h : ∀ p ∈ pairs, S.Fits .type p.1 ∧ S.Fits .type p.2) :
    Leads At S (forM pairs fun p => unifyN n p.1 p.2 : Check TypeError Unit)
      fun S' _ => ∀ p ∈ pairs, S'.Agree .type p.1 p.2 := by
  induction pairs generalizing S with
  | nil => exact leads_pure (by simp)
  | cons p pairs hpairs =>
    rw [List.forall_mem_cons] at h
    refine (ih S .type p.1 p.2 h.1.1 h.1.2).bind fun S₁ _ hle hp => ?_
    refine (hpairs fun q hq => ⟨(h.2 q hq).1.mono hle, (h.2 q hq).2.mono hle⟩).imp ?_
    intro S₂ _ hle' hrest
    exact forall_mem_cons.mpr ⟨hp.mono hle', hrest⟩

theorem leads_types (ih : Unites G n) (ihr : UnitesRows G n) : Unites G (n + 1) := by
  intro S k a b ha hb
  have hresa := S.obeys.resolve ha
  have hresb := S.obeys.resolve hb
  -- the types agree as soon as what they are resolved to does
  suffices h : Leads At S (unifyN (n + 1) a b)
      fun S' _ => S'.Agree k.kind (S.registry.resolve a) (S.registry.resolve b) from
    h.imp fun S' _ hle hagree => hagree.of_resolve ha hb hle
  refine leads_registry_bind (leads_emit_bind ?_)
  split
  · next meet =>
    refine leads_pure fun θ _ => ?_
    rcases (Meets.of_meet meet).same_inv with ⟨x, ha', hb'⟩ | ⟨name, e, f, ha', hb'⟩
    · rw [ha', hb']
      exact .refl _ _
    · rw [ha', hb']
      exact .refl _ _
  · next v t meet =>
    rcases (Meets.of_meet meet).solve_inv.1 with ⟨ha', hb'⟩ | ⟨hb', ha'⟩
    · rw [ha'] at hresa
      rw [hb'] at hresb
      rw [ha', hb']
      exact leads_solve (fits_flex.mp hresa) hresb
    · rw [ha'] at hresa
      rw [hb'] at hresb
      rw [ha', hb']
      exact (leads_solve (fits_flex.mp hresb) hresa).imp fun _ _ _ h => h.symm
  · next t u meet =>
    obtain ⟨i, ls, ps, ⟨ha', hb'⟩ | ⟨hb', ha'⟩⟩ := (Meets.of_meet meet).expand_inv
    · rw [ha'] at hresa ⊢
      rw [hb'] at hresb ⊢
      cases hresa with
      | synonym _ htarget _ =>
        refine (ih S .type t u htarget hresb).imp fun _ _ _ h θ sat => ?_
        exact h θ sat
    · rw [ha'] at hresa ⊢
      rw [hb'] at hresb ⊢
      cases hresb with
      | synonym _ htarget _ =>
        refine (ih S .type t u htarget hresa).imp fun _ _ _ h θ sat => ?_
        exact (h θ sat).symm
  · next pairs ragged meet =>
    obtain ⟨c, d, ts, us, ha', hb', rfl, hcd, heven⟩ := (Meets.of_meet meet).children_inv
    rw [ha'] at hresa ⊢
    rw [hb'] at hresb ⊢
    have hargs : ∀ p ∈ ts.zip us, S.Fits .type p.1 ∧ S.Fits .type p.2 := by
      intro p hp
      obtain ⟨hp₁, hp₂⟩ := of_mem_zip hp
      constructor
      · cases hresa with
        | con _ _ hargs => exact hargs _ hp₁
        | emptyRow => simp at hp₁
      · cases hresb with
        | con _ _ hargs => exact hargs _ hp₂
        | emptyRow => simp at hp₂
    refine (leads_all ih hargs).bind fun S₁ _ hle hagree => ?_
    split
    · exact leads_mismatch
    · next hragged =>
      refine leads_pure fun θ sat => ?_
      have hlen := heven.mp (Bool.eq_false_iff.mpr hragged)
      rw [value_con_congr hcd (map_value_eq hlen fun p hp => hagree p hp θ sat)]
      exact .refl _ _
  · next meet =>
    obtain ⟨ha', hb', -⟩ := (Meets.of_meet meet).rows_inv
    refine (ihr S k.front _ _ (Fits.asRest hresa ha') (Fits.asRest hresb hb')).imp ?_
    intro S' _ _ hagree θ sat
    rw [value_of_isRowForm ha', hagree θ sat, ← value_of_isRowForm hb']
    exact .refl _ _
  · exact leads_mismatch

/-- The tails of two rows are resolved at a later stage, with the fields that
their row lacks. -/
theorem tail_full {front : Finset String} (hrow : S.Fits (.rest front) mine.toRecord)
    (hle : S ≤ S') (hfull : mine.lacking theirs = []) :
    S'.Fits (.rest (allLabels front mine theirs)) (S'.registry.resolve mine.tail) := by
  cases hrow with
  | record _ _ _ htail =>
    rw [← front_full hfull]
    exact S'.obeys.resolve (Fits.mono htail hle)

/-- A tail that lacks no fields is its own rest. -/
theorem Satisfies.tail_full {θ : Nat → Ty} (sat : S.Satisfies θ) (h : S.Fits k t) {fs : Table Ty}
    (hfs : fs = []) : (t.value θ).asRow =
      .prepend (mapValues (value θ) fs) ((S.registry.resolve t).value θ).asRow := by
  subst hfs
  rw [(sat.resolve S.role.allows_hasFlex h).asRow]
  exact (prepend_nil (asRow_value_sorted θ _)).symm

/-- A tail that agrees with a record goes on as that record does. -/
theorem Satisfies.tail_record {θ : Nat → Ty} (sat : S.Satisfies θ) (h : S.Fits k t)
    (hv : S.registry.resolve t = .flex v) {fs : Table Ty} {z : Ty}
    (hagree : Kind.row.Same ((flex v).value θ) ((record fs z).value θ)) :
    (t.value θ).asRow = .prepend (mapValues (value θ) fs) (z.value θ).asRow := by
  rw [← (sat.resolve S.role.allows_hasFlex h).asRow, hv, hagree.asRow, value_record, asRow_toRecord]

theorem leads_rows (ih : Unites G n) (ihr : UnitesRows G n) : UnitesRows G (n + 1) := by
  intro S front a b ha hb
  have hrowa := S.obeys.row ha
  have hrowb := S.obeys.row hb
  refine leads_registry_bind ?_
  have hshared : ∀ p ∈ (S.registry.row a).shared (S.registry.row b),
      S.Fits .type p.1 ∧ S.Fits .type p.2 := by
    intro p hp
    obtain ⟨l, hmine, htheirs⟩ := mem_shared hp
    cases hrowa with
    | record _ _ hfields _ =>
      cases hrowb with
      | record _ _ hfields' _ => exact ⟨hfields _ hmine, hfields' _ (mem_of_lookup htheirs)⟩
  refine (leads_all ih hshared).bind fun S₁ _ hle hagree => leads_registry_bind ?_
  have hrows : ∀ {S' : Stage G}, S₁ ≤ S' → _ → S'.Agree .row a b := fun hle' hrest =>
    Agree.rows ha hb (hle.trans hle') (fun p hp => (hagree p hp).mono hle') hrest
  have htaila :
      S₁.Fits (.rest (front ∪ (S.registry.row a).fields.names)) (S.registry.row a).tail := by
    cases hrowa with
    | record _ _ _ htail => exact Fits.mono htail hle
  have htailb :
      S₁.Fits (.rest (front ∪ (S.registry.row b).fields.names)) (S.registry.row b).tail := by
    cases hrowb with
    | record _ _ _ htail => exact Fits.mono htail hle
  have hremains := remains (S.registry.row a) (S.registry.row b)
    (S₁.registry.resolve (S.registry.row a).tail) (S₁.registry.resolve (S.registry.row b).tail)
  generalize hm : (S.registry.row a).remainder (S.registry.row b)
    (S₁.registry.resolve (S.registry.row a).tail)
    (S₁.registry.resolve (S.registry.row b).tail) = m at hremains ⊢
  generalize hta : S₁.registry.resolve (S.registry.row a).tail = ta at hremains
  generalize htb : S₁.registry.resolve (S.registry.row b).tail = tb at hremains
  cases hremains with
  | again => exact ihr S₁ front a b (ha.mono hle) (hb.mono hle)
  | tails _ _ toMine toTheirs =>
    have hmine := tail_full hrowa hle toMine
    have htheirs := tail_full hrowb hle toTheirs
    rw [allLabels_comm] at htheirs
    rw [hta] at hmine
    rw [htb] at htheirs
    refine (ih S₁ _ ta tb hmine htheirs).imp fun S₂ _ hle' hsame => hrows hle' fun θ sat => ?_
    refine ⟨(ta.value θ).asRow, ?_, ?_⟩
    · rw [← hta]
      exact (sat.mono hle').tail_full htaila toMine
    · rw [(hsame θ sat).asRow, ← htb]
      exact (sat.mono hle').tail_full htailb toTheirs
  | @extendMine v _ _ _ toTheirs =>
    have hv := S₁.obeys.resolve htaila
    have hz := tail_full hrowb hle toTheirs
    rw [allLabels_comm, htb] at hz
    rw [hta] at hv
    refine (ih S₁ _ _ _ hv (Fits.lacking (Fits.mono hrowb hle) hz)).imp ?_
    intro S₂ _ hle' hsame
    refine hrows hle' fun θ sat => ⟨(tb.value θ).asRow, ?_, ?_⟩
    · exact (sat.mono hle').tail_record htaila hta (hsame θ sat)
    · rw [← htb]
      exact (sat.mono hle').tail_full htailb toTheirs
  | @extendTheirs w _ _ toMine _ =>
    have hw := S₁.obeys.resolve htailb
    have hz := tail_full hrowa hle toMine
    rw [allLabels_comm, hta] at hz
    rw [htb] at hw
    refine (ih S₁ _ _ _ hw (Fits.lacking (Fits.mono hrowa hle) hz)).imp ?_
    intro S₂ _ hle' hsame
    refine hrows hle' fun θ sat => ⟨(ta.value θ).asRow, ?_, ?_⟩
    · rw [← hta]
      exact (sat.mono hle').tail_full htaila toMine
    · exact (sat.mono hle').tail_record htailb htb (hsame θ sat)
  | @split v w _ _ _ =>
    have hv := S₁.obeys.resolve htaila
    have hw := S₁.obeys.resolve htailb
    rw [hta] at hv
    rw [htb] at hw
    -- the new tail comes behind the labels of both rows
    refine (leads_freshVar (.rest (allLabels front (S.registry.row a)
      (S.registry.row b)))).bind fun S₂ rest hle₂ hrest => ?_
    obtain ⟨z, rfl, hz, -⟩ := hrest
    have hfits : S₂.Fits _ (.flex z) := fits_flex.mpr hz
    refine (ih S₂ _ _ _ (Fits.mono hv hle₂)
      (Fits.lacking (Fits.mono hrowb (hle.trans hle₂)) hfits)).bind fun S₃ _ hle₃ hmine => ?_
    rw [allLabels_comm] at hfits
    refine (ih S₃ _ _ _ (Fits.mono hw (hle₂.trans hle₃)) (Fits.mono (Fits.lacking
      (Fits.mono hrowa (hle.trans hle₂)) hfits) hle₃)).imp fun S₄ _ hle₄ htheirs => ?_
    have hle' := hle₂.trans (hle₃.trans hle₄)
    refine hrows hle' fun θ sat => ⟨((flex z).value θ).asRow, ?_, ?_⟩
    · exact (sat.mono hle').tail_record htaila hta (hmine θ (sat.mono hle₄))
    · exact (sat.mono hle').tail_record htailb htb (htheirs θ sat)
  | clash => exact leads_mismatch

theorem unites (G : Prop) (n : Nat) : Unites G n ∧ UnitesRows G n := by
  induction n with
  | zero => exact ⟨fun _ _ _ _ _ _ => leads_mismatch, fun _ _ _ _ _ _ => leads_mismatch⟩
  | succ n ih => exact ⟨leads_types ih.1 ih.2, leads_rows ih.1 ih.2⟩

end

/-- Unification of types of one role leads to a stage at which they agree. -/
theorem leads_unify (ha : S.Fits .type a) (hb : S.Fits .type b) :
    Leads At S (unify a b) fun S' _ => S'.Agree .type a b :=
  leads_registry_bind ((unites G _).1 S .type a b ha hb)

theorem leads_unifyAt (span : Span) (ha : S.Fits .type a) (hb : S.Fits .type b) :
    Leads At S (unifyAt span a b) fun S' _ => S'.Agree .type a b :=
  leads_located (leads_unify ha hb) span

end Stage

end RowTyping
