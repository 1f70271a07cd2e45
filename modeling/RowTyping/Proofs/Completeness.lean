import RowTyping.Proofs.Meeting

/-!
# Unification finds every solution

If a solution of the registry makes two plain types equal, then unification of
the two succeeds, and the solution extends to one of the registry that it
leaves.
-/

namespace RowTyping

open Ty Function Table

/-! ## Types that fit an assignment -/

section

variable {K : Nat → Kind} {θ θ' : Nat → Ty} {n m : Nat} {k : Kind} {r r' : Registry} {t : Ty}
  {fs : Table Ty} {tail : Ty}

theorem Ty.ground_record : (record fs tail).Ground ↔ (∀ e ∈ fs, e.2.Ground) ∧ tail.Ground := by
  constructor
  · intro h
    exact ⟨fun e he v hv => h v (hv.of_child (mem_children_record.mpr (.inl ⟨e, he, rfl⟩))),
      fun v hv => h v (hv.of_child (mem_children_record.mpr (.inr rfl)))⟩
  · rintro ⟨hfs, htail⟩ v hv
    rcases mem_occurrences.mp hv with hvar | ⟨u, hu, hvu⟩
    · cases hvar
    · rcases mem_children_record.mp hu with ⟨e, he, rfl⟩ | rfl
      · exact hfs e he v hvu
      · exact htail v hvu

/-- A finite row without some of its labels is again one. -/
theorem Ty.IsRow.restrict (h : t.IsRow) (hg : t.Ground) (p : String → Bool) :
    ∃ u : Ty, u.IsRow ∧ u.Ground ∧
      u.norm.asRow = ⟨t.norm.asRow.fields.restrict p, t.norm.asRow.tail⟩ := by
  induction h with
  | gen g => exact ⟨.gen g, .gen g, hg, rfl⟩
  | emptyRow => exact ⟨.emptyRow, .emptyRow, hg, rfl⟩
  | @record fs tail _ ih =>
    obtain ⟨hfs, htail⟩ := ground_record.mp hg
    obtain ⟨u, hu, hug, heq⟩ := ih htail
    refine ⟨.record (Table.restrict p fs) u, .record hu, ground_record.mpr ⟨?_, hug⟩, ?_⟩
    · exact fun e he => hfs e (List.mem_filter.mp he).1
    · rw [norm_record, norm_record, asRow_toRecord, heq]
      refine Row.eq_of_lookup (Row.prepend_sorted _ _) ((Row.prepend_sorted _ _).restrict p)
        (fun l => ?_) rfl
      simp only [Row.lookup_prepend, Table.lookup_mapValues, Table.lookup_restrict]
      split <;> simp

theorem Ty.Plain.value_eq (h : t.Plain n) (hθ : ∀ v, v < n → θ' v = θ v) : t.value θ' = t.value θ :=
  value_congr fun v hv => hθ v (h.scoped v hv)

theorem Ty.Apart.congr (h : t.Apart θ) (ht : t.Plain n) (hθ : ∀ v, v < n → θ' v = θ v) :
    t.Apart θ' := by
  induction h with
  | intro t here _ ih =>
    refine .intro t ?_ fun u hu => ih u hu (ht.child hu)
    cases t with
    | record fs tail =>
      intro l hl
      rw [Plain.value_eq (ht.child (by simp [children])) hθ]
      exact here l hl
    | _ => trivial

/-- A plain type of its kind along whose records no label repeats. -/
def Proper (K : Nat → Kind) (θ : Nat → Ty) (n : Nat) (k : Kind) (t : Ty) : Prop :=
  PlainKind K n k t ∧ t.Apart θ

theorem Proper.mono (h : Proper K θ n k t) (hnm : n ≤ m) (hθ : ∀ v, v < n → θ' v = θ v) :
    Proper K θ' m k t :=
  ⟨⟨h.1.1, h.1.2.mono hnm⟩, h.2.congr h.1.2 hθ⟩

theorem Proper.value_eq (h : Proper K θ n k t) (hθ : ∀ v, v < n → θ' v = θ v) :
    t.value θ' = t.value θ :=
  h.1.2.value_eq hθ

theorem Proper.record (hs : Sorted fs) (hfields : ∀ e ∈ fs, Proper K θ n .type e.2)
    (htail : Proper K θ n .row tail) (hapart : (record fs tail).ApartAt θ) :
    Proper K θ n .row (.record fs tail) := by
  refine ⟨(kinding_plain K n).record hs (fun e he => (hfields e he).1) htail.1, ?_⟩
  exact (all_record _ _).mpr ⟨hapart, fun e he => (hfields e he).2, htail.2⟩

/-- The parts of a record. -/
theorem Proper.of_record (h : Proper K θ n k (.record fs tail)) : Sorted fs ∧
      (∀ e ∈ fs, Proper K θ n .type e.2) ∧ Proper K θ n .row tail ∧
      (Ty.record fs tail).ApartAt θ := by
  have hP := kinding_plain K n
  obtain ⟨hapart, hfields, htail⟩ := (all_record _ _).mp h.2
  exact ⟨h.1.2.here, fun e he => ⟨hP.fields h.1 e he, hfields e he⟩, ⟨hP.tail h.1, htail⟩, hapart⟩

/-- A well-formed registry with a solution. All variables that are not issued
yet are going to stand for rows. -/
structure Registry.Posed (K : Nat → Kind) (θ : Nat → Ty) (r : Registry) : Prop where
  later : ∀ v, r.varCount ≤ v → K v = .row
  wellFormed : r.WellFormed (PlainKind K r.varCount)
  solution : r.Solution K θ

namespace Registry.Posed

theorem resolve (h : r.Posed K θ) (ht : Proper K θ r.varCount k t) :
    Proper K θ r.varCount k (r.resolve t) ∧ k.Same ((r.resolve t).value θ) (t.value θ) :=
  ⟨⟨h.wellFormed.resolve ht.1, h.solution.apart.resolve h.wellFormed.acyclic ht.2⟩,
    h.solution.satisfies.resolve h.wellFormed (fun h => h.1) ht.1⟩

/-- A row is collected to a record that is taken for the same. -/
theorem row (h : r.Posed K θ) (ht : Proper K θ r.varCount .row t) :
    Proper K θ r.varCount .row (r.row t).toRecord := by
  have hkinds := h.wellFormed.row (kinding_plain K _) ht.1
  have hapart := h.solution.apart.row h.wellFormed.acyclic (fun h hu => h.child hu) (fun h => h)
    ht.2
  exact .record (row_sorted h.wellFormed.acyclic t)
    (fun e he => ⟨hkinds.1 e he, hapart.1 e he⟩) ⟨hkinds.2, hapart.2⟩
    fun l hl => h.solution.row_apart h.wellFormed ht.1 ht.2 hl

/-- A new variable gets a finite row. -/
theorem addVar (h : r.Posed K θ) {x : Ty} (hx : x.IsRow) (hg : x.Ground)
    (hθ : ∀ v, v < r.varCount → θ' v = θ v) (hnew : θ' r.varCount = x) :
    r.addVar.Posed K θ' := by
  have hproper : ∀ v u, r.binding? v = some u → Proper K θ r.varCount (K v) u := by
    intro v u hv
    refine ⟨h.wellFormed.bindings v u hv _ ⟨.flex rfl, ?_⟩, h.solution.apart v u hv⟩
    exact .intro _ (lt_varCount_of_binding? hv) (by simp [children])
  have hcases : ∀ v, v < r.addVar.varCount → v < r.varCount ∨ v = r.varCount := by
    intro v hv
    rw [varCount_addVar] at hv
    omega
  refine ⟨fun v hv => h.later v (by rw [varCount_addVar] at hv; omega), ?_, ?_, ?_, ?_, ?_⟩
  · refine ⟨h.wellFormed.acyclic.addVar, h.wellFormed.addVar.covered, fun v u hv k hk => ?_⟩
    have hv' : r.binding? v = some u := by simpa using hv
    rw [← hasKind_flex.mp hk.1]
    have hold : Proper K θ r.addVar.varCount (K v) u :=
      (hproper v u hv').mono (by simp) fun _ _ => rfl
    exact hold.1
  · intro v hv
    rcases hcases v hv with hlt | rfl
    · exact hθ v hlt ▸ h.solution.ground v hlt
    · exact hnew ▸ hg
  · intro v hv hk
    rcases hcases v hv with hlt | rfl
    · exact hθ v hlt ▸ h.solution.rows v hlt hk
    · exact hnew ▸ hx
  · intro v u hv
    have hv' : r.binding? v = some u := by simpa using hv
    rw [(hproper v u hv').value_eq hθ, value_flex, hθ v (lt_varCount_of_binding? hv')]
    exact h.solution.satisfies v u hv'
  · intro v u hv
    exact ((hproper v u (by simpa using hv)).mono le_rfl hθ).2

/-- A variable is bound to what it stands for. -/
theorem setBinding (h : r.Posed K θ) {v : Nat} (hopen : r.binding? v = none)
    (hv : PlainKind K r.varCount k (.flex v)) (ht : Proper K θ r.varCount k t)
    (hsame : k.Same ((flex v).value θ) (t.value θ)) (hocc : r.occurs v t = false) :
    (r.setBinding v t).Posed K θ := by
  obtain rfl := hasKind_flex.mp hv.1
  have hsat : (r.setBinding v t).Satisfies K θ := by
    intro w u hw
    rcases binding?_setBinding_inv hw with ⟨rfl, rfl⟩ | hw
    · exact hsame
    · exact h.solution.satisfies w u hw
  refine ⟨?_, ?_, ?_, ?_, hsat, h.solution.apart.setBinding ht.2⟩ <;> rw [varCount_setBinding]
  · exact h.later
  · exact h.wellFormed.setBinding (kinding_plain K _) hopen hv ht.1 hocc
  · exact h.solution.ground
  · exact h.solution.rows

end Registry.Posed

/-- A registry with a solution, as a point of a run. -/
structure Posing (K : Nat → Kind) where
  registry : Registry
  assign : Nat → Ty
  posed : registry.Posed K assign

namespace Posing

instance : Preorder (Posing K) where
  le p q := p.registry.varCount ≤ q.registry.varCount ∧
    ∀ v, v < p.registry.varCount → q.assign v = p.assign v
  le_refl _ := ⟨le_rfl, fun _ _ => rfl⟩
  le_trans _ _ _ h h' :=
    ⟨h.1.trans h'.1, fun v hv => (h'.2 v (hv.trans_le h.1)).trans (h.2 v hv)⟩

/-- A new variable is given a row without the fields of another one. -/
theorem issue (p : Posing K) {v : Nat}
    (hv : Proper K p.assign p.registry.varCount .row (.flex v)) (theirs : Row) :
    ∃ q, p ≤ q ∧ q.registry = p.registry.addVar ∧
      Proper K q.assign q.registry.varCount .row (.flex p.registry.varCount) ∧
      ((flex p.registry.varCount).value q.assign).asRow =
        ((flex v).value p.assign).asRow.without theirs := by
  have hlt : v < p.registry.varCount := hv.1.2.here
  obtain ⟨x, hx, hg, heq⟩ := (p.posed.solution.rows v hlt (hasKind_flex.mp hv.1.1)).restrict
    (p.posed.solution.ground v hlt) fun l => (theirs.fields.lookup l).isNone
  have hold : ∀ w, w < p.registry.varCount → update p.assign p.registry.varCount x w = p.assign w :=
    fun w hw => update_of_ne hw.ne x p.assign
  have hnew : update p.assign p.registry.varCount x p.registry.varCount = x :=
    update_self _ _ _
  refine ⟨⟨_, _, p.posed.addVar hx hg hold hnew⟩, ⟨by simp, hold⟩, rfl,
    ⟨⟨.flex (p.posed.later _ le_rfl), ?_⟩, ?_⟩, ?_⟩
  · exact .intro _ (by simp [PlainAt]) (by simp [children])
  · exact .intro _ trivial (by simp [children])
  · exact (congrArg (fun t => t.norm.asRow) hnew).trans heq

/-- Registries with solutions are points of runs on plain types. The labels in
front of a row do not matter, since no label repeats under the assignment. -/
def system (K : Nat → Kind) : PointSystem (Posing K) where
  registry := registry
  assign := assign
  Fits p k t := Proper K p.assign p.registry.varCount k.kind t
  fits_mono hle h := h.mono hle.1 hle.2
  value_mono hle h := h.value_eq hle.2
  open_of_resolve {p _ _} h := Registry.binding?_of_resolve p.posed.wellFormed.acyclic h
  fits_resolve {p _ _} h := (p.posed.resolve h).1
  value_resolve {p _ _} h := (p.posed.resolve h).2
  fits_row {p _ _} h := p.posed.row h
  value_row {p _ _} h :=
    p.posed.solution.satisfies.row (kinding_plain K _) p.posed.wellFormed (fun h => h.1) h.1
  issued h := h.1.2.here
  kind_eq h h' := (Ty.hasKind_flex.mp h.1.1).symm.trans (Ty.hasKind_flex.mp h'.1.1)
  con {p k c ts} h := by
    have hargs : ∀ t ∈ ts, Proper K p.assign p.registry.varCount .type t :=
      fun t ht => ⟨(kinding_plain K _).args h.1 t ht, h.2.child ht⟩
    generalize k.kind = kind at h
    cases h.1.1 with
    | con hc => exact .inr ⟨hc, rfl, hargs⟩
    | emptyRow => exact .inl ⟨rfl, rfl⟩
  record h := h.of_record
  synonym h := h.1.2.here.elim
  ends h hrec := h.1.1.isEnd hrec
  asRest h hform := ⟨(kinding_plain K _).asRow h.1 hform, h.2⟩
  fits_resolve_tail {p _ _ tail} h := by
    obtain ⟨hs, hfields, htail, hapart⟩ := h.of_record
    obtain ⟨hres, hsame⟩ := p.posed.resolve htail
    refine .record hs hfields hres fun l hl => ?_
    rw [hsame.asRow]
    exact hapart l hl
  fits_lacking h hrest hapart :=
    .record (Row.lacking_sorted h.of_record.1)
      (fun e he => h.of_record.2.1 e (Row.mem_lacking he).1) hrest hapart
  issue {p _ _ theirs} hv _ := p.issue hv theirs
  bind {p _ _ _} hv ht hsame hopen hocc :=
    ⟨⟨_, p.assign, p.posed.setBinding hopen hv.1 ht hsame hocc⟩,
      ⟨(Registry.varCount_setBinding ..).ge, fun _ _ => rfl⟩, rfl⟩

end Posing

/-- A run on types that agree under a solution succeeds, and the solution, with
terms for the variables that the run issues, is one of the registry it leaves. -/
theorem Unifies.complete {task : Task} {out : Except TypeError Unit} (h : Unifies r task out r')
    (hr : r.Posed K θ) (htask : (Posing.system K).Holds ⟨r, θ, hr⟩ task) :
    out = .ok () ∧ ∃ θ', (∀ v, v < r.varCount → θ' v = θ v) ∧ r'.Posed K θ' := by
  obtain ⟨hout, q, hle, rfl⟩ := h.finds rfl htask
  exact ⟨hout, q.assign, hle.2, q.posed⟩

/-- A solution under which two types are equal, with no label twice along
their records. -/
structure Registry.Equates (K : Nat → Kind) (θ : Nat → Ty) (r : Registry) (a b : Ty) : Prop where
  solution : r.Solution K θ
  left : a.Apart θ
  right : b.Apart θ
  same : a.value θ = b.value θ

/-- A solution depends on the kinds of the variables that are issued. -/
theorem Registry.Solution.congr {K' : Nat → Kind} (h : r.Solution K θ)
    (hK : ∀ v, v < r.varCount → K' v = K v) : r.Solution K' θ where
  ground := h.ground
  rows v hv hk := h.rows v hv (hK v hv ▸ hk)
  satisfies v t hv := hK v (lt_varCount_of_binding? hv) ▸ h.satisfies v t hv
  apart := h.apart

end

/-- Unification of two types of values is complete and most general. If a
solution of the registry makes the types equal, unification succeeds, and the
solution extends to the variables issued on the way as one of the registry that
is left; so where unification fails, no solution makes the types equal. And
when it succeeds, every solution of the registry that is left makes them equal.
The types are plain: well scoped, without synonyms, and with kinds `K`. -/
theorem unify_complete {s : State} {a b : Ty} {K : Nat → Kind} (hacyclic : s.registry.Acyclic)
    (hplain : s.registry.AllBindings (Ty.Plain s.registry.varCount))
    (hkinded : s.registry.Kinded True K) (ha : PlainKind K s.registry.varCount .type a)
    (hb : PlainKind K s.registry.varCount .type b) :
    (∀ θ, s.registry.Equates K θ a b → ((unify a b).ends s).1 = .ok () ∧
      ∃ θ', (∀ v, v < s.registry.varCount → θ' v = θ v) ∧
        ((unify a b).ends s).2.Solution (Kind.upTo s.registry.varCount K) θ') ∧
    (∀ e, ((unify a b).ends s).1 = .error e → ∀ θ, ¬ s.registry.Equates K θ a b) ∧
    (((unify a b).ends s).1 = .ok () → ∀ θ',
      ((unify a b).ends s).2.Solution (Kind.upTo s.registry.varCount K) θ' →
        s.registry.Satisfies K θ' ∧ a.value θ' = b.value θ') := by
  have hcov : s.registry.AllBindings Ty.Covered :=
    fun v t hv => (hplain v t hv).imp fun _ h => h.paramsInTarget
  have hcovered : ∀ {t : Ty}, PlainKind K s.registry.varCount .type t → t.Covered :=
    fun ht => ht.2.imp fun _ h => h.paramsInTarget
  have hscope : s.registry.Scoped := fun v t hv => Ty.Plain.scoped (hplain v t hv)
  have hrun := unify_unifies (.of_covered hacyclic hcov) (hcovered ha) (hcovered hb)
  generalize ((unify a b).ends s).1 = out at hrun ⊢
  generalize ((unify a b).ends s).2 = r' at hrun ⊢
  have hupTo : ∀ v, v < s.registry.varCount → Kind.upTo s.registry.varCount K v = K v :=
    fun v hv => if_pos hv
  have hcomplete : ∀ θ, s.registry.Equates K θ a b → out = .ok () ∧
      ∃ θ', (∀ v, v < s.registry.varCount → θ' v = θ v) ∧
        r'.Solution (Kind.upTo s.registry.varCount K) θ' := by
    intro θ h
    have hposed : s.registry.Posed (Kind.upTo s.registry.varCount K) θ :=
      ⟨fun v hv => if_neg (Nat.not_lt.mpr hv),
        hkinded.wellFormed hscope hacyclic hplain fun _ h => h.paramsInTarget,
        h.solution.congr hupTo⟩
    have hproper : ∀ {t : Ty}, PlainKind K s.registry.varCount .type t → t.Apart θ →
        Proper (Kind.upTo s.registry.varCount K) θ s.registry.varCount .type t :=
      fun ht hapart => ⟨⟨Registry.hasKind_upTo ht.1 ht.2.scoped, ht.2⟩, hapart⟩
    obtain ⟨hok, θ', hθ', hr'⟩ := hrun.complete hposed
      (.of_types ⟨hproper ha h.left, hproper hb h.right, h.same⟩)
    exact ⟨hok, θ', hθ', hr'.solution⟩
  refine ⟨hcomplete, ?_, ?_⟩
  · rintro e rfl θ h
    cases (hcomplete θ h).1
  · rintro hok θ' hsol
    have hP := Ty.kinding_hasKind (E := True) (K := Kind.upTo s.registry.varCount K)
      (fun _ h => h) fun _ _ _ => trivial
    have hk := hkinded.run hscope hacyclic hcov ⟨ha.2.scoped, hcovered ha, ha.1⟩
      ⟨hb.2.scoped, hcovered hb, hb.1⟩ r'
    have hsat := hsol.satisfies.of_extends (hrun.keeps hP hk).2
    refine ⟨fun v t hv => ?_, hrun.sound hP (fun h => h.1) hok hk hsol.satisfies .type
      ⟨Registry.hasKind_upTo ha.1 ha.2.scoped, hcovered ha⟩
      ⟨Registry.hasKind_upTo hb.1 hb.2.scoped, hcovered hb⟩⟩
    exact hupTo v (Registry.lt_varCount_of_binding? hv) ▸ hsat v t hv

/-- Two open records that have to exchange a field whose type is bound, and a
solution that closes both. -/
theorem unify_open_records_complete :
    let s : State := ⟨({} : Registry).addVar.addVar.addVar.setBinding 2 (.arrow .int .bool), #[]⟩
    let a : Ty := .record [("x", .flex 2)] (.flex 0)
    let b : Ty := .record [("y", .flex 2)] (.flex 1)
    let K : Nat → Kind := fun v => if v < 2 then .row else .type
    let θ : Nat → Ty := fun v =>
      if v = 0 then .record [("y", .arrow .int .bool)] .emptyRow
      else if v = 1 then .record [("x", .arrow .int .bool)] .emptyRow
      else .arrow .int .bool
    s.registry.Equates K θ a b ∧ ((unify a b).ends s).1 = .ok () ∧
      ∃ θ', (∀ v, v < 3 → θ' v = θ v) ∧ ((unify a b).ends s).2.Solution (Kind.upTo 3 K) θ' := by
  intro s a b K θ
  have hcount : s.registry.varCount = 3 := by decide
  have hequates : s.registry.Equates K θ a b := by
    refine ⟨⟨?_, ?_, ?_, ?_⟩, ?_, ?_, by decide +kernel⟩
    · intro v hv w hw
      rcases (by omega : v = 0 ∨ v = 1 ∨ v = 2) with rfl | rfl | rfl <;>
        simp [θ, Ty.Mentions, Ty.occurrences] at hw
    · intro v hv hk
      rcases (by omega : v = 0 ∨ v = 1 ∨ v = 2) with rfl | rfl | rfl
      · exact .record .emptyRow
      · exact .record .emptyRow
      · cases hk
    · exact Registry.forall_setBinding (by simp) rfl
    · exact Registry.forall_setBinding (by simp) (by simp [Ty.ApartAt])
    · refine (Ty.all_record _ _).mpr ⟨fun l hl => ?_, by simp [Ty.ApartAt]⟩
      rw [Table.lookup_entry] at hl
      split at hl
      · next h => exact h ▸ by decide +kernel
      · cases hl
    · refine (Ty.all_record _ _).mpr ⟨fun l hl => ?_, by simp [Ty.ApartAt]⟩
      rw [Table.lookup_entry] at hl
      split at hl
      · next h => exact h ▸ by decide +kernel
      · cases hl
  have h := unify_complete (s := s) (a := a) (b := b) (K := K) ?_ ?_ ?_ ?_ ?_
  · exact ⟨hequates, h.1 θ hequates⟩
  · exact Registry.acyclic_setBinding (by simp) (by simp [Ty.Scoped, Ty.Mentions, Ty.occurrences])
  · exact Registry.forall_setBinding (by simp) (by simp [Ty.PlainAt])
  · exact Registry.forall_setBinding (by simp) (.arrow (.base _) (.base _))
  · refine ⟨.record (List.forall_mem_singleton.mpr (.flex rfl)) (.flex rfl), ?_⟩
    simp [hcount, a, Ty.PlainAt, Table.Sorted]
  · refine ⟨.record (List.forall_mem_singleton.mpr (.flex rfl)) (.flex rfl), ?_⟩
    simp [hcount, b, Ty.PlainAt, Table.Sorted]

end RowTyping
