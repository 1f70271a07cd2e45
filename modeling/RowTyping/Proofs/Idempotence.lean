import RowTyping.Proofs.LastingErrors

/-!
# Unification has nothing to do twice

Types that have been made equal meet without a step that writes: where their heads
are no variables they agree, and their rows have the same labels. So unification of
a type with itself leaves the registry alone, and so does every unification that
succeeded before, either way round.
-/

namespace RowTyping

open Check Registry Row Table Ty List

namespace Registry

variable {r : Registry} {a b : Ty}

theorem Equated.refl (r : Registry) (t : Ty) : r.Equated t t := .read rfl

theorem ReadAlike.symm {strict : Prop} (h : r.ReadAlike strict a b) : r.ReadAlike strict b a := by
  induction h with
  | read h => exact .read h.symm
  | module ha hb => exact .module hb ha
  | con ha hb hlen _ hcd ih =>
    refine .con hb ha hlen.symm (fun p hp => ?_) (Con.agrees_iff.mpr (Con.agrees_iff.mp hcd).symm)
    obtain ⟨q, hq, rfl⟩ := mem_map.mp (zip_swap _ _ ▸ hp)
    exact ih q hq
  | rows ha hb record both labels _ _ ihf iht =>
    exact .rows hb ha record.symm (fun h => (both h).symm) (fun l => (labels l).symm)
      (fun l t u ht hu => ihf l u t hu ht) iht

/-- Equal types meet without a variable to be solved. -/
theorem Equated.meet (h : r.Equated a b) (hfree : (r.resolve a).NotSynonym) :
    (r.resolve a).meet (r.resolve b) = .same ∨ (r.resolve a).meet (r.resolve b) = .rows ∨
      ∃ pairs, (r.resolve a).meet (r.resolve b) = .children pairs false ∧
        ∀ p ∈ pairs, r.Equated p.1 p.2 := by
  have hself : ∀ {ts : List Ty}, ∀ p ∈ ts.zip ts, r.Equated p.1 p.2 := by
    intro ts p hp
    rw [zip_eq_zipWith, zipWith_self] at hp
    obtain ⟨t, -, rfl⟩ := mem_map.mp hp
    exact .refl r t
  cases h with
  | read h =>
    rw [← h]
    cases hres : r.resolve a with
    | var x => cases x <;> simp [Ty.meet]
    | con c ts =>
      refine .inr (.inr ⟨ts.zip ts, ?_, hself⟩)
      simp [Ty.meet, Con.meet, Con.agrees_iff]
    | record fs tail => exact .inr (.inl rfl)
    | synonym id labels params target => exact (hres ▸ hfree).elim
    | module name members => simp [Ty.meet]
  | module ha hb => simp [ha, hb, Ty.meet]
  | con ha hb hlen hargs hcd =>
    refine .inr (.inr ⟨_, ?_, hargs⟩)
    simp [ha, hb, Ty.meet, Con.meet, hcd, hlen]
  | rows ha hb record => exact .inr (.inl (meet_rows ha hb record).1)

theorem EquatedRows.shared {x y : Row} (h : r.EquatedRows x y) (hx : x.fields.Sorted) :
    ∀ p ∈ x.shared y, r.Equated p.1 p.2 := by
  intro p hp
  obtain ⟨l, hl, hl'⟩ := mem_shared hp
  exact h.fields l _ _ (hx.lookup_of_mem hl) hl'

/-- Rows with the same labels have only their ends left. -/
theorem EquatedRows.remainder (hr : r.Acyclic) (h : r.EquatedRows (r.row a) (r.row b)) :
    r.remainder r a b = .tails (r.row a).tail (r.row b).tail := by
  have hfull : ∀ {x y : Row}, (∀ l, (x.fields.lookup l).isSome = (y.fields.lookup l).isSome) →
      x.lacking y = [] := by
    intro x y hlabels
    refine eq_nil_iff_forall_not_mem.mpr fun e he => ?_
    obtain ⟨hmem, hnone⟩ := mem_lacking he
    have hsome := isSome_lookup_of_mem hmem
    rw [← hlabels, hnone] at hsome
    cases hsome
  obtain ⟨hmine, hmyEnd⟩ := row_tail hr a
  obtain ⟨htheirs, htheirEnd⟩ := row_tail hr b
  rw [Registry.remainder, hmine.resolve, htheirs.resolve, Row.remainder, hmyEnd, htheirEnd,
    hfull h.labels, hfull fun l => (h.labels l).symm]
  rfl

end Registry

/-- A run over types that are equal already succeeds and writes nothing. -/
theorem Unifies.spares {r r' : Registry} {task : Task} {out : Except TypeError Unit}
    (h : Unifies r task out r') (hk : ∀ r', KindedRun SynonymFreeKind r task r')
    (heq : task.Equated r) : out = .ok () ∧ r' = r := by
  have hP := kinding_synonymFree
  have hmeet : ∀ {r : Registry} {a b : Ty}, (∀ r', KindedRun SynonymFreeKind r (.types a b) r') →
      r.Equated a b → _ := fun {r} _ _ hk heq => heq.meet (All.here (hk r).resolve.choose_spec.1)
  induction h with
  | same | nil => exact ⟨rfl, rfl⟩
  | solve meet | expand meet | clash meet | ragged meet => simpa [meet] using hmeet hk heq
  | children meet _ _ ih =>
    have hpairs := hmeet hk heq
    simp only [meet] at hpairs
    obtain hpairs | hpairs | ⟨pairs, hpairs, hall⟩ := hpairs <;> cases hpairs
    exact ih (fun r' => (hk r').children hP meet) hall
  | @rows r a b out r' meet _ ih =>
    refine ih (fun r' => (hk r').rows hP meet) ?_
    rw [Task.Equated, row_resolve (hk r).acyclic, row_resolve (hk r).acyclic]
    exact Registry.ReadAlike.row (hk r).acyclic heq
  | @cons r a b pairs r₁ out r₂ head rest ih₁ ih₂ =>
    obtain ⟨hhead, hrest⟩ := forall_mem_cons.mp heq
    obtain ⟨-, rfl⟩ := ih₁ (fun r' => (hk r').head le_rfl) hhead
    exact ih₂ (fun r' => (hk r').rest (hk r').wellFormed le_rfl) hrest
  | stop head ih =>
    obtain ⟨hok, -⟩ := ih (fun r' => (hk r').head le_rfl) (forall_mem_cons.mp heq).1
    cases hok
  | fields _ ih =>
    obtain ⟨hok, -⟩ :=
      ih (fun r' => (hk r').shared hP le_rfl) (heq.shared (row_sorted (hk {}).acyclic _))
    cases hok
  | @tails r a b r₁ t u out r₂ shared left rest ih₁ ih₂ =>
    obtain ⟨-, rfl⟩ :=
      ih₁ (fun r' => (hk r').shared hP le_rfl) (heq.shared (row_sorted (hk {}).acyclic _))
    obtain ⟨rfl, rfl⟩ := Remainder.tails.inj ((heq.remainder (hk r₁).acyclic).symm.trans left)
    exact ih₂ (fun r' => (hk r').tails hP (hk r').wellFormed le_rfl left) heq.tail
  | again _ left _ ih
  | extend _ left _ ih
  | split _ left _ _ ih
  | splitStop _ left _ ih
  | lacking _ left ih =>
    obtain ⟨-, rfl⟩ :=
      ih (fun r' => (hk r').shared hP le_rfl) (heq.shared (row_sorted (hk {}).acyclic _))
    cases (heq.remainder (hk {}).acyclic).symm.trans left

section

variable {s : State} {a b : Ty}

theorem kindedRun_synonymFree {r : Registry} (hr : r.WellFormed SynonymFreeKind)
    (ha : a.SynonymFree)
    (hb : b.SynonymFree) (r' : Registry) : KindedRun SynonymFreeKind r (.types a b) r' :=
  ⟨hr, ⟨.type, ha, hb⟩, fun _ _ _ => (all_var _).mpr trivial⟩

theorem unify_unifies_synonymFree (hr : s.registry.WellFormed SynonymFreeKind) (ha : a.SynonymFree)
    (hb : b.SynonymFree) :
    Unifies s.registry (.types a b) ((unify a b).ends s).1 ((unify a b).ends s).2 :=
  unify_unifies (.of_covered hr.acyclic hr.covered) (kinding_synonymFree.covered (k := .type) ha)
    (kinding_synonymFree.covered (k := .type) hb)

/-- Unification of types that are equal already. -/
theorem unify_equated (hr : s.registry.WellFormed SynonymFreeKind) (ha : a.SynonymFree)
    (hb : b.SynonymFree) (heq : s.registry.Equated a b) :
    (unify a b).ends s = (.ok (), s.registry) := by
  obtain ⟨hok, hsame⟩ :=
    (unify_unifies_synonymFree hr ha hb).spares (kindedRun_synonymFree hr ha hb) heq
  exact Prod.ext hok hsame

end

/-- Over a registry without cycles and without synonyms, a type unifies with itself and
nothing is bound or issued. And where two types have been unified, unifying them again,
either way round, succeeds and leaves the registry exactly as it is. -/
theorem unify_again {s : State} (hr : s.registry.Acyclic)
    (hfree : s.registry.AllBindings Ty.SynonymFree) :
    (∀ t : Ty, t.SynonymFree → (unify t t).ends s = (.ok (), s.registry)) ∧
    ∀ a b : Ty, a.SynonymFree → b.SynonymFree → ((unify a b).ends s).1 = .ok () →
      ∀ s' : State, s'.registry = ((unify a b).ends s).2 →
        (unify a b).ends s' = (.ok (), s'.registry) ∧
          (unify b a).ends s' = (.ok (), s'.registry) := by
  have hwf : s.registry.WellFormed SynonymFreeKind :=
    ⟨hr, fun v t hv => kinding_synonymFree.covered (k := .type) (hfree v t hv),
      fun v t hv _ _ => hfree v t hv⟩
  refine ⟨fun t ht => unify_equated hwf ht ht (.refl _ t), fun a b ha hb hok s' hs' => ?_⟩
  have hrun := unify_unifies_synonymFree hwf ha hb
  have hk := kindedRun_synonymFree hwf ha hb ((unify a b).ends s).2
  have hwf' := (hrun.keeps kinding_synonymFree hk).1
  have heq : ((unify a b).ends s).2.Equated a b := hrun.equated hok hk
  rw [← hs'] at hwf' heq
  exact ⟨unify_equated hwf' ha hb heq, unify_equated hwf' hb ha heq.symm⟩

/-- Two open records that take a field of each other and get a new common rest. -/
theorem unify_open_records_again :
    let s : State := ⟨({} : Registry).addVar.addVar.addVar, #[]⟩
    let a : Ty := .record [("x", .flex 2), ("z", .flex 2)] (.flex 0)
    let b : Ty := .record [("y", .int), ("z", .bool)] (.flex 1)
    let s' := after (unify a b) s
    (unify a a).ends s = (.ok (), s.registry) ∧ ((unify a b).ends s).1 = .ok () ∧
      s'.registry.varCount = 4 ∧ (unify a b).ends s' = (.ok (), s'.registry) ∧
      (unify b a).ends s' = (.ok (), s'.registry) := by
  intro s a b s'
  have hfree : s.registry.AllBindings Ty.SynonymFree := fun v t hv => by simp [s] at hv
  have hr : s.registry.Acyclic := Registry.acyclic_of_scoped fun v t hv => by simp [s] at hv
  have ha : a.SynonymFree := by simp [a, Ty.NotSynonym]
  have hb : b.SynonymFree := by simp [b, Ty.NotSynonym]
  have hok : ((unify a b).ends s).1 = .ok () := by decide +kernel
  obtain ⟨hself, hagain⟩ := unify_again hr hfree
  exact ⟨hself a ha, hok, by decide +kernel, hagain a b ha hb hok s' (ends_registry _ _).symm⟩

end RowTyping
