import RowTyping.Proofs.Unifies

/-!
# Runs keep registries well formed

A run over a well-formed registry whose types have the kinds they are used
with leaves a well-formed registry, whatever its outcome, and takes no binding
back. For each way a run can go on there is a lemma that says that what it goes
on with is of that sort again.
-/

namespace RowTyping

open Registry Row Table Ty List

/-- Every type of a task can stand for what the task takes it for. -/
def Task.Kinded (P : Kind → Ty → Prop) : Task → Prop
  | .types a b => ∃ k, P k a ∧ P k b
  | .rows a b => P .row a ∧ P .row b
  | .all pairs => ∀ p ∈ pairs, P .type p.1 ∧ P .type p.2

/-- A task with kinds over a well-formed registry, in a run that ends with the
registry `r'`. The variables that the run issues stand for rows. -/
structure KindedRun (P : Kind → Ty → Prop) (r : Registry) (task : Task) (r' : Registry) : Prop where
  wellFormed : r.WellFormed P
  kinded : task.Kinded P
  fresh : ∀ v, r.varCount ≤ v → v < r'.varCount → P .row (.flex v)

namespace KindedRun

variable {P : Kind → Ty → Prop} {r r₁ r' : Registry} {a b : Ty} {pairs : List (Ty × Ty)}

/-- Where kinds are not told apart there is nothing to ask of new variables. -/
theorem anyKind {task : Task} (hr : r.WellFormed AnyKind) (ht : task.Kinded AnyKind) :
    KindedRun AnyKind r task r' :=
  ⟨hr, ht, fun _ _ _ => covered_var _⟩

theorem acyclic {task : Task} (h : KindedRun P r task r') : r.Acyclic := h.wellFormed.acyclic

/-! ## Two types -/

theorem resolve (h : KindedRun P r (.types a b) r') :
    ∃ k, P k (r.resolve a) ∧ P k (r.resolve b) := by
  obtain ⟨k, ha, hb⟩ := h.kinded
  exact ⟨k, h.wellFormed.resolve ha, h.wellFormed.resolve hb⟩

theorem solve (h : KindedRun P r (.types a b) r') {v : Nat} {t : Ty}
    (meet : (r.resolve a).meet (r.resolve b) = .solve v t) : ∃ k, P k (.flex v) ∧ P k t := by
  obtain ⟨k, ha, hb⟩ := h.resolve
  rcases (Meets.of_meet meet).solve_inv.1 with ⟨hv, rfl⟩ | ⟨hv, rfl⟩
  · exact ⟨k, hv ▸ ha, hb⟩
  · exact ⟨k, hv ▸ hb, ha⟩

theorem expand (hP : Kinding P) (h : KindedRun P r (.types a b) r') {t u : Ty}
    (meet : (r.resolve a).meet (r.resolve b) = .expand t u) : KindedRun P r (.types t u) r' := by
  refine ⟨h.wellFormed, ?_, h.fresh⟩
  obtain ⟨k, ha, hb⟩ := h.resolve
  obtain ⟨id, ls, ps, ⟨ha', rfl⟩ | ⟨hb', rfl⟩⟩ := (Meets.of_meet meet).expand_inv
  · exact ⟨k, hP.target (ha' ▸ ha), hb⟩
  · exact ⟨k, hP.target (hb' ▸ hb), ha⟩

theorem children (hP : Kinding P) (h : KindedRun P r (.types a b) r') {ragged : Bool}
    (meet : (r.resolve a).meet (r.resolve b) = .children pairs ragged) :
    KindedRun P r (.all pairs) r' := by
  refine ⟨h.wellFormed, fun p hp => ?_, h.fresh⟩
  obtain ⟨k, ha, hb⟩ := h.resolve
  obtain ⟨c, d, ts, us, ha', hb', rfl, -⟩ := (Meets.of_meet meet).children_inv
  rw [ha'] at ha
  rw [hb'] at hb
  obtain ⟨hmine, htheirs⟩ := of_mem_zip hp
  exact ⟨hP.args ha p.1 hmine, hP.args hb p.2 htheirs⟩

theorem rows (hP : Kinding P) (h : KindedRun P r (.types a b) r')
    (meet : (r.resolve a).meet (r.resolve b) = .rows) :
    KindedRun P r (.rows (r.resolve a) (r.resolve b)) r' := by
  refine ⟨h.wellFormed, ?_, h.fresh⟩
  obtain ⟨k, ha, hb⟩ := h.resolve
  obtain ⟨ha', hb', -⟩ := (Meets.of_meet meet).rows_inv
  exact ⟨hP.asRow ha ha', hP.asRow hb hb'⟩

/-! ## Pairs of types -/

theorem head (h : KindedRun P r (.all ((a, b) :: pairs)) r') (hle : r₁.varCount ≤ r'.varCount) :
    KindedRun P r (.types a b) r₁ :=
  ⟨h.wellFormed, ⟨.type, (forall_mem_cons.mp h.kinded).1⟩,
    fun v hv hv' => h.fresh v hv (Nat.lt_of_lt_of_le hv' hle)⟩

theorem rest (h : KindedRun P r (.all ((a, b) :: pairs)) r') (hr₁ : r₁.WellFormed P)
    (hle : r.varCount ≤ r₁.varCount) : KindedRun P r₁ (.all pairs) r' :=
  ⟨hr₁, (forall_mem_cons.mp h.kinded).2, fun v hv => h.fresh v (hle.trans hv)⟩

/-! ## Two rows -/

theorem shared (hP : Kinding P) (h : KindedRun P r (.rows a b) r')
    (hle : r₁.varCount ≤ r'.varCount) :
    KindedRun P r (.all ((r.row a).shared (r.row b))) r₁ := by
  refine ⟨h.wellFormed, fun p hp => ?_, fun v hv hv' => h.fresh v hv (Nat.lt_of_lt_of_le hv' hle)⟩
  obtain ⟨l, hl, hl'⟩ := mem_shared hp
  exact ⟨(h.wellFormed.row hP h.kinded.1).1 _ hl,
    (h.wellFormed.row hP h.kinded.2).1 _ (mem_of_lookup hl')⟩

theorem again (h : KindedRun P r (.rows a b) r') (hr₁ : r₁.WellFormed P)
    (hle : r.varCount ≤ r₁.varCount) : KindedRun P r₁ (.rows a b) r' :=
  ⟨hr₁, h.kinded, fun v hv => h.fresh v (hle.trans hv)⟩

/-- The tails of the two rows as they are now. -/
theorem resolved_tails (hP : Kinding P) (h : KindedRun P r (.rows a b) r') (hr₁ : r₁.WellFormed P) :
    P .row (r₁.resolve (r.row a).tail) ∧ P .row (r₁.resolve (r.row b).tail) :=
  ⟨hr₁.resolve (h.wellFormed.row hP h.kinded.1).2, hr₁.resolve (h.wellFormed.row hP h.kinded.2).2⟩

theorem tails (hP : Kinding P) (h : KindedRun P r (.rows a b) r') (hr₁ : r₁.WellFormed P)
    (hle : r.varCount ≤ r₁.varCount) {t u : Ty} (left : r.remainder r₁ a b = .tails t u) :
    KindedRun P r₁ (.types t u) r' := by
  refine ⟨hr₁, ⟨.row, ?_⟩, fun v hv => h.fresh v (hle.trans hv)⟩
  obtain ⟨rfl, rfl, -⟩ := (remains left).tails_inv
  exact h.resolved_tails hP hr₁

/-- The fields that a row lacks, in front of another row. -/
theorem lacking (hP : Kinding P) (h : KindedRun P r (.rows a b) r') {rest : Ty}
    (hrest : P .row rest) :
    P .row (.record ((r.row a).lacking (r.row b)) rest) ∧
      P .row (.record ((r.row b).lacking (r.row a)) rest) := by
  have hmine := (h.wellFormed.row hP h.kinded.1).1
  have htheirs := (h.wellFormed.row hP h.kinded.2).1
  have hsorted := row_sorted h.acyclic
  exact ⟨hP.record (lacking_sorted (hsorted b)) (fun e he => htheirs e (mem_lacking he).1) hrest,
    hP.record (lacking_sorted (hsorted a)) (fun e he => hmine e (mem_lacking he).1) hrest⟩

theorem extend (hP : Kinding P) (h : KindedRun P r (.rows a b) r') (hr₁ : r₁.WellFormed P) {v : Nat}
    {fs : Table Ty} {rest : Ty} (left : r.remainder r₁ a b = .extend v fs rest) :
    P .row (.flex v) ∧ P .row (.record fs rest) := by
  obtain ⟨hmine, htheirs⟩ := h.resolved_tails hP hr₁
  rcases (remains left).extend_inv with ⟨hv, rfl, rfl, -⟩ | ⟨hv, rfl, rfl, -⟩
  · exact ⟨hv ▸ hmine, (h.lacking hP htheirs).1⟩
  · exact ⟨hv ▸ htheirs, (h.lacking hP hmine).2⟩

theorem split (hP : Kinding P) (h : KindedRun P r (.rows a b) r') (hr₁ : r₁.WellFormed P)
    (hle : r.varCount ≤ r₁.varCount) (hlt : r₁.varCount < r'.varCount) {v w : Nat}
    {fs gs : Table Ty} (left : r.remainder r₁ a b = .split v w fs gs) :
    (P .row (.flex v) ∧ P .row (.record fs (.flex r₁.varCount))) ∧
      P .row (.flex w) ∧ P .row (.record gs (.flex r₁.varCount)) := by
  obtain ⟨hmine, htheirs⟩ := h.resolved_tails hP hr₁
  obtain ⟨hv, hw, -, ⟨rfl, -⟩, rfl, -⟩ := (remains left).split_inv
  obtain ⟨htoMine, htoTheirs⟩ := h.lacking hP (h.fresh _ hle hlt)
  exact ⟨⟨hv ▸ hmine, htoMine⟩, hw ▸ htheirs, htoTheirs⟩

end KindedRun

/-! ## Whole runs -/

theorem Solved.keeps {P : Kind → Ty → Prop} (hP : Kinding P) {r r' : Registry} {v : Nat} {t : Ty}
    {out : Except TypeError Unit} (h : Solved r v t out r') (hr : r.WellFormed P)
    (hv : r.binding? v = none) {k : Kind} (hk : P k (.flex v)) (ht : P k t) :
    r'.WellFormed P ∧ r.Extends r' := by
  cases h with
  | bind hocc => exact ⟨hr.setBinding hP hv hk ht hocc, .setBinding hv t⟩
  | unknown => exact ⟨hr, .refl r⟩
  | cyclic => exact ⟨hr, .refl r⟩

/-- A run with kinds keeps the registry well formed and takes no binding back,
whatever its outcome. -/
theorem Unifies.keeps {P : Kind → Ty → Prop} (hP : Kinding P) {r r' : Registry} {task : Task}
    {out : Except TypeError Unit} (h : Unifies r task out r') (hk : KindedRun P r task r') :
    r'.WellFormed P ∧ r.Extends r' := by
  induction h with
  | same | clash | nil => exact ⟨hk.wellFormed, .refl _⟩
  | solve meet solved =>
    obtain ⟨k, hv, ht⟩ := hk.solve meet
    exact solved.keeps hP hk.wellFormed (hk.acyclic.solve_open meet) hv ht
  | expand meet _ ih => exact ih (hk.expand hP meet)
  | children meet _ _ ih => exact ih (hk.children hP meet)
  | ragged meet _ ih => exact ih (hk.children hP meet)
  | rows meet _ ih => exact ih (hk.rows hP meet)
  | cons head rest ih₁ ih₂ =>
    obtain ⟨hr₁, hex₁⟩ := ih₁ (hk.head rest.varCount_le)
    obtain ⟨hr₂, hex₂⟩ := ih₂ (hk.rest hr₁ head.varCount_le)
    exact ⟨hr₂, hex₁.trans hex₂⟩
  | stop _ ih => exact ih (hk.head le_rfl)
  | fields _ ih => exact ih (hk.shared hP le_rfl)
  | again shared _ rest ih₁ ih₂ =>
    obtain ⟨hr₁, hex₁⟩ := ih₁ (hk.shared hP rest.varCount_le)
    obtain ⟨hr₂, hex₂⟩ := ih₂ (hk.again hr₁ shared.varCount_le)
    exact ⟨hr₂, hex₁.trans hex₂⟩
  | tails shared left rest ih₁ ih₂ =>
    obtain ⟨hr₁, hex₁⟩ := ih₁ (hk.shared hP rest.varCount_le)
    obtain ⟨hr₂, hex₂⟩ := ih₂ (hk.tails hP hr₁ shared.varCount_le left)
    exact ⟨hr₂, hex₁.trans hex₂⟩
  | extend _ left solved ih =>
    obtain ⟨hr₁, hex₁⟩ := ih (hk.shared hP solved.varCount.ge)
    obtain ⟨hv, ht⟩ := hk.extend hP hr₁ left
    obtain ⟨hr₂, hex₂⟩ := solved.keeps hP hr₁ (hr₁.acyclic.extend_open left) hv ht
    exact ⟨hr₂, hex₁.trans hex₂⟩
  | @split r a b r₁ v w fs gs r₂ out r₃ shared left mine theirs ih =>
    have hlt : r₁.varCount < r₃.varCount := mine.lt_varCount.trans_eq theirs.varCount.symm
    obtain ⟨hr₁, hex₁⟩ := ih (hk.shared hP hlt.le)
    -- the second tail is still open when the first has been solved, as the two differ
    obtain ⟨⟨hv, hmine⟩, hw, htheirs⟩ := hk.split hP hr₁ shared.varCount_le hlt left
    obtain ⟨hvo, hwo, hne⟩ := hr₁.acyclic.split_open left
    obtain ⟨hr₂, hex₂⟩ := mine.keeps hP hr₁.addVar (by simpa using hvo) hv hmine
    obtain ⟨hr₃, hex₃⟩ :=
      theirs.keeps hP hr₂ (mine.open_of_ne (by simpa using hwo) hne) hw htheirs
    exact ⟨hr₃, hex₁.trans ((Extends.addVar r₁).trans (hex₂.trans hex₃))⟩
  | @splitStop r a b r₁ v w fs gs e r₂ shared left mine ih =>
    have hlt : r₁.varCount < r₂.varCount := mine.lt_varCount
    obtain ⟨hr₁, hex₁⟩ := ih (hk.shared hP hlt.le)
    obtain ⟨⟨hv, hmine⟩, -⟩ := hk.split hP hr₁ shared.varCount_le hlt left
    obtain ⟨hr₂, hex₂⟩ := mine.keeps hP hr₁.addVar
      (by simpa using (hr₁.acyclic.split_open left).1) hv hmine
    exact ⟨hr₂, hex₁.trans ((Extends.addVar r₁).trans hex₂)⟩
  | lacking _ _ ih => exact ih (hk.shared hP le_rfl)

end RowTyping
