import Mathlib.Tactic.Ring
import RowTyping.Proofs.Budget

/-!
# Unification comes to an end

The fuel that unification starts with suffices for every run over a registry
without a cycle: the run with fuel is a derivation without. Between two
solved variables the depths of the two types fall with every step, or every
second step where rows are compared, and a solved variable makes up for
whatever depth its binding adds. With the derivation comes what it keeps, so
the bindings have no cycle afterwards and all reading through them ends too.
-/

namespace RowTyping

variable {v n : Nat} {s : State} {r : Registry} {a b : Ty}

open Registry Row Table Ty List

/-- How an operation ends: its outcome and the registry it leaves. -/
def Check.ends (x : Check TypeError Unit) (s : State) : Except TypeError Unit × Registry :=
  match x.run s with
  | .ok _ s' => (.ok (), s'.registry)
  | .error e s' => (.error e, s'.registry)

theorem Check.ends_bind {α : Type} (x : Check TypeError α) (f : α → Check TypeError Unit)
    (s : State) :
    (x >>= f).ends s = match x.run s with
      | .ok a s' => (f a).ends s'
      | .error e s' => (.error e, s'.registry) := by
  unfold ends
  rw [EStateM.run_bind]
  cases x.run s <;> rfl

open Check

/-- Solving an open variable. -/
theorem solve_solved (hv : s.registry.binding? v = none) (t : Ty) :
    Solved s.registry v t ((solve v t).ends s).1 ((solve v t).ends s).2 := by
  cases hocc : s.registry.occurs v t with
  | true =>
    have hends : (solve v t).ends s =
        (.error (.cyclic v (s.registry.resolveDeep t)), s.registry) := by
      simp [solve, ends, hocc]
    rw [hends]
    exact .cyclic hocc
  | false =>
    cases hcell : s.registry.cells[v]? with
    | none =>
      have hends : (solve v t).ends s = (.error (.unknownVariable v), s.registry) := by
        simp [solve, bindVar, ends, hocc, hv, hcell]
      rw [hends]
      exact .unknown hocc (Array.getElem?_eq_none_iff.mp hcell)
    | some cell =>
      have hopen : cell.binding = none := by simpa [binding?, hcell] using hv
      have hends : (solve v t).ends s = (.ok (), s.registry.setBinding v t) := by
        simp [solve, bindVar, ends, hocc, hv, hcell, hopen]
      rw [hends]
      exact .bind hocc (Array.getElem?_eq_some_iff.mp hcell).1

/-! ## Enough fuel -/

/-- What a task does with so much fuel. -/
def Task.run (n : Nat) : Task → Check TypeError Unit
  | .types a b => unifyN n a b
  | .rows a b => unifyRowsN n a b
  | .all pairs => forM pairs fun p => unifyN n p.1 p.2

/-- With so much fuel the run of the task is one that ends by itself. -/
def Task.Ends (n : Nat) (task : Task) (s : State) : Prop :=
  Unifies s.registry task ((task.run n).ends s).1 ((task.run n).ends s).2

/-- The fuel `n` suffices for two types as deep as these over a registry with so
many open variables, where no type is ever deeper than `D`. -/
def Registry.Suffices (r : Registry) (D n k : Nat) (a b : Ty) : Prop :=
  ∃ i j, r.Within i a ∧ r.Within j b ∧ r.openCount * (4 * D + 2) + 2 * (i + j) + k ≤ n

/-- The fuel suffices for all types of a task. Two rows are compared right after
the records they belong to, with a unit of fuel less. -/
def Registry.Affords (r : Registry) (D n : Nat) : Task → Prop
  | .types a b => r.Suffices D n 2 a b
  | .rows a b => (a.isRecord = true ∨ b.isRecord = true) ∧ r.Suffices D n 1 a b
  | .all pairs => ∀ p ∈ pairs, r.Suffices D n 2 p.1 p.2

/-- All that a run needs to end by itself with the fuel `n`. -/
structure Registry.Ready (N H n : Nat) (r : Registry) (task : Task) : Prop where
  wellFormed : r.WellFormed AnyKind
  kinded : task.Kinded AnyKind
  fits : r.Fits N H
  low : task.Forall (r.Low H)
  affords : r.Affords ((N + 1) * H) n task

/-- A solved variable pays for types of any depth. -/
theorem Registry.Suffices.of_lt {r₁ : Registry} {D k : Nat} (hk : k ≤ 2) (ha : r₁.Within D a)
    (hb : r₁.Within D b) (hlt : r₁.openCount < r.openCount) (hn : r.openCount * (4 * D + 2) ≤ n) :
    r₁.Suffices D n k a b := by
  refine ⟨D, D, ha, hb, ?_⟩
  have := Nat.mul_le_mul_right (4 * D + 2) hlt
  rw [Nat.succ_mul] at this
  omega

namespace Registry.Ready

variable {N H n : Nat} {r r₁ : Registry} {a b : Ty}

theorem run {task : Task} (h : r.Ready N H n task) (r' : Registry) : KindedRun AnyKind r task r' :=
  .anyKind h.wellFormed h.kinded

theorem expand {t u : Ty} (h : r.Ready N H (n + 1) (.types a b))
    (meet : (r.resolve a).meet (r.resolve b) = .expand t u) : r.Ready N H n (.types t u) := by
  refine ⟨h.wellFormed, ((h.run r).expand kinding_anyKind meet).kinded,
    h.fits, h.fits.meeting h.wellFormed.acyclic h.low.1 h.low.2 meet, ?_⟩
  have hacyclic := h.wellFormed.acyclic
  obtain ⟨i, j, hi, hj, hn⟩ := h.affords
  obtain ⟨id, ls, ps, ⟨ha, rfl⟩ | ⟨hb, rfl⟩⟩ := (Meets.of_meet meet).expand_inv
  · obtain ⟨i', rfl, hi'⟩ := hi.child (u := t) (by simp [ha, children])
    exact ⟨i', j, hi', hj.congr (resolve_resolve hacyclic b).symm, by omega⟩
  · obtain ⟨j', rfl, hj'⟩ := hj.child (u := t) (by simp [hb, children])
    exact ⟨j', i, hj', hi.congr (resolve_resolve hacyclic a).symm, by omega⟩

theorem children {pairs : List (Ty × Ty)} {ragged : Bool} (h : r.Ready N H (n + 1) (.types a b))
    (meet : (r.resolve a).meet (r.resolve b) = .children pairs ragged) :
    r.Ready N H n (.all pairs) := by
  refine ⟨h.wellFormed, ((h.run r).children kinding_anyKind meet).kinded,
    h.fits, h.fits.meeting h.wellFormed.acyclic h.low.1 h.low.2 meet, fun p hp => ?_⟩
  obtain ⟨i, j, hi, hj, hn⟩ := h.affords
  obtain ⟨c, d, ts, us, ha, hb, rfl, -⟩ := (Meets.of_meet meet).children_inv
  obtain ⟨hmine, htheirs⟩ := of_mem_zip hp
  obtain ⟨i', rfl, hi'⟩ := hi.child (by rwa [ha])
  obtain ⟨j', rfl, hj'⟩ := hj.child (by rwa [hb])
  exact ⟨i', j', hi', hj', by omega⟩

theorem rows (h : r.Ready N H (n + 1) (.types a b))
    (meet : (r.resolve a).meet (r.resolve b) = .rows) :
    r.Ready N H n (.rows (r.resolve a) (r.resolve b)) := by
  have hacyclic := h.wellFormed.acyclic
  obtain ⟨i, j, hi, hj, hn⟩ := h.affords
  refine ⟨h.wellFormed, ((h.run r).rows kinding_anyKind meet).kinded, h.fits,
    ⟨h.fits.low.resolve hacyclic h.low.1, h.fits.low.resolve hacyclic h.low.2⟩,
    (Meets.of_meet meet).rows_inv.2.2, i, j, hi.congr (resolve_resolve hacyclic a).symm,
    hj.congr (resolve_resolve hacyclic b).symm, by omega⟩

theorem shared (h : r.Ready N H (n + 1) (.rows a b)) :
    r.Ready N H n (.all ((r.row a).shared (r.row b))) := by
  have hacyclic := h.wellFormed.acyclic
  refine ⟨h.wellFormed, ((h.run r).shared kinding_anyKind le_rfl).kinded, h.fits,
    h.fits.shared hacyclic h.low.1 h.low.2, fun p hp => ?_⟩
  obtain ⟨-, i, j, hi, hj, hn⟩ := h.affords
  obtain ⟨l, hl, hl'⟩ := mem_shared hp
  obtain ⟨i', rfl, hi'⟩ := hi.row_field hacyclic hl
  obtain ⟨j', rfl, hj'⟩ := hj.row_field hacyclic (mem_of_lookup hl')
  exact ⟨i', j', hi', hj', by omega⟩

/-- The pairs that are left when the first has met. -/
theorem next {pairs : List (Ty × Ty)} (h : r.Ready N H n (.all ((a, b) :: pairs)))
    (head : Unifies r (.types a b) (.ok ()) r₁) : r₁.Ready N H n (.all pairs) := by
  obtain ⟨hlow, hlows⟩ := Task.forall_cons.mp h.low
  have hk : KindedRun AnyKind r (.types a b) r₁ := (h.run r₁).head le_rfl
  obtain ⟨hr₁, -⟩ := head.keeps kinding_anyKind hk
  obtain ⟨hsp, hf₁⟩ := head.spends rfl hk h.fits hlow
  have hlows₁ := hlows.imp fun t ht => Low.mono ht hsp.le
  refine ⟨hr₁, ((h.run r₁).rest hr₁ head.varCount_le).kinded, hf₁, hlows₁, fun p hp => ?_⟩
  rcases hsp with rfl | hlt
  · exact h.affords p (mem_cons_of_mem _ hp)
  · obtain ⟨i, j, -, -, hn⟩ := h.affords (a, b) mem_cons_self
    exact .of_lt le_rfl (hf₁.within hr₁.acyclic (hlows₁ p hp).1)
      (hf₁.within hr₁.acyclic (hlows₁ p hp).2) hlt (by omega)

section

variable (h : r.Ready N H (n + 1) (.rows a b))
  (shared : Unifies r (.all ((r.row a).shared (r.row b))) (.ok ()) r₁)
include h shared

/-- What the run over the shared fields of two rows leaves. -/
theorem after_shared : r₁.WellFormed AnyKind ∧ r₁.Fits N H ∧ r.Spends r₁ := by
  have hk : KindedRun AnyKind r _ r₁ := (h.run r₁).shared kinding_anyKind le_rfl
  obtain ⟨hr₁, -⟩ := shared.keeps kinding_anyKind hk
  obtain ⟨hsp, hf₁⟩ := shared.spends rfl hk h.fits
    (h.fits.shared h.wellFormed.acyclic h.low.1 h.low.2)
  exact ⟨hr₁, hf₁, hsp⟩

/-- The rows are compared again only if a variable was solved: before, none of
them ended in a record. -/
theorem again (left : r.remainder r₁ a b = .again) : r₁.Ready N H n (.rows a b) := by
  obtain ⟨hr₁, hf₁, hsp⟩ := h.after_shared shared
  obtain ⟨hrecord, i, j, -, -, hn⟩ := h.affords
  have hlow : (Task.rows a b).Forall (r₁.Low H) := ⟨h.low.1.mono hsp.le, h.low.2.mono hsp.le⟩
  refine ⟨hr₁, h.kinded, hf₁, hlow, hrecord, ?_⟩
  rcases hsp with rfl | hlt
  · obtain ⟨hmine, hmine'⟩ := row_tail h.wellFormed.acyclic a
    obtain ⟨htheirs, htheirs'⟩ := row_tail h.wellFormed.acyclic b
    have hends := (remains left).again_inv
    rw [hmine.resolve, htheirs.resolve, hmine', htheirs'] at hends
    simp at hends
  · exact .of_lt (by omega) (hf₁.within hr₁.acyclic hlow.1) (hf₁.within hr₁.acyclic hlow.2) hlt
      (by omega)

/-- The tails of two rows one of which is a record. -/
theorem tails {t u : Ty} (left : r.remainder r₁ a b = .tails t u) :
    r₁.Ready N H n (.types t u) := by
  obtain ⟨hr₁, hf₁, hsp⟩ := h.after_shared shared
  have hacyclic := h.wellFormed.acyclic
  have hlow := h.fits.remainder hacyclic hf₁ hr₁.acyclic hsp.le h.low.1 h.low.2 left
  refine ⟨hr₁, ((h.run r₁).tails kinding_anyKind hr₁ shared.varCount_le left).kinded, hf₁, hlow, ?_⟩
  obtain ⟨hrecord, i, j, hi, hj, hn⟩ := h.affords
  rcases hsp with rfl | hlt
  · obtain ⟨rfl, rfl, -⟩ := (remains left).tails_inv
    rw [(row_tail hacyclic a).1.resolve, (row_tail hacyclic b).1.resolve]
    -- the tail of a record is less deep than the record
    rcases hrecord with ha | hb
    · obtain ⟨fs, tail, rfl⟩ := eq_record_of_isRecord ha
      obtain ⟨i', rfl, hi'⟩ := hi.record_tail hacyclic resolve_record
      exact ⟨i', j, hi', hj.row_tail hacyclic, by omega⟩
    · obtain ⟨fs, tail, rfl⟩ := eq_record_of_isRecord hb
      obtain ⟨j', rfl, hj'⟩ := hj.record_tail hacyclic resolve_record
      exact ⟨i, j', hi.row_tail hacyclic, hj', by omega⟩
  · exact .of_lt le_rfl (hf₁.within hr₁.acyclic hlow.1) (hf₁.within hr₁.acyclic hlow.2) hlt
      (by omega)

end

/-- After the shared fields of two rows there is fuel for another step. -/
theorem fuel_pos (h : r.Ready N H (n + 1) (.rows a b)) : ∃ m, n = m + 1 := by
  have hacyclic := h.wellFormed.acyclic
  obtain ⟨hrecord, i, j, hi, hj, hn⟩ := h.affords
  rcases hrecord with ha | hb
  · obtain ⟨fs, tail, rfl⟩ := eq_record_of_isRecord ha
    obtain ⟨i', rfl, -⟩ := hi.record_tail hacyclic resolve_record
    exact ⟨n - 1, by omega⟩
  · obtain ⟨fs, tail, rfl⟩ := eq_record_of_isRecord hb
    obtain ⟨j', rfl, -⟩ := hj.record_tail hacyclic resolve_record
    exact ⟨n - 1, by omega⟩

end Registry.Ready

/-! ## The run with fuel is a derivation -/

/-- A record has met an open variable after one step. -/
theorem flex_record_solved (hv : s.registry.binding? v = none) (fs : Table Ty) (rest : Ty) :
    Solved s.registry v (.record fs rest) ((unifyN (n + 1) (.flex v) (.record fs rest)).ends s).1
      ((unifyN (n + 1) (.flex v) (.record fs rest)).ends s).2 := by
  rw [unifyN, ends_bind]
  simp only [run_registry]
  rw [resolve_none hv, resolve_record]
  exact solve_solved (s := { s with log := s.log.push _ }) hv _

/-- What follows when the shared fields of two rows have met. -/
def Remainder.run (n : Nat) (a b : Ty) : Remainder → Check TypeError Unit
  | .again => unifyRowsN n a b
  | .tails t u => unifyN n t u
  | .extend v fs rest => unifyN n (.flex v) (.record fs rest)
  | .split v w fs gs => do
      let rest ← freshVar
      unifyN n (.flex v) (.record fs rest)
      unifyN n (.flex w) (.record gs rest)
  | .clash => mismatch a b

theorem unifyRowsN_succ (n : Nat) (a b : Ty) :
    unifyRowsN (n + 1) a b = (do
      let r ← registry
      forM ((r.row a).shared (r.row b)) fun p => unifyN n p.1 p.2
      let r₁ ← registry
      (r.remainder r₁ a b).run n a b) := by
  rfl

section

variable {N H n : Nat}

/-- Pairs of types meet one after the other until one fails. -/
theorem all_ends (types : ∀ a b s, s.registry.Ready N H n (.types a b) → (Task.types a b).Ends n s)
    (pairs : List (Ty × Ty)) (s : State) (h : s.registry.Ready N H n (.all pairs)) :
    (Task.all pairs).Ends n s := by
  induction pairs generalizing s with
  | nil => exact .nil
  | cons p pairs ih =>
    obtain ⟨a, b⟩ := p
    have hhead : Unifies s.registry (.types a b) _ _ := types a b s
      ⟨h.wellFormed, ⟨.type, (forall_mem_cons.mp h.kinded).1⟩, h.fits,
        (Task.forall_cons.mp h.low).1,
        h.affords (a, b) mem_cons_self⟩
    unfold Task.Ends
    rw [Task.run, forM_cons, ends_bind]
    rw [Task.run, ends] at hhead
    cases hrun : (unifyN n a b).run s with
    | ok u s₁ =>
      rw [hrun] at hhead
      exact .cons hhead (ih s₁ (h.next hhead))
    | error e s₁ =>
      rw [hrun] at hhead
      exact .stop hhead

section

variable (hall : ∀ pairs s, s.registry.Ready N H n (.all pairs) → (Task.all pairs).Ends n s)
  (htypes : ∀ a b s, s.registry.Ready N H n (.types a b) → (Task.types a b).Ends n s)
  (hrows : ∀ a b s, s.registry.Ready N H n (.rows a b) → (Task.rows a b).Ends n s)
  {a b : Ty} {s : State}
include hall htypes hrows

theorem types_ends (h : s.registry.Ready N H (n + 1) (.types a b)) :
    (Task.types a b).Ends (n + 1) s := by
  unfold Task.Ends
  rw [Task.run, unifyN, ends_bind]
  simp only [run_registry]
  rw [ends_bind]
  simp only [run_emit]
  generalize hs' : ({ registry := s.registry, log := _ } : State) = s'
  have hreg : s'.registry = s.registry := by rw [← hs']
  rw [← hreg]
  rw [← hreg] at h
  cases meet : (s'.registry.resolve a).meet (s'.registry.resolve b) with
  | same => exact .same meet
  | solve v t => exact .solve meet (solve_solved (h.wellFormed.acyclic.solve_open meet) t)
  | expand t u => exact .expand meet (htypes t u s' (h.expand meet))
  | children pairs ragged =>
    have hall : Unifies s'.registry (.all pairs) _ _ := hall pairs s' (h.children meet)
    rw [Task.run, ends] at hall
    rw [ends_bind]
    cases hrun : (forM pairs fun p => unifyN n p.1 p.2).run s' with
    | ok u s₁ =>
      rw [hrun] at hall
      cases ragged with
      | false => exact .children meet hall (by simp)
      | true => exact .ragged meet hall
    | error e s₁ =>
      rw [hrun] at hall
      exact .children meet hall (by simp)
  | rows => exact .rows meet (hrows _ _ s' (h.rows meet))
  | clash => exact .clash meet

theorem rows_ends (h : s.registry.Ready N H (n + 1) (.rows a b)) :
    (Task.rows a b).Ends (n + 1) s := by
  have hshared : Unifies s.registry (.all _) _ _ := hall _ s h.shared
  unfold Task.Ends
  rw [Task.run, unifyRowsN_succ, ends_bind]
  simp only [run_registry]
  rw [ends_bind]
  rw [Task.run, ends] at hshared
  generalize (forM ((s.registry.row a).shared (s.registry.row b))
    fun p => unifyN n p.1 p.2 : Check TypeError Unit).run s = result at hshared ⊢
  cases result with
  | error e s₁ => exact .fields hshared
  | ok u s₁ =>
    have hr₁ := (h.after_shared hshared).1.acyclic
    simp only
    rw [ends_bind]
    simp only [run_registry]
    -- what remains is read off the registry that the shared fields have left
    cases left : s.registry.remainder s₁.registry a b with
    | again => exact .again hshared left (hrows a b s₁ (h.again hshared left))
    | tails t u => exact .tails hshared left (htypes t u s₁ (h.tails hshared left))
    | extend v fs rest =>
      obtain ⟨m, rfl⟩ := h.fuel_pos
      exact .extend hshared left (flex_record_solved (hr₁.extend_open left) fs rest)
    | split v w fs gs =>
      obtain ⟨m, rfl⟩ := h.fuel_pos
      obtain ⟨hv, hw, hne⟩ := hr₁.split_open left
      rw [Remainder.run, ends_bind]
      simp only [run_freshVar]
      have hmine := flex_record_solved (n := m)
        (s := { s₁ with registry := s₁.registry.addVar }) (by simpa using hv) fs
        (.flex s₁.registry.varCount)
      rw [ends_bind]
      rw [ends] at hmine
      generalize (unifyN (m + 1) (.flex v) (.record fs (.flex s₁.registry.varCount))).run
        { s₁ with registry := s₁.registry.addVar } = result at hmine ⊢
      cases result with
      | error e s₂ => exact .splitStop hshared left hmine
      | ok u s₂ =>
        have hw₂ : s₂.registry.binding? w = none := hmine.open_of_ne (by simpa using hw) hne
        exact .split hshared left hmine (flex_record_solved hw₂ gs _)
    | clash => exact .lacking hshared left

end

/-- Where the fuel suffices, a run ends by itself. -/
theorem ready_ends (n : Nat) :
    (∀ a b s, s.registry.Ready N H n (.types a b) → (Task.types a b).Ends n s) ∧
      ∀ a b s, s.registry.Ready N H n (.rows a b) → (Task.rows a b).Ends n s := by
  -- one step of fuel less is what a task that remains can afford
  induction n with
  | zero =>
    constructor
    · rintro a b s h
      obtain ⟨i, j, -, -, hn⟩ := h.affords
      omega
    · rintro a b s h
      obtain ⟨-, i, j, -, -, hn⟩ := h.affords
      omega
  | succ n ih =>
    obtain ⟨htypes, hrows⟩ := ih
    have hall := all_ends htypes
    exact ⟨fun a b s h => types_ends hall htypes hrows h,
      fun a b s h => rows_ends hall htypes hrows h⟩

end

/-- The bound on the fuel, for `o` open ones of `v` variables and the height `h`. -/
theorem fuel_bound {o h : Nat} (ho : o ≤ v) :
    o * (4 * ((v + o + 1) * (h + o)) + 2) +
        2 * ((v + o + 1) * (h + o) + (v + o + 1) * (h + o)) + 2 ≤
      16 * (v + 1) * (v + 1) * (h + (v + 1)) := by
  generalize hX : (v + 1) * (h + (v + 1)) = X
  generalize hD : (v + o + 1) * (h + o) = D
  have hDX : D ≤ 2 * X := by
    rw [← hD, ← hX, ← Nat.mul_assoc]
    exact Nat.mul_le_mul (by omega) (by omega)
  have hX1 : 1 ≤ X := hX ▸ Nat.mul_pos (by omega) (by omega)
  calc o * (4 * D + 2) + 2 * (D + D) + 2 = (o + 1) * (4 * D + 2) := by ring
    _ ≤ (v + 1) * (16 * X) := Nat.mul_le_mul (by omega) (by omega)
    _ = 16 * (v + 1) * (v + 1) * (h + (v + 1)) := by rw [← hX]; ring

/-- The fuel that unification starts with is enough. -/
theorem unifyFuel_ready (hr : r.WellFormed AnyKind) (ha : a.Covered) (hb : b.Covered)
    (hn : r.unifyFuel a b ≤ n) :
    r.Ready (r.varCount + r.openCount) (max r.maxHeight (max a.height b.height) + r.openCount) n
      (.types a b) := by
  have hopen := r.openCount_le
  generalize hh : max r.maxHeight (max a.height b.height) = h
  have hfits : r.Fits (r.varCount + r.openCount) (h + r.openCount) :=
    ⟨le_rfl, fun v t hv => by have := height_le_maxHeight hv; unfold Low; omega⟩
  have hlow : (Task.types a b).Forall (r.Low (h + r.openCount)) := by
    constructor <;> (unfold Low; omega)
  refine ⟨hr, ⟨.type, ha, hb⟩, hfits, hlow, _, _, hfits.within hr.acyclic hlow.1,
    hfits.within hr.acyclic hlow.2, le_trans ?_ hn⟩
  rw [unifyFuel, hh]
  exact fuel_bound hopen

/-- Unification over a well-formed registry is a run that ends by itself. -/
theorem unify_unifies (hr : s.registry.WellFormed AnyKind) (ha : a.Covered) (hb : b.Covered) :
    Unifies s.registry (.types a b) ((unify a b).ends s).1 ((unify a b).ends s).2 := by
  rw [unify, ends_bind]
  exact (ready_ends (s.registry.unifyFuel a b)).1 a b s (unifyFuel_ready hr ha hb le_rfl)

/-- Reading through the bindings ends: every path is finite, what resolution
gives is not bound, what a row ends in is no record, and every traversal is the
solution of its own recursion, without fuel. -/
structure Registry.ReadingEnds (r : Registry) : Prop where
  depth : ∀ t, ∃ d, r.Within d t
  resolve : ∀ t, r.Resolved (r.resolve t)
  row : ∀ t, r.Resolved (r.row t).tail ∧ (r.row t).tail.isRecord = false
  resolveDeep : ∀ t, r.resolveDeep t = r.deepStep r.resolveDeep t
  occurs : ∀ v t, r.occurs v t = r.occursStep v (r.occurs v) t
  sameShape : ∀ t u, r.sameShape t u = r.shapeStep r.sameShape t u

theorem Registry.Acyclic.readingEnds (hr : r.Acyclic) : r.ReadingEnds where
  depth t := ⟨_, within_fuel hr t⟩
  resolve := resolved_resolve hr
  row := row_tail hr
  resolveDeep := resolveDeep_eq hr
  occurs := occurs_eq hr
  sameShape := sameShape_eq hr

/-- Unification over acyclic bindings ends by itself, with the fuel it starts
with and with any more, and leaves acyclic bindings, whether it succeeds or
fails; so reading through them ends as well. -/
theorem unify_ends_and_keeps_acyclic {s : State} {a b : Ty} (hr : s.registry.Acyclic)
    (hcov : s.registry.AllBindings Ty.Covered) (ha : a.Covered) (hb : b.Covered) :
    Unifies s.registry (.types a b) ((unify a b).ends s).1 ((unify a b).ends s).2 ∧
      (∀ n, s.registry.unifyFuel a b ≤ n → (Task.types a b).Ends n s) ∧
      ((unify a b).ends s).2.Acyclic ∧ ((unify a b).ends s).2.ReadingEnds := by
  have hwf := Registry.WellFormed.of_covered hr hcov
  have hrun := unify_unifies hwf ha hb
  obtain ⟨hr', -⟩ := hrun.keeps kinding_anyKind (.anyKind hwf ⟨.type, ha, hb⟩)
  refine ⟨hrun, fun n hn => ?_, hr'.acyclic, hr'.acyclic.readingEnds⟩
  exact (ready_ends n).1 a b s (unifyFuel_ready hwf ha hb hn)

/-- Two open records, one behind a synonym, each with a field for the other's
tail, over a registry with a binding. -/
theorem unify_open_records_ends :
    let s : State := ⟨({} : Registry).addVar.addVar.addVar.setBinding 2 (.arrow .int .bool), #[]⟩
    let a : Ty := .record [("x", .flex 2)] (.flex 0)
    let b : Ty := .synonym 0 ["p"] [.flex 2] (.record [("y", .flex 2)] (.flex 1))
    ((unify a b).ends s).2.varCount = 4 ∧ ((unify a b).ends s).2.Acyclic ∧
      ((unify a b).ends s).2.ReadingEnds := by
  intro s a b
  obtain ⟨-, -, hacyclic, hreads⟩ := unify_ends_and_keeps_acyclic (s := s) (a := a) (b := b)
    (Registry.acyclic_setBinding (by simp) (by simp [Ty.Scoped, Ty.Mentions, Ty.occurrences]))
    (Registry.forall_setBinding (by simp) (by simp))
    (by simp [a]) (by simp [b, Ty.ParamsInTarget, Ty.Mentions, Ty.occurrences])
  exact ⟨by decide +kernel, hacyclic, hreads⟩

end RowTyping
