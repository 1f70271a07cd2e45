import RowTyping.Proofs.LastingErrors
import RowTyping.Proofs.Termination
import RowTyping.Proofs.Twins

/-!
# The order of unification does not matter

Several pairs of types are unified one after the other. Whether all succeed does
not depend on the order of the pairs, nor on the order of the two types of a pair,
and when they do, the types over the variables that were there before have the same
shape in either registry. For what the runs leave has the same solutions on these
variables: those of the registry from the start that make every pair equal.
-/

namespace RowTyping

open Check Registry List Ty

/-- Unifies the pairs one after the other, until one of them fails. -/
def unifyAll (pairs : List (Ty × Ty)) : Check TypeError Unit := forM pairs fun p => unify p.1 p.2

/-- Unification of pairs over a well-formed registry is a run that ends by itself. -/
theorem unifyAll_unifies {pairs : List (Ty × Ty)} {s : State} (hr : s.registry.WellFormed AnyKind)
    (hpairs : ∀ p ∈ pairs, p.1.Covered ∧ p.2.Covered) :
    Unifies s.registry (.all pairs) ((unifyAll pairs).ends s).1 ((unifyAll pairs).ends s).2 := by
  induction pairs generalizing s with
  | nil => exact .nil
  | cons p pairs ih =>
    obtain ⟨⟨ha, hb⟩, hrest⟩ := forall_mem_cons.mp hpairs
    have hhead := unify_unifies hr ha hb
    rw [unifyAll, forM_cons, ends_bind]
    rw [ends] at hhead
    cases hrun : (unify p.1 p.2).run s with
    | ok u s₁ =>
      rw [hrun] at hhead
      have hk : KindedRun AnyKind s.registry (.types p.1 p.2) s₁.registry :=
        .anyKind hr ⟨.type, ha, hb⟩
      exact .cons hhead (ih (hhead.keeps kinding_anyKind hk).1 hrest)
    | error e s₁ =>
      rw [hrun] at hhead
      exact .stop hhead

/-- The two types are related to two others, in the same order or crosswise. -/
inductive Paired (R : Ty → Ty → Prop) (a b : Ty) : Ty → Ty → Prop where
  | straight {x y : Ty} (ha : R a x) (hb : R b y) : Paired R a b x y
  | crossed {x y : Ty} (ha : R a x) (hb : R b y) : Paired R a b y x

/-- The pairs of two lists are related, each in its own order. -/
def AllPaired (R : Ty → Ty → Prop) : List (Ty × Ty) → List (Ty × Ty) → Prop :=
  List.Forall₂ fun p q => Paired R p.1 p.2 q.1 q.2

/-- The same pairs in another order, each one either way round. -/
def Reordered (pairs pairs' : List (Ty × Ty)) : Prop :=
  ∃ ps, pairs.Perm ps ∧ AllPaired (· = ·) ps pairs'

/-- The pairs of the second list are among those of the first. -/
theorem Reordered.mem {pairs pairs' : List (Ty × Ty)} (h : Reordered pairs pairs') {q : Ty × Ty}
    (hq : q ∈ pairs') : q ∈ pairs ∨ q.swap ∈ pairs := by
  obtain ⟨ps, hperm, hpaired⟩ := h
  rw [hperm.mem_iff, hperm.mem_iff]
  clear hperm
  induction hpaired with
  | nil => simp at hq
  | @cons p q' _ _ hpq _ ih =>
    rcases mem_cons.mp hq with rfl | hq
    · obtain ⟨a, b⟩ := p
      obtain ⟨x, y⟩ := q
      cases hpq with
      | straight ha hb =>
        obtain ⟨rfl, rfl⟩ : a = x ∧ b = y := ⟨ha, hb⟩
        exact .inl mem_cons_self
      | crossed ha hb =>
        obtain ⟨rfl, rfl⟩ : a = y ∧ b = x := ⟨ha, hb⟩
        exact .inr mem_cons_self
    · exact (ih hq).imp (mem_cons_of_mem _) (mem_cons_of_mem _)

theorem Reordered.symm {pairs pairs' : List (Ty × Ty)} (h : Reordered pairs pairs') :
    Reordered pairs' pairs := by
  obtain ⟨ps, hperm, hpaired⟩ := h
  obtain ⟨qs, hqs, hperm'⟩ := perm_comp_forall₂ hperm hpaired
  refine ⟨qs, hperm'.symm, hqs.flip.imp fun q p hpq => ?_⟩
  cases hpq with
  | straight ha hb => exact .straight ha.symm hb.symm
  | crossed ha hb => exact .crossed hb.symm ha.symm

section

variable {E : Prop} {K : Nat → Kind} {φ : Nat → Finset String} {r r₁ r₂ : Registry}
  {pairs pairs' : List (Ty × Ty)}

/-- A solution of a registry solves those that it extends. -/
theorem Registry.Posed.of_extends {θ : Nat → Ty} (h : r₁.Posed K θ) (hex : r.Extends r₁)
    (hr : r.WellFormed (PlainKind K r.varCount)) (hlater : ∀ v, r.varCount ≤ v → K v = .row) :
    r.Posed K θ where
  later := hlater
  wellFormed := hr
  solution :=
    { ground := fun v hv => h.solution.ground v (hv.trans_le hex.varCount_le)
      rows := fun v hv => h.solution.rows v (hv.trans_le hex.varCount_le)
      satisfies := h.solution.satisfies.of_extends hex
      apart := fun v t hv => h.solution.apart v t (hex.binding v t hv) }

/-- What a run of the pairs leaves, when it succeeds. -/
theorem Unifies.rowCoherent (hr : r.RowCoherent E K φ) (hlater : ∀ v, r.varCount ≤ v → K v = .row)
    (hpairs : ∀ p ∈ pairs, p.1.HasRole E K φ r .type ∧ p.2.HasRole E K φ r .type)
    (h : Unifies r (.all pairs) (.ok ()) r₁) :
    ∃ φ₁, Continues E K r φ r₁ φ₁ ∧ r₁.RowCoherent E K φ₁ ∧
      ∀ θ, r₁.Satisfies K θ → ∀ p ∈ pairs, p.1.value θ = p.2.value θ := by
  have hk : KindedRun (SimpleKind E K r₁.varCount) r (.all pairs) r₁ :=
    { wellFormed := hr.wellFormed h.varCount_le
      kinded := fun p hp => ⟨(hpairs p hp).1.simple.mono h.varCount_le,
        (hpairs p hp).2.simple.mono h.varCount_le⟩
      fresh := fun v hv hlt => ⟨.flex (hlater v hv), (all_var _).mpr hlt⟩ }
  have hP := kinding_simple E K r₁.varCount
  obtain ⟨φ₁, hc⟩ := h.settles hP hk hlater hpairs
  exact ⟨φ₁, hc, hc.rowCoherent hr (h.keeps hP hk).1.acyclic,
    fun θ sat => h.sound hP (fun h => h.1) rfl hk sat⟩

/-- If one run succeeds, so does every run of pairs that it makes equal, and the
solutions of the first registry extend to the second. -/
theorem Unifies.joint (hr : r.RowCoherent E K φ) (hlater : ∀ v, r.varCount ≤ v → K v = .row)
    (hpairs : ∀ p ∈ pairs, p.1.HasRole E K φ r .type ∧ p.2.HasRole E K φ r .type)
    (h : Unifies r (.all pairs) (.ok ()) r₁) {out : Except TypeError Unit}
    (h' : Unifies r (.all pairs') out r₂) (hsub : ∀ q ∈ pairs', q ∈ pairs ∨ q.swap ∈ pairs) :
    out = .ok () ∧ ∀ N, ∃ η, Joint K r.varCount r₁ r₂ (r₁.rigid N) η := by
  obtain ⟨φ₁, hc, hr₁, hsame⟩ := h.rowCoherent hr hlater hpairs
  have hposed := hr₁.posed_rigid fun v hv => hlater v (h.varCount_le.trans hv)
  have hposed₀ := fun N => (hposed N).of_extends hc.grows hr.plain hlater
  have halike : ∀ N, (Posing.system K).Holds ⟨r, _, hposed₀ N⟩ (.all pairs') := by
    intro N q hq
    have hproper : ∀ {t : Ty}, t.HasRole E K φ r .type → Proper K (r₁.rigid N) r.varCount .type t :=
      fun ht => ⟨ht.simple.plainKind, hr₁.apart_rigid (hc.roles ht) N⟩
    rcases hsub q hq with hp | hp
    · exact ⟨hproper (hpairs q hp).1, hproper (hpairs q hp).2,
        hsame _ (hposed N).solution.satisfies q hp⟩
    · exact ⟨hproper (hpairs _ hp).2, hproper (hpairs _ hp).1,
        (hsame _ (hposed N).solution.satisfies _ hp).symm⟩
  refine ⟨(h'.complete (hposed₀ 0) (halike 0)).1, fun N => ?_⟩
  obtain ⟨-, η, hη, hposed₂⟩ := h'.complete (hposed₀ N) (halike N)
  exact ⟨η, hposed N, hposed₂, fun v hv => (hη v hv).symm⟩

/-- Two runs of the same pairs leave registries in which the types over the first
variables have the same shapes. -/
theorem Unifies.sameShape_eq (hr : r.RowCoherent E K φ)
    (hlater : ∀ v, r.varCount ≤ v → K v = .row) (hE : ¬ E)
    (hpairs : ∀ p ∈ pairs, p.1.HasRole E K φ r .type ∧ p.2.HasRole E K φ r .type)
    (hpairs' : ∀ p ∈ pairs', p.1.HasRole E K φ r .type ∧ p.2.HasRole E K φ r .type)
    (h : Unifies r (.all pairs) (.ok ()) r₁) (h' : Unifies r (.all pairs') (.ok ()) r₂)
    (hsub : ∀ q ∈ pairs', q ∈ pairs ∨ q.swap ∈ pairs)
    (hsub' : ∀ q ∈ pairs, q ∈ pairs' ∨ q.swap ∈ pairs') {t u : Ty} (ht : t.Scoped r.varCount)
    (hu : u.Scoped r.varCount) : r₁.sameShape t u = r₂.sameShape t u := by
  obtain ⟨φ₁, hc₁, hr₁, -⟩ := h.rowCoherent hr hlater hpairs
  obtain ⟨φ₂, hc₂, hr₂, -⟩ := h'.rowCoherent hr hlater hpairs'
  have hre : Equisolvable E K r.varCount r₁ r₂ :=
    { left := hr₁.wellFormed le_rfl
      right := hr₂.wellFormed le_rfl
      rigidLeft := (h.joint hr hlater hpairs h' hsub).2
      rigidRight := fun N =>
        ((h'.joint hr hlater hpairs' h hsub').2 N).imp fun _ hj => hj.symm }
  exact (matching_counterpart hc₁ hc₂ hre hE hr).sameShape (.known ht) (.known hu)

end

/-- Unification of several pairs of types does not depend on their order, nor on the
order within the pairs. The registry and the pairs are row-coherent: they are well
scoped and without synonyms, the bindings have no cycle, variables are rows or types
of values as `K` says, no label repeats along a record, and all records that end in
the same open variable have the labels that `φ` gives for it. Then all pairs are
unified with success in one order exactly if they are in the other. If moreover
the empty row stands for no type of values, any two types over the variables of the
registry, whether they are coherent or not, have the same shape after one run exactly
if they have after the other. -/
theorem unifyAll_reordered {E : Prop} {K : Nat → Kind} {φ : Nat → Finset String} {s : State}
    {pairs pairs' : List (Ty × Ty)} (hr : s.registry.RowCoherent E K φ)
    (hpairs : ∀ p ∈ pairs, p.1.HasRole E K φ s.registry .type ∧ p.2.HasRole E K φ s.registry .type)
    (hre : Reordered pairs pairs') :
    (((unifyAll pairs).ends s).1 = .ok () ↔ ((unifyAll pairs').ends s).1 = .ok ()) ∧
    (¬ E → ((unifyAll pairs).ends s).1 = .ok () → ∀ t u, t.Scoped s.registry.varCount →
      u.Scoped s.registry.varCount →
      ((unifyAll pairs).ends s).2.sameShape t u = ((unifyAll pairs').ends s).2.sameShape t u) := by
  -- beyond the registry all variables are those that runs issue: rows
  have hK : ∀ v, v < s.registry.varCount → Kind.upTo s.registry.varCount K v = K v :=
    fun v hv => if_pos hv
  have hlater : ∀ v, s.registry.varCount ≤ v → Kind.upTo s.registry.varCount K v = .row :=
    fun v hv => if_neg (Nat.not_lt.mpr hv)
  replace hr := hr.congr hK
  replace hpairs := fun p hp => (hpairs p hp).imp (·.congr hK) (·.congr hK)
  have hpairs' : ∀ p ∈ pairs',
      p.1.HasRole E (Kind.upTo s.registry.varCount K) φ s.registry .type ∧
        p.2.HasRole E (Kind.upTo s.registry.varCount K) φ s.registry .type :=
    fun p hp => (hre.mem hp).elim (hpairs p) fun hp => (hpairs _ hp).symm
  have hruns : ∀ {ps : List (Ty × Ty)}, (∀ p ∈ ps,
      p.1.HasRole E (Kind.upTo s.registry.varCount K) φ s.registry .type ∧
        p.2.HasRole E (Kind.upTo s.registry.varCount K) φ s.registry .type) →
      Unifies s.registry (.all ps) ((unifyAll ps).ends s).1 ((unifyAll ps).ends s).2 :=
    fun hps => unifyAll_unifies (.of_covered hr.acyclic hr.covered) fun p hp =>
      ⟨(hps p hp).1.covered, (hps p hp).2.covered⟩
  have hrun := hruns hpairs
  have hrun' := hruns hpairs'
  generalize ((unifyAll pairs).ends s).1 = out at hrun ⊢
  generalize ((unifyAll pairs').ends s).1 = out' at hrun' ⊢
  have hok : out = .ok () → out' = .ok () := by
    rintro rfl
    exact (hrun.joint hr hlater hpairs hrun' fun q hq => hre.mem hq).1
  have hok' : out' = .ok () → out = .ok () := by
    rintro rfl
    exact (hrun'.joint hr hlater hpairs' hrun fun q hq => hre.symm.mem hq).1
  refine ⟨⟨hok, hok'⟩, fun hE hout t u ht hu => ?_⟩
  obtain rfl := hok hout
  subst hout
  exact hrun.sameShape_eq hr hlater hE hpairs hpairs' hrun' (fun q hq => hre.mem hq)
    (fun q hq => hre.symm.mem hq) ht hu

/-- Two open records, one of them spread over a binding, and a variable that has to
become both of them, in either order. -/
theorem unifyAll_open_records_reordered :
    let s : State :=
      ⟨({} : Registry).addVar.addVar.addVar.addVar.setBinding 3 (.record [("z", .int)] (.flex 0)),
        #[]⟩
    let a : Ty := .record [("x", .int)] (.flex 3)
    let b : Ty := .record [("y", .bool)] (.flex 1)
    let pairs : List (Ty × Ty) := [(.flex 2, a), (b, .flex 2)]
    let pairs' : List (Ty × Ty) := [(.flex 2, b), (.flex 2, a)]
    ((unifyAll pairs).ends s).1 = .ok () ∧ ((unifyAll pairs').ends s).1 = .ok () ∧
      ((unifyAll pairs).ends s).2.sameShape a b = ((unifyAll pairs').ends s).2.sameShape a b := by
  intro s a b pairs pairs'
  let K : Nat → Kind := fun v => if v = 2 then .type else .row
  let φ : Nat → Finset String := fun v => if v = 0 then {"x", "z"} else {"y"}
  have hbase : ∀ c : Base, (Ty.base c).HasRole False K φ s.registry .type :=
    fun c => .con (by simp) (by simp)
  have hrest : (Ty.record [("z", .int)] (.flex 0)).HasRole False K φ s.registry (.rest {"x"}) := by
    refine .record (by simp [Table.Sorted]) (by simp [Role.front]) (by simpa using hbase .int) ?_
    exact .free (by decide) (by decide) (congrArg Role.rest (by decide))
  have ha : a.HasRole False K φ s.registry .type := by
    refine .record (by simp [Table.Sorted]) (by simp [Role.front]) (by simpa using hbase .int) ?_
    exact .bound (by decide) rfl hrest
  have hb : b.HasRole False K φ s.registry .type := by
    refine .record (by simp [Table.Sorted]) (by simp [Role.front]) (by simpa using hbase .bool) ?_
    exact .free (by decide) (by decide) (congrArg Role.rest (by decide))
  have hv : (Ty.flex 2).HasRole False K φ s.registry .type := .free (by decide) (by decide) rfl
  have hr : s.registry.RowCoherent False K φ :=
    ⟨acyclic_setBinding (by simp) (by simp [Ty.Scoped, Ty.Mentions, Ty.occurrences]),
      forall_setBinding (by simp) ⟨{"x"}, hrest⟩⟩
  have hpairs : ∀ p ∈ pairs,
      p.1.HasRole False K φ s.registry .type ∧ p.2.HasRole False K φ s.registry .type := by
    simp [pairs, ha, hb, hv]
  have hre : Reordered pairs pairs' := by
    refine ⟨[(b, .flex 2), (.flex 2, a)], .swap _ _ _, ?_⟩
    exact .cons (.crossed rfl rfl) (.cons (.straight rfl rfl) .nil)
  have hok : ((unifyAll pairs).ends s).1 = .ok () := by decide +kernel
  have h := unifyAll_reordered hr hpairs hre
  exact ⟨hok, h.1.mp hok, h.2 id hok a b ha.plain.scoped hb.plain.scoped⟩

/-- With the empty row as a type of values the order matters: it and the record
without fields are unified with success either way, but the variable that is unified
with both of them is bound to the one that comes first, and they do not have the same
shape. -/
theorem unifyAll_emptyRow_order :
    let s : State := ⟨({} : Registry).addVar, #[]⟩
    let pairs : List (Ty × Ty) := [(.flex 0, .record [] .emptyRow), (.flex 0, .emptyRow)]
    let pairs' : List (Ty × Ty) := [(.flex 0, .emptyRow), (.flex 0, .record [] .emptyRow)]
    Reordered pairs pairs' ∧
      (∃ K φ, s.registry.RowCoherent True K φ ∧ ∀ p ∈ pairs,
        p.1.HasRole True K φ s.registry .type ∧ p.2.HasRole True K φ s.registry .type) ∧
      ((unifyAll pairs).ends s).1 = .ok () ∧ ((unifyAll pairs').ends s).1 = .ok () ∧
      ((unifyAll pairs).ends s).2.sameShape (.flex 0) .emptyRow = false ∧
      ((unifyAll pairs').ends s).2.sameShape (.flex 0) .emptyRow = true := by
  intro s pairs pairs'
  have hre : Reordered pairs pairs' := by
    refine ⟨[(.flex 0, .emptyRow), (.flex 0, .record [] .emptyRow)], .swap _ _ _, ?_⟩
    exact .cons (.straight rfl rfl) (.cons (.straight rfl rfl) .nil)
  refine ⟨hre, ⟨fun _ => .type, fun _ => ∅, ⟨acyclic_of_scoped ?_, ?_⟩, ?_⟩, by decide +kernel,
    by decide +kernel, by decide +kernel, by decide +kernel⟩
  · simp [s]
  · simp [s]
  · have hv : (Ty.flex 0).HasRole True (fun _ => .type) (fun _ => ∅) s.registry .type :=
      .free (by decide) (by decide) rfl
    have hempty : ∀ k, Ty.emptyRow.HasRole True (fun _ => .type) (fun _ => ∅) s.registry k :=
      fun k => .emptyRow (.inr trivial)
    have hrecord : (Ty.record [] .emptyRow).HasRole True (fun _ => .type) (fun _ => ∅) s.registry
        .type :=
      .record (by simp [Table.Sorted]) (by simp) (by simp) (hempty _)
    simp [pairs, hv, hempty, hrecord]

end RowTyping
