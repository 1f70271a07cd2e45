import RowTyping.Proofs.Bindings
import RowTyping.Proofs.Tables

/-!
# Reading through bindings without a cycle

Over bindings without a cycle every chain of variables ends, and so does every
path that goes on from a resolved type to one of its parts. The fuel of the
reading functions then never runs out, and each of them satisfies the equation
it would have without fuel.
-/

namespace RowTyping

open Table Ty List Option Function

namespace Registry

variable {r : Registry} {t u tail : Ty} {n m v d : Nat} {fs : Table Ty} {f g : Ty → Ty → Bool}

/-! ## Following variables -/

@[simp] theorem follow_of_not_flex (ht : ∀ v, t ≠ .flex v) (n : Nat) : r.follow n t = t := by
  cases n with
  | zero => rfl
  | succ n =>
    cases t with
    | var x =>
      cases x with
      | flex v => exact absurd rfl (ht v)
      | gen g => rfl
    | _ => rfl

/-- Fuel above a number that falls along bindings to variables makes no
difference. -/
theorem follow_stable_of {rank : Nat → Nat} (hpos : ∀ {v t}, r.binding? v = some t → 0 < rank v)
    (hlt : ∀ {v w}, r.binding? v = some (.flex w) → rank w < rank v) (hn : rank v ≤ n)
    (hm : rank v ≤ m) : r.follow n (.flex v) = r.follow m (.flex v) := by
  induction n generalizing m v with
  | zero =>
    cases hb : r.binding? v with
    | some t =>
      have := hpos hb
      omega
    | none => cases m <;> simp [follow, hb]
  | succ n ih =>
    cases hb : r.binding? v with
    | none => cases m <;> simp [follow, hb]
    | some t =>
      obtain ⟨m, rfl⟩ := Nat.exists_eq_add_one.mpr (Nat.lt_of_lt_of_le (hpos hb) hm)
      simp only [follow, hb]
      by_cases ht : ∃ w, t = .flex w
      · obtain ⟨w, rfl⟩ := ht
        have := hlt hb
        exact ih (by omega) (by omega)
      · have ht' : ∀ w, t ≠ .flex w := fun w h => ht ⟨w, h⟩
        rw [follow_of_not_flex ht', follow_of_not_flex ht']

/-- Fuel above the rank of a variable makes no difference. -/
theorem follow_stable (hr : r.Acyclic) (hn : r.rank v ≤ n) (hm : r.rank v ≤ m) :
    r.follow n (.flex v) = r.follow m (.flex v) :=
  follow_stable_of rank_pos (fun hb => rank_lt hr ⟨_, hb, mentions_flex.mpr rfl⟩) hn hm

@[simp] theorem resolve_of_not_flex (ht : ∀ v, t ≠ .flex v) : r.resolve t = t :=
  follow_of_not_flex ht _

theorem resolve_gen {g : Nat} : r.resolve (.gen g) = .gen g :=
  resolve_of_not_flex (by simp)

theorem resolve_con {c : Con} {ts : List Ty} : r.resolve (.con c ts) = .con c ts :=
  resolve_of_not_flex (by simp)

theorem resolve_record {fs : Table Ty} {t : Ty} : r.resolve (.record fs t) = .record fs t :=
  resolve_of_not_flex (by simp)

theorem resolve_synonym {id : Nat} {labels : List String} {params : List Ty} {t : Ty} :
    r.resolve (.synonym id labels params t) = .synonym id labels params t :=
  resolve_of_not_flex (by simp)

theorem resolve_module {name : String} {members : Env} :
    r.resolve (.module name members) = .module name members :=
  resolve_of_not_flex (by simp)

theorem resolve_none (h : r.binding? v = none) : r.resolve (.flex v) = .flex v := by
  unfold resolve
  cases r.varCount <;> simp [follow, h]

theorem resolve_some (hr : r.Acyclic) (h : r.binding? v = some t) :
    r.resolve (.flex v) = r.resolve t := by
  obtain ⟨n, hn⟩ := Nat.exists_eq_add_one.mpr (Nat.zero_lt_of_lt (lt_varCount_of_binding? h))
  have hv := rank_le r v
  unfold resolve
  rw [hn]
  simp only [follow, h]
  by_cases ht : ∃ w, t = .flex w
  · obtain ⟨w, rfl⟩ := ht
    have := rank_lt hr ⟨_, h, mentions_flex.mpr rfl⟩
    exact follow_stable hr (by omega) (by omega)
  · have ht' : ∀ w, t ≠ .flex w := fun w h => ht ⟨w, h⟩
    rw [follow_of_not_flex ht', follow_of_not_flex ht']

/-- The type is no bound variable. -/
def Resolved (r : Registry) (t : Ty) : Prop := ∀ v, t = .flex v → r.binding? v = none

theorem Resolved.resolve (h : r.Resolved t) : r.resolve t = t := by
  by_cases ht : ∃ v, t = .flex v
  · obtain ⟨v, rfl⟩ := ht
    exact resolve_none (h v rfl)
  · exact resolve_of_not_flex fun v hv => ht ⟨v, hv⟩

/-- A property of types that passes from a binding back to its variable holds
of all types if it holds of the resolved ones. -/
theorem resolve_induct (hr : r.Acyclic) {motive : Ty → Prop}
    (bound : ∀ v t, r.binding? v = some t → motive t → motive (.flex v))
    (done : ∀ t, r.Resolved t → motive t) (t : Ty) : motive t := by
  suffices h : ∀ n v, r.rank v ≤ n → motive (.flex v) by
    by_cases ht : ∃ v, t = .flex v
    · obtain ⟨v, rfl⟩ := ht
      exact h _ v le_rfl
    · exact done t fun v hv => absurd ⟨v, hv⟩ ht
  intro n
  induction n with
  | zero =>
    intro v hv
    refine done _ fun w hw => ?_
    cases hb : r.binding? w with
    | none => rfl
    | some t =>
      have := rank_pos hb
      cases hw
      omega
  | succ n ih =>
    intro v hv
    cases hb : r.binding? v with
    | none =>
      refine done _ fun w hw => ?_
      cases hw
      exact hb
    | some t =>
      refine bound v t hb ?_
      by_cases ht : ∃ w, t = .flex w
      · obtain ⟨w, rfl⟩ := ht
        have := rank_lt hr ⟨_, hb, mentions_flex.mpr rfl⟩
        exact ih w (by omega)
      · exact done t fun w hw => absurd ⟨w, hw⟩ ht

/-- Resolution ends in an open variable or in no variable at all. -/
theorem resolved_resolve (hr : r.Acyclic) (t : Ty) : r.Resolved (r.resolve t) := by
  induction t using resolve_induct hr with
  | bound v t hb ih => rwa [resolve_some hr hb]
  | done t ht => rwa [ht.resolve]

@[simp] theorem resolve_resolve (hr : r.Acyclic) (t : Ty) : r.resolve (r.resolve t) = r.resolve t :=
  (resolved_resolve hr t).resolve

theorem binding?_of_resolve (hr : r.Acyclic) (h : r.resolve t = .flex v) : r.binding? v = none :=
  resolved_resolve hr t v h

/-! ## How deep a type is once its variables are followed -/

theorem maxHeight_le_iff {h : Nat} :
    r.maxHeight ≤ h ↔ ∀ v t, r.binding? v = some t → t.height ≤ h := by
  have foldl_le : ∀ (cs : List Cell) h₀,
      cs.foldl (fun h c => max h ((c.binding.map height).getD 0)) h₀ ≤ h ↔
        h₀ ≤ h ∧ ∀ c ∈ cs, ∀ t, c.binding = some t → t.height ≤ h := by
    intro cs
    induction cs with
    | nil => simp
    | cons c cs ih =>
      intro h₀
      rw [foldl_cons, ih, Nat.max_le, forall_mem_cons, and_assoc]
      cases c.binding <;> simp
  rw [maxHeight, ← Array.foldl_toList, foldl_le]
  constructor
  · rintro ⟨-, hcs⟩ v t hv
    obtain ⟨c, hc, hb⟩ := bind_eq_some_iff.mp hv
    exact hcs c (Array.mem_toList_iff.mpr (Array.mem_of_getElem? hc)) t hb
  · intro hb
    refine ⟨Nat.zero_le _, fun c hc t ht => ?_⟩
    obtain ⟨v, hv, rfl⟩ := Array.getElem_of_mem (Array.mem_toList_iff.mp hc)
    exact hb v t (by simp [binding?, hv, ht])

theorem height_le_maxHeight (h : r.binding? v = some t) : t.height ≤ r.maxHeight :=
  maxHeight_le_iff.mp le_rfl v t h

/-- No path that goes on from a resolved type to one of its parts has more
than `d` steps. -/
def Within (r : Registry) : Nat → Ty → Prop
  | 0, t => (r.resolve t).children = []
  | d + 1, t => ∀ u ∈ (r.resolve t).children, r.Within d u

theorem Within.succ (h : r.Within d t) : r.Within (d + 1) t := by
  induction d generalizing t with
  | zero =>
    intro u hu
    rw [show (r.resolve t).children = [] from h] at hu
    simp at hu
  | succ d ih => exact fun u hu => ih (h u hu)

theorem Within.mono (h : r.Within d t) (hn : d ≤ n) : r.Within n t := by
  induction hn with
  | refl => exact h
  | step _ ih => exact ih.succ

theorem Within.min (h : r.Within d t) (h' : r.Within n t) : r.Within (min d n) t := by
  rcases Nat.le_total d n with hle | hle
  · rwa [Nat.min_eq_left hle]
  · rwa [Nat.min_eq_right hle]

theorem Within.child (h : r.Within d t) (hu : u ∈ (r.resolve t).children) :
    ∃ k, d = k + 1 ∧ r.Within k u := by
  cases d with
  | zero =>
    rw [show (r.resolve t).children = [] from h] at hu
    simp at hu
  | succ k => exact ⟨k, rfl, h u hu⟩

theorem Within.congr (h : r.Within d t) (htu : r.resolve t = r.resolve u) : r.Within d u := by
  cases d with
  | zero =>
    show (r.resolve u).children = []
    rw [← htu]
    exact h
  | succ d =>
    intro w hw
    rw [← htu] at hw
    exact h w hw

/-- Under variables of depth `m` a term adds at most its height. -/
theorem within_add_height (t : Ty) (h : ∀ w, t.Mentions w → r.Within m (.flex w)) :
    r.Within (m + t.height) t := by
  induction t using induct_children with
  | step t ih =>
    by_cases ht : ∃ w, t = .flex w
    · obtain ⟨w, rfl⟩ := ht
      exact (h w (mentions_flex.mpr rfl)).mono (Nat.le_add_right _ _)
    · have hres : r.resolve t = t := resolve_of_not_flex fun w hw => ht ⟨w, hw⟩
      cases hh : t.height with
      | zero =>
        refine Within.mono ?_ (Nat.zero_le _)
        rw [Within, hres, eq_nil_iff_forall_not_mem]
        intro u hu
        have := height_lt_of_mem_children hu
        omega
      | succ k =>
        have step : ∀ u ∈ (r.resolve t).children, r.Within (m + k) u := by
          intro u hu
          rw [hres] at hu
          have := height_lt_of_mem_children hu
          exact (ih u hu fun w hw => h w (hw.of_child hu)).mono (by omega)
        exact step

theorem within_rank (hr : r.Acyclic) (v : Nat) : r.Within (r.rank v * r.maxHeight) (.flex v) := by
  suffices h : ∀ n v, r.rank v ≤ n → r.Within (n * r.maxHeight) (.flex v) from h _ v le_rfl
  intro n
  induction n with
  | zero =>
    intro v hv
    have hb : r.binding? v = none := by
      cases hb : r.binding? v with
      | none => rfl
      | some t =>
        have := rank_pos hb
        omega
    rw [Nat.zero_mul, Within, resolve_none hb]
    rfl
  | succ n ih =>
    intro v hv
    cases hb : r.binding? v with
    | none =>
      refine Within.mono ?_ (Nat.zero_le _)
      rw [Within, resolve_none hb]
      rfl
    | some t =>
      have step : r.Within (n * r.maxHeight + t.height) t := by
        refine within_add_height t fun w hw => ih w ?_
        have := rank_lt hr ⟨t, hb, hw⟩
        omega
      refine (step.congr (resolve_some hr hb).symm).mono ?_
      have := height_le_maxHeight hb
      rw [Nat.succ_mul]
      omega

/-- Over bindings without a cycle the fuel is more than the depth. -/
theorem within_fuel (hr : r.Acyclic) (t : Ty) :
    r.Within (t.height + r.varCount * r.maxHeight) t := by
  rw [Nat.add_comm]
  refine within_add_height t fun w _ => (within_rank hr w).mono ?_
  exact Nat.mul_le_mul_right _ (rank_le r w)

/-! ## Rows -/

/-- Fuel above a depth that falls along tails makes no difference. -/
theorem collect_stable_of {D : Nat → Ty → Prop}
    (hzero : ∀ {t fs tail}, D 0 t → r.resolve t ≠ .record fs tail)
    (htail : ∀ {n t fs tail}, D (n + 1) t → r.resolve t = .record fs tail → D n tail)
    {fields : Table Ty} (hn : D n t) (hm : D m t) :
    r.collect n fields t = r.collect m fields t := by
  induction n generalizing m fields t with
  | zero =>
    cases m with
    | zero => rfl
    | succ m =>
      simp only [collect]
      split
      · next fs tail heq => exact absurd heq (hzero hn)
      · rfl
  | succ n ih =>
    cases m with
    | zero =>
      simp only [collect]
      split
      · next fs tail heq => exact absurd heq (hzero hm)
      · rfl
    | succ m =>
      simp only [collect]
      split
      · next fs tail heq => exact ih (htail hn heq) (htail hm heq)
      · rfl

theorem collect_stable {fields : Table Ty} (hn : r.Within n t) (hm : r.Within m t) :
    r.collect n fields t = r.collect m fields t := by
  refine collect_stable_of ?_ ?_ hn hm
  · intro t fs tail h heq
    simp [Within, heq, children] at h
  · exact fun h heq => h _ (by simp [heq, children])

/-- Fields that are already collected stay in front. -/
theorem collect_acc (n : Nat) {acc : Table Ty} (hacc : acc.Sorted) (t : Ty) :
    r.collect n acc t = ⟨acc.union (r.collect n [] t).fields, (r.collect n [] t).tail⟩ := by
  induction n generalizing acc t with
  | zero => rfl
  | succ n ih =>
    simp only [collect]
    split
    · next fs tail heq =>
      rw [ih (hacc.union fs) tail, ih (Table.Sorted.nil.union fs) tail]
      simp only [Row.mk.injEq, and_true]
      rw [Table.union_assoc hacc]
      exact Table.union_congr hacc fun k => by simp
    · rfl

theorem row_record (hr : r.Acyclic) (h : r.resolve t = .record fs tail) :
    r.row t = ⟨(union [] fs).union (r.row tail).fields, (r.row tail).tail⟩ := by
  have hw := within_fuel hr t
  obtain ⟨k, hk, htail⟩ := hw.child (u := tail) (by simp [h, children])
  have step : r.row t = r.collect (t.height + r.varCount * r.maxHeight) (union [] fs) tail := by
    unfold row fuel
    simp only [collect, h]
  have enough : r.collect (t.height + r.varCount * r.maxHeight) [] tail = r.row tail :=
    collect_stable (htail.mono (by omega)) (within_fuel hr tail).succ
  rw [step, collect_acc _ (Sorted.nil.union fs), enough]

theorem row_other (h : ∀ fs tail, r.resolve t ≠ .record fs tail) : r.row t = ⟨[], r.resolve t⟩ := by
  unfold row fuel
  simp only [collect]

/-- Induction along the records that a row is collected from. -/
theorem row_induct (hr : r.Acyclic) {motive : Ty → Row → Prop}
    (record : ∀ t fs tail, r.resolve t = .record fs tail → motive tail (r.row tail) →
      motive t ⟨(union [] fs).union (r.row tail).fields, (r.row tail).tail⟩)
    (other : ∀ t, (∀ fs tail, r.resolve t ≠ .record fs tail) → motive t ⟨[], r.resolve t⟩)
    (t : Ty) : motive t (r.row t) := by
  suffices h : ∀ n t, r.Within n t → motive t (r.row t) from h _ t (within_fuel hr t)
  intro n
  induction n with
  | zero =>
    intro t ht
    have hne : ∀ fs tail, r.resolve t ≠ .record fs tail := by
      intro fs tail heq
      simp [Within, heq, children] at ht
    rw [row_other hne]
    exact other t hne
  | succ n ih =>
    intro t ht
    by_cases hrec : ∃ fs tail, r.resolve t = .record fs tail
    · obtain ⟨fs, tail, heq⟩ := hrec
      rw [row_record hr heq]
      exact record t fs tail heq (ih tail (ht tail (by simp [heq, children])))
    · have hne : ∀ fs tail, r.resolve t ≠ .record fs tail := fun fs tail heq =>
        hrec ⟨fs, tail, heq⟩
      rw [row_other hne]
      exact other t hne

theorem row_sorted (hr : r.Acyclic) (t : Ty) : (r.row t).fields.Sorted := by
  refine row_induct hr (motive := fun _ row => row.fields.Sorted) ?_ ?_ t
  · intro t fs tail _ _
    exact (Sorted.nil.union fs).union _
  · intro t _
    exact Sorted.nil

/-- What a row ends in is resolved, and it is no record. -/
theorem row_tail (hr : r.Acyclic) (t : Ty) :
    r.Resolved (r.row t).tail ∧ (r.row t).tail.isRecord = false := by
  refine row_induct hr
    (motive := fun _ row => r.Resolved row.tail ∧ row.tail.isRecord = false) ?_ ?_ t
  · intro t fs tail _ ih
    exact ih
  · intro t h
    refine ⟨resolved_resolve hr t, ?_⟩
    cases hres : r.resolve t with
    | record fs tail => exact absurd hres (h fs tail)
    | _ => rfl

/-- The fields of a row are parts of the records on its way. -/
theorem Within.row_field (hr : r.Acyclic) (h : r.Within n t) {e : String × Ty}
    (he : e ∈ (r.row t).fields) : ∃ k, n = k + 1 ∧ r.Within k e.2 := by
  refine row_induct hr (motive := fun t row => ∀ e ∈ row.fields, ∀ n, r.Within n t →
    ∃ k, n = k + 1 ∧ r.Within k e.2) ?_ ?_ t e he n h
  · intro t fs tail heq ih e he n h
    rcases mem_union he with he | he
    · rcases mem_union he with he | he
      · simp at he
      · refine h.child ?_
        rw [heq]
        simp only [children, List.mem_append, List.mem_map, List.mem_singleton]
        exact .inl ⟨e, he, rfl⟩
    · obtain ⟨k, rfl, htail⟩ := h.child (u := tail) (by simp [heq, children])
      obtain ⟨j, rfl, hj⟩ := ih e he k htail
      exact ⟨j + 1, rfl, hj.succ⟩
  · intro t _ e he
    simp at he

/-- So is what it ends in. -/
theorem Within.row_tail (hr : r.Acyclic) (h : r.Within n t) : r.Within n (r.row t).tail := by
  refine row_induct hr (motive := fun t row => ∀ n, r.Within n t → r.Within n row.tail) ?_ ?_ t n h
  · intro t fs tail heq ih n h
    obtain ⟨k, rfl, htail⟩ := h.child (u := tail) (by simp [heq, children])
    exact (ih k htail).succ
  · intro t _ n h
    exact h.congr (resolve_resolve hr t).symm

/-- The end of a record lies deeper than the record. -/
theorem Within.record_tail (hr : r.Acyclic) (h : r.Within n t)
    (heq : r.resolve t = .record fs tail) : ∃ k, n = k + 1 ∧ r.Within k (r.row t).tail := by
  obtain ⟨k, rfl, htail⟩ := h.child (u := tail) (by simp [heq, children])
  refine ⟨k, rfl, ?_⟩
  rw [row_record hr heq]
  exact htail.row_tail hr

/-! ## Reading everywhere -/

/-- One level of deep resolution, given how the parts are resolved. -/
def deepStep (r : Registry) (f : Ty → Ty) (t : Ty) : Ty :=
  match r.resolve t with
  | .con c args => .con c (args.map f)
  | .record fs tail =>
      let row := r.row (.record fs tail)
      .record (row.fields.map fun e => (e.1, f e.2)) row.tail
  | .synonym id labels params target => .synonym id labels (params.map f) (f target)
  | t => t

/-- One level of the search for a variable. -/
def occursStep (r : Registry) (v : Nat) (f : Ty → Bool) (t : Ty) : Bool :=
  match r.resolve t with
  | .flex w => v == w
  | .con _ args => args.any f
  | .record fs tail => fs.any (fun e => f e.2) || f tail
  | .synonym _ _ _ target => f target
  | _ => false

/-- One level of comparison. -/
def shapeStep (r : Registry) (f : Ty → Ty → Bool) (t u : Ty) : Bool :=
  match r.resolve t, r.resolve u with
  | .synonym i _ ps t', .synonym j ls qs u' =>
      (i == j && allPairs f ps qs) || f t' (.synonym j ls qs u')
  | .synonym _ _ _ t', u => f t' u
  | t, .synonym _ _ _ u' => f u' t
  | .var x, .var y => x == y
  | .con c ts, .con d us => c.agrees d && allPairs f ts us
  | .record fs t', .record gs u' =>
      let mine := r.row (.record fs t')
      let theirs := r.row (.record gs u')
      mine.fields.length == theirs.fields.length &&
        mine.fields.all (fun e => (theirs.fields.lookup e.1).any fun w => f e.2 w) &&
        f mine.tail theirs.tail
  | .module m _, .module k _ => m == k
  | _, _ => false

/-- Where deep resolution and the search go on from a type. -/
def Part (r : Registry) (u t : Ty) : Prop :=
  u ∈ (r.resolve t).children ∨ ∃ e ∈ (r.row t).fields, u = e.2

theorem Within.part (hr : r.Acyclic) (h : r.Within n t) (hu : r.Part u t) :
    ∃ k, n = k + 1 ∧ r.Within k u := by
  rcases hu with hu | ⟨e, he, rfl⟩
  · exact h.child hu
  · exact h.row_field hr he

/-- Induction over what a type leads to when its variables are followed. -/
theorem part_induct (hr : r.Acyclic) {motive : Ty → Prop}
    (step : ∀ t, (∀ u, r.Part u t → motive u) → motive t) (t : Ty) : motive t := by
  suffices h : ∀ n t, r.Within n t → motive t from h _ t (within_fuel hr t)
  intro n
  induction n with
  | zero =>
    intro t hn
    refine step t fun u hu => ?_
    obtain ⟨k, hk, -⟩ := hn.part hr hu
    cases hk
  | succ n ih =>
    intro t hn
    refine step t fun u hu => ?_
    obtain ⟨k, hk, hu'⟩ := hn.part hr hu
    cases hk
    exact ih u hu'

theorem row_resolve (hr : r.Acyclic) (t : Ty) : r.row (r.resolve t) = r.row t := by
  by_cases h : ∃ fs tail, r.resolve t = .record fs tail
  · obtain ⟨fs, tail, heq⟩ := h
    rw [row_record hr heq, row_record hr (resolve_resolve hr t ▸ heq)]
  · have hne : ∀ fs tail, r.resolve t ≠ .record fs tail := fun fs tail heq => h ⟨fs, tail, heq⟩
    have hne' : ∀ fs tail, r.resolve (r.resolve t) ≠ .record fs tail := by
      rw [resolve_resolve hr]
      exact hne
    rw [row_other hne, row_other hne', resolve_resolve hr]

theorem deepStep_congr (hr : r.Acyclic) {f g : Ty → Ty} (h : ∀ u, r.Part u t → f u = g u) :
    r.deepStep f t = r.deepStep g t := by
  have hrow := row_resolve hr t
  unfold Part at h
  unfold deepStep
  cases hres : r.resolve t with
  | con c args =>
    simp only [hres, children] at h ⊢
    rw [map_congr_left fun u hu => h u (.inl hu)]
  | record fs tail =>
    rw [hres] at hrow
    simp only [hrow, record.injEq, and_true]
    exact map_congr_left fun e he => by rw [h e.2 (.inr ⟨e, he, rfl⟩)]
  | synonym id labels params target =>
    simp only [hres, children] at h ⊢
    rw [h target (.inl (by simp)), map_congr_left fun u hu => h u (.inl (by simp [hu]))]
  | _ => rfl

theorem resolveDeepN_stable (hr : r.Acyclic) (hn : r.Within n t) (hm : r.Within m t) :
    r.resolveDeepN (n + 1) t = r.resolveDeepN (m + 1) t := by
  induction n generalizing m t with
  | zero =>
    refine deepStep_congr hr fun u hu => ?_
    obtain ⟨k, hk, -⟩ := hn.part hr hu
    omega
  | succ n ih =>
    refine deepStep_congr hr fun u hu => ?_
    obtain ⟨k, hk, hu'⟩ := hn.part hr hu
    obtain ⟨j, rfl, hj⟩ := hm.part hr hu
    cases hk
    exact ih hu' hj

/-- Deep resolution without fuel. -/
theorem resolveDeep_eq (hr : r.Acyclic) (t : Ty) :
    r.resolveDeep t = r.deepStep r.resolveDeep t := by
  refine deepStep_congr hr fun u hu => ?_
  obtain ⟨k, hk, hu'⟩ := (within_fuel hr t).part hr hu
  rw [hk]
  exact resolveDeepN_stable hr hu' (within_fuel hr u)

theorem occursStep_congr {f g : Ty → Bool} (h : ∀ u ∈ (r.resolve t).children, f u = g u) :
    r.occursStep v f t = r.occursStep v g t := by
  have any_congr : ∀ {ts : List Ty}, (∀ u ∈ ts, f u = g u) → ts.any f = ts.any g := by
    intro ts hts
    induction ts with
    | nil => rfl
    | cons u us ih =>
      rw [any_cons, any_cons, hts u (by simp), ih fun w hw => hts w (mem_cons_of_mem _ hw)]
  unfold occursStep
  cases hres : r.resolve t with
  | con c args =>
    rw [hres] at h
    exact any_congr h
  | record fs tail =>
    simp only [hres, children] at h
    have hfs := any_congr fun u (hu : u ∈ fs.map (·.2)) => h u (by simp [hu])
    simp only [List.any_map, comp_def] at hfs
    simp only [hfs, h tail (by simp)]
  | synonym id labels params target =>
    simp only [hres, children] at h
    exact h target (by simp)
  | var x => cases x <;> rfl
  | module name members => rfl

theorem any_congr_mem {α : Type} {l : List α} {f g : α → Bool} (h : ∀ a ∈ l, f a = g a) :
    l.any f = l.any g := by
  rw [Bool.eq_iff_iff, List.any_eq_true, List.any_eq_true]
  exact exists_congr fun a => and_congr_right fun ha => by rw [h a ha]

theorem occursN_stable (hn : r.Within n t) (hm : r.Within m t) :
    r.occursN v (n + 1) t = r.occursN v (m + 1) t := by
  induction n generalizing m t with
  | zero =>
    refine occursStep_congr fun u hu => ?_
    obtain ⟨k, hk, -⟩ := hn.child hu
    omega
  | succ n ih =>
    refine occursStep_congr fun u hu => ?_
    obtain ⟨j, rfl, hj⟩ := hm.child hu
    exact ih (hn u hu) hj

/-- The search without fuel. -/
theorem occurs_eq (hr : r.Acyclic) (v : Nat) (t : Ty) :
    r.occurs v t = r.occursStep v (r.occurs v) t := by
  refine occursStep_congr fun u hu => ?_
  obtain ⟨k, hk, hu'⟩ := (within_fuel hr t).child hu
  rw [hk]
  exact occursN_stable hu' (within_fuel hr u)

theorem allPairs_congr {ts us : List Ty} (h : ∀ t ∈ ts, ∀ u ∈ us, f t u = g t u) :
    allPairs f ts us = allPairs g ts us := by
  unfold allPairs
  congr 1
  rw [Bool.eq_iff_iff, List.all_eq_true, List.all_eq_true]
  refine forall₂_congr fun p hp => ?_
  obtain ⟨ht, hu⟩ := List.of_mem_zip hp
  rw [h p.1 ht p.2 hu]

theorem all_lookup_congr {fs gs : Table Ty}
    (h : ∀ e ∈ fs, ∀ w, gs.lookup e.1 = some w → f e.2 w = g e.2 w) :
    (fs.all fun e => (gs.lookup e.1).any fun w => f e.2 w) =
      fs.all fun e => (gs.lookup e.1).any fun w => g e.2 w := by
  rw [Bool.eq_iff_iff, List.all_eq_true, List.all_eq_true]
  refine forall₂_congr fun e he => ?_
  cases hl : gs.lookup e.1 with
  | none => simp
  | some w => simp only [any_some, h e he w hl]

/-- Two comparisons of the parts that agree on all pairs whose depths add up to
less than those of the types compared. -/
theorem shapeStep_congr (hr : r.Acyclic) {a b : Nat} (ha : r.Within a t) (hb : r.Within b u)
    (h : ∀ t' u' a' b', r.Within a' t' → r.Within b' u' → a' + b' < a + b → f t' u' = g t' u') :
    r.shapeStep f t u = r.shapeStep g t u := by
  have ha' := ha.congr (resolve_resolve hr t).symm
  have hb' := hb.congr (resolve_resolve hr u).symm
  have pairs : ∀ (ts us), (∀ x ∈ ts, x ∈ (r.resolve t).children) →
      (∀ y ∈ us, y ∈ (r.resolve u).children) → allPairs f ts us = allPairs g ts us := by
    intro ts us hts hus
    refine allPairs_congr fun x hx y hy => ?_
    obtain ⟨k, rfl, hk⟩ := ha.child (hts x hx)
    obtain ⟨j, rfl, hj⟩ := hb.child (hus y hy)
    exact h x y k j hk hj (by omega)
  have left : ∀ x ∈ (r.resolve t).children, f x (r.resolve u) = g x (r.resolve u) := by
    intro x hx
    obtain ⟨k, rfl, hk⟩ := ha.child hx
    exact h x _ k b hk hb' (by omega)
  have right : ∀ y ∈ (r.resolve u).children, f y (r.resolve t) = g y (r.resolve t) := by
    intro y hy
    obtain ⟨k, rfl, hk⟩ := hb.child hy
    exact h y _ k a hk ha' (by omega)
  unfold shapeStep
  cases ht : r.resolve t with
  | synonym i ls ps t' =>
    have hleft := left t' (by simp [ht, children])
    cases hu : r.resolve u with
    | synonym j ms qs u' =>
      rw [hu] at hleft
      simp only [hleft, pairs ps qs (by simp +contextual [ht, children])
        (by simp +contextual [hu, children])]
    | _ =>
      rw [hu] at hleft
      exact hleft
  | con c ts =>
    cases hu : r.resolve u with
    | synonym j ms qs u' =>
      have hright := right u' (by simp [hu, children])
      rw [ht] at hright
      exact hright
    | con d us =>
      simp only [pairs ts us (by simp [ht, children]) (by simp [hu, children])]
    | _ => rfl
  | record fs t' =>
    cases hu : r.resolve u with
    | synonym j ms qs u' =>
      have hright := right u' (by simp [hu, children])
      rw [ht] at hright
      exact hright
    | record gs u' =>
      have hmine := row_resolve hr t
      have htheirs := row_resolve hr u
      rw [ht] at hmine
      rw [hu] at htheirs
      simp only [hmine, htheirs]
      obtain ⟨k, rfl, hk⟩ := ha.record_tail hr ht
      obtain ⟨j, rfl, hj⟩ := hb.record_tail hr hu
      rw [h _ _ k j hk hj (by omega), all_lookup_congr fun e he w hw => ?_]
      obtain ⟨k', hk', he'⟩ := ha.row_field hr he
      obtain ⟨j', hj', hw'⟩ := hb.row_field hr (mem_of_lookup hw)
      exact h e.2 w k' j' he' hw' (by omega)
    | _ => rfl
  | _ =>
    cases hu : r.resolve u with
    | synonym j ms qs u' =>
      have hright := right u' (by simp [hu, children])
      rw [ht] at hright
      exact hright
    | _ => rfl

theorem sameShapeN_stable (hr : r.Acyclic) {a b : Nat} (ha : r.Within a t) (hb : r.Within b u)
    (hn : a + b < n) (hm : a + b < m) : r.sameShapeN n t u = r.sameShapeN m t u := by
  induction n generalizing m t u a b with
  | zero => omega
  | succ n ih =>
    obtain ⟨m, rfl⟩ := Nat.exists_eq_add_one.mpr (Nat.zero_lt_of_lt hm)
    refine shapeStep_congr hr ha hb fun t' u' a' b' ha' hb' hlt => ?_
    exact ih ha' hb' (by omega) (by omega)

/-- Comparison without fuel. -/
theorem sameShape_eq (hr : r.Acyclic) (t u : Ty) :
    r.sameShape t u = r.shapeStep r.sameShape t u := by
  have ht := within_fuel hr t
  have hu := within_fuel hr u
  have fuel_succ : r.fuel t + r.fuel u =
      t.height + r.varCount * r.maxHeight + (u.height + r.varCount * r.maxHeight) + 1 + 1 := by
    simp only [fuel]
    omega
  unfold sameShape
  rw [fuel_succ]
  refine shapeStep_congr hr ht hu fun t' u' a b ha hb hlt => ?_
  refine sameShapeN_stable hr (ha.min (within_fuel hr t')) (hb.min (within_fuel hr u')) ?_ ?_
  · omega
  · simp only [fuel]
    omega

/-! ## Deep resolution, by what resolution gives -/

variable {t : Ty}

theorem resolveDeep_var (hr : r.Acyclic) {x : TyVar} (h : r.resolve t = .var x) :
    r.resolveDeep t = .var x := by
  rw [resolveDeep_eq hr, deepStep, h]

theorem resolveDeep_con (hr : r.Acyclic) {c : Con} {args : List Ty}
    (h : r.resolve t = .con c args) : r.resolveDeep t = .con c (args.map r.resolveDeep) := by
  rw [resolveDeep_eq hr, deepStep, h]

theorem resolveDeep_record (hr : r.Acyclic) (h : r.resolve t = .record fs tail) :
    r.resolveDeep t = .record (mapValues r.resolveDeep (r.row t).fields) (r.row t).tail := by
  rw [resolveDeep_eq hr, deepStep, ← row_resolve hr t, h]
  rfl

theorem resolveDeep_synonym (hr : r.Acyclic) {id : Nat} {labels : List String} {params : List Ty}
    {target : Ty} (h : r.resolve t = .synonym id labels params target) :
    r.resolveDeep t = .synonym id labels (params.map r.resolveDeep) (r.resolveDeep target) := by
  rw [resolveDeep_eq hr, deepStep, h]

theorem resolveDeep_module (hr : r.Acyclic) {name : String} {members : Env}
    (h : r.resolve t = .module name members) : r.resolveDeep t = .module name members := by
  rw [resolveDeep_eq hr, deepStep, h]

/-- What is read as a variable is resolved to it. -/
theorem resolve_of_var (hr : r.Acyclic) {x : TyVar} (h : r.resolveDeep t = .var x) :
    r.resolve t = .var x := by
  cases heq : r.resolve t with
  | var y => rwa [resolveDeep_var hr heq] at h
  | con => rw [resolveDeep_con hr heq] at h; cases h
  | record => rw [resolveDeep_record hr heq] at h; cases h
  | synonym => rw [resolveDeep_synonym hr heq] at h; cases h
  | module => rw [resolveDeep_module hr heq] at h; cases h

theorem resolveDeep_resolve (hr : r.Acyclic) (t : Ty) :
    r.resolveDeep (r.resolve t) = r.resolveDeep t := by
  rw [resolveDeep_eq hr, resolveDeep_eq hr, deepStep, deepStep, resolve_resolve hr]

end Registry

end RowTyping
