import RowTyping.Proofs.Preservation

/-!
# What a run of unification spends

A run only passes to parts of the two types until it solves a variable.
Solving lowers the number of open variables, and joining two rows by a new
common tail solves two variables for the one it issues. What a run builds is
bounded as well: a new record is at most one level higher than what was there,
and it costs an open variable. So the number of variables, the heights of the
bindings and with them the depth of every type stay within bounds that are
known from the start.
-/

namespace RowTyping

open Registry Row Table Ty Finset List

namespace Registry

variable {r r' : Registry} {N H : Nat}

/-- The number of variables without a binding. -/
def openCount (r : Registry) : Nat :=
  ((Finset.range r.varCount).filter fun v => (r.binding? v).isNone).card

theorem openCount_le (r : Registry) : r.openCount ≤ r.varCount :=
  (card_filter_le _ _).trans_eq (card_range _)

theorem openCount_addVar (r : Registry) : r.addVar.openCount = r.openCount + 1 := by
  have hnone : (r.binding? r.varCount).isNone := by simp [binding?, varCount]
  unfold openCount
  simp only [varCount_addVar, binding?_addVar]
  rw [range_add_one, filter_insert, if_pos hnone]
  exact card_insert_of_notMem (by simp)

theorem openCount_setBinding {v : Nat} (hv : r.binding? v = none) (hlt : v < r.varCount) (t : Ty) :
    (r.setBinding v t).openCount + 1 = r.openCount := by
  have herase : ((Finset.range (r.setBinding v t).varCount).filter fun w =>
      ((r.setBinding v t).binding? w).isNone) =
      ((Finset.range r.varCount).filter fun w => (r.binding? w).isNone).erase v := by
    ext w
    simp only [Finset.mem_filter, Finset.mem_range, Finset.mem_erase, varCount_setBinding,
      binding?_setBinding]
    by_cases hw : v = w
    · simp [hw, hw ▸ hlt]
    · simp [hw, Ne.symm hw]
  unfold openCount
  rw [herase]
  exact Finset.card_erase_add_one (by simp [hlt, hv])

/-- The type is so low that it stays within the height `H` if it grows by a
level with each open variable that is solved. -/
def Low (H : Nat) (r : Registry) (t : Ty) : Prop := t.height + r.openCount ≤ H

/-- There is room for what a run may still add: a variable for each two that
are solved, and a level of height for each. -/
structure Fits (N H : Nat) (r : Registry) : Prop where
  vars : r.varCount + r.openCount ≤ N
  low : r.AllBindings (r.Low H)

theorem Low.mono {t : Ty} (h : r.Low H t) (hle : r'.openCount ≤ r.openCount) : r'.Low H t :=
  (Nat.add_le_add_left hle _).trans h

theorem Low.child {t u : Ty} (h : r.Low H t) (hu : u ∈ t.children) :
    u.height + r.openCount < H := by
  have := height_lt_of_mem_children hu
  unfold Low at h
  omega

theorem Low.record {fs : Table Ty} {tail : Ty} (hfs : ∀ e ∈ fs, r.Low H e.2)
    (htail : r.Low H tail) : r.Low (H + 1) (.record fs tail) := by
  have := heightFields_le fun e he => Nat.le_sub_of_add_le (hfs e he)
  unfold Low at htail ⊢
  rw [height]
  omega

namespace Fits

variable {t a b : Ty}

theorem mono {N' H' : Nat} (h : r.Fits N H) (hN : N ≤ N') (hH : H ≤ H') : r.Fits N' H' :=
  ⟨h.vars.trans hN, fun v t hv => (h.low v t hv).trans hH⟩

theorem addVar (h : r.Fits N H) : r.addVar.Fits (N + 2) (H + 1) := by
  have hopen := r.openCount_addVar
  refine ⟨?_, fun v t hv => ?_⟩
  · have := h.vars
    rw [varCount_addVar]
    omega
  · have := h.low v t (by simpa using hv)
    unfold Low at this ⊢
    omega

theorem setBinding {v : Nat} (h : r.Fits (N + 1) (H + 1)) (hv : r.binding? v = none)
    (hlt : v < r.varCount) (ht : r.Low (H + 1) t) : (r.setBinding v t).Fits N H := by
  have hopen := openCount_setBinding hv hlt t
  refine ⟨?_, AllBindings.setBinding (fun w u hw => ?_) ?_⟩
  · have := h.vars
    rw [varCount_setBinding]
    omega
  · have := h.low w u hw
    unfold Low at this ⊢
    omega
  · unfold Low at ht ⊢
    omega

theorem row (h : r.Fits N H) (hr : r.Acyclic) (ht : r.Low H t) :
    (∀ e ∈ (r.row t).fields, e.2.height + r.openCount < H) ∧ r.Low H (r.row t).tail :=
  h.low.row hr Low.child Nat.le_of_lt ht

theorem meeting (h : r.Fits N H) (hr : r.Acyclic) (ha : r.Low H a) (hb : r.Low H b) {m : Meeting}
    (hm : (r.resolve a).meet (r.resolve b) = m) : m.Forall (r.Low H) :=
  (Meets.of_meet hm).inherit (fun ht hu => Nat.le_of_lt (Low.child ht hu))
    (h.low.resolve hr ha) (h.low.resolve hr hb)

/-- What remains of the fields is lower than what remains of the tails. -/
theorem remainder (h : r.Fits N H) (hr : r.Acyclic) (h' : r'.Fits N H) (hr' : r'.Acyclic)
    (hle : r'.openCount ≤ r.openCount) (ha : r.Low H a) (hb : r.Low H b) {m : Remainder}
    (hm : r.remainder r' a b = m) : m.Forall (r'.Low H) fun t => t.height + r'.openCount < H := by
  have hfields : ∀ {t : Ty}, r.Low H t → ∀ e ∈ (r.row t).fields, e.2.height + r'.openCount < H :=
    fun ht e he => Nat.lt_of_le_of_lt (Nat.add_le_add_left hle _) ((h.row hr ht).1 e he)
  exact (remains hm).inherit (hfields ha) (hfields hb)
    (h'.low.resolve hr' ((h.row hr ha).2.mono hle)) (h'.low.resolve hr' ((h.row hr hb).2.mono hle))

theorem shared (h : r.Fits N H) (hr : r.Acyclic) (ha : r.Low H a) (hb : r.Low H b) :
    (Task.all ((r.row a).shared (r.row b))).Forall (r.Low H) := by
  intro p hp
  obtain ⟨l, hl, hl'⟩ := mem_shared hp
  exact ⟨Nat.le_of_lt ((h.row hr ha).1 _ hl), Nat.le_of_lt ((h.row hr hb).1 _ (mem_of_lookup hl'))⟩

/-- No type that a run meets is deeper than this. -/
theorem within (h : r.Fits N H) (hr : r.Acyclic) (ht : r.Low H t) : r.Within ((N + 1) * H) t := by
  refine (within_fuel hr t).mono ?_
  have hvars : r.varCount ≤ N := Nat.le_of_add_right_le h.vars
  have hheight : r.maxHeight ≤ H :=
    maxHeight_le_iff.mpr fun v t hv => Nat.le_of_add_right_le (h.low v t hv)
  have hle : r.varCount * r.maxHeight ≤ N * H := Nat.mul_le_mul hvars hheight
  have : t.height ≤ H := Nat.le_of_add_right_le ht
  rw [Nat.succ_mul]
  omega

end Fits

end Registry

/-! ## What a run spends -/

/-- A run that succeeded did nothing or solved more variables than it issued. -/
def Registry.Spends (r r' : Registry) : Prop := r' = r ∨ r'.openCount < r.openCount

namespace Registry.Spends

variable {r r₁ r' : Registry}

theorem le (h : r.Spends r') : r'.openCount ≤ r.openCount := by
  rcases h with rfl | h
  · exact le_rfl
  · exact Nat.le_of_lt h

theorem trans (h : r.Spends r₁) (h' : r₁.Spends r') : r.Spends r' := by
  rcases h with rfl | h
  · exact h'
  · exact .inr (Nat.lt_of_le_of_lt h'.le h)

end Registry.Spends

theorem Solved.spends {r r' : Registry} {v : Nat} {t : Ty} {N H : Nat}
    (h : Solved r v t (.ok ()) r') (hv : r.binding? v = none) (hf : r.Fits (N + 1) (H + 1))
    (ht : r.Low (H + 1) t) : r'.openCount + 1 = r.openCount ∧ r'.Fits N H := by
  cases h with
  | bind hocc hlt => exact ⟨openCount_setBinding hv hlt t, hf.setBinding hv hlt ht⟩

/-- A run that succeeds stays within its bounds. -/
theorem Unifies.spends {r r' : Registry} {task : Task} {out : Except TypeError Unit} {N H : Nat}
    (h : Unifies r task out r') (hout : out = .ok ()) (hk : KindedRun AnyKind r task r')
    (hf : r.Fits N H) (hlow : task.Forall (r.Low H)) : r.Spends r' ∧ r'.Fits N H := by
  have hP := kinding_anyKind
  induction h with
  | same | nil => exact ⟨.inl rfl, hf⟩
  | solve meet solved =>
    subst hout
    obtain ⟨hopen, hf'⟩ := solved.spends (hk.acyclic.solve_open meet)
      (hf.mono N.le_succ H.le_succ)
      ((hf.meeting hk.acyclic hlow.1 hlow.2 meet).2.trans H.le_succ)
    exact ⟨.inr (by omega), hf'⟩
  | expand meet _ ih =>
    exact ih hout (hk.expand hP meet) hf (hf.meeting hk.acyclic hlow.1 hlow.2 meet)
  | children meet _ _ ih =>
    exact ih hout (hk.children hP meet) hf (hf.meeting hk.acyclic hlow.1 hlow.2 meet)
  | rows meet _ ih =>
    exact ih hout (hk.rows hP meet) hf
      ⟨hf.low.resolve hk.acyclic hlow.1, hf.low.resolve hk.acyclic hlow.2⟩
  | ragged | clash | stop | fields | splitStop | lacking => cases hout
  | cons head rest ih₁ ih₂ =>
    obtain ⟨hlow₁, hlow₂⟩ := Task.forall_cons.mp hlow
    have hk₁ := hk.head rest.varCount_le
    obtain ⟨hsp₁, hf₁⟩ := ih₁ rfl hk₁ hf hlow₁
    have hr₁ := (head.keeps hP hk₁).1
    obtain ⟨hsp₂, hf₂⟩ := ih₂ hout (hk.rest hr₁ head.varCount_le) hf₁
      (hlow₂.imp fun t h => h.mono hsp₁.le)
    exact ⟨hsp₁.trans hsp₂, hf₂⟩
  | again shared left rest ih₁ ih₂ =>
    have hk₁ := hk.shared hP rest.varCount_le
    obtain ⟨hsp₁, hf₁⟩ := ih₁ rfl hk₁ hf (hf.shared hk.acyclic hlow.1 hlow.2)
    have hr₁ := (shared.keeps hP hk₁).1
    obtain ⟨hsp₂, hf₂⟩ := ih₂ hout (hk.again hr₁ shared.varCount_le) hf₁
      ⟨hlow.1.mono hsp₁.le, hlow.2.mono hsp₁.le⟩
    exact ⟨hsp₁.trans hsp₂, hf₂⟩
  | tails shared left rest ih₁ ih₂ =>
    have hk₁ := hk.shared hP rest.varCount_le
    obtain ⟨hsp₁, hf₁⟩ := ih₁ rfl hk₁ hf (hf.shared hk.acyclic hlow.1 hlow.2)
    have hr₁ := (shared.keeps hP hk₁).1
    obtain ⟨hsp₂, hf₂⟩ := ih₂ hout (hk.tails hP hr₁ shared.varCount_le left) hf₁
      (hf.remainder hk.acyclic hf₁ hr₁.acyclic hsp₁.le hlow.1 hlow.2 left)
    exact ⟨hsp₁.trans hsp₂, hf₂⟩
  | extend shared left solved ih =>
    subst hout
    have hk₁ := hk.shared hP solved.varCount.ge
    obtain ⟨hsp₁, hf₁⟩ := ih rfl hk₁ hf (hf.shared hk.acyclic hlow.1 hlow.2)
    have hr₁ := (shared.keeps hP hk₁).1.acyclic
    obtain ⟨-, hfs, hrest⟩ := hf.remainder hk.acyclic hf₁ hr₁ hsp₁.le hlow.1 hlow.2 left
    obtain ⟨hopen, hf₂⟩ := solved.spends (hr₁.extend_open left)
      (hf₁.mono N.le_succ H.le_succ) (.record (fun e he => Nat.le_of_lt (hfs e he)) hrest)
    exact ⟨hsp₁.trans (.inr (by omega)), hf₂⟩
  | @split r a b r₁ v w fs gs r₂ out r₃ shared left mine theirs ih =>
    subst hout
    have hk₁ := hk.shared hP (mine.lt_varCount.trans_eq theirs.varCount.symm).le
    obtain ⟨hsp₁, hf₁⟩ := ih rfl hk₁ hf (hf.shared hk.acyclic hlow.1 hlow.2)
    have hr₁ := (shared.keeps hP hk₁).1.acyclic
    obtain ⟨⟨-, hfs⟩, -, hgs⟩ := hf.remainder hk.acyclic hf₁ hr₁ hsp₁.le hlow.1 hlow.2 left
    obtain ⟨hv, hw, hne⟩ := hr₁.split_open left
    -- the new variable makes up for the level that each of the two records adds
    have hpos : r₁.openCount < H := by
      obtain ⟨-, -, -, ⟨-, hne⟩, -⟩ := (remains left).split_inv
      obtain ⟨e, he⟩ := exists_mem_of_ne_nil fs hne
      exact Nat.lt_of_le_of_lt (Nat.le_add_left _ _) (hfs e he)
    have hnew := r₁.openCount_addVar
    obtain ⟨hopen₂, hf₂⟩ := mine.spends (by simpa using hv) hf₁.addVar
      (.record (fun e he => by have := hfs e he; unfold Low; omega)
        (by unfold Low; rw [height]; omega))
    obtain ⟨hopen₃, hf₃⟩ := theirs.spends (mine.open_of_ne (by simpa using hw) hne)
      (hf₂.mono le_rfl H.le_succ)
      (.record (fun e he => by have := hgs e he; unfold Low; omega)
        (by unfold Low; rw [height]; omega))
    exact ⟨hsp₁.trans (.inr (by omega)), hf₃⟩

end RowTyping
