import RowTyping.Proofs.Likeness

/-!
# Two runs side by side

A world is two registries with the roles of their variables, and a relation that
pairs open variables of one with open variables of the other. Types of the two
sides are alike in the world when they are read as trees with paired variables.
Whatever succeeds on one side succeeds on the other: the same variables are
solved, up to pairing, and types that were alike still are.

Variables without a partner are left alone, and new pairs are of new variables.
-/

namespace RowTyping

open Check Registry Row Table Ty Function List Option

/-! ## One side -/

namespace Registry

variable {r : Registry} {t u : Ty} {v : Nat}

theorem Sound.wellFormed (h : r.Sound) : r.WellFormed fun _ t => t.Faithful :=
  ⟨h.acyclic, fun v t hv => (h.faithful v t hv).covered, fun v t hv _ _ => h.faithful v t hv⟩

theorem WellFormed.sound (h : r.WellFormed fun _ t => t.Faithful) : r.Sound :=
  ⟨h.acyclic, fun v t hv => h.bindings v t hv .type (.var _)⟩

theorem Sound.addVar (h : r.Sound) : r.addVar.Sound := h.wellFormed.addVar.sound

theorem Sound.setBinding (h : r.Sound) (hv : r.binding? v = none) (ht : t.Faithful)
    (hocc : r.occurs v t = false) : (r.setBinding v t).Sound :=
  (h.wellFormed.setBinding (k := .type) kinding_faithful hv (.var _) ht hocc).sound

theorem resolve_of_con (hr : r.Acyclic) {c : Con} {us : List Ty} (h : r.resolveDeep t = .con c us) :
    ∃ args, r.resolve t = .con c args ∧ args.map r.resolveDeep = us := by
  cases heq : r.resolve t with
  | var y => rw [resolveDeep_var hr heq] at h; cases h
  | con c args =>
    rw [resolveDeep_con hr heq] at h
    cases h
    exact ⟨args, rfl, rfl⟩
  | record => rw [resolveDeep_record hr heq] at h; cases h
  | synonym => rw [resolveDeep_synonym hr heq] at h; cases h
  | module => rw [resolveDeep_module hr heq] at h; cases h

theorem resolve_of_record (hr : r.Acyclic) {fs : Table Ty} {a : Ty}
    (h : r.resolveDeep t = .record fs a) :
    (r.resolve t).isRecord = true ∧ mapValues r.resolveDeep (r.row t).fields = fs ∧
      (r.row t).tail = a := by
  cases heq : r.resolve t with
  | var y => rw [resolveDeep_var hr heq] at h; cases h
  | con => rw [resolveDeep_con hr heq] at h; cases h
  | record =>
    rw [resolveDeep_record hr heq] at h
    cases h
    exact ⟨rfl, rfl, rfl⟩
  | synonym => rw [resolveDeep_synonym hr heq] at h; cases h
  | module => rw [resolveDeep_module hr heq] at h; cases h

end Registry

namespace Stage

variable {G : Prop} {S S' : Stage G} {k : Role} {t u : Ty} {v : Nat} {front : Finset String}

/-- What a row shows is in its fields or its end. -/
theorem mem_shown_row (hr : S.registry.Acyclic) (h : S.Fits (.rest front) t) {x : TyVar} :
    x ∈ (S.registry.resolveDeep t).shown ↔
      (∃ e ∈ (S.registry.row t).fields, x ∈ (S.registry.resolveDeep e.2).shown) ∨
        x ∈ (S.registry.row t).tail.shown := by
  have hres := S.obeys.resolve h
  cases heq : S.registry.resolve t with
  | var y => simp [resolveDeep_var hr heq, row_other, heq]
  | con c args =>
    rw [heq] at hres
    cases hres with
    | emptyRow => simp [resolveDeep_con hr heq, row_other, heq]
  | record fs tail => simp [resolveDeep_record hr heq, mapValues]
  | synonym => rw [heq] at hres; cases hres
  | module => rw [heq] at hres; cases hres

/-- No field of a record hides another one. -/
theorem mem_row_record (hr : S.registry.Acyclic) {fs : Table Ty} {tail : Ty}
    (hsorted : Sorted fs) (htail : S.Fits (k.behind fs) tail) {e : String × Ty} :
    e ∈ (S.registry.row (.record fs tail)).fields ↔ e ∈ fs ∨ e ∈ (S.registry.row tail).fields := by
  rw [row_record hr resolve_record, union_nil hsorted]
  refine mem_union_of_new hsorted (row_sorted hr tail) fun e he hmem => ?_
  cases S.obeys.row htail with
  | record _ hfront _ _ => exact hfront e he (Finset.mem_union_right _ hmem)

/-- The search finds what a type shows once it is read. -/
theorem occurs_iff (hr : S.registry.Acyclic) (h : S.Fits k t) :
    S.registry.occurs v t = true ↔ .flex v ∈ (S.registry.resolveDeep t).shown := by
  induction t using part_induct hr generalizing k with
  | step t ih =>
    have hres := S.obeys.resolve h
    rw [occurs_eq hr, occursStep]
    cases heq : S.registry.resolve t with
    | var x =>
      rw [resolveDeep_var hr heq]
      cases x with
      | flex w => simp
      | gen g => simp
    | con c args =>
      rw [heq] at hres
      rw [resolveDeep_con hr heq, mem_shown_con]
      have hargs : ∀ u ∈ args, S.Fits .type u := by
        cases hres with
        | con _ _ hargs => exact hargs
        | emptyRow => simp
      simp only [List.any_eq_true, List.mem_map, exists_exists_and_eq_and]
      exact exists_congr fun u => and_congr_right fun hu => ih u (.inl (heq ▸ hu)) (hargs u hu)
    | record fs tail =>
      rw [heq] at hres
      cases hres with
      | record hsorted _ hfields htail =>
        have hrow := fun e => mem_row_record hr hsorted htail (e := e)
        have hend : (S.registry.row (.record fs tail)).tail = (S.registry.row tail).tail := by
          rw [row_record hr resolve_record]
        have htail' := ih tail (.inl (by simp [heq, children])) htail
        have hfields' : ∀ e ∈ fs, S.registry.occurs v e.2 = true ↔
            .flex v ∈ (S.registry.resolveDeep e.2).shown := fun e he =>
          ih e.2 (.inl (heq ▸ mem_children_record.mpr (.inl ⟨e, he, rfl⟩))) (hfields e he)
        rw [resolveDeep_record hr heq, mem_shown_record, ← row_resolve hr t, heq]
        simp only [Bool.or_eq_true, List.any_eq_true, htail', mem_shown_row hr htail,
          mapValues, List.mem_map, exists_exists_and_eq_and, hrow]
        grind
    | synonym id labels params target =>
      rw [heq] at hres
      rw [resolveDeep_synonym hr heq]
      cases hres with
      | synonym _ htarget _ => exact ih target (.inl (by simp [heq, children])) htarget
    | module name members =>
      rw [resolveDeep_module hr heq]
      simp [mem_shown_module]

/-- A binding has no generalized variables. -/
theorem subst_binding (hS : S.registry.Sound) {f : TyVar → Ty} (hflex : ∀ v, f (.flex v) = .flex v)
    (hv : S.registry.binding? v = some t) : t.subst f = t := by
  obtain ⟨k, -, hfits⟩ := S.fits hv
  have hsame : t.subst f = t.subst .var := by
    refine subst_congr fun x hx => ?_
    obtain ⟨_, -, w, rfl⟩ := hfits.role_of_shown ((hS.faithful v t hv).mem_shown hx)
    exact hflex w
  rw [hsame, subst_var]

/-- The type fits the role, and its synonyms hide nothing. -/
structure Hosts (S : Stage G) (k : Role) (t : Ty) : Prop where
  fits : S.Fits k t
  faithful : t.Faithful

namespace Hosts

theorem mono (h : S.Hosts k t) (hle : S ≤ S') : S'.Hosts k t := ⟨h.fits.mono hle, h.faithful⟩

theorem flex (h : S.role.Has (.flex v) k) : S.Hosts k (.flex v) := ⟨fits_flex.mpr h, .var _⟩

theorem role (h : S.Hosts k (.flex v)) : S.role.Has (.flex v) k := fits_flex.mp h.fits

theorem resolve (h : S.Hosts k t) (hS : S.registry.Sound) : S.Hosts k (S.registry.resolve t) :=
  ⟨S.obeys.resolve h.fits, hS.wellFormed.resolve (k := .type) h.faithful⟩

theorem args {c : Con} {ts : List Ty} (h : S.Hosts k (.con c ts)) (ht : t ∈ ts) :
    S.Hosts .type t := by
  refine ⟨?_, h.faithful.child ht⟩
  cases h.fits with
  | con _ _ hargs => exact hargs t ht
  | emptyRow => cases ht

theorem asRest (h : S.Hosts k t) (hform : t.IsRowForm) : S.Hosts (.rest k.front) t :=
  ⟨h.fits.asRest hform, h.faithful⟩

theorem row (h : S.Hosts (.rest front) t) (hS : S.registry.Sound) :
    S.Hosts (.rest front) (S.registry.row t).toRecord := by
  obtain ⟨hfields, htail⟩ := hS.wellFormed.row kinding_faithful h.faithful
  exact ⟨S.obeys.row h.fits, .record hfields htail⟩

theorem field {row : Row} (h : S.Hosts k row.toRecord) {e : String × Ty} (he : e ∈ row.fields) :
    S.Hosts .type e.2 := by
  refine ⟨?_, h.faithful.child (mem_children_record.mpr (.inl ⟨e, he, rfl⟩))⟩
  cases h.fits with
  | record _ _ hfields _ => exact hfields e he

theorem tail {row : Row} (h : S.Hosts k row.toRecord) : S.Hosts (k.behind row.fields) row.tail := by
  refine ⟨?_, h.faithful.child (mem_children_record.mpr (.inr rfl))⟩
  cases h.fits with
  | record _ _ _ htail => exact htail

/-- The fields that a row lacks, in front of what both rows can end in. -/
theorem lacking {mine theirs : Row} (h : S.Hosts (.rest front) theirs.toRecord)
    (hu : S.Hosts (.rest (allLabels front mine theirs)) u) :
    S.Hosts (.rest (front ∪ mine.fields.names)) (.record (mine.lacking theirs) u) :=
  ⟨Fits.lacking h.fits hu.fits,
    .record (fun _ he => (h.field (mem_lacking he).1).faithful) hu.faithful⟩

/-- The search finds what occurs in the type once it is read. -/
theorem occurs_iff (h : S.Hosts k t) (hS : S.registry.Sound) :
    S.registry.occurs v t = true ↔ .flex v ∈ (S.registry.resolveDeep t).occurrences := by
  rw [Stage.occurs_iff hS.acyclic h.fits]
  have hdeep := faithful_resolveDeep hS.acyclic hS.faithful h.faithful
  exact ⟨fun hv => shown_subset hv, hdeep.mem_shown⟩

end Hosts

end Stage

/-! ## Worlds -/

/-- Two stages, with pairs of open variables that play the same part. -/
structure World where
  left : Stage True
  right : Stage True
  pair : Kind → Nat → Nat → Prop
  leftSound : left.registry.Sound
  rightSound : right.registry.Sound
  isOpen : ∀ {k : Kind} {v w : Nat}, pair k v w →
    left.registry.binding? v = none ∧ right.registry.binding? w = none
  issued : ∀ {k : Kind} {v w : Nat}, pair k v w →
    v < left.registry.varCount ∧ w < right.registry.varCount
  unique : ∀ {k l : Kind} {v w x y : Nat}, pair k v w → pair l x y → v = x ∨ w = y →
    k = l ∧ v = x ∧ w = y

namespace World

/-- Variables that play the same part, generalized ones by a relation of their
own. -/
inductive Rel (W : World) (γ : Kind → Nat → Nat → Prop) : Kind → TyVar → TyVar → Prop where
  | flex {k : Kind} {v w : Nat} (h : W.pair k v w) : Rel W γ k (.flex v) (.flex w)
  | gen {k : Kind} {g i : Nat} (h : γ k g i) : Rel W γ k (.gen g) (.gen i)

/-- The two types are read as one tree. -/
def Alike (W : World) (γ : Kind → Nat → Nat → Prop) (k : Kind) (t u : Ty) : Prop :=
  Ty.Like (W.Rel γ) k (W.left.registry.resolveDeep t) (W.right.registry.resolveDeep u)

/-- No generalized variables. -/
abbrev noGens : Kind → Nat → Nat → Prop := fun _ _ _ => False

/-- The later world knows more of both sides. Paired variables are solved alike,
variables without a partner are not touched, and new pairs are of new variables. -/
structure Le (W W' : World) : Prop where
  left : W.left ≤ W'.left
  right : W.right ≤ W'.right
  alike : ∀ {k : Kind} {v w : Nat}, W.pair k v w → W'.Alike noGens k (.flex v) (.flex w)
  keptLeft : ∀ {v : Nat}, v < W.left.registry.varCount → (∀ k w, ¬ W.pair k v w) →
    W'.left.registry.binding? v = W.left.registry.binding? v
  keptRight : ∀ {w : Nat}, w < W.right.registry.varCount → (∀ k v, ¬ W.pair k v w) →
    W'.right.registry.binding? w = W.right.registry.binding? w
  fresh : ∀ {k : Kind} {v w : Nat}, W'.pair k v w →
    W.pair k v w ∨ W.left.registry.varCount ≤ v ∧ W.right.registry.varCount ≤ w

variable {W W' : World} {γ δ : Kind → Nat → Nat → Prop} {k : Kind} {t u : Ty} {v w : Nat}

theorem Rel.mono (hγ : ∀ k g i, γ k g i → δ k g i) {x y : TyVar} (h : W.Rel γ k x y) :
    W.Rel δ k x y := by
  cases h with
  | flex h => exact .flex h
  | gen h => exact .gen (hγ _ _ _ h)

theorem Rel.swap {W₁ : World} (hpair : ∀ k v w, W.pair k v w → W₁.pair k w v) {x y : TyVar}
    (h : W.Rel γ k x y) : W₁.Rel (fun k g i => γ k i g) k y x := by
  cases h with
  | flex h => exact .flex (hpair _ _ _ h)
  | gen h => exact .gen h

theorem alike_var (h : W.pair k v w) : W.Alike γ k (.flex v) (.flex w) := by
  rw [Alike, resolveDeep_open (W.isOpen h).1, resolveDeep_open (W.isOpen h).2]
  exact .var (.flex h)

theorem Alike.grow (h : W.Alike γ k t u) (hγ : ∀ k g i, γ k g i → δ k g i) : W.Alike δ k t u :=
  Like.mono h fun _ _ _ hxy => hxy.mono hγ

theorem alike_gen {g i : Nat} (h : γ k g i) : W.Alike γ k (.gen g) (.gen i) := by
  rw [Alike, resolveDeep_var W.leftSound.acyclic resolve_gen,
    resolveDeep_var W.rightSound.acyclic resolve_gen]
  exact .var (.gen h)

/-- What is alike stays alike, also with types that are alike in the place of
generalized variables. -/
theorem Alike.subst {f g : TyVar → Ty} (h : W.Alike γ k t u) (hle : Le W W')
    (hf : ∀ v, f (.flex v) = .flex v) (hg : ∀ v, g (.flex v) = .flex v)
    (hgen : ∀ l i j, γ l i j → W'.Alike δ l (f (.gen i)) (g (.gen j))) :
    W'.Alike δ k (t.subst f) (u.subst g) := by
  rw [Alike, ← hle.left.registry.resolveDeep_subst W.leftSound.acyclic W'.leftSound.acyclic hf
      fun _ _ => W.left.subst_binding W.leftSound hf,
    ← hle.right.registry.resolveDeep_subst W.rightSound.acyclic W'.rightSound.acyclic hg
      fun _ _ => W.right.subst_binding W.rightSound hg]
  refine like_resolveDeep_subst W'.leftSound.acyclic W'.rightSound.acyclic ?_ h
  intro l x y hxy
  cases hxy with
  | flex hvw =>
    rw [hf, hg]
    exact (hle.alike hvw).grow fun _ _ _ => False.elim
  | gen hij => exact hgen _ _ _ hij

/-- What is alike stays alike. -/
theorem Alike.mono (h : W.Alike γ k t u) (hle : Le W W') : W'.Alike γ k t u := by
  have hsubst := h.subst hle (fun _ => rfl) (fun _ => rfl) fun _ _ _ => alike_gen
  rwa [subst_var, subst_var] at hsubst

instance : Preorder World where
  le := Le
  le_refl W := ⟨le_rfl, le_rfl, alike_var, fun _ _ => rfl, fun _ _ => rfl, .inl⟩
  le_trans W W₁ W₂ h h' :=
    { left := h.left.trans h'.left
      right := h.right.trans h'.right
      alike := fun hvw => (h.alike hvw).mono h'
      keptLeft := fun {v} hlt hfree => by
        refine (h'.keptLeft (hlt.trans_le h.left.registry.varCount_le) fun k w hvw => ?_).trans
          (h.keptLeft hlt hfree)
        rcases h.fresh hvw with hvw | ⟨hle, -⟩
        · exact hfree k w hvw
        · omega
      keptRight := fun {w} hlt hfree => by
        refine (h'.keptRight (hlt.trans_le h.right.registry.varCount_le) fun k v hvw => ?_).trans
          (h.keptRight hlt hfree)
        rcases h.fresh hvw with hvw | ⟨-, hle⟩
        · exact hfree k v hvw
        · omega
      fresh := fun hvw => by
        rcases h'.fresh hvw with hvw | ⟨hl, hr⟩
        · exact h.fresh hvw
        · exact .inr ⟨h.left.registry.varCount_le.trans hl, h.right.registry.varCount_le.trans hr⟩ }

/-- The sides of a world change places. -/
def swap (W : World) : World where
  left := W.right
  right := W.left
  pair k v w := W.pair k w v
  leftSound := W.rightSound
  rightSound := W.leftSound
  isOpen h := (W.isOpen h).symm
  issued h := (W.issued h).symm
  unique h h' heq := by
    obtain ⟨hk, hw, hv⟩ := W.unique h h' heq.symm
    exact ⟨hk, hv, hw⟩

theorem Alike.swap (h : W.Alike γ k t u) : W.swap.Alike (fun k g i => γ k i g) k u t :=
  (Like.symm h).mono fun _ _ _ hxy => Rel.swap (fun _ _ _ => id) hxy

theorem le_swap (h : W ≤ W') : W.swap ≤ W'.swap where
  left := h.right
  right := h.left
  alike hvw := (h.alike hvw).swap
  keptLeft hlt hfree := h.keptRight hlt hfree
  keptRight hlt hfree := h.keptLeft hlt hfree
  fresh hvw := (h.fresh hvw).imp_right And.symm

/-! ## Later worlds -/

/-- The two sides go on by themselves: they issue variables, some of them in pairs,
and bind no variable that there was. -/
structure Grows (W : World) (S T : Stage True) (new : Kind → Nat → Nat → Prop) : Prop where
  left : W.left ≤ S
  right : W.right ≤ T
  leftSound : S.registry.Sound
  rightSound : T.registry.Sound
  keptLeft : ∀ {v : Nat}, v < W.left.registry.varCount →
    S.registry.binding? v = W.left.registry.binding? v
  keptRight : ∀ {w : Nat}, w < W.right.registry.varCount →
    T.registry.binding? w = W.right.registry.binding? w
  isOpen : ∀ {k : Kind} {v w : Nat}, new k v w →
    S.registry.binding? v = none ∧ T.registry.binding? w = none
  fresh : ∀ {k : Kind} {v w : Nat}, new k v w →
    W.left.registry.varCount ≤ v ∧ W.right.registry.varCount ≤ w
  issued : ∀ {k : Kind} {v w : Nat}, new k v w → v < S.registry.varCount ∧ w < T.registry.varCount
  unique : ∀ {k l : Kind} {v w x y : Nat}, new k v w → new l x y → v = x ∨ w = y →
    k = l ∧ v = x ∧ w = y

namespace Grows

variable {S T : Stage True} {new : Kind → Nat → Nat → Prop}

/-- The world with the new pairs. -/
def world (h : W.Grows S T new) : World where
  left := S
  right := T
  pair k v w := W.pair k v w ∨ new k v w
  leftSound := h.leftSound
  rightSound := h.rightSound
  isOpen hvw := by
    rcases hvw with hvw | hvw
    · rw [h.keptLeft (W.issued hvw).1, h.keptRight (W.issued hvw).2]
      exact W.isOpen hvw
    · exact h.isOpen hvw
  issued hvw := by
    rcases hvw with hvw | hvw
    · exact ⟨(W.issued hvw).1.trans_le h.left.registry.varCount_le,
        (W.issued hvw).2.trans_le h.right.registry.varCount_le⟩
    · exact h.issued hvw
  unique hvw hxy heq := by
    rcases hvw with hvw | hvw <;> rcases hxy with hxy | hxy
    · exact W.unique hvw hxy heq
    · have := W.issued hvw
      have := h.fresh hxy
      omega
    · have := W.issued hxy
      have := h.fresh hvw
      omega
    · exact h.unique hvw hxy heq

theorem le_world (h : W.Grows S T new) : W ≤ h.world where
  left := h.left
  right := h.right
  alike hvw := alike_var (.inl hvw)
  keptLeft hlt _ := h.keptLeft hlt
  keptRight hlt _ := h.keptRight hlt
  fresh hvw := hvw.imp_right h.fresh

end Grows

/-- Both sides issue a variable. -/
theorem grows_addVar (W : World) (k l : Role) : W.Grows (W.left.addVar k) (W.right.addVar l)
    fun c v w => c = k.kind ∧ v = W.left.registry.varCount ∧ w = W.right.registry.varCount where
  left := W.left.le_addVar k
  right := W.right.le_addVar l
  leftSound := W.leftSound.addVar
  rightSound := W.rightSound.addVar
  keptLeft _ := binding?_addVar _ _
  keptRight _ := binding?_addVar _ _
  isOpen := by
    rintro c v w ⟨-, rfl, rfl⟩
    exact ⟨(binding?_addVar _ _).trans (binding?_of_le le_rfl),
      (binding?_addVar _ _).trans (binding?_of_le le_rfl)⟩
  fresh := by
    rintro c v w ⟨-, rfl, rfl⟩
    exact ⟨le_rfl, le_rfl⟩
  issued := by
    rintro c v w ⟨-, rfl, rfl⟩
    exact ⟨(W.left.addVar k).issued (W.left.addVar_has k),
      (W.right.addVar l).issued (W.right.addVar_has l)⟩
  unique := by
    rintro c d v w x y ⟨rfl, rfl, rfl⟩ ⟨rfl, rfl, rfl⟩ -
    exact ⟨rfl, rfl, rfl⟩

section

variable {kl kr : Role} (hvw : W.pair k v w) (hv : W.left.role.Has (.flex v) kl)
  (hw : W.right.role.Has (.flex w) kr) (ht : W.left.Hosts kl t) (hu : W.right.Hosts kr u)
  (hocc : W.left.registry.occurs v t = false) (hocc' : W.right.registry.occurs w u = false)

/-- A pair of variables is solved. -/
def setBinding : World where
  left := W.left.setBinding hv ht.fits (W.isOpen hvw).1 hocc
  right := W.right.setBinding hw hu.fits (W.isOpen hvw).2 hocc'
  pair l x y := W.pair l x y ∧ x ≠ v
  leftSound := W.leftSound.setBinding (W.isOpen hvw).1 ht.faithful hocc
  rightSound := W.rightSound.setBinding (W.isOpen hvw).2 hu.faithful hocc'
  isOpen := by
    rintro l x y ⟨hxy, hne⟩
    have hne' : y ≠ w := fun h => hne (W.unique hxy hvw (.inr h)).2.1
    show (W.left.registry.setBinding v t).binding? x = none ∧
      (W.right.registry.setBinding w u).binding? y = none
    rw [Registry.binding?_setBinding, Registry.binding?_setBinding, if_neg (by tauto),
      if_neg (by tauto)]
    exact W.isOpen hxy
  issued := by
    rintro l x y ⟨hxy, -⟩
    simpa [Stage.setBinding] using W.issued hxy
  unique h h' := W.unique h.1 h'.1

/-- The solutions have no part in what is solved, so they are read as before. -/
theorem alike_setBinding (hlike : W.Alike noGens k t u) :
    (setBinding hvw hv hw ht hu hocc hocc').Alike noGens k t u := by
  set W' := setBinding hvw hv hw ht hu hocc hocc'
  have hleft : W.left ≤ W'.left := Stage.le_setBinding _ hv ht.fits (W.isOpen hvw).1 hocc
  have hright : W.right ≤ W'.right := Stage.le_setBinding _ hw hu.fits (W.isOpen hvw).2 hocc'
  have hlike' : Like (W'.Rel noGens) k (W.left.registry.resolveDeep t)
      (W.right.registry.resolveDeep u) := by
    refine (Like.restrict hlike).mono ?_
    rintro l x y ⟨hxy, hx, -⟩
    cases hxy with
    | flex hxy =>
      refine .flex ⟨hxy, ?_⟩
      rintro rfl
      rw [(ht.occurs_iff W.leftSound).mpr hx] at hocc
      cases hocc
    | gen h => exact h.elim
  rw [Alike, hleft.registry.resolveDeep_of_open W.leftSound.acyclic W'.leftSound.acyclic,
    hright.registry.resolveDeep_of_open W.rightSound.acyclic W'.rightSound.acyclic]
  · exact hlike'
  · intro y hy
    obtain ⟨_, _, hxy, -⟩ := hlike'.exists_left hy
    cases hxy with
    | flex hxy => exact (W'.isOpen hxy).2
  · intro x hx
    obtain ⟨_, _, hxy, -⟩ := hlike'.exists_right hx
    cases hxy with
    | flex hxy => exact (W'.isOpen hxy).1

theorem le_setBinding (hlike : W.Alike noGens k t u) :
    W ≤ setBinding hvw hv hw ht hu hocc hocc' := by
  have hread := alike_setBinding hvw hv hw ht hu hocc hocc' hlike
  set W' := setBinding hvw hv hw ht hu hocc hocc'
  have hboundv : W'.left.registry.binding? v = some t := by
    show (W.left.registry.setBinding v t).binding? v = some t
    rw [binding?_setBinding, if_pos ⟨rfl, (W.issued hvw).1⟩]
  have hboundw : W'.right.registry.binding? w = some u := by
    show (W.right.registry.setBinding w u).binding? w = some u
    rw [binding?_setBinding, if_pos ⟨rfl, (W.issued hvw).2⟩]
  refine
    { left := Stage.le_setBinding _ hv ht.fits (W.isOpen hvw).1 hocc
      right := Stage.le_setBinding _ hw hu.fits (W.isOpen hvw).2 hocc'
      alike := fun {l x y} hxy => ?_
      keptLeft := fun {x} _ hfree => ?_
      keptRight := fun {y} _ hfree => ?_
      fresh := fun hxy => .inl hxy.1 }
  · by_cases hne : x = v
    · subst hne
      obtain ⟨rfl, -, rfl⟩ := W.unique hxy hvw (.inl rfl)
      rw [Alike, ← resolveDeep_resolve W'.leftSound.acyclic,
        ← resolveDeep_resolve W'.rightSound.acyclic,
        resolve_some W'.leftSound.acyclic hboundv,
        resolve_some W'.rightSound.acyclic hboundw,
        resolveDeep_resolve W'.leftSound.acyclic,
        resolveDeep_resolve W'.rightSound.acyclic]
      exact hread
    · exact alike_var ⟨hxy, hne⟩
  · show (W.left.registry.setBinding v t).binding? x = _
    rw [binding?_setBinding, if_neg]
    rintro ⟨rfl, -⟩
    exact hfree k w hvw
  · show (W.right.registry.setBinding w u).binding? y = _
    rw [binding?_setBinding, if_neg]
    rintro ⟨rfl, -⟩
    exact hfree k v hvw

end

/-! ## Types that are alike -/

/-- What two types that are alike are resolved to. -/
inductive Heads (W : World) : Kind → Ty → Ty → Prop where
  | var {k : Kind} {v w : Nat} (h : W.pair k v w) : Heads W k (.flex v) (.flex w)
  | con {c : Con} {ps : List (Ty × Ty)} (hc : c ≠ .emptyRow)
      (h : ∀ p ∈ ps, W.Alike noGens .type p.1 p.2) :
      Heads W .type (.con c (ps.map Prod.fst)) (.con c (ps.map Prod.snd))
  | emptyRow : Heads W .row .emptyRow .emptyRow
  | record {k : Kind} {fs gs : List (String × Ty)} {a b : Ty} :
      Heads W k (.record fs a) (.record gs b)

theorem exists_pairs {α β γ δ : Type} {f : α → γ} {g : β → δ} {ps : List (γ × δ)} {xs : List α}
    {ys : List β} (hx : xs.map f = ps.map Prod.fst) (hy : ys.map g = ps.map Prod.snd) :
    ∃ zs : List (α × β), xs = zs.map Prod.fst ∧ ys = zs.map Prod.snd ∧
      ps = zs.map (Prod.map f g) := by
  have hlen : xs.length = ys.length := by
    have h₁ := congrArg List.length hx
    have h₂ := congrArg List.length hy
    simp only [List.length_map] at h₁ h₂
    omega
  refine ⟨xs.zip ys, (List.map_fst_zip hlen.le).symm, (List.map_snd_zip hlen.ge).symm, ?_⟩
  rw [← List.zip_map, hx, hy, List.zip_map', List.map_id']

theorem exists_fields {α β γ δ : Type} {f : α → γ} {g : β → δ} {ps : Table (γ × δ)} {xs : Table α}
    {ys : Table β} (hx : xs.mapValues f = ps.mapValues Prod.fst)
    (hy : ys.mapValues g = ps.mapValues Prod.snd) :
    ∃ zs : Table (α × β), xs = zs.mapValues Prod.fst ∧ ys = zs.mapValues Prod.snd ∧
      ps = zs.mapValues (Prod.map f g) := by
  induction ps generalizing xs ys with
  | nil =>
    cases map_eq_nil_iff.mp hx
    cases map_eq_nil_iff.mp hy
    exact ⟨[], rfl, rfl, rfl⟩
  | cons p ps ih =>
    obtain ⟨x, xs, rfl, hp, hxs⟩ := map_eq_cons_iff.mp hx
    obtain ⟨y, ys, rfl, hq, hys⟩ := map_eq_cons_iff.mp hy
    obtain ⟨zs, rfl, rfl, rfl⟩ := ih hxs hys
    obtain ⟨l, p₁, p₂⟩ := p
    obtain ⟨m, x⟩ := x
    obtain ⟨n, y⟩ := y
    cases hp
    cases hq
    exact ⟨(l, x, y) :: zs, rfl, rfl, rfl⟩

theorem Alike.heads (h : W.Alike noGens k t u) :
    W.Heads k (W.left.registry.resolve t) (W.right.registry.resolve u) := by
  unfold Alike at h
  generalize ht : W.left.registry.resolveDeep t = t' at h
  generalize hu : W.right.registry.resolveDeep u = u' at h
  cases h with
  | var h =>
    rw [resolve_of_var W.leftSound.acyclic ht, resolve_of_var W.rightSound.acyclic hu]
    cases h with
    | flex h => exact .var h
    | gen h => exact h.elim
  | con hc hargs =>
    obtain ⟨ts, ht', hts⟩ := resolve_of_con W.leftSound.acyclic ht
    obtain ⟨us, hu', hus⟩ := resolve_of_con W.rightSound.acyclic hu
    obtain ⟨ps, rfl, rfl, rfl⟩ := exists_pairs hts hus
    rw [ht', hu']
    exact .con hc (forall_mem_map.mp hargs)
  | emptyRow =>
    obtain ⟨ts, ht', hts⟩ := resolve_of_con W.leftSound.acyclic ht
    obtain ⟨us, hu', hus⟩ := resolve_of_con W.rightSound.acyclic hu
    cases map_eq_nil_iff.mp hts
    cases map_eq_nil_iff.mp hus
    rw [ht', hu']
    exact .emptyRow
  | record =>
    obtain ⟨_, _, ht'⟩ :=
      eq_record_of_isRecord (resolve_of_record W.leftSound.acyclic ht).1
    obtain ⟨_, _, hu'⟩ :=
      eq_record_of_isRecord (resolve_of_record W.rightSound.acyclic hu).1
    rw [ht', hu']
    exact .record

theorem Alike.resolve (h : W.Alike γ k t u) :
    W.Alike γ k (W.left.registry.resolve t) (W.right.registry.resolve u) := by
  rwa [Alike, resolveDeep_resolve W.leftSound.acyclic, resolveDeep_resolve W.rightSound.acyclic]

theorem alike_con {α : Type} {c : Con} (hc : c ≠ .emptyRow) (xs : List α) (f g : α → Ty)
    (h : ∀ x ∈ xs, W.Alike γ .type (f x) (g x)) :
    W.Alike γ .type (.con c (xs.map f)) (.con c (xs.map g)) := by
  rw [Alike, resolveDeep_con W.leftSound.acyclic resolve_con,
    resolveDeep_con W.rightSound.acyclic resolve_con,
    List.map_map, List.map_map]
  exact .con_map hc xs _ _ h

theorem alike_emptyRow : W.Alike γ .row .emptyRow .emptyRow := by
  rw [Alike, resolveDeep_con W.leftSound.acyclic resolve_con,
    resolveDeep_con W.rightSound.acyclic resolve_con]
  exact .emptyRow

theorem alike_record {zs : Table (Ty × Ty)} (hzs : ∀ z ∈ zs, W.Alike γ .type z.2.1 z.2.2)
    (h : W.Alike γ .row t u) :
    W.Alike γ k (.record (zs.mapValues Prod.fst) t) (.record (zs.mapValues Prod.snd) u) := by
  have hread : ∀ z ∈ mapValues
      (Prod.map W.left.registry.resolveDeep W.right.registry.resolveDeep) zs,
      Like (W.Rel γ) .type z.2.1 z.2.2 := forall_mem_map.mpr hzs
  have hfields := Like.prepend (k := k) hread h
  rw [Alike, resolveDeep_record_of_like W.leftSound.acyclic _ h,
    resolveDeep_record_of_like W.rightSound.acyclic _ (Like.symm h)]
  simpa [mapValues, comp_def] using hfields

/-- The rows of two types that are alike have the same labels. -/
theorem Alike.row (h : W.Alike noGens .row t u) : ∃ zs : Table (Ty × Ty),
    (W.left.registry.row t).fields = zs.mapValues Prod.fst ∧
      (W.right.registry.row u).fields = zs.mapValues Prod.snd ∧
      (∀ z ∈ zs, W.Alike noGens .type z.2.1 z.2.2) ∧
      W.Alike noGens .row (W.left.registry.row t).tail (W.right.registry.row u).tail := by
  have hheads := h.heads
  generalize ht : W.left.registry.resolve t = t' at hheads
  generalize hu : W.right.registry.resolve u = u' at hheads
  cases hheads with
  | var hvw =>
    rw [row_other (by simp [ht]), row_other (by simp [hu]), ht, hu]
    exact ⟨[], rfl, rfl, by simp, alike_var hvw⟩
  | emptyRow =>
    rw [row_other (by simp [ht]), row_other (by simp [hu]), ht, hu]
    exact ⟨[], rfl, rfl, by simp, alike_emptyRow⟩
  | record =>
    rw [Alike, resolveDeep_record W.leftSound.acyclic ht,
      resolveDeep_record W.rightSound.acyclic hu] at h
    generalize hfs : mapValues _ (W.left.registry.row t).fields = fs at h
    generalize hgs : mapValues _ (W.right.registry.row u).fields = gs at h
    cases h with
    | record hfields htail =>
      obtain ⟨zs, hfs', hgs', rfl⟩ := exists_fields hfs hgs
      refine ⟨zs, hfs', hgs', forall_mem_map.mp hfields, ?_⟩
      obtain ⟨-, hend⟩ := row_tail W.leftSound.acyclic t
      generalize (W.left.registry.row t).tail = a at htail hend ⊢
      generalize (W.right.registry.row u).tail = b at htail ⊢
      cases htail with
      | var h =>
        cases h with
        | flex hvw => exact alike_var hvw
        | gen h => exact h.elim
      | emptyRow => exact alike_emptyRow
      | record => cases hend

end World

end RowTyping
