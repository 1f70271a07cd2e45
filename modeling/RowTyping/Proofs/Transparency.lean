import RowTyping.Proofs.Expansion
import RowTyping.Proofs.Simulation
import RowTyping.Proofs.Translation

/-!
# Synonyms are transparent to unification

Unification over a registry and over its expansion go through the same meetings.
A synonym on the right of a meeting changes its sides, so the two runs may take
the two types of a meeting, and the two rows, in different order, and of two open
variables that are made equal they may bind different ones. What they leave still
reads alike. The one exception is a synonym that stands for an open variable: when
it meets that variable, the occurs check refuses it.
-/

namespace RowTyping

open Registry Row Table Ty List Option

section

variable {G : Prop} {K : Nat → Kind} {π : Equiv.Perm Nat} {r e : Registry} {k : Kind}
  {a b x y t u : Ty} {v w : Nat} {r' e₁ : Registry} {out : Except TypeError Unit}

/-! ## Two solutions in either order -/

theorem Registry.setBinding_comm (hne : v ≠ w) (t u : Ty) :
    (r.setBinding v t).setBinding w u = (r.setBinding w u).setBinding v t := by
  unfold setBinding
  congr 1
  refine Array.ext_getElem? fun i => ?_
  simp only [Array.getElem?_modify]
  by_cases hv : v = i
  · subst hv
    simp [hne.symm]
  · simp [hv]

theorem Registry.Reaches.of_resolve (hr : r.Acyclic) (h : r.Reaches (r.resolve t) v) :
    r.Reaches t v := by
  induction t using resolve_induct hr with
  | bound u t hb ih =>
    rw [resolve_some hr hb] at h
    obtain ⟨w, hw, hwv⟩ := ih h
    exact ⟨u, mentions_flex.mpr rfl, hwv.head ⟨t, hb, hw⟩⟩
  | done t ht => rwa [ht.resolve] at h

/-- What the search finds, the bindings lead to. -/
theorem Registry.reaches_of_occurs (hr : r.Acyclic) (h : r.occurs v t = true) : r.Reaches t v := by
  induction t using part_induct hr with
  | step t ih =>
    refine .of_resolve hr ?_
    have hpart : ∀ u ∈ (r.resolve t).children, r.occurs v u = true → r.Reaches (r.resolve t) v := by
      intro u hu hocc
      obtain ⟨w, hw, hwv⟩ := ih u (.inl hu) hocc
      exact ⟨w, hw.of_child hu, hwv⟩
    rw [occurs_eq hr, occursStep] at h
    cases heq : r.resolve t with
    | var x =>
      rw [heq] at h
      cases x with
      | gen g => cases h
      | flex w => exact ⟨w, mentions_flex.mpr rfl, by rw [beq_iff_eq.mp h]⟩
    | con c args =>
      rw [heq] at h hpart
      obtain ⟨u, hu, hocc⟩ := any_eq_true.mp h
      exact hpart u hu hocc
    | record fs tail =>
      rw [heq] at h hpart
      rcases (Bool.or_eq_true _ _).mp h with hfields | htail
      · obtain ⟨f, hf, hocc⟩ := any_eq_true.mp hfields
        exact hpart f.2 (mem_children_record.mpr (.inl ⟨f, hf, rfl⟩)) hocc
      · exact hpart tail (mem_children_record.mpr (.inr rfl)) htail
    | synonym id labels params target =>
      rw [heq] at h hpart
      exact hpart target (by simp [children]) h
    | module name members =>
      rw [heq] at h
      cases h

theorem Registry.Reaches.of_extends (h : r.Reaches t v) (hex : r.Extends r') : r'.Reaches t v := by
  obtain ⟨w, hw, hwv⟩ := h
  exact ⟨w, hw, hwv.lift id fun x y ⟨u, hu, hy⟩ => ⟨u, hex.binding x u hu, hy⟩⟩

/-- Two variables that can be solved one after the other can be solved the other way
around. -/
theorem Solved.comm {e₂ : Registry} (he : e.WellFormed AnyKind) (hv : e.binding? v = none)
    (hw : e.binding? w = none) (hne : v ≠ w) (ht : t.Covered) (hu : u.Covered)
    (h₁ : Solved e v t (.ok ()) e₁) (h₂ : Solved e₁ w u (.ok ()) e₂) :
    ∃ e₁', Solved e w u (.ok ()) e₁' ∧ Solved e₁' v t (.ok ()) e₂ := by
  have hw₁ := h₁.open_of_ne hw hne
  obtain ⟨hwell₁, hex₁⟩ := h₁.keeps (k := .type) kinding_anyKind he hv (covered_var _) ht
  obtain ⟨hwell₂, -⟩ := h₂.keeps (k := .type) kinding_anyKind hwell₁ hw₁ (covered_var _) hu
  cases h₁ with
  | bind hocc hlt =>
    cases h₂ with
    | bind hocc' hlt' =>
      rw [varCount_setBinding] at hlt'
      have hoccw : e.occurs w u = false := by
        rw [Bool.eq_false_iff]
        intro h
        rw [occurs_of_reaches hwell₁.acyclic hwell₁.covered hw₁ hu
          ((reaches_of_occurs he.acyclic h).of_extends hex₁)] at hocc'
        cases hocc'
      have hwell := he.setBinding (k := .type) kinding_anyKind hw (covered_var _) hu hoccw
      have hv' : (e.setBinding w u).binding? v = none := by
        rw [binding?_setBinding, if_neg fun h => hne h.1.symm, hv]
      rw [setBinding_comm hne] at hwell₂ ⊢
      refine ⟨_, .bind hoccw hlt', .bind ?_ (by simpa using hlt)⟩
      rw [Bool.eq_false_iff]
      intro h
      -- a way back to the first variable would be a cycle of the last registry
      obtain ⟨x, hx, hxv⟩ := (reaches_of_occurs hwell.acyclic h).of_extends (.setBinding hv' t)
      exact hwell₂.acyclic v
        (.head' ⟨t, by rw [binding?_setBinding, if_pos ⟨rfl, by simpa using hlt⟩],
        hx⟩ hxv)

theorem Solved.exists (r : Registry) (v : Nat) (t : Ty) : ∃ out r', Solved r v t out r' := by
  cases hocc : r.occurs v t with
  | true => exact ⟨_, _, .cyclic hocc⟩
  | false =>
    by_cases hv : v < r.varCount
    · exact ⟨_, _, .bind hocc hv⟩
    · exact ⟨_, _, .unknown hocc (Nat.not_lt.mp hv)⟩

namespace SolvedBoth

variable {v w : Nat} {t u : Ty} {out out' : Except TypeError Unit} {r' r'' : Registry}

theorem exists_outcome (r : Registry) (v : Nat) (t : Ty) (w : Nat) (u : Ty) :
    ∃ out r', SolvedBoth r v t w u out r' := by
  obtain ⟨out, r₁, h₁⟩ := Solved.exists r v t
  cases out with
  | error err => exact ⟨_, _, .stop h₁⟩
  | ok =>
    obtain ⟨out, r₂, h₂⟩ := Solved.exists r₁ w u
    exact ⟨_, _, .both h₁ h₂⟩

theorem unique (h : SolvedBoth r v t w u out r') (h' : SolvedBoth r v t w u out' r'') :
    out = out' := by
  cases h with
  | both first second =>
    cases h' with
    | both first' second' =>
      obtain ⟨-, rfl⟩ := first.unique first'
      exact (second.unique second').1
    | stop first' => cases (first.unique first').1
  | stop first =>
    cases h' with
    | both first' _ => cases (first.unique first').1
    | stop first' => exact (first.unique first').1

/-- The order does not matter for the outcome, nor for what is left after success. -/
theorem comm (he : r.WellFormed AnyKind) (hv : r.binding? v = none) (hw : r.binding? w = none)
    (hne : v ≠ w) (ht : t.Covered) (hu : u.Covered) (h : SolvedBoth r v t w u out r') :
    (out = .ok () → SolvedBoth r w u v t (.ok ()) r') ∧
      ∀ err, out = .error err → ∃ err' r'', SolvedBoth r w u v t (.error err') r'' := by
  constructor
  · rintro rfl
    cases h with
    | both first second =>
      obtain ⟨r₁, first', second'⟩ := first.comm he hv hw hne ht hu second
      exact .both first' second'
  · rintro err rfl
    obtain ⟨out, r'', h'⟩ := exists_outcome r w u v t
    cases out with
    | error err' => exact ⟨err', r'', h'⟩
    | ok =>
      cases h' with
      | both first' second' =>
        obtain ⟨r₁, first, second⟩ := first'.comm he hw hv hne.symm hu ht second'
        cases h.unique (.both first second)

end SolvedBoth

theorem Registry.resolve_addVar (hr : r.Acyclic) (t : Ty) : r.addVar.resolve t = r.resolve t := by
  induction t using resolve_induct hr with
  | bound v u hv ih => rw [resolve_some hr hv, resolve_some hr.addVar (by simpa using hv), ih]
  | done t ht =>
    rw [ht.resolve]
    exact Resolved.resolve fun v hv => by simpa using ht v hv

/-- A type stands for a variable that it does not resolve to only behind a synonym. -/
theorem ReadAlike.not_stands_for (h : ReadAlike G K π r e k b y) (hb : r.resolve b ≠ .flex v)
    (hy : e.resolve y = .flex (π v)) : ¬ G := by
  intro hG
  cases h with
  | flex ht hu =>
    rw [hu] at hy
    exact hb (by rw [ht, π.injective (TyVar.flex.inj (var.inj hy))])
  | synonym _ _ hfirm => exact hfirm hG _ hy
  | gen _ hu | con _ hu | record _ hu | module _ hu =>
    rw [hu] at hy
    cases hy

theorem Solved.eq_setBinding (h : Solved r v t (.ok ()) r') : r' = r.setBinding v t := by
  cases h with
  | bind => rfl

theorem occurs_open (he : e.Acyclic) (hw : e.binding? w = none) :
    e.occurs v (.flex w) = (v == w) := by
  rw [occurs_eq he, occursStep, resolve_none hw]

/-- An open variable can be made equal to another one. -/
theorem Solved.of_flex {e' : Registry} (h : Solved e v (.flex w) out e') (he : e.Acyclic)
    (hw : e.binding? w = none) (hv : v < e.varCount) (hne : v ≠ w) : out = .ok () := by
  cases h with
  | bind => rfl
  | unknown _ hle => omega
  | cyclic hocc =>
    rw [occurs_open he hw] at hocc
    exact absurd (by simpa using hocc) hne

/-! ## Solving in step -/

/-- Two registries with the same variables, of which the later ones stand for rows
and are not permuted. -/
structure Mirror (G : Prop) (K : Nat → Kind) where
  perm : Equiv.Perm Nat
  left : Registry
  right : Registry
  leftWell : left.WellFormed AnyKind
  rightWell : right.WellFormed AnyKind
  count : right.varCount = left.varCount
  fixed : ∀ v, left.varCount ≤ v → perm v = v
  rows : ∀ v, left.varCount ≤ v → K v = .row

namespace Mirror

variable {M : Mirror G K}

abbrev Reads (M : Mirror G K) : Kind → Ty → Ty → Prop := ReadAlike G K M.perm M.left M.right

/-- What reads alike still does so later. -/
instance : Preorder (Mirror G K) where
  le M M' := ∀ k t u, M.Reads k t u → M'.Reads k t u
  le_refl _ _ _ _ h := h
  le_trans _ _ _ h h' _ _ _ ht := h' _ _ _ (h _ _ _ ht)

/-- A synonym may change sides. Failure is followed only if no synonym stands for an
open variable. -/
abbrev sides (G : Prop) (K : Nat → Kind) : Sides (Mirror G K) := ⟨left, right, True, G⟩

/-- The types read alike and have no hidden parameters. -/
structure Alike (M : Mirror G K) (k : Kind) (t u : Ty) : Prop where
  reads : M.Reads k t u
  left : t.Covered
  right : u.Covered

theorem Alike.resolve (h : M.Alike k t u) : M.Alike k (M.left.resolve t) (M.right.resolve u) :=
  ⟨h.reads.resolve M.leftWell.acyclic M.rightWell.acyclic,
    M.leftWell.covered.resolve M.leftWell.acyclic h.left,
    M.rightWell.covered.resolve M.rightWell.acyclic h.right⟩

theorem Alike.form (h : M.Alike k t u) (ht : (M.left.resolve t).IsRigid) :
    SameForm (M.Alike .type) (M.left.resolve t) (M.right.resolve u) := by
  obtain ⟨-, hleft, hright⟩ := h.resolve
  cases h.reads with
  | flex ht' => exact absurd ht' (ht.1 _)
  | gen ht hu =>
    rw [ht, hu]
    exact .gen _
  | con ht hu _ _ hargs =>
    rw [ht, covered_con] at hleft
    rw [hu, covered_con] at hright
    rw [ht, hu]
    exact .con _ fun p hp => ⟨hargs p hp, hleft _ (mem_map_of_mem hp), hright _ (mem_map_of_mem hp)⟩
  | record ht hu =>
    rw [ht, hu]
    exact .record _ _ _ _
  | synonym ht' => exact absurd ht' (ht.2 _ _ _ _)
  | module ht hu =>
    rw [ht, hu]
    exact .module _ _

theorem lt (M : Mirror G K) (hv : v < M.left.varCount) : M.perm v < M.right.varCount := by
  rw [M.count]
  by_contra hle
  have heq : M.perm v = v := M.perm.injective (M.fixed (M.perm v) (Nat.not_lt.mp hle))
  omega

/-- Both registries issue a variable, and nothing else changes. -/
def addVar (M : Mirror G K) : Mirror G K where
  perm := M.perm
  left := M.left.addVar
  right := M.right.addVar
  leftWell := M.leftWell.addVar
  rightWell := M.rightWell.addVar
  count := by simp [M.count]
  fixed v hv := M.fixed v (by simp at hv; omega)
  rows v hv := M.rows v (by simp at hv; omega)

theorem le_addVar (M : Mirror G K) : M ≤ M.addVar := fun _ _ _ h =>
  h.reread (resolve_addVar M.leftWell.acyclic) (resolve_addVar M.rightWell.acyclic)
    (by simp [addVar])

/-- A variable and its partner are solved together, or neither is. -/
theorem solved (hs : Solved M.left v t out r) (hv : M.left.binding? v = none)
    (hv' : M.right.binding? (M.perm v) = none) (hlt : v < M.left.varCount)
    (h : M.Alike (K v) t u) :
    (out = .ok () ∧ ∃ M', M ≤ M' ∧ M'.left = r ∧ M'.perm = M.perm ∧
        Solved M.right (M.perm v) u (.ok ()) M'.right) ∨
      (∃ err, out = .error err) ∧ ∃ err e, Solved M.right (M.perm v) u (.error err) e := by
  have hocc := h.reads.occurs_eq M.leftWell.acyclic M.rightWell.acyclic v
  cases hs with
  | unknown _ hle => omega
  | cyclic h => exact .inr ⟨⟨_, rfl⟩, _, _, .cyclic (hocc.trans h)⟩
  | bind hfree =>
    have hleft : (M.left.setBinding v t).WellFormed AnyKind :=
      M.leftWell.setBinding (k := .type) kinding_anyKind hv (covered_var _) h.left hfree
    have hright : (M.right.setBinding (M.perm v) u).WellFormed AnyKind :=
      M.rightWell.setBinding (k := .type) kinding_anyKind hv' (covered_var _) h.right
        (hocc.trans hfree)
    refine .inl ⟨rfl, ⟨M.perm, _, _, hleft, hright, by simp [M.count], by simpa using M.fixed,
      by simpa using M.rows⟩, fun _ _ _ h' => ?_, rfl, rfl, .bind (hocc.trans hfree) (M.lt hlt)⟩
    exact h'.setBinding M.leftWell.acyclic M.rightWell.acyclic hleft.acyclic hright.acyclic hv hv'
      h.reads hfree (M.lt hlt)

/-- A variable meets another type. -/
theorem Alike.solve (ha : M.Alike k a x) (hb : M.Alike k b y) (hav : M.left.resolve a = .flex v)
    (hne : M.left.resolve b ≠ .flex v) (hs : Solved M.left v (M.left.resolve b) out r) :
    (sides G K).Answers M (Unifies M.right (.types x y)) out r ∧
      (sides G K).Answers M (Unifies M.right (.types y x)) out r := by
  have hr := M.leftWell.acyclic
  have he := M.rightWell.acyclic
  obtain ⟨hx, hlt, rfl⟩ := ha.reads.of_flex hav
  have hv := binding?_of_resolve hr hav
  have hv' := binding?_of_resolve he hx
  have hsolved := solved hs hv hv' hlt hb.resolve
  by_cases hy : ∃ w, M.right.resolve y = .flex w
  · obtain ⟨w, hw⟩ := hy
    obtain ⟨v', rfl, -, hlt', -⟩ := hb.reads.occurs_of_flex hr hw
    have hw' := binding?_of_resolve he hw
    rw [hw] at hsolved
    by_cases hvv : v = v'
    · -- the type is a synonym for the variable itself
      subst hvv
      have hfirm := hb.reads.not_stands_for hne hw
      rcases hsolved with ⟨-, M', -, -, -, hs'⟩ | ⟨⟨err, rfl⟩, -⟩
      · generalize M'.right = e' at hs'
        cases hs' with
        | bind hocc => simp [occurs_open he hw'] at hocc
      · exact ⟨fun hG => absurd hG hfirm, fun hG => absurd hG hfirm⟩
    · have hneq : M.perm v ≠ M.perm v' := fun h => hvv (M.perm.injective h)
      rcases hsolved with ⟨rfl, M', hle, rfl, hperm, hs'⟩ | ⟨-, err, e', hs'⟩
      · have hmeet : (M.right.resolve x).meet (M.right.resolve y) =
            .solve (M.perm v) (.flex (M.perm v')) := by
          rw [hx, hw]
          exact meet_flex_flex hneq
        have hmeet' : (M.right.resolve y).meet (M.right.resolve x) =
            .solve (M.perm v') (.flex (M.perm v)) := by
          rw [hx, hw]
          exact meet_flex_flex hneq.symm
        refine ⟨⟨M', hle, rfl, .solve hmeet hs'⟩, ?_⟩
        -- the other run binds the second variable to the first
        have hocc : M.right.occurs (M.perm v') (.flex (M.perm v)) = false := by
          rw [occurs_open he hv']
          simpa using hneq.symm
        have hswap := M.rightWell.setBinding (k := .type) kinding_anyKind hw' (covered_var _)
          (covered_var (.flex (M.perm v))) hocc
        have hcount := hs'.varCount
        refine ⟨⟨M.perm.trans (Equiv.swap (M.perm v) (M.perm v')), M'.left,
          M.right.setBinding (M.perm v') (.flex (M.perm v)), M'.leftWell, hswap, ?_, fun n hn => ?_,
          M'.rows⟩, fun _ _ _ h => ?_, rfl, .solve hmeet' (.bind hocc (M.lt hlt'))⟩
        · rw [varCount_setBinding, ← hcount, M'.count]
        · have hfix := M'.fixed n hn
          rw [hperm] at hfix
          rw [← M'.count] at hn
          rw [Equiv.trans_apply, hfix, Equiv.swap_apply_of_ne_of_ne]
          · exact fun h => absurd (M.lt hlt) (by omega)
          · exact fun h => absurd (M.lt hlt') (by omega)
        · have hread := hle _ _ _ h
          have hright := M'.rightWell.acyclic
          rw [Reads, hperm, hs'.eq_setBinding] at hread
          rw [hs'.eq_setBinding] at hright
          exact hread.reorient he hright hswap.acyclic hv' hw' (M.lt hlt) (M.lt hlt') hneq
      · cases hs'.of_flex he hw' (M.lt hlt) hneq
  · replace hy : ∀ w, M.right.resolve y ≠ .flex w := fun w hw => hy ⟨w, hw⟩
    obtain ⟨hmeet, hmeet'⟩ := meet_flex_of_ne hy
    rw [← hx] at hmeet hmeet'
    rcases hsolved with ⟨rfl, M', hle, hleft, -, hs'⟩ | ⟨⟨err, rfl⟩, err', e', hs'⟩
    · exact ⟨⟨M', hle, hleft, .solve hmeet hs'⟩, ⟨M', hle, hleft, .solve hmeet' hs'⟩⟩
    · exact ⟨fun _ => ⟨err', e', .solve hmeet hs'⟩, fun _ => ⟨err', e', .solve hmeet' hs'⟩⟩

/-! ## Rows in step -/

/-- Rows with the same labels, where the fields and what the rows end in read alike. -/
structure RowsAlike (M : Mirror G K) (m m' : Row) : Prop where
  fields : ∃ zs : Table (Ty × Ty), zs.Sorted ∧ m.fields = zs.mapValues Prod.fst ∧
    m'.fields = zs.mapValues Prod.snd ∧ ∀ z ∈ zs, M.Alike .type z.2.1 z.2.2
  tail : M.Alike .row m.tail m'.tail

theorem Alike.row (h : M.Alike .row t u) : M.RowsAlike (M.left.row t) (M.right.row u) := by
  obtain ⟨zs, hmine, hmine', hzs, htail⟩ := h.reads.row M.leftWell.acyclic M.rightWell.acyclic
  obtain ⟨hfields, hend⟩ := M.leftWell.row kinding_anyKind h.left
  obtain ⟨hfields', hend'⟩ := M.rightWell.row kinding_anyKind h.right
  rw [hmine] at hfields
  rw [hmine'] at hfields'
  refine ⟨⟨zs, ?_, hmine, hmine', fun z hz => ⟨hzs z hz, ?_, ?_⟩⟩, htail, hend, hend'⟩
  · exact (hmine ▸ row_sorted M.leftWell.acyclic t).of_mapValues
  · exact hfields _ (mem_map_of_mem hz)
  · exact hfields' _ (mem_map_of_mem hz)

/-- What a row lacks of another one, in front of types that read alike. -/
theorem RowsAlike.lacking {m n m' n' : Row} (h : M.RowsAlike m m') (h' : M.RowsAlike n n')
    (htu : M.Alike .row t u) :
    M.Alike k (.record (m.lacking n) t) (.record (m'.lacking n') u) := by
  obtain ⟨zs, -, hm, hm', -⟩ := h.fields
  obtain ⟨ws, -, hn, hn', hrel⟩ := h'.fields
  have hleft : m.lacking n = (zs.lacking ws).mapValues Prod.fst := by
    rw [← lacking_mapValues Prod.fst Prod.fst, ← hm, ← hn]
    rfl
  have hright : m'.lacking n' = (zs.lacking ws).mapValues Prod.snd := by
    rw [← lacking_mapValues Prod.snd Prod.snd, ← hm', ← hn']
    rfl
  have hrel' : ∀ z ∈ zs.lacking ws, M.Alike .type z.2.1 z.2.2 :=
    fun z hz => hrel z (mem_of_mem_filter hz)
  rw [hleft, hright]
  refine ⟨.record resolve_record resolve_record
    (fun z hz => (hrel' z hz).reads) htu.reads, covered_record.mpr ⟨?_, htu.left⟩,
    covered_record.mpr ⟨?_, htu.right⟩⟩
  · exact forall_mem_map.mpr fun z hz => (hrel' z hz).left
  · exact forall_mem_map.mpr fun z hz => (hrel' z hz).right

/-- An open tail and its partner. -/
theorem RowsAlike.open_tail {m m' : Row} (h : M.RowsAlike m m')
    (hv : M.left.resolve m.tail = .flex v) (hw : M.right.resolve m'.tail = .flex w) :
    w = M.perm v ∧ M.left.binding? v = none ∧ M.right.binding? w = none ∧ v < M.left.varCount ∧
      K v = .row := by
  obtain ⟨hw', hlt, hk⟩ := h.tail.reads.of_flex hv
  rw [hw] at hw'
  cases hw'
  exact ⟨rfl, binding?_of_resolve M.leftWell.acyclic hv,
    binding?_of_resolve M.rightWell.acyclic hw, hlt, hk⟩

/-- The variable that both registries issue reads alike. -/
theorem alike_new (M : Mirror G K) :
    M.addVar.Alike .row (.flex M.left.varCount) (.flex M.right.varCount) := by
  have hopen : ∀ s : Registry, s.addVar.resolve (.flex s.varCount) = .flex s.varCount := by
    intro s
    refine resolve_none ?_
    rw [binding?_addVar]
    exact eq_none_iff_forall_ne_some.mpr fun t ht => (lt_varCount_of_binding? ht).false
  refine ⟨.flex (hopen _) ?_ (by simp [addVar]) (M.rows _ le_rfl), covered_var _, covered_var _⟩
  show M.right.addVar.resolve _ = .flex (M.perm _)
  rw [hopen, M.count, M.fixed _ le_rfl]

theorem Alike.mono {M' : Mirror G K} (h : M.Alike k t u) (hle : M ≤ M') : M'.Alike k t u :=
  ⟨hle _ _ _ h.reads, h.left, h.right⟩

theorem RowsAlike.mono {M' : Mirror G K} {m m' : Row} (h : M.RowsAlike m m') (hle : M ≤ M') :
    M'.RowsAlike m m' := by
  obtain ⟨⟨zs, hzs, hm, hm', hrel⟩, htail⟩ := h
  exact ⟨⟨zs, hzs, hm, hm', fun z hz => (hrel z hz).mono hle⟩, htail.mono hle⟩

/-- Two tails take the fields that they lack in both registries, or in neither. -/
theorem splits {m n m' n' : Row} {v' w' : Nat} (h : M.RowsAlike m m') (h' : M.RowsAlike n n')
    (hne : v ≠ v') (hv : M.left.resolve m.tail = .flex v) (hv' : M.left.resolve n.tail = .flex v')
    (hw : M.right.resolve m'.tail = .flex w) (hw' : M.right.resolve n'.tail = .flex w')
    (hs : Splits M.left v v' (m.lacking n) (n.lacking m) out r) :
    (sides G K).Answers M (Splits M.right w w' (m'.lacking n') (n'.lacking m')) out r ∧
      (True →
        (sides G K).Answers M (Splits M.right w' w (n'.lacking m') (m'.lacking n')) out r) := by
  obtain ⟨rfl, hopen, hopen', hlt, hk⟩ := h.open_tail hv hw
  obtain ⟨rfl, hopen₂, hopen₂', hlt₂, hk₂⟩ := h'.open_tail hv' hw'
  have hmine := (h.mono M.le_addVar).lacking (h'.mono M.le_addVar) (k := K v) M.alike_new
  have htheirs := (h'.mono M.le_addVar).lacking (h.mono M.le_addVar) (k := K v') M.alike_new
  have hopenA : ∀ {s : Registry} {v : Nat}, s.binding? v = none → s.addVar.binding? v = none :=
    fun h => by simpa using h
  have hissued : ∀ {v}, v < M.left.varCount → v < M.addVar.left.varCount := fun h => by
    simpa [addVar] using h.trans (Nat.lt_succ_self _)
  have hne' : M.perm v ≠ M.perm v' := fun h => hne (M.perm.injective h)
  -- the sides of the second solution are exchanged afterwards
  have hstraight : (sides G K).Answers M
      (Splits M.right (M.perm v) (M.perm v') (m'.lacking n') (n'.lacking m')) out r := by
    cases hs with
    | both first second =>
      obtain ⟨-, M₁, hle, hleft, hperm, first'⟩ | ⟨⟨_, h⟩, -⟩ :=
        solved first (hopenA hopen) (hopenA hopen') (hissued hlt) hmine
      · subst hleft
        have hsecond := solved second (first.open_of_ne (hopenA hopen₂) hne)
          (hperm ▸ first'.open_of_ne (hopenA hopen₂') hne') (first.varCount ▸ hissued hlt₂)
          (htheirs.mono hle)
        rw [hperm] at hsecond
        obtain ⟨rfl, M₂, hle₂, hleft, -, second'⟩ | ⟨⟨_, rfl⟩, _, _, second'⟩ := hsecond
        · exact ⟨M₂, (M.le_addVar.trans hle).trans hle₂, hleft, .both first' second'⟩
        · exact fun _ => ⟨_, _, .both first' second'⟩
      · cases h
    | stop first =>
      obtain ⟨h, -⟩ | ⟨-, _, _, first'⟩ :=
        solved first (hopenA hopen) (hopenA hopen') (hissued hlt) hmine
      · cases h
      · exact fun _ => ⟨_, _, .stop first'⟩
  refine ⟨hstraight, fun _ => ?_⟩
  have hcomm := fun {out e} (h : Splits M.right (M.perm v) (M.perm v') (m'.lacking n')
      (n'.lacking m') out e) =>
    SolvedBoth.comm M.rightWell.addVar (hopenA hopen') (hopenA hopen₂') hne' hmine.right
      htheirs.right h
  cases out with
  | ok =>
    obtain ⟨M', hle, hleft, h⟩ := hstraight
    exact ⟨M', hle, hleft, (hcomm h).1 rfl⟩
  | error =>
    intro hG
    obtain ⟨_, _, h⟩ := hstraight hG
    exact (hcomm h).2 _ rfl

/-- Unification keeps what reads alike. -/
def simulation (G : Prop) (K : Nat → Kind) : Simulation (Mirror G K) Kind where
  toSides := sides G K
  Rel := Alike
  Rows M _ := M.RowsAlike
  type := .type
  rest _ := .row
  mono hle h := h.mono hle
  monoRows hle h := h.mono hle
  flex h ht := ⟨_, (h.reads.of_flex ht).1⟩
  unique {M} _ _ _ _ _ _ _ _ _ _ ha hb hav hbv hxw hyw := by
    have hw := hxw.symm.trans (ha.reads.of_flex hav).1
    have hw' := hyw.symm.trans (hb.reads.of_flex hbv).1
    cases hw
    cases hw'
    exact M.perm.injective.eq_iff.symm
  form h ht := h.form ht
  synonym {M} _ _ _ _ _ _ _ _ _ ha hb heq := by
    obtain ⟨rfl, htarget, -⟩ := ha.reads.of_synonym heq
    have hcov := ha.resolve.left
    rw [heq, Ty.covered_synonym] at hcov
    refine ⟨trivial, ⟨htarget, hcov.2.2, ha.right⟩, ?_, hb.resolve.left, hb.right⟩
    exact hb.reads.congr (resolve_resolve M.leftWell.acyclic _) rfl
  solve ha hb hav hne hs := (ha.solve hb hav hne hs).imp_right fun h _ => h
  asRow h hform := Alike.resolve ⟨h.reads.asRow hform, h.left, h.right⟩
  row h := h.row
  fields h := h.fields
  tail {M} _ _ _ h := by
    refine ⟨⟨_, h.tail⟩, ?_⟩
    cases h.tail.reads with
    | flex ht => exact .inl ⟨_, ht⟩
    | gen ht | con ht | record ht =>
      rw [ht]
      exact .inr ⟨by simp, by simp⟩
  tails h h' _ _ := ⟨.row, h.tail.resolve, h'.tail.resolve⟩
  extend h h' _ hv hw hs := by
    obtain ⟨rfl, hopen, hopen', hlt, hk⟩ := h.open_tail hv hw
    obtain ⟨rfl, M', hle, hleft, -, hs'⟩ | ⟨⟨_, rfl⟩, _, _, hs'⟩ :=
      solved hs hopen hopen' hlt (h.lacking h' h'.tail.resolve)
    · exact ⟨M', hle, hleft, hs'⟩
    · exact fun _ => ⟨_, _, hs'⟩
  split := splits

end Mirror

/-! ## Types that meet themselves -/

theorem unifies_all_self {ts : List Ty} (h : ∀ t ∈ ts, Unifies e (.types t t) (.ok ()) e) :
    Unifies e (.all (ts.map fun t => (t, t))) (.ok ()) e := by
  induction ts with
  | nil => exact .nil
  | cons t ts ih =>
    obtain ⟨ht, hts⟩ := forall_mem_cons.mp h
    exact .cons ht (ih hts)

theorem unifies_con_self {c : Con} {ts : List Ty} (hx : e.resolve x = .con c ts)
    (h : ∀ t ∈ ts, Unifies e (.types t t) (.ok ()) e) : Unifies e (.types x x) (.ok ()) e := by
  have hzip : ts.zip ts = ts.map fun t => (t, t) := by
    clear hx h
    induction ts with
    | nil => rfl
    | cons t ts ih => simp [ih]
  have hmeet : (e.resolve x).meet (e.resolve x) = .children (ts.map fun t => (t, t)) false := by
    simp [hx, meet, Con.meet, Con.agrees_iff.mpr rfl, hzip]
  exact .children hmeet (unifies_all_self h) (by simp)

theorem unifies_var_self {v : TyVar} (hx : e.resolve x = .var v) :
    Unifies e (.types x x) (.ok ()) e := by
  refine .same ?_
  rw [hx]
  cases v with
  | flex v => exact if_pos rfl
  | gen g => exact if_pos rfl

theorem Row.shared_self {row : Row} (h : row.fields.Sorted) :
    row.shared row = (row.fields.map Prod.snd).map fun t => (t, t) := by
  rw [List.map_map, ← List.filterMap_eq_map]
  refine List.filterMap_congr fun f hf => ?_
  rw [h.lookup_of_mem hf]
  rfl

theorem Row.lacking_self {row : Row} : row.lacking row = [] := by
  refine filter_eq_nil_iff.mpr fun f hf => ?_
  simpa using isSome_iff_ne_none.mp (isSome_lookup_of_mem hf)

/-- A type without synonyms meets itself, and nothing changes. -/
theorem ReadAlike.unifies_self (h : ReadAlike G K π r e k t u) (hr : r.Acyclic) (he : e.Acyclic) :
    Unifies e (.types u u) (.ok ()) e := by
  induction t using part_induct hr generalizing k u with
  | step t ih =>
    cases h with
    | flex _ hu => exact unifies_var_self hu
    | gen _ hu => exact unifies_var_self hu
    | con ht hu _ _ hargs =>
      refine unifies_con_self hu (List.forall_mem_map.mpr fun p hp => ?_)
      refine ih p.1 (.inl ?_) (hargs p hp)
      rw [ht]
      exact List.mem_map_of_mem hp
    | record ht hu hfields htail =>
      obtain ⟨zs, hmine, htheirs, hzs, hend⟩ := (ReadAlike.record ht hu hfields htail).row hr he
      obtain ⟨hdone, hrec⟩ := row_tail he u
      have hmeet : (e.resolve u).meet (e.resolve u) = .rows := by
        rw [hu]
        rfl
      -- the row is flattened, its fields meet themselves, and what it ends in is no record
      have hrow : e.row (e.resolve u) = e.row u := row_resolve he u
      have hshared : Unifies e (.all ((e.row (e.resolve u)).shared (e.row (e.resolve u)))) (.ok ())
          e := by
        rw [hrow, shared_self (row_sorted he u), htheirs]
        refine unifies_all_self ?_
        simp only [mapValues, List.map_map, List.forall_mem_map]
        intro z hz
        refine ih z.2.1 (.inr ⟨(z.1, z.2.1), ?_, rfl⟩) (hzs z hz)
        rw [hmine]
        exact List.mem_map_of_mem hz
      have hleft : e.remainder e (e.resolve u) (e.resolve u) =
          .tails (e.row u).tail (e.row u).tail := by
        rw [Registry.remainder, hrow, hdone.resolve]
        exact (Remains.tails hrec hrec lacking_self lacking_self).eq
      have hrest : Unifies e (.types (e.row u).tail (e.row u).tail) (.ok ()) e := by
        cases hend with
        | flex _ hu' => exact unifies_var_self hu'
        | gen _ hu' => exact unifies_var_self hu'
        | con _ hu' hc hempty =>
          rw [hempty (hc rfl)] at hu'
          exact unifies_con_self hu' (by simp)
        | record _ hu' =>
          rw [← hdone.resolve, hu'] at hrec
          cases hrec
      exact .rows hmeet (.tails hshared hleft hrest)
    | synonym ht htarget => exact ih _ (.inl (by rw [ht]; simp [children])) htarget
    | module _ hu =>
      refine .same ?_
      rw [hu]
      exact if_pos rfl

/-! ## Transparency -/

theorem ReadAlike.relabel_injective (π : Equiv.Perm Nat)
    (h : t.subst (relabel π) = u.subst (relabel π)) : t = u := by
  have hback : ∀ t : Ty, (t.subst (relabel π)).subst (relabel π.symm) = t := by
    intro t
    rw [subst_subst]
    refine Eq.trans (congrArg (fun f => t.subst f) (funext fun x => ?_)) (subst_var t)
    cases x with
    | flex v => simp [relabel, fill, subst]
    | gen g => simp [relabel, fill, subst]
  rw [← hback t, h, hback]

/-- Types are resolved to the same type, synonyms apart, exactly if their partners
are. -/
theorem ReadAlike.resolveDeep_eq_iff {l : Kind} {t' u' : Ty} (ht : ReadAlike G K π r e k t t')
    (hu : ReadAlike G K π r e l u u') (hr : r.Acyclic) (he : e.Acyclic) :
    (r.resolveDeep t).expand = (r.resolveDeep u).expand ↔
      (e.resolveDeep t').expand = (e.resolveDeep u').expand := by
  rw [ht.resolveDeep hr he, hu.resolveDeep hr he]
  exact ⟨congrArg _, relabel_injective π⟩

theorem Ty.covered_expand (t : Ty) : t.expand.Covered := by
  induction t with
  | var x => exact covered_var x
  | con c args ih =>
    rw [expand_con, covered_con]
    exact forall_mem_map.mpr ih
  | record fs tail ihf iht =>
    rw [expand_record, covered_record]
    exact ⟨forall_mem_map.mpr ihf, iht⟩
  | synonym id labels params target _ ih =>
    exact ih
  | module name members => exact .intro _ trivial (by simp [children])

theorem Ty.scoped_bare {n : Nat} (h : t.Scoped n) : t.bare.Scoped n :=
  fun v hv => h v (shown_subset hv)

/-- A registry and its expansion, with the arguments of synonyms left out of the
first. -/
def Mirror.expand (G : Prop) (K : Nat → Kind) (hacyclic : r.Acyclic) :
    Mirror G (Kind.upTo r.varCount K) where
  perm := Equiv.refl Nat
  left := r.bare
  right := r.expand
  leftWell := .of_covered hacyclic.bare (allBindings_bare r)
  rightWell := by
    refine .of_covered (acyclic_expand hacyclic) fun v t hv => ?_
    rw [binding?_expand] at hv
    obtain ⟨u, -, rfl⟩ := Option.map_eq_some_iff.mp hv
    exact Ty.covered_expand u
  count := by simp
  fixed _ _ := rfl
  rows v hv := by
    rw [varCount_bare] at hv
    exact if_neg (Nat.not_lt.mpr hv)

theorem readAlike_bare_expand {E : Prop} (hscope : r.Scoped) (hacyclic : r.Acyclic)
    (hkinded : r.Kinded E K) (ht : t.Scoped r.varCount) (hk : t.HasKind E K k)
    (hG : G → r.bare.Firm t.bare) :
    ReadAlike G (Kind.upTo r.varCount K) (Equiv.refl Nat) r.bare r.expand k t.bare t.expand := by
  have hbindings : ∀ v u, r.bare.binding? v = some u → ∃ w, r.binding? v = some w ∧ u = w.bare := by
    intro v u hv
    rw [binding?_bare] at hv
    obtain ⟨w, hw, rfl⟩ := map_eq_some_iff.mp hv
    exact ⟨w, hw, rfl⟩
  have hscope' : r.bare.Scoped := by
    intro v u hv
    obtain ⟨w, hw, rfl⟩ := hbindings v u hv
    rw [varCount_bare]
    exact scoped_bare (hscope v w hw)
  have hkinded' : r.bare.Kinded E (Kind.upTo r.varCount K) := by
    intro v u hv
    obtain ⟨w, hw, rfl⟩ := hbindings v u hv
    have hlt := lt_varCount_of_binding? hw
    have hkw := (hasKind_upTo (hkinded v w hw) (hscope v w hw)).bare
    rwa [Kind.upTo, if_pos hlt]
  rw [← bare_expand, ← expand_bare]
  exact readAlike_expand hacyclic.bare hscope' hkinded' (hasKind_upTo hk ht).bare
    (by rw [varCount_bare]; exact scoped_bare ht) hG

theorem Registry.resolve_congr (hcount : r'.varCount = r.varCount)
    (hbinding : ∀ v, r'.binding? v = r.binding? v) (t : Ty) : r'.resolve t = r.resolve t := by
  have hfollow : ∀ n t, r'.follow n t = r.follow n t := by
    intro n
    induction n with
    | zero => exact fun _ => rfl
    | succ n ih =>
      intro t
      by_cases ht : ∃ v, t = .flex v
      · obtain ⟨v, rfl⟩ := ht
        rw [follow, follow, hbinding]
        cases r.binding? v with
        | none => rfl
        | some u => exact ih u
      · have hne : ∀ v, t ≠ .flex v := fun v hv => ht ⟨v, hv⟩
        rw [follow_of_not_flex hne, follow_of_not_flex hne]
  rw [resolve, resolve, hcount, hfollow]

/-- The arguments of synonyms do not matter for unification. -/
theorem unify_bare {s : State} (hs : s.registry.bare.Acyclic) (a b : Ty) :
    let x := (unify a b).ends s
    let z := (unify a.bare b.bare).ends { s with registry := s.registry.bare }
    (x.1 = .ok () ↔ z.1 = .ok ()) ∧ (x.1 = .ok () → x.2.bare.Acyclic ∧
      x.2.bare.varCount = z.2.varCount ∧ ∀ t, x.2.bare.resolve t = z.2.resolve t) := by
  have hend : EndAlike .bare (fun _ _ => True) ((unify a b).run s)
      ((unify a.bare b.bare).run { s with registry := s.registry.bare }) :=
    inStep_unify .bare a b s _ (copies_bare s.registry) hs
  unfold Check.ends
  generalize (unify a b).run s = x at hend ⊢
  generalize (unify a.bare b.bare).run _ = z at hend ⊢
  cases hend with
  | error => simp
  | ok _ hcopies hs' =>
    have hcount := (varCount_bare _).trans (hcopies.next 0)
    refine ⟨by simp, fun _ => ⟨hs', hcount, fun t => ?_⟩⟩
    refine (resolve_congr hcount.symm (fun v => ?_) t).symm
    exact (hcopies.binding v).trans (binding?_bare _ v).symm

end

section

variable {E : Prop} {K : Nat → Kind} {s : State} {a b : Ty} (hscope : s.registry.Scoped)
  (hacyclic : s.registry.Acyclic) (hkinded : s.registry.Kinded E K)
  (ha : a.Scoped s.registry.varCount ∧ a.HasKind E K .type)
  (hb : b.Scoped s.registry.varCount ∧ b.HasKind E K .type)
include hscope hacyclic hkinded ha hb

/-- Unification of the expanded types follows unification of the types. -/
theorem unify_follows {G : Prop}
    (hG : G → s.registry.bare.Firm a.bare ∧ s.registry.bare.Firm b.bare) :
    (Mirror.sides G _).Answers (.expand G K hacyclic)
      (Unifies s.registry.expand (.types a.expand b.expand))
      ((unify a.bare b.bare).ends { s with registry := s.registry.bare }).1
      ((unify a.bare b.bare).ends { s with registry := s.registry.bare }).2 := by
  have hrun := unify_unifies (s := { s with registry := s.registry.bare })
    (Mirror.expand G K hacyclic).leftWell (covered_bare a) (covered_bare b)
  refine hrun.follows (S := Mirror.simulation G _) rfl
    (.types (k := .type) (.straight ⟨?_, covered_bare a, covered_expand a⟩
      ⟨?_, covered_bare b, covered_expand b⟩))
  · exact readAlike_bare_expand hscope hacyclic hkinded ha.1 ha.2 fun hg => (hG hg).1
  · exact readAlike_bare_expand hscope hacyclic hkinded hb.1 hb.2 fun hg => (hG hg).2

/-- Where no synonym stands for an open variable, types can be unified if their
expansions can. -/
theorem unify_ok_of_expand (hfirm : s.registry.bare.Firm a.bare ∧ s.registry.bare.Firm b.bare)
    {e : Registry} (hok : Unifies s.registry.expand (.types a.expand b.expand) (.ok ()) e) :
    ((unify a b).ends s).1 = .ok () := by
  rw [(unify_bare hacyclic.bare a b).1]
  have hfollows := unify_follows hscope hacyclic hkinded ha hb (G := True) fun _ => hfirm
  generalize (unify a.bare b.bare).ends _ = z at hfollows ⊢
  obtain ⟨out, r'⟩ := z
  cases out with
  | ok => rfl
  | error err =>
    obtain ⟨err', e', herror⟩ := hfollows trivial
    cases (hok.unique herror).1

end

/-- Synonyms are transparent to unification: if two types can be unified, so can
their expansions over the expanded registry, and both runs find the same solution.
If no synonym that reading the types comes to stands for an open variable, the
converse holds as well, and a type can be unified with itself. -/
theorem unify_transparent {E : Prop} {K : Nat → Kind} {s : State} {a b : Ty}
    (hscope : s.registry.Scoped) (hacyclic : s.registry.Acyclic) (hkinded : s.registry.Kinded E K)
    (ha : a.Scoped s.registry.varCount ∧ a.HasKind E K .type)
    (hb : b.Scoped s.registry.varCount ∧ b.HasKind E K .type) :
    let x := (unify a b).ends s
    let y := (unify a.expand b.expand).ends { s with registry := s.registry.expand }
    (x.1 = .ok () → y.1 = .ok () ∧ ∀ k l t u, t.Scoped s.registry.varCount → t.HasKind E K k →
        u.Scoped s.registry.varCount → u.HasKind E K l →
        ((x.2.resolveDeep t).expand = (x.2.resolveDeep u).expand ↔
          (y.2.resolveDeep t.expand).expand = (y.2.resolveDeep u.expand).expand)) ∧
      (s.registry.bare.Firm a.bare → s.registry.bare.Firm b.bare → y.1 = .ok () → x.1 = .ok ()) ∧
      (s.registry.bare.Firm a.bare → ((unify a a).ends s).1 = .ok ()) := by
  let M := Mirror.expand True K hacyclic
  have hrun := unify_unifies (s := { s with registry := s.registry.expand }) M.rightWell
    (Ty.covered_expand a) (Ty.covered_expand b)
  refine ⟨fun hok => ?_, fun hfirma hfirmb hok => ?_, fun hfirm => ?_⟩
  · obtain ⟨hsame, hleft⟩ := unify_bare hacyclic.bare a b
    obtain ⟨hacyclic', hcount, hresolve⟩ := hleft hok
    have hfollows := unify_follows hscope hacyclic hkinded ha hb False.elim
    rw [hsame.mp hok] at hfollows
    obtain ⟨M', hkeep, hleft', hrun'⟩ := hfollows
    obtain ⟨hout, hend⟩ := hrun.unique hrun'
    change M'.left = _ at hleft'
    change _ = M'.right at hend
    rw [← hleft'] at hcount hresolve
    refine ⟨hout, fun k l t u ht hkt hu hku => ?_⟩
    -- what read alike before the runs is read alike after them, also in the first registry itself
    have halike : ∀ {k : Kind} {t : Ty}, t.Scoped s.registry.varCount → t.HasKind E K k →
        ReadAlike False (Kind.upTo s.registry.varCount K) M'.perm ((unify a b).ends s).2.bare
          M'.right k t.bare t.expand := fun ht hkt =>
      (hkeep _ _ _ (readAlike_bare_expand hscope hacyclic hkinded ht hkt False.elim)).reread
        hresolve (fun _ => rfl) hcount.ge
    have hiff := (halike ht hkt).resolveDeep_eq_iff (halike hu hku) hacyclic' M'.rightWell.acyclic
    rwa [resolveDeep_bare hacyclic', resolveDeep_bare hacyclic', Ty.expand_bare, Ty.expand_bare,
      ← hend] at hiff
  · rw [hok] at hrun
    exact unify_ok_of_expand hscope hacyclic hkinded ha hb ⟨hfirma, hfirmb⟩ hrun
  · have hself := readAlike_bare_expand (G := True) hscope hacyclic hkinded ha.1 ha.2 fun _ => hfirm
    exact unify_ok_of_expand hscope hacyclic hkinded ha ha ⟨hfirm, hfirm⟩
      (hself.unifies_self M.leftWell.acyclic M.rightWell.acyclic)

/-- A record behind a synonym and another record, each with a field for the other's
tail. -/
theorem unify_synonym_of_record_transparent :
    let s : State := ⟨({} : Registry).addVar.addVar.addVar.setBinding 2 (.arrow .int .bool), #[]⟩
    let a : Ty := .synonym 0 ["p"] [.flex 2] (.record [("y", .flex 2)] (.flex 1))
    let b : Ty := .record [("x", .flex 2)] (.flex 0)
    let x := (unify a b).ends s
    let y := (unify a.expand b.expand).ends { s with registry := s.registry.expand }
    x.1 = .ok () ∧ y.1 = .ok () ∧ ((unify a a).ends s).1 = .ok () ∧
      ((x.2.resolveDeep a).expand = (x.2.resolveDeep b).expand ↔
        (y.2.resolveDeep a.expand).expand = (y.2.resolveDeep b.expand).expand) := by
  intro s a b x y
  have hcount : s.registry.varCount = 3 := by decide
  let K : Nat → Kind := fun v => if v < 2 then .row else .type
  have hscope : s.registry.Scoped :=
    Registry.forall_setBinding (by simp) (by simp [Ty.Scoped, Ty.Mentions, Ty.occurrences])
  have hacyclic : s.registry.Acyclic :=
    Registry.acyclic_setBinding (by simp) (by simp [Ty.Scoped, Ty.Mentions, Ty.occurrences])
  have hkinded : s.registry.Kinded False K :=
    Registry.forall_setBinding (by simp) (.arrow (.base _) (.base _))
  have ha : a.Scoped s.registry.varCount ∧ a.HasKind False K .type :=
    ⟨by simp [hcount, a, Ty.Scoped, Ty.Mentions, Ty.occurrences],
      .synonym (.record (List.forall_mem_singleton.mpr (.flex rfl)) (.flex rfl))⟩
  have hb : b.Scoped s.registry.varCount ∧ b.HasKind False K .type :=
    ⟨by simp [hcount, b, Ty.Scoped, Ty.Mentions, Ty.occurrences],
      .record (List.forall_mem_singleton.mpr (.flex rfl)) (.flex rfl)⟩
  have hok : y.1 = .ok () := eq_ok_of_isOk (by decide +kernel)
  -- every synonym in sight has a record for its target
  let P : Ty → Prop := fun t => ∀ id labels params target, t = .synonym id labels params target →
    target.isRecord = true
  have hfirm : ∀ {t : Ty}, t.All P → s.registry.bare.Firm t := by
    refine Registry.firm_of_all hacyclic.bare ?_ ?_
    · intro v t hv
      rw [Registry.binding?_bare] at hv
      obtain ⟨u, hu, rfl⟩ := Option.map_eq_some_iff.mp hv
      exact Registry.forall_setBinding (P := fun _ u => u.bare.All P) (by simp) (by simp [P]) v u hu
    · intro id labels params target h v
      obtain ⟨fs, tail, rfl⟩ := Ty.eq_record_of_isRecord (h _ _ _ _ rfl)
      rw [Ty.expand_record, Registry.resolve_record]
      simp
  have hfirma : s.registry.bare.Firm a.bare := by
    refine hfirm (.intro _ ?_ (by simp [a, P, Ty.children, Table.mapValues]))
    rintro id labels params target ⟨⟩
    rfl
  have hfirmb : s.registry.bare.Firm b.bare := hfirm (by simp [b, P, Table.mapValues])
  obtain ⟨hforth, hback, hself⟩ := unify_transparent hscope hacyclic hkinded ha hb
  have hx : x.1 = .ok () := hback hfirma hfirmb hok
  exact ⟨hx, hok, hself hfirma, (hforth hx).2 .type .type a b ha.1 ha.2 hb.1 hb.2⟩

/-- A synonym that stands for an open variable cannot be unified with itself, unlike
its expansion. -/
theorem unify_synonym_of_variable_cyclic :
    let s : State := ⟨({} : Registry).addVar, #[]⟩
    let t : Ty := .synonym 0 ["t"] [.flex 0] (.flex 0)
    (s.registry.Scoped ∧ s.registry.Acyclic ∧ s.registry.Kinded False fun _ => .type) ∧
      (t.Scoped s.registry.varCount ∧ t.HasKind False (fun _ => .type) .type) ∧
      ((unify t t).ends s).1 = .error (.cyclic 0 t) ∧
      ((unify t.expand t.expand).ends { s with registry := s.registry.expand }).1 = .ok () := by
  intro s t
  have hnone : ∀ v u, s.registry.binding? v ≠ some u := by simp [s]
  refine ⟨⟨fun v u hv => absurd hv (hnone v u), ?_, fun v u hv => absurd hv (hnone v u)⟩,
    ⟨?_, .synonym (.flex rfl)⟩, ?_, ?_⟩
  · exact Registry.acyclic_of_scoped fun v u hv => absurd hv (hnone v u)
  · simp [s, t, Ty.Scoped, Ty.Mentions, Ty.occurrences]
  · rfl
  · exact eq_ok_of_isOk (by decide +kernel)

end RowTyping
