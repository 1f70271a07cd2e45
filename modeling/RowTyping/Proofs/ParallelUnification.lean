import RowTyping.Proofs.Parallel

/-!
# Unification side by side

Unification of two types and unification of their partners succeed together:
partners are resolved to the same head, rows of partners have the same labels, and
a variable is found in a type exactly if its partner is found in the partner of the
type.
-/

namespace RowTyping

open Registry Row Table Ty List

namespace World

variable {W W' : World} {k l : Role} {a b x y t u : Ty} {v w : Nat} {f g : Finset String}
  {out : Except TypeError Unit} {r : Registry}

/-! ## Partners -/

/-- Two types of the two sides that are alike. -/
structure Pairs (W : World) (k l : Role) (a x : Ty) : Prop where
  left : W.left.Hosts k a
  right : W.right.Hosts l x
  kind : k.kind = l.kind
  alike : W.Alike noGens k.kind a x

namespace Pairs

theorem mono (h : W.Pairs k l a x) (hle : W ≤ W') : W'.Pairs k l a x :=
  ⟨h.left.mono hle.left, h.right.mono hle.right, h.kind, h.alike.mono hle⟩

theorem resolve (h : W.Pairs k l a x) :
    W.Pairs k l (W.left.registry.resolve a) (W.right.registry.resolve x) :=
  ⟨h.left.resolve W.leftSound, h.right.resolve W.rightSound, h.kind, h.alike.resolve⟩

/-- Records are rows, whatever they were taken for. -/
theorem asRest (h : W.Pairs k l a x) (ha : a.IsRowForm) (hx : x.IsRowForm) :
    W.Pairs (.rest k.front) (.rest l.front) a x := by
  refine ⟨h.left.asRest ha, h.right.asRest hx, rfl, ?_⟩
  have hlike := h.alike
  have hself : W.left.registry.resolve a = a := by
    rcases ha with ha | ⟨ts, rfl⟩
    · obtain ⟨fs, tail, rfl⟩ := eq_record_of_isRecord ha
      exact resolve_record
    · exact resolve_con
  unfold Alike at hlike ⊢
  generalize hdeep : W.left.registry.resolveDeep a = a' at hlike ⊢
  generalize W.right.registry.resolveDeep x = x' at hlike ⊢
  generalize k.kind = kind at hlike
  cases hlike with
  | var =>
    have hvar := hself.symm.trans (resolve_of_var W.leftSound.acyclic hdeep)
    rcases ha with ha | ⟨ts, rfl⟩
    · rw [hvar] at ha
      cases ha
    · cases hvar
  | con hc =>
    obtain ⟨args, hcon, -⟩ := resolve_of_con W.leftSound.acyclic hdeep
    rw [hself] at hcon
    rcases ha with ha | ⟨ts, rfl⟩
    · rw [hcon] at ha
      cases ha
    · cases hcon
      exact absurd rfl hc
  | emptyRow => exact .emptyRow
  | record hfields htail => exact .record hfields htail

end Pairs

/-- Two rows of the two sides with the same labels. -/
structure RowPairs (W : World) (f g : Finset String) (mine mine' : Row) : Prop where
  left : W.left.Hosts (.rest f) mine.toRecord
  right : W.right.Hosts (.rest g) mine'.toRecord
  fields : ∃ zs : Table (Ty × Ty), mine.fields = zs.mapValues Prod.fst ∧
    mine'.fields = zs.mapValues Prod.snd ∧ ∀ z ∈ zs, W.Alike noGens .type z.2.1 z.2.2
  tail : W.Alike noGens .row mine.tail mine'.tail

theorem Pairs.row (h : W.Pairs (.rest f) (.rest g) a x) :
    W.RowPairs f g (W.left.registry.row a) (W.right.registry.row x) := by
  obtain ⟨zs, hfields, hfields', hzs, htail⟩ := h.alike.row
  exact ⟨h.left.row W.leftSound, h.right.row W.rightSound, ⟨zs, hfields, hfields', hzs⟩, htail⟩

/-! ## What remains of rows -/

namespace RowPairs

variable {mine theirs mine' theirs' : Row}

theorem mono (h : W.RowPairs f g mine mine') (hle : W ≤ W') : W'.RowPairs f g mine mine' := by
  obtain ⟨zs, hmine, hmine', hzs⟩ := h.fields
  exact ⟨h.left.mono hle.left, h.right.mono hle.right,
    ⟨zs, hmine, hmine', fun z hz => (hzs z hz).mono hle⟩, h.tail.mono hle⟩

theorem pairs_tail (h : W.RowPairs f g mine mine') :
    W.Pairs (.rest (f ∪ mine.fields.names)) (.rest (g ∪ mine'.fields.names)) mine.tail mine'.tail :=
  ⟨h.left.tail, h.right.tail, rfl, h.tail⟩

theorem exists_lacking (h : W.RowPairs f g mine mine') (h' : W.RowPairs f g theirs theirs') :
    ∃ zs : Table (Ty × Ty), mine.lacking theirs = zs.mapValues Prod.fst ∧
      mine'.lacking theirs' = zs.mapValues Prod.snd ∧
      ∀ z ∈ zs, W.Alike noGens .type z.2.1 z.2.2 := by
  obtain ⟨zs, hmine, hmine', -⟩ := h.fields
  obtain ⟨ws, htheirs, htheirs', hws⟩ := h'.fields
  refine ⟨zs.lacking ws, ?_, ?_, fun z hz => hws z (mem_of_mem_filter hz)⟩
  · rw [← lacking_mapValues Prod.fst Prod.fst, ← hmine, ← htheirs]
    rfl
  · rw [← lacking_mapValues Prod.snd Prod.snd, ← hmine', ← htheirs']
    rfl

theorem lacking_eq_nil (h : W.RowPairs f g mine mine') (h' : W.RowPairs f g theirs theirs') :
    mine.lacking theirs = [] ↔ mine'.lacking theirs' = [] := by
  obtain ⟨zs, hzs, hzs', -⟩ := h.exists_lacking h'
  rw [hzs, hzs']
  simp [mapValues]

theorem pairs_lacking (h : W.RowPairs f g mine mine') (h' : W.RowPairs f g theirs theirs')
    (ht : W.Pairs (.rest (allLabels f mine theirs)) (.rest (allLabels g mine' theirs')) t u) :
    W.Pairs (.rest (f ∪ mine.fields.names)) (.rest (g ∪ mine'.fields.names))
      (.record (mine.lacking theirs) t) (.record (mine'.lacking theirs') u) := by
  refine ⟨h'.left.lacking ht.left, h'.right.lacking ht.right, rfl, ?_⟩
  obtain ⟨zs, hzs, hzs', hlike⟩ := h.exists_lacking h'
  rw [hzs, hzs']
  exact alike_record hlike ht.alike

/-- The tail of a row that lacks nothing comes behind all labels. -/
theorem tail_full (h : W.RowPairs f g mine mine') (h' : W.RowPairs f g theirs theirs')
    (hfull : mine.lacking theirs = []) :
    W.Pairs (.rest (allLabels f mine theirs)) (.rest (allLabels g mine' theirs'))
      (W.left.registry.resolve mine.tail) (W.right.registry.resolve mine'.tail) := by
  rw [← front_full hfull, ← front_full ((h.lacking_eq_nil h').mp hfull)]
  exact h.pairs_tail.resolve

end RowPairs

theorem Pairs.allLabels_comm {mine theirs mine' theirs' : Row}
    (h : W.Pairs (.rest (allLabels f mine theirs)) (.rest (allLabels g mine' theirs')) t u) :
    W.Pairs (.rest (allLabels f theirs mine)) (.rest (allLabels g theirs' mine')) t u := by
  have hleft : Row.allLabels f theirs mine = Row.allLabels f mine theirs := Row.allLabels_comm
  have hright : Row.allLabels g theirs' mine' = Row.allLabels g mine' theirs' := Row.allLabels_comm
  rwa [hleft, hright]

/-! ## Solving in step -/

/-- A variable is found in a type exactly if its partner is found in the type's
partner. -/
theorem Pairs.occurs_iff (h : W.Pairs k l t u) {c : Kind} (hvw : W.pair c v w) :
    W.left.registry.occurs v t = true ↔ W.right.registry.occurs w u = true := by
  rw [h.left.occurs_iff W.leftSound, h.right.occurs_iff W.rightSound]
  constructor
  · intro hv
    obtain ⟨_, _, hxy, hy⟩ := Like.exists_right h.alike hv
    cases hxy with
    | flex hxy =>
      obtain ⟨-, -, rfl⟩ := W.unique hvw hxy (.inl rfl)
      exact hy
  · intro hw
    obtain ⟨_, _, hxy, hx⟩ := Like.exists_left h.alike hw
    cases hxy with
    | flex hxy =>
      obtain ⟨-, rfl, -⟩ := W.unique hvw hxy (.inr rfl)
      exact hx

/-- Partners are solved together, and the other pairs stay open. -/
theorem solved (hvw : W.pair k.kind v w) (hv : W.left.Hosts k (.flex v))
    (hw : W.right.Hosts l (.flex w)) (h : W.Pairs k l t u) (hs : Solved W.left.registry v t out r) :
    (out = .ok () ∧ ∃ W', W ≤ W' ∧ W'.left.registry = r ∧
      Solved W.right.registry w u (.ok ()) W'.right.registry ∧
      ∀ c x y, W.pair c x y → x ≠ v → W'.pair c x y) ∨
      (∃ err, out = .error err) ∧ ∃ err e, Solved W.right.registry w u (.error err) e := by
  have hocc := h.occurs_iff hvw
  cases hs with
  | bind hfree hlt =>
    have hfree' : W.right.registry.occurs w u = false := by
      rw [Bool.eq_false_iff, ne_eq, ← hocc, hfree]
      exact Bool.false_ne_true
    refine .inl ⟨rfl, setBinding hvw hv.role hw.role h.left h.right hfree hfree',
      le_setBinding hvw hv.role hw.role h.left h.right hfree hfree' h.alike, rfl,
      .bind hfree' (W.issued hvw).2, fun c x y hxy hne => ⟨hxy, hne⟩⟩
  | unknown _ hle => exact absurd (W.issued hvw).1 (Nat.not_lt.mpr hle)
  | cyclic hfound => exact .inr ⟨⟨_, rfl⟩, _, _, .cyclic (hocc.mp hfound)⟩

/-- Both sides issue a variable of a role. -/
theorem exists_addVar (W : World) (hkl : k.kind = l.kind) : ∃ W', W ≤ W' ∧
    W'.left.registry = W.left.registry.addVar ∧ W'.right.registry = W.right.registry.addVar ∧
    W'.Pairs k l (.flex W.left.registry.varCount) (.flex W.right.registry.varCount) ∧
    ∀ c x y, W.pair c x y → W'.pair c x y := by
  have hgrows := W.grows_addVar k l
  exact ⟨hgrows.world, hgrows.le_world, rfl, rfl, ⟨.flex (W.left.addVar_has k),
    .flex (W.right.addVar_has l), hkl, alike_var (.inr ⟨rfl, rfl, rfl⟩)⟩, fun _ _ _ => .inl⟩

/-- The two registries of a world. The runs take everything in the same order. -/
abbrev sides : Sides World := ⟨(·.left.registry), (·.right.registry), False, True⟩

theorem answers_solved (hvw : W.pair k.kind v w) (hv : W.left.Hosts k (.flex v))
    (hw : W.right.Hosts l (.flex w)) (h : W.Pairs k l t u) (hs : Solved W.left.registry v t out r) :
    sides.Answers W (Solved W.right.registry w u) out r := by
  obtain ⟨rfl, W', hle, hleft, hright, -⟩ | ⟨⟨_, rfl⟩, hright⟩ := solved hvw hv hw h hs
  · exact ⟨W', hle, hleft, hright⟩
  · exact fun _ => hright

/-- An open variable is resolved to like its partner. -/
theorem Pairs.flex (h : W.Pairs k l t u) (ht : W.left.registry.resolve t = .flex v) :
    ∃ w, W.right.registry.resolve u = .flex w ∧ W.pair k.kind v w := by
  have hheads := h.alike.heads
  generalize W.right.registry.resolve u = u' at hheads ⊢
  generalize k.kind = kind at hheads ⊢
  rw [ht] at hheads
  cases hheads with
  | var hvw => exact ⟨_, rfl, hvw⟩

theorem Pairs.form (h : W.Pairs k l t u) (ht : ∀ v, W.left.registry.resolve t ≠ .flex v) :
    SameForm (W.Pairs .type .type) (W.left.registry.resolve t) (W.right.registry.resolve u) := by
  have hheads := h.alike.heads
  obtain ⟨hleft, hright, -⟩ := h.resolve
  generalize W.left.registry.resolve t = t' at *
  generalize W.right.registry.resolve u = u' at *
  generalize k.kind = kind at hheads
  cases hheads with
  | var => exact absurd rfl (ht _)
  | con hc hps =>
    exact .con _ fun p hp => ⟨hleft.args (mem_map_of_mem hp),
      hright.args (mem_map_of_mem hp), rfl, hps p hp⟩
  | emptyRow =>
    have hnone : ∀ p ∈ ([] : List (Ty × Ty)), W.Pairs .type .type p.1 p.2 := by simp
    exact .con _ hnone
  | record => exact .record _ _ _ _

/-- A variable meets another type. -/
theorem Pairs.solve (ha : W.Pairs k l a x) (hb : W.Pairs k l b y)
    (hav : W.left.registry.resolve a = .flex v) (hne : W.left.registry.resolve b ≠ .flex v)
    (hs : Solved W.left.registry v (W.left.registry.resolve b) out r) :
    sides.Answers W (Unifies W.right.registry (.types x y)) out r ∧
      ((∀ w, W.left.registry.resolve b ≠ .flex w) →
        sides.Answers W (Unifies W.right.registry (.types y x)) out r) := by
  obtain ⟨w, hw, hvw⟩ := ha.flex hav
  have hv := ha.resolve
  rw [hav, hw] at hv
  have hanswers := answers_solved hvw hv.left hv.right hb.resolve hs
  by_cases hflex : ∃ v', W.left.registry.resolve b = .flex v'
  · obtain ⟨v', hv'⟩ := hflex
    obtain ⟨w', hw', hvw'⟩ := hb.flex hv'
    have hww : w ≠ w' := fun h => hne (by rw [hv', (W.unique hvw hvw' (.inr h)).2.1])
    refine ⟨hanswers.imp fun _ _ hs => .solve ?_ hs, fun h => absurd hv' (h v')⟩
    rw [hw, hw', meet_flex_flex hww]
  · have hrigid : ∀ w, W.right.registry.resolve y ≠ .flex w := by
      have hform := hb.form fun v' hv' => hflex ⟨v', hv'⟩
      generalize W.left.registry.resolve b = b' at hform
      generalize W.right.registry.resolve y = y' at hform ⊢
      cases hform <;> simp
    obtain ⟨hmeet, hmeet'⟩ := meet_flex_of_ne hrigid
    rw [← hw] at hmeet hmeet'
    exact ⟨hanswers.imp fun _ _ hs => .solve hmeet hs,
      fun _ => hanswers.imp fun _ _ hs => .solve hmeet' hs⟩

/-- Both tails take the fields that their rows lack. -/
theorem splits {mine theirs mine' theirs' : Row} {v' w' : Nat} (h : W.RowPairs f g mine mine')
    (h' : W.RowPairs f g theirs theirs') (hne : v ≠ v')
    (hv : W.left.registry.resolve mine.tail = .flex v)
    (hv' : W.left.registry.resolve theirs.tail = .flex v')
    (hw : W.right.registry.resolve mine'.tail = .flex w)
    (hw' : W.right.registry.resolve theirs'.tail = .flex w')
    (hs : Splits W.left.registry v v' (mine.lacking theirs) (theirs.lacking mine) out r) :
    sides.Answers W (Splits W.right.registry w w' (mine'.lacking theirs') (theirs'.lacking mine'))
      out r := by
  obtain ⟨_, hw₀, hvw⟩ := h.pairs_tail.flex hv
  cases hw₀.symm.trans hw
  obtain ⟨_, hw₀, hvw'⟩ := h'.pairs_tail.flex hv'
  cases hw₀.symm.trans hw'
  obtain ⟨W₁, hle, hreg, hreg', hrest, hkept⟩ :=
    W.exists_addVar (k := .rest (allLabels f mine theirs))
      (l := .rest (allLabels g mine' theirs')) rfl
  have htail := h.pairs_tail.resolve.mono hle
  have htail' := h'.pairs_tail.resolve.mono hle
  rw [hv, hw] at htail
  rw [hv', hw'] at htail'
  have hmine := (h.mono hle).pairs_lacking (h'.mono hle) hrest
  have htheirs := (h'.mono hle).pairs_lacking (h.mono hle) hrest.allLabels_comm
  rw [Splits, ← hreg] at hs
  rw [Splits, ← hreg']
  cases hs with
  | both first second =>
    obtain ⟨-, W₂, hle', rfl, first', hkept'⟩ | ⟨⟨_, h⟩, -⟩ :=
      solved (hkept _ _ _ hvw) htail.left htail.right hmine first
    · have htail' := htail'.mono hle'
      exact (answers_solved (hkept' _ _ _ (hkept _ _ _ hvw') hne.symm) htail'.left htail'.right
        (htheirs.mono hle') second).after (hle.trans hle') fun _ _ => .both first'
    · cases h
  | stop first =>
    obtain ⟨h, -⟩ | ⟨-, err, e, first'⟩ :=
      solved (hkept _ _ _ hvw) htail.left htail.right hmine first
    · cases h
    · exact fun _ => ⟨err, e, .stop first'⟩

/-- Unification keeps types of the two sides alike. -/
def simulation : Simulation World (Role × Role) where
  toSides := sides
  Rel W k := W.Pairs k.1 k.2
  Rows W k := W.RowPairs k.1.front k.2.front
  type := (.type, .type)
  rest k := (.rest k.1.front, .rest k.2.front)
  mono hle h := h.mono hle
  monoRows hle h := h.mono hle
  flex h ht := (h.flex ht).imp fun _ h => h.1
  unique {W} _ _ _ _ _ _ _ _ _ _ ha hb hav hbv hxw hyw := by
    obtain ⟨_, hw, hvw⟩ := ha.flex hav
    cases hw.symm.trans hxw
    obtain ⟨_, hw', hvw'⟩ := hb.flex hbv
    cases hw'.symm.trans hyw
    exact ⟨fun h => (W.unique hvw hvw' (.inl h)).2.2, fun h => (W.unique hvw hvw' (.inr h)).2.1⟩
  form h ht := h.form ht.1
  synonym {W} _ _ _ _ _ _ _ _ _ ha _ heq := by
    have hform := ha.form (by simp [heq])
    rw [heq] at hform
    cases hform
  solve ha hb hav hne hs :=
    (ha.solve hb hav hne hs).imp_right fun h hor => h (hor.resolve_left id)
  asRow {W} k _ _ h hform := by
    refine h.resolve.asRest hform ?_
    have hheads := h.form fun v hv => by simp [hv, Ty.IsRowForm, Ty.isRecord] at hform
    generalize W.left.registry.resolve _ = t' at hform hheads
    generalize W.right.registry.resolve _ = u' at hheads
    cases hheads with
    | record => exact .inl rfl
    | con c hps =>
      rcases hform with hform | ⟨ts, hform⟩
      · cases hform
      · cases hform
        exact .inr ⟨_, rfl⟩
    | gen | module => simp [Ty.IsRowForm, Ty.isRecord] at hform
  row h := h.row
  fields h := by
    obtain ⟨zs, hm, hm', hzs⟩ := h.fields
    refine ⟨zs, ?_, hm, hm', fun z hz => ⟨h.left.field (e := (z.1, z.2.1)) ?_,
      h.right.field (e := (z.1, z.2.2)) ?_, rfl, hzs z hz⟩⟩
    · cases h.left.fits with
      | record hs _ _ _ => exact (hm ▸ hs).of_mapValues
    · exact hm ▸ List.mem_map_of_mem hz
    · exact hm' ▸ List.mem_map_of_mem hz
  tail {W} _ m m' h := by
    refine ⟨⟨(_, _), h.pairs_tail⟩, ?_⟩
    by_cases hflex : ∃ v, W.left.registry.resolve m.tail = .flex v
    · exact .inl hflex
    · have hform := h.pairs_tail.form fun v hv => hflex ⟨v, hv⟩
      generalize W.left.registry.resolve m.tail = t at hform ⊢
      generalize W.right.registry.resolve m'.tail = t' at hform
      cases hform <;> exact .inr ⟨by simp, by simp⟩
  tails h h' toMine toTheirs :=
    ⟨(_, _), h.tail_full h' toMine, (h'.tail_full h toTheirs).allLabels_comm⟩
  extend h h' toTheirs hv hw hs := by
    obtain ⟨_, hw', hvw⟩ := h.pairs_tail.flex hv
    cases hw'.symm.trans hw
    have htail := h.pairs_tail.resolve
    rw [hv, hw] at htail
    exact answers_solved hvw htail.left htail.right
      (h.pairs_lacking h' (h'.tail_full h toTheirs).allLabels_comm) hs
  split h h' hne hv hv' hw hw' hs := ⟨splits h h' hne hv hv' hw hw' hs, False.elim⟩

end World

/-! ## Operations that end together -/

namespace World

open Check

section

variable {ε ε' α β α' β' : Type} {W : World} {Q : World → α → β → Prop}

/-- How operations on the two sides end: both fail, or both succeed in a later
world. -/
inductive Ends (W : World) (Q : World → α → β → Prop) :
    EStateM.Result ε State α → EStateM.Result ε' State β → Prop where
  | ok {a : α} {b : β} {s s' : State} (W' : World) (hle : W ≤ W')
      (left : s.registry = W'.left.registry) (right : s'.registry = W'.right.registry)
      (h : Q W' a b) : Ends W Q (.ok a s) (.ok b s')
  | error {e : ε} {e' : ε'} {s s' : State} : Ends W Q (.error e s) (.error e' s')

/-- From the registries of the world, the two operations end together. -/
def Together (W : World) (x : Check ε α) (y : Check ε' β) (Q : World → α → β → Prop) : Prop :=
  ∀ s s' : State, s.registry = W.left.registry → s'.registry = W.right.registry →
    W.Ends Q (x.run s) (y.run s')

theorem Together.bind {x : Check ε α} {y : Check ε' β} {f : α → Check ε α'} {g : β → Check ε' β'}
    {R : World → α' → β' → Prop} (h : W.Together x y Q)
    (hf : ∀ W' a b, W ≤ W' → Q W' a b → W'.Together (f a) (g b) R) :
    W.Together (x >>= f) (y >>= g) R := by
  intro s s' hs hs'
  have hends := h s s' hs hs'
  generalize hx : x.run s = p at hends
  generalize hy : y.run s' = q at hends
  cases hends with
  | ok W' hle left right hab =>
    rw [run_bind_ok hx, run_bind_ok hy]
    have hrest := hf W' _ _ hle hab _ _ left right
    generalize (f _).run _ = p at hrest ⊢
    generalize (g _).run _ = q at hrest ⊢
    cases hrest with
    | ok W₁ hle₁ left right h => exact .ok W₁ (hle.trans hle₁) left right h
    | error => exact .error
  | error =>
    rw [run_bind_error hx, run_bind_error hy]
    exact .error

theorem together_pure {a : α} {b : β} (h : Q W a b) :
    W.Together (pure a : Check ε α) (pure b : Check ε' β) Q :=
  fun _ _ hs hs' => .ok W le_rfl hs hs' h

theorem together_throw (e : ε) (e' : ε') :
    W.Together (throw e : Check ε α) (throw e' : Check ε' β) Q :=
  fun _ _ _ _ => .error

theorem together_located {x : Check TypeError α} {y : Check TypeError β} (h : W.Together x y Q)
    (span span' : Span) : W.Together (located span x) (located span' y) Q := by
  intro s s' hs hs'
  have hends := h s s' hs hs'
  unfold located EStateM.adaptExcept
  simp only [EStateM.run] at hends ⊢
  generalize x s = p at hends ⊢
  generalize y s' = q at hends ⊢
  cases hends with
  | ok W' hle left right hab => exact .ok W' hle left right hab
  | error => exact .error

theorem together_freshVar {k l : Role} (hkl : k.kind = l.kind) :
    W.Together (freshVar : Check ε Ty) (freshVar : Check ε' Ty) fun W' a b =>
      W'.Pairs k l a b ∧ ∃ v w, a = .flex v ∧ b = .flex w := by
  intro s s' hs hs'
  obtain ⟨W', hle, hleft, hright, hpairs, -⟩ := W.exists_addVar hkl
  rw [run_freshVar, run_freshVar, hs, hs']
  exact .ok W' hle hleft.symm hright.symm ⟨hpairs, _, _, rfl, rfl⟩

end

variable {W : World} {a b x y : Ty}

/-- Partners are unified together. -/
theorem together_unify (ha : W.Pairs .type .type a x) (hb : W.Pairs .type .type b y) :
    W.Together (unify a b) (unify x y) fun _ _ _ => True := by
  intro s s' hs hs'
  have hwf := WellFormed.of_covered W.leftSound.acyclic W.leftSound.wellFormed.covered
  have hwf' := WellFormed.of_covered W.rightSound.acyclic W.rightSound.wellFormed.covered
  have hrun := unify_unifies (hs ▸ hwf) ha.left.faithful.covered hb.left.faithful.covered
  have hrun' := unify_unifies (hs' ▸ hwf') ha.right.faithful.covered
    hb.right.faithful.covered
  have hanswer := hrun.follows (S := World.simulation) hs.symm
    (.types (k := (Role.type, Role.type)) (.straight ha hb))
  change World.sides.Answers W (Unifies W.right.registry _) _ _ at hanswer
  rw [← hs'] at hanswer
  unfold Check.ends at hrun' hanswer
  generalize (unify a b).run s = p at hanswer ⊢
  generalize (unify x y).run s' = q at hrun' ⊢
  cases p with
  | ok _ s₁ =>
    obtain ⟨W', hle, hleft, hright⟩ := hanswer
    obtain ⟨hout, hreg⟩ := hright.unique hrun'
    cases q with
    | ok _ s₁' => exact .ok W' hle hleft.symm hreg.symm trivial
    | error => cases hout
  | error e s₁ =>
    obtain ⟨err, e', hright⟩ := hanswer trivial
    obtain ⟨hout, -⟩ := hright.unique hrun'
    cases q with
    | ok => cases hout
    | error => exact .error

theorem together_unifyAt (span span' : Span) (ha : W.Pairs .type .type a x)
    (hb : W.Pairs .type .type b y) :
    W.Together (unifyAt span a b) (unifyAt span' x y) fun _ _ _ => True :=
  together_located (together_unify ha hb) span span'

end World

end RowTyping
