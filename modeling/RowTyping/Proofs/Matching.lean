import RowTyping.Proofs.Rigid
import RowTyping.Proofs.Transparency

/-!
# Registries that match

Types over one registry match types over another when reading them meets the same
heads, in the same rows, and corresponding open variables. Whether two types have
the same shape is then the same on either side. The sides may have bound different
variables, issued different ones and split their records at different places.
-/

namespace RowTyping

open Table Ty Function List Row

theorem Con.agrees_congr {c c' d d' : Con} (hc : c.plain = c'.plain) (hd : d.plain = d'.plain) :
    c.agrees d = c'.agrees d' := by
  rw [Bool.eq_iff_iff, agrees_iff, agrees_iff, hc, hd]

/-- The same labels, with fields and ends that are related. -/
def Row.Related (R : Ty → Ty → Prop) (mine theirs : Row) : Prop :=
  ∃ zs : Table (Ty × Ty), mine.fields = zs.mapValues Prod.fst ∧
    theirs.fields = zs.mapValues Prod.snd ∧ (∀ z ∈ zs, R z.2.1 z.2.2) ∧ R mine.tail theirs.tail

/-- Rows that are related stay so behind the same further fields. -/
theorem Row.Related.behind {R : Ty → Ty → Prop} {mine theirs : Row} (h : Related R mine theirs)
    {fs : Table Ty} (hfs : ∀ e ∈ fs, R e.2 e.2) :
    Related R ⟨(union [] fs).union mine.fields, mine.tail⟩
      ⟨(union [] fs).union theirs.fields, theirs.tail⟩ := by
  obtain ⟨zs, hmine, htheirs, hzs, htail⟩ := h
  have hfst : (fs.mapValues fun u => (u, u)).mapValues Prod.fst = fs := by
    simp [mapValues, comp_def]
  have hsnd : (fs.mapValues fun u => (u, u)).mapValues Prod.snd = fs := by
    simp [mapValues, comp_def]
  refine ⟨(union [] (fs.mapValues fun u => (u, u))).union zs, ?_, ?_, fun z hz => ?_, htail⟩
  · rw [mapValues_union, mapValues_union, hfst, hmine]
    rfl
  · rw [mapValues_union, mapValues_union, hsnd, htheirs]
    rfl
  · rcases mem_union hz with hz | hz
    · obtain ⟨f, hf, rfl⟩ := mem_map.mp ((mem_union hz).resolve_left (by simp))
      exact hfs f hf
    · exact hzs z hz

namespace Registry

variable {r e : Registry} {V : Nat → Nat → Prop} {R : Ty → Ty → Prop} {f g : Ty → Ty → Bool}

/-- Two resolved types have the same head, their parts are related by `R`, and
variables by `V`. -/
inductive SameHead (r e : Registry) (V : Nat → Nat → Prop) (R : Ty → Ty → Prop) :
    Ty → Ty → Prop where
  | flex {v w : Nat} (h : V v w) : SameHead r e V R (.flex v) (.flex w)
  | gen (g : Nat) : SameHead r e V R (.gen g) (.gen g)
  | con {c d : Con} {ps : List (Ty × Ty)} (h : c.plain = d.plain) (hargs : ∀ p ∈ ps, R p.1 p.2) :
      SameHead r e V R (.con c (ps.map Prod.fst)) (.con d (ps.map Prod.snd))
  | record {fs gs : List (String × Ty)} {a b : Ty}
      (h : Row.Related R (r.row (.record fs a)) (e.row (.record gs b))) :
      SameHead r e V R (.record fs a) (.record gs b)
  | synonym (id : Nat) (labels labels' : List String) {ps : List (Ty × Ty)} {t u : Ty}
      (hparams : ∀ p ∈ ps, R p.1 p.2) (h : R t u) :
      SameHead r e V R (.synonym id labels (ps.map Prod.fst) t)
        (.synonym id labels' (ps.map Prod.snd) u)
  | module (name : String) (members members' : Env) :
      SameHead r e V R (.module name members) (.module name members')

/-- Types that resolve to the same head have related rows. -/
theorem SameHead.rows {t u : Ty} (h : r.SameHead e V R (r.resolve t) (e.resolve u)) (hr : r.Acyclic)
    (he : e.Acyclic) (hR : R (r.resolve t) (e.resolve u)) : Related R (r.row t) (e.row u) := by
  by_cases hrec : ∃ fs a, r.resolve t = .record fs a
  · obtain ⟨fs, a, heq⟩ := hrec
    rw [← row_resolve hr t, ← row_resolve he u]
    rw [heq] at h ⊢
    generalize e.resolve u = y at h ⊢
    cases h with
    | record hrows => exact hrows
  · have hrec' : ∀ gs b, e.resolve u ≠ .record gs b := by
      intro gs b heq
      rw [heq] at h
      generalize hx : r.resolve t = x at h
      cases h with
      | record => exact hrec ⟨_, _, hx⟩
    rw [row_other fun fs a heq => hrec ⟨fs, a, heq⟩, row_other hrec']
    exact ⟨[], rfl, rfl, by simp, hR⟩

/-- Reading related types meets the same heads, and the open variables correspond
one to one. -/
structure Matching (r e : Registry) (V : Nat → Nat → Prop) (R : Ty → Ty → Prop) : Prop where
  left : r.Acyclic
  right : e.Acyclic
  resolve : ∀ {t u : Ty}, R t u → R (r.resolve t) (e.resolve u)
  head : ∀ {t u : Ty}, R t u → r.SameHead e V R (r.resolve t) (e.resolve u)
  vars : ∀ {v w v' w' : Nat}, V v w → V v' w' → (v = v' ↔ w = w')

theorem allPairs_map {ps qs : List (Ty × Ty)} (h : ∀ p ∈ ps, ∀ q ∈ qs, f p.1 q.1 = g p.2 q.2) :
    allPairs f (ps.map Prod.fst) (qs.map Prod.fst) =
      allPairs g (ps.map Prod.snd) (qs.map Prod.snd) := by
  unfold allPairs
  rw [zip_map, zip_map, all_map, all_map]
  simp only [length_map]
  congr 1
  rw [Bool.eq_iff_iff, all_eq_true, all_eq_true]
  refine forall₂_congr fun p hp => ?_
  obtain ⟨ht, hu⟩ := of_mem_zip hp
  simp [h p.1 ht p.2 hu]

/-- Rows are compared field by field. -/
def compareRows (f : Ty → Ty → Bool) (mine theirs : Row) : Bool :=
  mine.fields.length == theirs.fields.length &&
    mine.fields.all (fun e => (theirs.fields.lookup e.1).any fun w => f e.2 w) &&
    f mine.tail theirs.tail

theorem compareRows_related {mine mine' theirs theirs' : Row} (hmine : Related R mine mine')
    (htheirs : Related R theirs theirs')
    (hfields : ∀ e ∈ mine.fields, ∀ d ∈ theirs.fields, ∀ x y, R e.2 x → R d.2 y → f e.2 d.2 = g x y)
    (htails : ∀ x y, R mine.tail x → R theirs.tail y → f mine.tail theirs.tail = g x y) :
    compareRows f mine theirs = compareRows g mine' theirs' := by
  obtain ⟨zs, hz, hz', hrel, htail⟩ := hmine
  obtain ⟨ws, hw, hw', hrel', htail'⟩ := htheirs
  have hall : ∀ z ∈ zs, ((theirs.fields.lookup z.1).any fun w => f z.2.1 w) =
      ((theirs'.fields.lookup z.1).any fun w => g z.2.2 w) := by
    intro z hmem
    rw [hw, hw', lookup_mapValues, lookup_mapValues]
    cases hl : ws.lookup z.1 with
    | none => rfl
    | some w =>
      have hw₀ := mem_of_lookup hl
      exact hfields (z.1, z.2.1) (by rw [hz]; exact mem_map_of_mem hmem) (z.1, w.1)
        (by rw [hw]; exact mem_map_of_mem hw₀) _ _ (hrel z hmem) (hrel' _ hw₀)
  have hlen : mine.fields.length = mine'.fields.length := by simp [hz, hz', mapValues]
  have hlen' : theirs.fields.length = theirs'.fields.length := by simp [hw, hw', mapValues]
  unfold compareRows
  rw [htails _ _ htail htail', hlen, hlen', hz, hz']
  congr 2
  rw [mapValues, mapValues, all_map, all_map, Bool.eq_iff_iff, all_eq_true, all_eq_true]
  refine forall₂_congr fun z hmem => ?_
  simp only [comp_apply, hall z hmem]

/-- One level of comparison gives the same on both sides, if the comparisons of
the parts do. -/
theorem Matching.shapeStep {t t' u u' : Ty} (hm : r.Matching e V R) (ht : R t t') (hu : R u u')
    {a b : Nat} (ha : r.Within a t) (hb : r.Within b u)
    (h : ∀ x x' y y' i j, R x x' → R y y' → r.Within i x → r.Within j y → i + j < a + b →
      f x y = g x' y') :
    r.shapeStep f t u = e.shapeStep g t' u' := by
  have ha' := ha.congr (resolve_resolve hm.left t).symm
  have hb' := hb.congr (resolve_resolve hm.left u).symm
  have pairs : ∀ ps qs : List (Ty × Ty), (∀ p ∈ ps, p.1 ∈ (r.resolve t).children ∧ R p.1 p.2) →
      (∀ q ∈ qs, q.1 ∈ (r.resolve u).children ∧ R q.1 q.2) →
      allPairs f (ps.map Prod.fst) (qs.map Prod.fst) =
        allPairs g (ps.map Prod.snd) (qs.map Prod.snd) := by
    intro ps qs hps hqs
    refine allPairs_map fun p hp q hq => ?_
    obtain ⟨i, rfl, hi⟩ := ha.child (hps p hp).1
    obtain ⟨j, rfl, hj⟩ := hb.child (hqs q hq).1
    exact h _ _ _ _ i j (hps p hp).2 (hqs q hq).2 hi hj (by omega)
  have left : ∀ x x', x ∈ (r.resolve t).children → R x x' →
      f x (r.resolve u) = g x' (e.resolve u') := by
    intro x x' hx hR
    obtain ⟨i, rfl, hi⟩ := ha.child hx
    exact h _ _ _ _ i b hR (hm.resolve hu) hi hb' (by omega)
  have right : ∀ y y', y ∈ (r.resolve u).children → R y y' →
      f y (r.resolve t) = g y' (e.resolve t') := by
    intro y y' hy hR
    obtain ⟨j, rfl, hj⟩ := hb.child hy
    exact h _ _ _ _ j a hR (hm.resolve ht) hj ha' (by omega)
  have hrow := row_resolve hm.left t
  have hrow' := row_resolve hm.left u
  have htails : ∀ fs x gs y, r.resolve t = .record fs x → r.resolve u = .record gs y → ∀ x' y',
      R (r.row t).tail x' → R (r.row u).tail y' → f (r.row t).tail (r.row u).tail = g x' y' := by
    intro fs x gs y heq heq' x' y' hx hy
    obtain ⟨i, rfl, hi⟩ := ha.record_tail hm.left heq
    obtain ⟨j, rfl, hj⟩ := hb.record_tail hm.left heq'
    exact h _ _ _ _ i j hx hy hi hj (by omega)
  have hfields : ∀ e ∈ (r.row t).fields, ∀ d ∈ (r.row u).fields, ∀ x y, R e.2 x → R d.2 y →
      f e.2 d.2 = g x y := by
    intro e he d hd x y hx hy
    obtain ⟨i, rfl, hi⟩ := ha.row_field hm.left he
    obtain ⟨j, rfl, hj⟩ := hb.row_field hm.left hd
    exact h _ _ _ _ i j hx hy hi hj (by omega)
  have hhead := hm.head ht
  have hhead' := hm.head hu
  unfold Registry.shapeStep
  generalize r.resolve t = x at *
  generalize e.resolve t' = x' at *
  generalize r.resolve u = y at *
  generalize e.resolve u' = y' at *
  cases hhead with
  | flex hv =>
    cases hhead' with
    | flex hw =>
      simpa using hm.vars hv hw
    | synonym id ls ls' hps hR => exact right _ _ (by simp [children]) hR
    | _ => rfl
  | gen k =>
    cases hhead' with
    | synonym id ls ls' hps hR => exact right _ _ (by simp [children]) hR
    | _ => rfl
  | con hc hargs =>
    cases hhead' with
    | con hd hargs' =>
      have hpairs := pairs _ _ (fun p hp => ⟨mem_map_of_mem hp, hargs p hp⟩)
        fun q hq => ⟨mem_map_of_mem hq, hargs' q hq⟩
      exact congrArg₂ (· && ·) (Con.agrees_congr hc hd) hpairs
    | synonym id ls ls' hps hR => exact right _ _ (by simp [children]) hR
    | _ => rfl
  | record hrows =>
    cases hhead' with
    | record hrows' =>
      refine compareRows_related hrows hrows' (by rwa [hrow, hrow']) ?_
      rw [hrow, hrow']
      exact htails _ _ _ _ rfl rfl
    | synonym id ls ls' hps hR => exact right _ _ (by simp [children]) hR
    | _ => rfl
  | synonym id ls ls' hps hR =>
    cases hhead' with
    | synonym id ms ms' hqs hR' =>
      have hpairs := pairs _ _
        (fun p hp => ⟨mem_append_left _ (mem_map_of_mem hp), hps p hp⟩)
        fun q hq => ⟨mem_append_left _ (mem_map_of_mem hq), hqs q hq⟩
      have hleft := left _ _ (by simp [children]) hR
      simp only [hpairs, hleft]
    | _ => exact left _ _ (by simp [children]) hR
  | module name members members' =>
    cases hhead' with
    | synonym id ls ls' hps hR => exact right _ _ (by simp [children]) hR
    | _ => rfl

/-- Related types have the same shape on one side exactly if they do on the other. -/
theorem Matching.sameShape {t t' u u' : Ty} (hm : r.Matching e V R) (ht : R t t') (hu : R u u') :
    r.sameShape t u = e.sameShape t' u' := by
  -- the sides of a comparison may change, so the induction is on their depths together
  suffices h : ∀ n t t' u u' a b, R t t' → R u u' → r.Within a t → r.Within b u → a + b < n →
      r.sameShape t u = e.sameShape t' u' from
    h _ t t' u u' _ _ ht hu (within_fuel hm.left t) (within_fuel hm.left u) (Nat.lt_succ_self _)
  intro n
  induction n with
  | zero => intro t t' u u' a b _ _ _ _ hn; omega
  | succ n ih =>
    intro t t' u u' a b ht hu ha hb hn
    rw [sameShape_eq hm.left, sameShape_eq hm.right]
    exact hm.shapeStep ht hu ha hb fun x x' y y' i j hx hy hi hj hij =>
      ih x x' y y' i j hx hy hi hj (by omega)

end Registry

end RowTyping
