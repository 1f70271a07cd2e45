import RowTyping.Proofs.Idempotence

/-!
# Same shape as a congruence

Two types have the same shape when they are read alike through the bindings: the same
heads all the way down, and for records the same labels, collected along the tails.
Over bindings without cycles and synonyms this is an equivalence, and forming types from
parts of the same shape gives types of the same shape: what stands in front of a tail
hides the same fields of it on both sides. Bindings that are added later only say more
about the variables that both types end in, so the shapes stay the same.
-/

namespace RowTyping

open Check Table Ty Finset List Option

namespace Table.Sorted

variable {α : Type} {fs gs : Table α}

theorem card_names (h : fs.Sorted) : fs.names.card = fs.length := by
  have hnodup : (fs.map (·.1)).Nodup := pairwise_map.mpr (h.imp ne_of_lt)
  rw [names, toFinset_card_of_nodup hnodup, length_map]

/-- Of tables with one length, the names of one are all those of the other as soon as
they are among them. -/
theorem labels_iff (hf : fs.Sorted) (hg : gs.Sorted) :
    (fs.length = gs.length ∧ ∀ e ∈ fs, (gs.lookup e.1).isSome) ↔
      ∀ l, (fs.lookup l).isSome = (gs.lookup l).isSome := by
  have hnames : fs.names = gs.names ↔ ∀ l, (fs.lookup l).isSome = (gs.lookup l).isSome := by
    rw [Finset.ext_iff]
    refine forall_congr' fun l => ?_
    rw [mem_names_iff_lookup, mem_names_iff_lookup]
    exact Bool.eq_iff_iff.symm
  rw [← hnames, ← hf.card_names, ← hg.card_names]
  constructor
  · rintro ⟨hcard, h⟩
    refine eq_of_subset_of_card_le (fun l hl => ?_) hcard.ge
    obtain ⟨e, he, rfl⟩ := mem_names.mp hl
    exact mem_names_iff_lookup.mpr (h e he)
  · intro h
    exact ⟨by rw [h], fun e he => mem_names_iff_lookup.mp (h ▸ mem_names.mpr ⟨e, he, rfl⟩)⟩

end Table.Sorted

namespace Registry

variable {r r' : Registry} {t u w : Ty}

/-- Records with alike fields and tails are read alike. -/
theorem ReadAlike.records (hr : r.Acyclic) {fs gs : Table Ty}
    (labels : ∀ l, (fs.lookup l).isSome = (gs.lookup l).isSome)
    (fields : ∀ l x y, fs.lookup l = some x → gs.lookup l = some y → r.ReadAlike True x y)
    (h : r.ReadAlike True t u) : r.ReadAlike True (.record fs t) (.record gs u) := by
  have hrows := (h.row hr).prepend labels fields
  have hmine : r.row (.record fs t) = .prepend fs (r.row t) := row_record hr resolve_record
  have htheirs : r.row (.record gs u) = .prepend gs (r.row u) := row_record hr resolve_record
  rw [← hmine, ← htheirs] at hrows
  have hrec : ∀ fs t, (r.resolve (.record fs t)).isRecord = true := fun fs t => by
    rw [resolve_record]; rfl
  exact .rows (.inl (hrec fs t)) (.inl (hrec gs u)) (.inl (hrec fs t))
    (fun _ => ⟨hrec fs t, hrec gs u⟩) hrows.labels hrows.fields hrows.tail

/-- Only what a type is resolved to matters. -/
theorem ReadAlike.congr_left (hr : r.Acyclic) (h : r.ReadAlike True u w)
    (ht : r.resolve t = r.resolve u) : r.ReadAlike True t w := by
  cases h with
  | read h => exact .read (ht.trans h)
  | module hu hw => exact .module (ht.trans hu) hw
  | con hu hw hlen hargs hcd => exact .con (ht.trans hu) hw hlen hargs hcd
  | rows hu hw record both labels fields tail =>
    rw [← ht] at hu record both
    rw [← row_congr hr ht] at labels fields tail
    exact .rows hu hw record both labels fields tail

theorem ReadAlike.trans (hr : r.Acyclic) (h : r.ReadAlike True t u) (h' : r.ReadAlike True u w) :
    r.ReadAlike True t w := by
  -- what the type in the middle is resolved to decides the form on both sides
  induction h generalizing w with
  | read h => exact h'.congr_left hr h
  | module ht hu =>
    cases h' with
    | read h => exact .module ht (h ▸ hu)
    | module hu' hw =>
      cases hu.symm.trans hu'
      exact .module ht hw
    | con hu' => cases hu.symm.trans hu'
    | rows _ _ _ both => simp [hu, isRecord] at both
  | @con t u c d ts us ht hu hlen hargs hcd ih =>
    cases h' with
    | read h => exact .con ht (h ▸ hu) hlen hargs hcd
    | module hu' => cases hu.symm.trans hu'
    | @con _ _ _ d' _ ws hu' hw hlen' hargs' hcd' =>
      cases hu.symm.trans hu'
      refine .con ht hw (hlen.trans hlen') (fun p hp => ?_)
        (Con.agrees_iff.mpr ((Con.agrees_iff.mp hcd).trans (Con.agrees_iff.mp hcd')))
      obtain ⟨i, hi, rfl⟩ := mem_iff_getElem.mp hp
      simp only [length_zip, lt_inf_iff] at hi
      have hmid : i < us.length := hlen ▸ hi.1
      have hleft : (ts[i], us[i]) ∈ ts.zip us :=
        mem_iff_getElem.mpr ⟨i, by simp [hi, hmid], by simp⟩
      have hright : (us[i], ws[i]) ∈ us.zip ws :=
        mem_iff_getElem.mpr ⟨i, by simp [hi, hmid], by simp⟩
      simpa using ih _ hleft (hargs' _ hright)
    | rows _ _ _ both => simp [hu, isRecord] at both
  | rows ht hu _ both labels fields tail ihf iht =>
    obtain ⟨htrec, hurec⟩ := both trivial
    cases h' with
    | read h =>
      rw [row_congr hr h] at labels fields tail
      exact .rows ht (h ▸ hu) (.inl htrec) (fun _ => ⟨htrec, h ▸ hurec⟩) labels fields tail
    | module hu' | con hu' => simp [hu', isRecord] at hurec
    | rows _ hw _ both' labels' fields' tail' =>
      refine .rows ht hw (.inl htrec) (fun _ => ⟨htrec, (both' trivial).2⟩)
        (fun l => (labels l).trans (labels' l)) (fun l x z hx hz => ?_) (iht tail')
      obtain ⟨y, hy⟩ := isSome_iff_exists.mp ((labels' l).trans (by rw [hz]; rfl))
      exact ihf l x y hx hy (fields' l y z hy hz)

/-- Induction over the parts of a type and what its row ends in. -/
theorem part_or_end_induct (hr : r.Acyclic) {motive : Ty → Prop}
    (step : ∀ t, (∀ u, r.Part u t → motive u) →
      ((r.resolve t).isRecord = true → motive (r.row t).tail) → motive t) (t : Ty) : motive t := by
  suffices h : ∀ n t, r.Within n t → motive t from h _ t (within_fuel hr t)
  intro n
  induction n using Nat.strongRecOn with
  | ind n ih =>
    intro t hn
    refine step t (fun u hu => ?_) fun hrec => ?_
    · obtain ⟨k, rfl, hk⟩ := hn.part hr hu
      exact ih k k.lt_succ_self u hk
    · obtain ⟨fs, tail, heq⟩ := eq_record_of_isRecord hrec
      obtain ⟨k, rfl, hk⟩ := hn.record_tail hr heq
      exact ih k k.lt_succ_self _ hk

theorem sameShape_self (hr : r.Acyclic) (t : Ty) : r.sameShape t t = true := by
  induction t using part_or_end_induct hr with
  | step t ih ihtail =>
    have hpairs : ∀ {ts : List Ty}, (∀ u ∈ ts, u ∈ (r.resolve t).children) →
        allPairs r.sameShape ts ts = true := fun {ts} hts => by
      rw [allPairs, List.zip_eq_zipWith]
      simpa using fun u hu => ih u (.inl (hts u hu))
    rw [sameShape_eq hr, shapeStep]
    cases heq : r.resolve t with
    | var x => simp
    | con c args =>
      rw [heq] at hpairs
      simpa [Con.agrees_iff] using @hpairs args fun u hu => hu
    | record fs tail =>
      simp only [← heq, row_resolve hr, beq_self_eq_true, Bool.true_and, Bool.and_eq_true,
        List.all_eq_true]
      refine ⟨fun e he => ?_, ihtail (by rw [heq]; rfl)⟩
      rw [(row_sorted hr t).lookup_of_mem he]
      exact ih e.2 (.inr ⟨e, he, rfl⟩)
    | synonym id labels params target =>
      rw [heq] at hpairs
      simp [@hpairs params fun u hu => by simp [children, hu]]
    | module name members => simp

/-- What is read alike is found to have the same shape. -/
theorem ReadAlike.sameShape (hr : r.Acyclic) (h : r.ReadAlike True t u) :
    r.sameShape t u = true := by
  induction h with
  | @read t u h =>
    have hself := sameShape_self hr u
    rw [sameShape_eq hr, shapeStep] at hself ⊢
    rwa [h]
  | module ht hu => simp [sameShape_eq hr, shapeStep, ht, hu]
  | con ht hu hlen _ hcd ih =>
    rw [sameShape_eq hr, shapeStep, ht, hu]
    simpa [hcd, allPairs, hlen] using fun a b hab => ih (a, b) hab
  | @rows t u _ _ _ both labels _ _ ihf iht =>
    obtain ⟨fs, x, heq⟩ := eq_record_of_isRecord (both trivial).1
    obtain ⟨gs, y, heq'⟩ := eq_record_of_isRecord (both trivial).2
    obtain ⟨hlen, hnames⟩ := ((row_sorted hr t).labels_iff (row_sorted hr u)).mpr labels
    rw [sameShape_eq hr, shapeStep, heq, heq']
    simp only [← heq, ← heq', row_resolve hr, Bool.and_eq_true, beq_iff_eq, List.all_eq_true]
    refine ⟨⟨hlen, fun e he => ?_⟩, iht⟩
    obtain ⟨w, hw⟩ := isSome_iff_exists.mp (hnames e he)
    rw [hw]
    exact ihf e.1 e.2 w ((row_sorted hr t).lookup_of_mem he) hw

/-- Types without synonyms have the same shape exactly when they are read alike. -/
theorem sameShape_iff (hr : r.WellFormed SynonymFreeKind) (ht : t.SynonymFree)
    (hu : u.SynonymFree) : r.sameShape t u = true ↔ r.ReadAlike True t u := by
  have hacyclic := hr.acyclic
  refine ⟨fun h => ?_, fun h => h.sameShape hacyclic⟩
  induction t using part_or_end_induct hacyclic generalizing u with
  | step t ih ihtail =>
    have ht' : (r.resolve t).SynonymFree := hr.resolve (k := .type) ht
    have hu' : (r.resolve u).SynonymFree := hr.resolve (k := .type) hu
    rw [sameShape_eq hacyclic, shapeStep] at h
    cases heq : r.resolve t with
    | synonym => exact (All.here (heq ▸ ht')).elim
    | var x =>
      cases heq' : r.resolve u with
      | synonym => exact (All.here (heq' ▸ hu')).elim
      | var y =>
        simp only [heq, heq', beq_iff_eq] at h
        exact .read (heq.trans (h ▸ heq'.symm))
      | _ => simp [heq, heq'] at h
    | module name e =>
      cases heq' : r.resolve u with
      | synonym => exact (All.here (heq' ▸ hu')).elim
      | module name' f =>
        simp only [heq, heq', beq_iff_eq] at h
        exact .module heq (h ▸ heq')
      | _ => simp [heq, heq'] at h
    | con c ts =>
      cases heq' : r.resolve u with
      | synonym => exact (All.here (heq' ▸ hu')).elim
      | con d us =>
        simp only [heq, heq', Bool.and_eq_true, allPairs, beq_iff_eq, List.all_eq_true] at h
        obtain ⟨hcd, hlen, hargs⟩ := h
        refine .con heq heq' hlen (fun p hp => ?_) hcd
        obtain ⟨hp₁, hp₂⟩ := List.of_mem_zip hp
        exact ih p.1 (.inl (heq ▸ hp₁)) (All.child (t := .con c ts) (heq ▸ ht') hp₁)
          (All.child (t := .con d us) (heq' ▸ hu') hp₂) (hargs p hp)
      | _ => simp [heq, heq'] at h
    | record fs x =>
      cases heq' : r.resolve u with
      | synonym => exact (All.here (heq' ▸ hu')).elim
      | record gs y =>
        simp only [heq, heq', Bool.and_eq_true, beq_iff_eq, List.all_eq_true] at h
        rw [← heq, ← heq', row_resolve hacyclic, row_resolve hacyclic] at h
        obtain ⟨⟨hlen, hall⟩, htail⟩ := h
        have hrec : (r.resolve t).isRecord = true := by rw [heq]; rfl
        have hrec' : (r.resolve u).isRecord = true := by rw [heq']; rfl
        obtain ⟨hfree, hend⟩ := hr.record_row (k := .type) kinding_synonymFree ht heq
        obtain ⟨hfree', hend'⟩ := hr.record_row (k := .type) kinding_synonymFree hu heq'
        refine .rows (.inl hrec) (.inl hrec') (.inl hrec) (fun _ => ⟨hrec, hrec'⟩) ?_
          (fun l x y hx hy => ?_) (ihtail hrec hend hend' htail)
        · refine ((row_sorted hacyclic t).labels_iff (row_sorted hacyclic u)).mp
            ⟨hlen, fun e he => ?_⟩
          exact isSome_of_any (hall e he)
        · have hmem := mem_of_lookup hx
          have hxy := hall _ hmem
          rw [hy] at hxy
          exact ih x (.inr ⟨_, hmem, rfl⟩) (hfree _ hmem) (hfree' _ (mem_of_lookup hy)) hxy
      | _ => simp [heq, heq'] at h

end Registry

/-- Tables that are given label by label have their labels in common. -/
theorem lookup_of_forall₂ {R : Ty → Ty → Prop} {fs gs : Table Ty}
    (h : Forall₂ (fun e f => e.1 = f.1 ∧ R e.2 f.2) fs gs) (l : String) :
    (fs.lookup l).isSome = (gs.lookup l).isSome ∧
      ∀ x y, fs.lookup l = some x → gs.lookup l = some y → R x y := by
  induction h with
  | nil => simp
  | @cons e f fs gs hef _ ih =>
    obtain ⟨k, x⟩ := e
    obtain ⟨k', y⟩ := f
    obtain ⟨rfl, hxy⟩ := hef
    rw [lookup_cons, lookup_cons]
    cases l == k with
    | true => simpa using hxy
    | false => exact ih

/-- Calls of unification, successful or not, one after the other. -/
def unifying (calls : List (Ty × Ty)) (s : State) : State :=
  calls.foldl (fun s p => after (unify p.1 p.2) s) s

theorem wellFormed_unifying {calls : List (Ty × Ty)} {s : State}
    (hs : s.registry.WellFormed SynonymFreeKind)
    (hcalls : ∀ p ∈ calls, p.1.SynonymFree ∧ p.2.SynonymFree) :
    (unifying calls s).registry.WellFormed SynonymFreeKind ∧
      s.registry.Extends (unifying calls s).registry := by
  induction calls generalizing s with
  | nil => exact ⟨hs, .refl _⟩
  | cons p calls ih =>
    obtain ⟨⟨ha, hb⟩, hcalls⟩ := forall_mem_cons.mp hcalls
    have hrun := unify_unifies_synonymFree hs ha hb
    have hkept := hrun.keeps kinding_synonymFree (kindedRun_synonymFree hs ha hb _)
    rw [ends_registry] at hkept
    obtain ⟨hend, hext⟩ := ih hkept.1 hcalls
    exact ⟨hend, hkept.2.trans hext⟩

/-- Over bindings without cycles and synonyms, having the same shape is an equivalence of
the types without synonyms. It is kept by every type former, be it a function, a tuple,
a variant, an abstract or a constructor type, and by records, whatever their tails are
bound to. And types that have the same shape have it after any calls of unification,
whether they succeed or fail. -/
theorem sameShape_congruence {s : State} (hr : s.registry.Acyclic)
    (hfree : s.registry.AllBindings Ty.SynonymFree) :
    (∀ t : Ty, t.SynonymFree → s.registry.sameShape t t = true) ∧
    (∀ t u : Ty, t.SynonymFree → u.SynonymFree → s.registry.sameShape t u = true →
      s.registry.sameShape u t = true) ∧
    (∀ t u w : Ty, t.SynonymFree → u.SynonymFree → w.SynonymFree →
      s.registry.sameShape t u = true → s.registry.sameShape u w = true →
        s.registry.sameShape t w = true) ∧
    (∀ (c d : Con) (ts us : List Ty), c.agrees d = true →
      List.Forall₂ (fun t u => s.registry.sameShape t u = true) ts us →
        s.registry.sameShape (.con c ts) (.con d us) = true) ∧
    (∀ (fs gs : List (String × Ty)) (t u : Ty), (Ty.record fs t).SynonymFree →
      (Ty.record gs u).SynonymFree →
      List.Forall₂ (fun e f => e.1 = f.1 ∧ s.registry.sameShape e.2 f.2 = true) fs gs →
      s.registry.sameShape t u = true → s.registry.sameShape (.record fs t) (.record gs u) = true) ∧
    ∀ (calls : List (Ty × Ty)) (t u : Ty), (∀ p ∈ calls, p.1.SynonymFree ∧ p.2.SynonymFree) →
      t.SynonymFree → u.SynonymFree → s.registry.sameShape t u = true →
        (unifying calls s).registry.sameShape t u = true := by
  have hs : s.registry.WellFormed SynonymFreeKind :=
    ⟨hr, fun v t hv => kinding_synonymFree.covered (k := .type) (hfree v t hv),
      fun v t hv _ _ => hfree v t hv⟩
  refine ⟨fun t _ => Registry.sameShape_self hr t, fun t u ht hu h => ?_,
    fun t u w ht hu hw h h' => ?_, fun c d ts us hcd h => ?_, fun fs gs t u ht hu hfields h => ?_,
    fun calls t u hcalls ht hu h => ?_⟩
  · exact ((Registry.sameShape_iff hs ht hu).mp h).symm.sameShape hr
  · exact (((Registry.sameShape_iff hs ht hu).mp h).trans hr
      ((Registry.sameShape_iff hs hu hw).mp h')).sameShape hr
  · obtain ⟨hlen, hpairs⟩ := List.forall₂_iff_zip.mp h
    rw [Registry.sameShape_eq hr, Registry.shapeStep, Registry.resolve_con, Registry.resolve_con]
    simpa [hcd, Registry.allPairs, hlen] using fun a b => hpairs
  · obtain ⟨-, hfs, ht⟩ := (Ty.all_record _ _).mp ht
    obtain ⟨-, hgs, hu⟩ := (Ty.all_record _ _).mp hu
    have hlook := lookup_of_forall₂ (R := fun t u => s.registry.sameShape t u = true) hfields
    refine (((Registry.sameShape_iff hs ht hu).mp h).records hr (fun l => (hlook l).1)
      fun l x y hx hy => ?_).sameShape hr
    exact (Registry.sameShape_iff hs (hfs _ (Table.mem_of_lookup hx))
      (hgs _ (Table.mem_of_lookup hy))).mp ((hlook l).2 x y hx hy)
  · obtain ⟨hs', hext⟩ := wellFormed_unifying hs hcalls
    exact (((Registry.sameShape_iff hs ht hu).mp h).mono hext hr hs'.acyclic).sameShape hs'.acyclic

/-- A record that goes on in a bound tail, and the same record in one piece. The open end
takes a label that both have, and a later call fails. -/
theorem chained_record_keeps_shape :
    let s : State := ⟨({} : Registry).addVar.addVar.setBinding 1
      (.record [("y", .bool)] (.flex 0)), #[]⟩
    let t : Ty := .record [("x", .int)] (.flex 1)
    let u : Ty := .record [("x", .int), ("y", .bool)] (.flex 0)
    let calls : List (Ty × Ty) :=
      [(.flex 0, .record [("x", .char), ("z", .int)] .emptyRow), (.flex 1, .int)]
    s.registry.sameShape t u = true ∧ (unifying calls s).registry.sameShape t u = true ∧
      s.registry.sameShape (.record [("y", .arrow t t)] (.flex 1))
        (.record [("y", .arrow u t)] (.flex 1)) = true := by
  intro s t u calls
  have hr : s.registry.Acyclic :=
    Registry.acyclic_setBinding (by simp) (by simp [Ty.Scoped, Ty.Mentions, Ty.occurrences])
  have hfree : s.registry.AllBindings Ty.SynonymFree :=
    Registry.forall_setBinding (by simp) (by simp [Ty.NotSynonym])
  have htu : s.registry.sameShape t u = true := by decide +kernel
  obtain ⟨hrefl, hsymm, -, hcon, hrecord, hlater⟩ := sameShape_congruence hr hfree
  have ht : t.SynonymFree := by simp [t, Ty.NotSynonym]
  have hu : u.SynonymFree := by simp [u, Ty.NotSynonym]
  refine ⟨htu, hlater calls t u (by simp [calls, Ty.NotSynonym]) ht hu htu,
    hrecord _ _ _ _ ?_ ?_ (.cons ⟨rfl, ?_⟩ .nil) (hrefl _ (by simp [Ty.NotSynonym]))⟩
  · simp [t, Ty.NotSynonym]
  · simp [t, u, Ty.NotSynonym]
  · exact hcon .arrow .arrow _ _ rfl (.cons htu (.cons (hrefl t ht) .nil))

end RowTyping
