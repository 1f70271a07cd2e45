import Mathlib.Data.Fintype.Card
import RowTyping.Proofs.Inference
import RowTyping.Proofs.Sealing

/-!
# Reaching and reading

Reading a type to its end shows every open variable that its bindings lead to, where
no label repeats along a record. Reading may not come to an end, if the arguments of
synonyms lead in a cycle, and is broken off then. But a variable that is reached at all
is reached on a way that passes no binding twice, and the fuel is enough for that.
-/

namespace RowTyping

open Registry Table Ty List

namespace Registry

variable {r : Registry} {w d : Nat} {t u : Ty}

/-- A way leads from the type to the variable through `d` bindings. -/
def ReachesIn (r : Registry) (w : Nat) : Nat → Ty → Prop
  | 0, t => t.Mentions w
  | d + 1, t => ∃ v u, t.Mentions v ∧ r.binding? v = some u ∧ r.ReachesIn w d u

namespace ReachesIn

theorem of_mentions (h : r.ReachesIn w d t) (htu : ∀ v, t.Mentions v → u.Mentions v) :
    r.ReachesIn w d u := by
  cases d with
  | zero => exact htu w h
  | succ d =>
    obtain ⟨v, b, hv, hb, h⟩ := h
    exact ⟨v, b, htu v hv, hb, h⟩

/-- The way starts at a variable of the type. -/
theorem exists_flex (h : r.ReachesIn w d t) : ∃ v, t.Mentions v ∧ r.ReachesIn w d (.flex v) := by
  cases d with
  | zero => exact ⟨w, h, mentions_flex.mpr rfl⟩
  | succ d =>
    obtain ⟨v, b, hv, hb, h⟩ := h
    exact ⟨v, hv, v, b, mentions_flex.mpr rfl, hb, h⟩

theorem of_flex {v : Nat} (h : r.ReachesIn w d (.flex v)) (hv : t.Mentions v) :
    r.ReachesIn w d t :=
  h.of_mentions fun _ hx => mentions_flex.mp hx ▸ hv

/-- The way passes the binding of a bound variable. -/
theorem bound {v : Nat} (h : r.ReachesIn w d (.flex v)) (hb : r.binding? v = some u)
    (hopen : r.binding? w = none) : ∃ e, d = e + 1 ∧ r.ReachesIn w e u := by
  cases d with
  | zero =>
    cases mentions_flex.mp h
    rw [hb] at hopen
    cases hopen
  | succ e =>
    obtain ⟨_, _, hv, hb', h⟩ := h
    cases mentions_flex.mp hv
    rw [hb] at hb'
    cases hb'
    exact ⟨e, rfl, h⟩

theorem child (h : r.ReachesIn w d t) (ht : ∀ v, t ≠ .flex v) :
    ∃ u ∈ t.children, r.ReachesIn w d u := by
  obtain ⟨v, hv, h⟩ := h.exists_flex
  rcases mem_occurrences.mp hv with rfl | ⟨u, hu, hv⟩
  · exact absurd rfl (ht v)
  · exact ⟨u, hu, h.of_flex hv⟩

/-- The way ends where nothing leads on. -/
theorem eq_flex (h : r.ReachesIn w d t) (hres : r.Resolved t) (hleaf : t.children = []) :
    t = .flex w := by
  obtain ⟨v, hv, h⟩ := h.exists_flex
  rcases mem_occurrences.mp hv with rfl | ⟨u, hu, -⟩
  · cases d with
    | zero => rw [mentions_flex.mp h]
    | succ d =>
      obtain ⟨_, u, hv, hb, -⟩ := h
      cases mentions_flex.mp hv
      cases hb.symm.trans (hres v rfl)
  · simp [hleaf] at hu

end ReachesIn

/-- The shortest way from the variable passes `d` bindings. -/
def Distance (r : Registry) (w d v : Nat) : Prop :=
  r.ReachesIn w d (.flex v) ∧ ∀ e < d, ¬ r.ReachesIn w e (.flex v)

theorem Distance.unique {d e v : Nat} (h : r.Distance w d v) (h' : r.Distance w e v) : d = e :=
  le_antisymm (Nat.le_of_not_lt fun hlt => h.2 e hlt h'.1)
    (Nat.le_of_not_lt fun hlt => h'.2 d hlt h.1)

/-- A shortest way goes on with a shortest way. -/
theorem Distance.next {v : Nat} (h : r.Distance w (d + 1) v) :
    v < r.varCount ∧ ∃ v', r.Distance w d v' := by
  obtain ⟨⟨_, u, hv, hb, hu⟩, hmin⟩ := h
  cases mentions_flex.mp hv
  obtain ⟨v', hv', h'⟩ := hu.exists_flex
  refine ⟨lt_varCount_of_binding? hb, v', h', fun e he hshort => ?_⟩
  exact hmin (e + 1) (Nat.succ_lt_succ he)
    ⟨v, u, mentions_flex.mpr rfl, hb, hshort.of_flex hv'⟩

/-- A shortest way passes no variable twice. -/
theorem Distance.le {v : Nat} (h : r.Distance w d v) : d ≤ r.varCount := by
  have hpassed : ∀ {d v}, r.Distance w d v → ∀ i < d, ∃ v', v' < r.varCount ∧
      r.Distance w (i + 1) v' := by
    intro d
    induction d with
    | zero => exact fun _ i hi => absurd hi i.not_lt_zero
    | succ d ih =>
      intro v hv i hi
      obtain ⟨hlt, v', hv'⟩ := hv.next
      rcases (Nat.lt_succ_iff_lt_or_eq).mp hi with hi | rfl
      · exact ih hv' i hi
      · exact ⟨v, hlt, hv⟩
  choose f hf hdist using fun i : Fin d => hpassed h i i.isLt
  have hinj : Function.Injective fun i => (⟨f i, hf i⟩ : Fin r.varCount) := by
    intro i j hij
    have heq : f i = f j := congrArg Fin.val hij
    exact Fin.ext (Nat.succ.inj ((heq ▸ hdist i).unique (hdist j)))
  simpa using Fintype.card_le_of_injective _ hinj

theorem Reaches.exists_reachesIn (h : r.Reaches t w) :
    ∃ d ≤ r.varCount, r.ReachesIn w d t := by
  classical
  obtain ⟨v, hv, hpath⟩ := h
  have hex : ∃ d, r.ReachesIn w d (.flex v) := by
    clear hv
    induction hpath using Relation.ReflTransGen.head_induction_on with
    | refl => exact ⟨0, mentions_flex.mpr rfl⟩
    | head hedge _ ih =>
      obtain ⟨u, hb, hu⟩ := hedge
      obtain ⟨d, hd⟩ := ih
      exact ⟨d + 1, _, u, mentions_flex.mpr rfl, hb, hd.of_flex hu⟩
  have hdist : r.Distance w (Nat.find hex) v := ⟨Nat.find_spec hex, fun _ => Nat.find_min hex⟩
  exact ⟨_, hdist.le, hdist.1.of_flex hv⟩

/-- The way can be followed past bound variables, and does not get longer. -/
theorem ReachesIn.follow (h : r.ReachesIn w d t) (hopen : r.binding? w = none) (n : Nat) :
    ∃ e, r.ReachesIn w e (r.follow n t) ∧
      (r.follow n t).height + e * r.maxHeight ≤ t.height + d * r.maxHeight := by
  induction n generalizing t d with
  | zero => exact ⟨d, h, le_rfl⟩
  | succ n ih =>
    by_cases ht : ∃ v, t = .flex v
    · obtain ⟨v, rfl⟩ := ht
      rw [Registry.follow]
      cases hb : r.binding? v with
      | none => exact ⟨d, h, le_rfl⟩
      | some u =>
        obtain ⟨d, rfl, hu⟩ := h.bound hb hopen
        obtain ⟨e, he, hle⟩ := ih hu
        refine ⟨e, he, hle.trans ?_⟩
        have := height_le_maxHeight hb
        rw [Nat.succ_mul]
        omega
    · exact ⟨d, by rwa [follow_of_not_flex fun v hv => ht ⟨v, hv⟩],
        by rw [follow_of_not_flex fun v hv => ht ⟨v, hv⟩]⟩

end Registry

/-- Where records end in rows, a flat type has only open variables. -/
theorem Registry.Flat.open_of_fits {r : Registry} {G : Prop} {H V : TyVar → Role → Prop} {k : Role}
    {t : Ty} (h : r.Flat t) (hfits : t.Fits G H V k) {v : Nat} (hv : .flex v ∈ t.occurrences) :
    r.binding? v = none := by
  induction h generalizing V k with
  | @var x hx =>
    obtain rfl : TyVar.flex v = x := by simpa [occurrences] using hv
    exact hx v rfl
  | con _ ih =>
    rcases mem_occurrences.mp hv with heq | ⟨u, hu, hv⟩
    · cases heq
    · cases hfits with
      | con _ _ hargs => exact ih u hu (hargs u hu) hv
      | emptyRow => simp [children] at hu
  | record _ _ htail hend ih =>
    cases hfits with
    | record _ _ hfields hrest =>
      rcases mem_occurrences.mp hv with heq | ⟨u, hu, hmem⟩
      · cases heq
      · rcases mem_children_record.mp hu with ⟨e, he, rfl⟩ | rfl
        · exact ih e he (hfields e he) hmem
        · cases hrest with
          | @var _ _ x =>
            obtain rfl : TyVar.flex v = x := by simpa [occurrences] using hmem
            exact htail v rfl
          | emptyRow => simp [occurrences] at hmem
          | record => cases hend
  | synonym _ _ ihp ih =>
    rcases mem_occurrences.mp hv with heq | ⟨u, hu, hv⟩
    · cases heq
    · cases hfits with
      | synonym hparams htarget =>
        rcases mem_append.mp hu with hmem | hmem
        · exact ihp u hmem (hparams u hmem) hv
        · cases mem_singleton.mp hmem
          exact ih htarget hv
  | module => simp [occurrences] at hv

namespace Stage

variable {G : Prop} {S : Stage G} {V : TyVar → Role → Prop} {k : Role} {t : Ty} {w d : Nat}

section

variable (hV : S.role.Allows V) (hopen : S.registry.binding? w = none)
include hV hopen

/-- A way from a row goes on from one of its fields or from its tail. -/
theorem reachesIn_collect {fs : Table Ty} (h : (record fs t).Fits G S.role.Has V k)
    (hw : S.registry.ReachesIn w d t) (n : Nat) :
    (∃ e ∈ (S.registry.collect n fs t).fields, ∃ d', S.registry.ReachesIn w d' e.2 ∧
        e.2.height + d' * S.registry.maxHeight < t.height + d * S.registry.maxHeight) ∨
      ∃ d', S.registry.ReachesIn w d' (S.registry.collect n fs t).tail := by
  induction n generalizing fs t d with
  | zero =>
    obtain ⟨e, he, -⟩ := hw.follow hopen S.registry.varCount
    exact .inr ⟨e, he⟩
  | succ n ih =>
    obtain ⟨e, he, hle⟩ := hw.follow hopen S.registry.varCount
    have h' := (S.obeys_of hV).resolve_tail h
    rw [← Registry.resolve] at he hle
    rw [collect]
    cases heq : S.registry.resolve t with
    | record gs tail =>
      rw [heq] at he hle h'
      obtain ⟨u, hu, hw'⟩ := he.child (by simp)
      have hlt : u.height + e * S.registry.maxHeight < t.height + d * S.registry.maxHeight := by
        have := height_lt_of_mem_children hu
        omega
      rcases mem_children_record.mp hu with ⟨f, hf, rfl⟩ | rfl
      · refine .inl ⟨f, ?_, e, hw', hlt⟩
        cases h' with
        | record hs hfront hfields htail =>
          cases htail with
          | record hs' hfront' hfields' htail' =>
            have hunion := hs.union gs
            have hmem : f ∈ fs.union gs := (mem_union_of_new hs hs' fun e he hmem =>
              hfront' e he (Finset.mem_union_right _ hmem)).mpr (.inr hf)
            dsimp only
            rw [collect_acc n hunion]
            refine mem_of_lookup ?_
            rw [lookup_union, hunion.lookup_of_mem hmem]
            rfl
      · rcases ih h'.merge hw' with ⟨f, hf, d', hd', hlt'⟩ | hend
        · exact .inl ⟨f, hf, d', hd', hlt'.trans hlt⟩
        · exact .inr hend
    | var | con | synonym | module =>
      rw [heq] at he
      exact .inr ⟨e, he⟩

theorem mem_resolveDeepN (h : t.Fits G S.role.Has V k) (hw : S.registry.ReachesIn w d t) {n : Nat}
    (hn : t.height + d * S.registry.maxHeight < n) :
    .flex w ∈ (S.registry.resolveDeepN n t).occurrences := by
  induction n generalizing t d V k with
  | zero => omega
  | succ n ih =>
    obtain ⟨e, he, hle⟩ := hw.follow hopen S.registry.varCount
    have hfits := (S.obeys_of hV).resolve h
    rw [← Registry.resolve] at he hle
    rw [resolveDeepN]
    have hchild : ∀ {u}, u ∈ (S.registry.resolve t).children →
        u.height + e * S.registry.maxHeight < n := by
      intro u hu
      have := height_lt_of_mem_children hu
      omega
    cases heq : S.registry.resolve t with
    | var x =>
      rw [heq] at he
      rw [he.eq_flex (fun v hv => open_of_resolve S.acyclic (heq.trans hv)) rfl]
      exact mentions_flex.mpr rfl
    | con c args =>
      rw [heq] at he hfits hchild
      obtain ⟨u, hu, hw⟩ := he.child (by simp)
      cases hfits with
      | con hc htuple hargs =>
        exact mem_occurrences.mpr (.inr ⟨_, mem_map_of_mem hu, ih hV (hargs u hu) hw (hchild hu)⟩)
      | emptyRow => simp [children] at hu
    | synonym id labels params target =>
      rw [heq] at he hfits hchild
      obtain ⟨u, hu, hw⟩ := he.child (by simp)
      cases hfits with
      | synonym hparams htarget hsolid =>
        rcases mem_append.mp hu with hmem | hmem
        · exact mem_occurrences.mpr (.inr ⟨_, mem_append_left _ (mem_map_of_mem hmem),
            ih S.role.allows_has (hparams u hmem) hw (hchild hu)⟩)
        · obtain rfl := mem_singleton.mp hmem
          exact mem_occurrences.mpr (.inr ⟨_, mem_append_right _ (mem_singleton_self _),
            ih hV htarget hw (hchild hu)⟩)
    | record fs tail =>
      rw [heq] at he hfits hle
      have hrest : (record fs tail).Fits G S.role.Has V (.rest k.front) := hfits.record_congr rfl
      have hstart : (record [] (record fs tail)).Fits G S.role.Has V (.rest k.front) :=
        .record .nil (by simp) (by simp) (by rwa [Role.behind_nil])
      have hrow := (S.obeys_of hV).row_record hfits
      cases hrow with
      | record hs hfront hfields htail =>
        rcases reachesIn_collect hV hopen hstart he (S.registry.fuel (.record fs tail)) with
          ⟨f, hf, d', hd', hlt⟩ | ⟨d', hd'⟩
        · refine mem_occurrences.mpr (.inr ⟨_, mem_children_record.mpr
            (.inl ⟨_, mem_map_of_mem hf, rfl⟩), ih hV (hfields f hf) hd' (by omega)⟩)
        · obtain ⟨hres, hend⟩ := row_tail_of_bare S.acyclic (.record fs tail)
          have hleaf : (S.registry.row (.record fs tail)).tail.children = [] := by
            generalize (S.registry.row (.record fs tail)).tail = tail' at *
            cases htail with
            | var | emptyRow => rfl
            | record => cases hend
          refine mem_occurrences.mpr (.inr ⟨_, mem_children_record.mpr (.inr rfl), ?_⟩)
          rw [show (S.registry.row (.record fs tail)).tail = _ from hd'.eq_flex hres hleaf]
          exact mentions_flex.mpr rfl
    | module name members =>
      rw [heq] at he
      cases he.eq_flex (by simp [Resolved]) rfl

end

/-- An open variable that the bindings lead to from a scheme is seen when the scheme is
read. -/
theorem FitsBody.mem_resolveDeep {σ : Scheme} (h : S.FitsBody σ)
    (hopen : S.registry.binding? w = none) (hw : S.registry.Reaches σ.body w) :
    .flex w ∈ (S.registry.resolveDeep σ.body).occurrences := by
  obtain ⟨d, hd, hw⟩ := hw.exists_reachesIn
  have hfuel : σ.body.height + d * S.registry.maxHeight < S.registry.fuel σ.body := by
    have := Nat.mul_le_mul_right S.registry.maxHeight hd
    unfold fuel
    omega
  by_cases hc : ∃ name args, σ.body = .con (.ctor name) args
  · obtain ⟨name, args, heq⟩ := hc
    have hparts := h.parts
    rw [heq] at hw hfuel hparts ⊢
    obtain ⟨u, hu, hw⟩ := hw.child (by simp)
    have := height_lt_of_mem_children hu
    rw [resolveDeep, fuel, resolveDeepN, resolve_con]
    refine mem_occurrences.mpr (.inr ⟨_, mem_map_of_mem hu,
      mem_resolveDeepN (S.allows_shows σ) hopen (hparts u hu) hw ?_⟩)
    unfold fuel at hfuel
    omega
  · have hparts := parts_eq_self fun name args heq => hc ⟨name, args, heq⟩
    exact mem_resolveDeepN (S.allows_shows σ) hopen (h.parts _ (by simp [hparts])) hw hfuel

/-- What has been read shows only open variables. -/
theorem open_of_mem_resolveDeep (h : S.Fits k t) {v : Nat}
    (hv : .flex v ∈ (S.registry.resolveDeep t).occurrences) : S.registry.binding? v = none :=
  (flat_resolveDeepN S.acyclic _ t).open_of_fits h.resolveDeep hv

end Stage

end RowTyping
