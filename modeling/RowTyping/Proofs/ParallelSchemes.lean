import RowTyping.Proofs.ParallelUnification
import RowTyping.Proofs.Leaks
import RowTyping.Proofs.Principality

/-!
# Schemes side by side

Partners are quantified together, and schemes with the same body have partners for
instances. The roles of the quantifiers belong to the scheme, so one number may be
a quantifier of several schemes.

Two environments are compared on the names that matter. What else is in them has
only variables without a partner: a `let` keeps a variable open on one side exactly
if it does so on the other side.
-/

namespace RowTyping

open Check Registry Table Ty Env List Option

theorem Env.mem_freeVars {env : Env} {r : Registry} {v : Nat} :
    v ∈ env.freeVars r ↔ ∃ e ∈ env.values, .flex v ∈ (r.resolveDeep e.2.body).occurrences := by
  rw [freeVars, mem_distinct, mem_flatMap]
  refine exists_congr fun e => and_congr_right fun _ => ?_
  rw [mem_filterMap]
  constructor
  · rintro ⟨x, hx, hxv⟩
    rw [vars, mem_distinct] at hx
    cases x with
    | gen g => cases hxv
    | flex w =>
      cases hxv
      exact hx
  · exact fun hv => ⟨.flex v, by rwa [vars, mem_distinct], rfl⟩

theorem Ty.Fits.asValue_eq {G : Prop} {H V : TyVar → Role → Prop} {k : Role} {t : Ty}
    (h : t.Fits G H V k) : t.asValue = t := by
  rw [asValue, h.ctor?_eq_none]

/-- A tree without synonyms hides nothing. -/
theorem Ty.Like.fits {R : Kind → TyVar → TyVar → Prop} {c : Kind} {t u : Ty} (h : Like R c t u)
    {G : Prop} {H H' V : TyVar → Role → Prop} {k : Role} (ht : t.Fits G H V k) :
    t.Fits G H' V k := by
  induction h generalizing k with
  | var => exact .var (Fits.var_iff.mp ht)
  | @con c ps hc _ ih =>
    generalize hts : ps.map Prod.fst = ts at ht
    cases ht with
    | con hformer htuple hargs =>
      subst hts
      refine .con hformer htuple (forall_mem_map.mpr fun p hp => ?_)
      exact ih p hp (hargs _ (mem_map_of_mem hp))
    | emptyRow => exact absurd rfl hc
  | emptyRow =>
    cases ht with
    | con hformer => exact absurd rfl hformer.1
    | emptyRow front => exact .emptyRow front
  | record _ _ ihf iht =>
    cases ht with
    | record hsorted hfront hfields htail =>
      refine .record hsorted hfront (forall_mem_map.mpr fun z hz => ?_) (iht htail)
      exact ihf z hz (hfields _ (mem_map_of_mem hz))

/-! ## One side -/

theorem Registry.Sound.of_binding? {r r' : Registry} (h : r.Sound)
    (hb : ∀ v, r'.binding? v = r.binding? v) : r'.Sound :=
  ⟨h.acyclic.of_binding? fun v t hv => by rwa [hb] at hv,
    fun v t hv => h.faithful v t (by rwa [hb] at hv)⟩

namespace Stage

variable {S S' : Stage True} {σ : Scheme} {t : Ty} {v : Nat}

/-- The body of a scheme shows variables that can be solved, and quantifiers with
roles of their own. -/
structure HostsScheme (S : Stage True) (σ : Scheme) : Prop where
  fits : ∃ role, σ.body.Fits True (fun _ _ => False)
    (fun x k => S.role.HasFlex x k ∨ σ.Quantifies role x k) .type
  faithful : σ.body.Faithful

theorem HostsScheme.mono (h : S.HostsScheme σ) (hle : S ≤ S') : S'.HostsScheme σ := by
  obtain ⟨role, hfits⟩ := h.fits
  refine ⟨⟨role, hfits.mono (fun x k hx => ?_) (fun _ _ => id) id⟩, h.faithful⟩
  exact hx.imp_left fun hx => ⟨hle.role hx.1, hx.2⟩

theorem hostsScheme_core (S : Stage True) (h : σ.IsCore) : S.HostsScheme σ := by
  obtain ⟨role, hfits⟩ := h.closed
  exact ⟨⟨role, hfits.mono (fun _ _ => .inr) (fun _ _ => id) id⟩, h.ordinary.faithful⟩

/-- `f` puts new variables in the place of the quantifiers of a scheme. -/
structure Renews (S S' : Stage True) (σ : Scheme) (f : TyVar → Ty) : Prop where
  le : S ≤ S'
  stays : ∀ w, S'.registry.binding? w = S.registry.binding? w
  flex : ∀ v, f (.flex v) = .flex v
  gen : ∀ g ∈ σ.vars, ∃ v, f (.gen g) = .flex v ∧ S.registry.varCount ≤ v ∧ v < S'.registry.varCount
  injective : ∀ g ∈ σ.vars, ∀ h ∈ σ.vars, f (.gen g) = f (.gen h) → g = h
  hosts : S'.Hosts .type (σ.body.subst f)

theorem Renews.fresh {f : TyVar → Ty} (h : S.Renews S' σ f) {g : Nat} (hg : g ∈ σ.vars)
    (hv : f (.gen g) = .flex v) : S.registry.varCount ≤ v ∧ v < S'.registry.varCount ∧
      S'.registry.binding? v = none := by
  obtain ⟨w, hw, hge, hlt⟩ := h.gen g hg
  cases hv.symm.trans hw
  exact ⟨hge, hlt, (h.stays v).trans (binding?_of_le hge)⟩

section

variable {ε β : Type}

theorem exists_instantiate (hσ : S.HostsScheme σ) {s : State} (hs : s.registry = S.registry) :
    ∃ f s' S', (instantiate σ : Check ε Ty).run s = .ok (σ.body.subst f) s' ∧
      s'.registry = S'.registry ∧ S.Renews S' σ f := by
  obtain ⟨role, hfits⟩ := hσ.fits
  obtain ⟨es, s', hrun, -, hvars, -⟩ := run_freshVars σ.replaced s
  obtain ⟨S', hle, hat, hyield⟩ :=
    leads_freshVars (TyVar.rec (fun _ => .type) role) σ.replaced s hs
  rw [after_ok hrun] at hat
  obtain ⟨hkeys, hstays, hnew⟩ := hyield es s' hrun
  have hnodup : (es.map (·.2)).Nodup := by
    rw [hvars]
    exact Nodup.map (fun v w h => TyVar.flex.inj (Ty.var.inj h)) nodup_range'
  have hfills := Scheme.fills_image hkeys
  set f := (Subst.ofList es).image
  refine ⟨f, s', S', ?_, hat, hle, hstays, hfills.flex, ?_, ?_, ?_, ?_⟩
  · rw [instantiate_eq, run_bind_ok hrun]
    rfl
  · intro g hg
    obtain ⟨v, hv, hrole, hge⟩ := hnew _ (hfills.opened (.inl hg))
    exact ⟨v, hv, hge, S'.issued hrole⟩
  · intro g hg h hh heq
    have hpair := inj_on_of_nodup_map hnodup (hfills.opened (.inl hg)) (hfills.opened (.inl hh)) heq
    exact TyVar.gen.inj (congrArg Prod.fst hpair)
  · refine Fits.subst hfits (fun x k hx => ?_) (fun _ _ => False.elim) fun _ _ => False.elim
    rcases hx with ⟨hx, v, rfl⟩ | ⟨g, hg, rfl, rfl⟩
    · rw [hfills.flex]
      exact .var ⟨hle.role hx, v, rfl⟩
    · obtain ⟨v, hv, hrole, -⟩ := hnew _ (hfills.opened (.inl hg))
      rw [show f (.gen g) = .flex v from hv]
      exact .var ⟨hrole, v, rfl⟩
  · refine hσ.faithful.subst fun x => ?_
    rcases Subst.image_cases es x with ⟨heq, -⟩ | hin
    · rw [show f x = .var x from heq]
      exact .var x
    · obtain ⟨v, hv, -⟩ := hnew _ hin
      rw [show f x = .flex v from hv]
      exact .var _

end

/-- A scheme that quantifies a tree without synonyms. -/
theorem Quantifies.hostsScheme {fixed : List Nat} {close : Nat → Option Nat}
    (hq : S.Quantifies S' fixed t σ close) (hle : S ≤ S') (ht : S.Hosts .type t)
    (hS : S.registry.Sound) {R : Kind → TyVar → TyVar → Prop} {u : Ty}
    (hlike : Like R .type (S.registry.resolveDeep t) u) : S'.HostsScheme σ := by
  have hdeep : (S.registry.resolveDeep t).Fits True (fun _ _ => False) S.role.HasFlex .type :=
    hlike.fits ht.fits.resolveDeep
  refine ⟨⟨fun g => S'.roleOf (.gen g), ?_⟩, ?_⟩
  · rw [hq.body]
    refine hdeep.subst (fun x k hx => ?_) (fun _ _ => False.elim) fun _ _ => False.elim
    obtain ⟨hx, v, rfl⟩ := hx
    rw [closing, fill]
    cases hv : close v with
    | none => exact .var (.inl ⟨hle.role hx, v, rfl⟩)
    | some g => exact .var (.inr ⟨g, hq.vars hv, rfl, roleOf_eq (hq.role hv hx)⟩)
  · rw [hq.body]
    refine (faithful_resolveDeep hS.acyclic hS.faithful ht.faithful).subst fun x => ?_
    cases x with
    | flex v => cases hv : close v <;> simp [closing, fill, hv]
    | gen g => exact .var _

end Stage

/-! ## Two sides -/

namespace World

variable {W W' : World} {σ σ' : Scheme} {t u : Ty} {v w : Nat} {γ : Kind → Nat → Nat → Prop}

/-- Two schemes with the same body, up to partners and the numbers of the
quantifiers. -/
structure Schemes (W : World) (σ σ' : Scheme) : Prop where
  left : W.left.HostsScheme σ
  right : W.right.HostsScheme σ'
  alike : ∃ γ : Kind → Nat → Nat → Prop, (∀ k g i, γ k g i → g ∈ σ.vars ∧ i ∈ σ'.vars) ∧
    (∀ k l g i h j, γ k g i → γ l h j → g = h ∨ i = j → k = l ∧ g = h ∧ i = j) ∧
    W.Alike γ .type σ.body σ'.body

theorem Schemes.mono (h : W.Schemes σ σ') (hle : W ≤ W') : W'.Schemes σ σ' := by
  obtain ⟨γ, hvars, hunique, hlike⟩ := h.alike
  exact ⟨h.left.mono hle.left, h.right.mono hle.right, γ, hvars, hunique, hlike.mono hle⟩

theorem Schemes.swap (h : W.Schemes σ σ') : W.swap.Schemes σ' σ := by
  obtain ⟨γ, hvars, hunique, hlike⟩ := h.alike
  refine ⟨h.right, h.left, fun k g i => γ k i g, fun k g i hij => (hvars k i g hij).symm, ?_,
    hlike.swap⟩
  intro k l g i h j hgi hhj heq
  obtain ⟨hk, hi, hg⟩ := hunique _ _ _ _ _ _ hgi hhj heq.symm
  exact ⟨hk, hg, hi⟩

/-- Partners without quantifiers. -/
theorem schemes_flex (h : W.Pairs .type .type (.flex v) (.flex w)) :
    W.Schemes (.mono (.flex v)) (.mono (.flex w)) := by
  refine ⟨⟨⟨fun _ => .type, .var (.inl ⟨h.left.role, v, rfl⟩)⟩, .var _⟩,
    ⟨⟨fun _ => .type, .var (.inl ⟨h.right.role, w, rfl⟩)⟩, .var _⟩, noGens, by simp, by simp,
    h.alike⟩

/-- Two instances issue variables in pairs, one for each pair of quantifiers. -/
theorem grows_renews {S T : Stage True} {f g : TyVar → Ty} (hf : W.left.Renews S σ f)
    (hg : W.right.Renews T σ' g) (hvars : ∀ k i j, γ k i j → i ∈ σ.vars ∧ j ∈ σ'.vars)
    (hunique : ∀ k l g i h j, γ k g i → γ l h j → g = h ∨ i = j → k = l ∧ g = h ∧ i = j) :
    W.Grows S T fun k v w => ∃ i j, γ k i j ∧ f (.gen i) = .flex v ∧ g (.gen j) = .flex w := by
  refine ⟨hf.le, hg.le, W.leftSound.of_binding? hf.stays, W.rightSound.of_binding? hg.stays,
    fun _ => hf.stays _, fun _ => hg.stays _, ?_, ?_, ?_, ?_⟩
  · rintro k v w ⟨i, j, hij, hv, hw⟩
    exact ⟨(hf.fresh (hvars _ _ _ hij).1 hv).2.2, (hg.fresh (hvars _ _ _ hij).2 hw).2.2⟩
  · rintro k v w ⟨i, j, hij, hv, hw⟩
    exact ⟨(hf.fresh (hvars _ _ _ hij).1 hv).1, (hg.fresh (hvars _ _ _ hij).2 hw).1⟩
  · rintro k v w ⟨i, j, hij, hv, hw⟩
    exact ⟨(hf.fresh (hvars _ _ _ hij).1 hv).2.1, (hg.fresh (hvars _ _ _ hij).2 hw).2.1⟩
  · rintro k l v w x y ⟨i, j, hij, hv, hw⟩ ⟨i', j', hij', hx, hy⟩ heq
    have hsame : i = i' ∨ j = j' := by
      refine heq.imp (fun h => ?_) fun h => ?_
      · exact hf.injective i (hvars _ _ _ hij).1 i' (hvars _ _ _ hij').1 (by rw [hv, hx, h])
      · exact hg.injective j (hvars _ _ _ hij).2 j' (hvars _ _ _ hij').2 (by rw [hw, hy, h])
    obtain ⟨rfl, rfl, rfl⟩ := hunique _ _ _ _ _ _ hij hij' hsame
    cases hv.symm.trans hx
    cases hw.symm.trans hy
    exact ⟨rfl, rfl, rfl⟩

section

variable {ε : Type}

theorem together_instantiate (h : W.Schemes σ σ') :
    W.Together (instantiate σ : Check ε Ty) (instantiate σ' : Check ε Ty)
      fun W' a b => W'.Pairs .type .type a b := by
  intro s s' hs hs'
  obtain ⟨γ, hvars, hunique, hlike⟩ := h.alike
  obtain ⟨f, s₁, S, hrun, hs₁, hf⟩ := Stage.exists_instantiate h.left hs
  obtain ⟨g, s₁', T, hrun', hs₁', hg⟩ := Stage.exists_instantiate h.right hs'
  have hgrows := grows_renews hf hg hvars hunique
  rw [hrun, hrun']
  refine .ok hgrows.world hgrows.le_world hs₁ hs₁' ⟨hf.hosts, hg.hosts, rfl, ?_⟩
  refine hlike.subst hgrows.le_world hf.flex hg.flex fun k i j hij => ?_
  obtain ⟨v, hv, -⟩ := hf.gen i (hvars _ _ _ hij).1
  obtain ⟨w, hw, -⟩ := hg.gen j (hvars _ _ _ hij).2
  rw [hv, hw]
  exact alike_var (.inr ⟨i, j, hij, hv, hw⟩)

/-- Partners are quantified or kept open together, if the environments keep the same
variables open. -/
theorem close_together {env env' : Env} {S T : Stage True} {close close' : Nat → Option Nat}
    (hq : W.left.Quantifies S (env.freeVars W.left.registry) t σ close)
    (hq' : W.right.Quantifies T (env'.freeVars W.right.registry) u σ' close')
    (hfree : v ∈ env.freeVars W.left.registry ↔ w ∈ env'.freeVars W.right.registry)
    (hv : .flex v ∈ (W.left.registry.resolveDeep t).shown)
    (hw : .flex w ∈ (W.right.registry.resolveDeep u).shown) :
    close v = none ∧ close' w = none ∨ ∃ g i, close v = some g ∧ close' w = some i := by
  cases hclose : close v with
  | none =>
    have hfixed : v ∈ env.freeVars W.left.registry := by
      by_contra hnot
      exact hq.closed hv hnot hclose
    cases hclose' : close' w with
    | none => exact .inl ⟨rfl, rfl⟩
    | some i => exact absurd (hfree.mp hfixed) (hq'.free hclose')
  | some g =>
    have hnot : w ∉ env'.freeVars W.right.registry := fun hw => hq.free hclose (hfree.mpr hw)
    obtain ⟨i, hi⟩ := ne_none_iff_exists'.mp (hq'.closed hw hnot)
    exact .inr ⟨g, i, rfl, hi⟩

/-- Partners are quantified together if the environments keep the same variables
open. -/
theorem together_generalizeIn {env env' : Env} (h : W.Pairs .type .type t u)
    (hfree : ∀ k v w, W.pair k v w →
      (v ∈ env.freeVars W.left.registry ↔ w ∈ env'.freeVars W.right.registry)) :
    W.Together (generalizeIn env t : Check ε Scheme) (generalizeIn env' u : Check ε Scheme)
      fun W' σ σ' => W'.Schemes σ σ' := by
  intro s s' hs hs'
  obtain ⟨σ, s₁, S, close, hrun, hs₁, hle, hq⟩ :=
    Stage.exists_generalizeIn env t hs
  obtain ⟨σ', s₁', T, close', hrun', hs₁', hle', hq'⟩ :=
    Stage.exists_generalizeIn env' u hs'
  have hgrows : W.Grows S T noGens :=
    ⟨hle, hle', W.leftSound.of_binding? hq.stays, W.rightSound.of_binding? hq'.stays,
      fun _ => hq.stays _, fun _ => hq'.stays _, False.elim, False.elim, False.elim, False.elim⟩
  rw [hrun, hrun']
  refine .ok hgrows.world hgrows.le_world hs₁ hs₁' ⟨hq.hostsScheme hle h.left W.leftSound h.alike,
    hq'.hostsScheme hle' h.right W.rightSound (Like.symm h.alike), ?_⟩
  refine ⟨fun k g i => ∃ v w, W.pair k v w ∧ close v = some g ∧ close' w = some i, ?_, ?_, ?_⟩
  · rintro k g i ⟨v, w, -, hv, hw⟩
    exact ⟨hq.vars hv, hq'.vars hw⟩
  · rintro k l g i h j ⟨v, w, hvw, hv, hw⟩ ⟨x, y, hxy, hx, hy⟩ heq
    have hsame : v = x ∨ w = y := by
      refine heq.imp (fun h => ?_) fun h => ?_
      · exact hq.injective hv (h ▸ hx)
      · exact hq'.injective hw (h ▸ hy)
    obtain ⟨rfl, rfl, rfl⟩ := W.unique hvw hxy hsame
    cases hv.symm.trans hx
    cases hw.symm.trans hy
    exact ⟨rfl, rfl, rfl⟩
  · rw [hq.body, hq'.body]
    refine like_resolveDeep_subst hgrows.leftSound.acyclic hgrows.rightSound.acyclic ?_
      (Like.restrict h.alike)
    rintro k x y ⟨hxy, hx, hy⟩
    cases hxy with
    | gen h => exact h.elim
    | @flex v w hvw =>
      replace hx := (faithful_resolveDeep W.leftSound.acyclic W.leftSound.faithful
        h.left.faithful).mem_shown hx
      replace hy := (faithful_resolveDeep W.rightSound.acyclic W.rightSound.faithful
        h.right.faithful).mem_shown hy
      rw [closing, closing, fill, fill]
      rcases close_together hq hq' (hfree _ _ _ hvw) hx hy with ⟨hv, hw⟩ | ⟨g, i, hv, hw⟩
      · rw [hv, hw]
        exact alike_var (.inl hvw)
      · rw [hv, hw]
        exact alike_gen ⟨v, w, hvw, hv, hw⟩

end

/-! ## Environments -/

/-- The type is read as one whose variables are open and have no partner. -/
def ApartLeft (W : World) (t : Ty) : Prop :=
  ∀ v, .flex v ∈ (W.left.registry.resolveDeep t).occurrences → W.left.registry.binding? v = none ∧
    v < W.left.registry.varCount ∧ ∀ k w, ¬ W.pair k v w

theorem ApartLeft.mono (h : W.ApartLeft t) (hle : W ≤ W') : W'.ApartLeft t := by
  have hopen : ∀ v, .flex v ∈ (W.left.registry.resolveDeep t).occurrences →
      W'.left.registry.binding? v = none := by
    intro v hv
    obtain ⟨hopen, hlt, hfree⟩ := h v hv
    rw [hle.keptLeft hlt hfree, hopen]
  have hread := hle.left.registry.resolveDeep_of_open W.leftSound.acyclic W'.leftSound.acyclic hopen
  intro v hv
  rw [hread] at hv
  obtain ⟨-, hlt, hfree⟩ := h v hv
  refine ⟨hopen v hv, hlt.trans_le hle.left.registry.varCount_le, fun k w hvw => ?_⟩
  rcases hle.fresh hvw with hvw | ⟨hge, -⟩
  · exact hfree k w hvw
  · omega

/-- Two environments in which certain names stand for the same. -/
structure Envs (W : World) (N : String → Prop) (env env' : Env) : Prop where
  sorted : Table.Sorted env.values
  sorted' : Table.Sorted env'.values
  plain : ∀ e ∈ env.values, e.2.body.ctor? = none
  plain' : ∀ e ∈ env'.values, e.2.body.ctor? = none
  known : ∀ x, N x → env.value? x = none ∧ env'.value? x = none ∨
    ∃ σ σ', env.value? x = some σ ∧ env'.value? x = some σ' ∧ W.Schemes σ σ'
  apart : ∀ e ∈ env.values, N e.1 ∨ W.ApartLeft e.2.body
  apart' : ∀ e ∈ env'.values, N e.1 ∨ W.swap.ApartLeft e.2.body

namespace Envs

variable {N M : String → Prop} {env env' : Env}

theorem mono (h : W.Envs N env env') (hle : W ≤ W') : W'.Envs N env env' where
  sorted := h.sorted
  sorted' := h.sorted'
  plain := h.plain
  plain' := h.plain'
  known x hx := (h.known x hx).imp_right fun ⟨σ, σ', hσ, hσ', hlike⟩ =>
    ⟨σ, σ', hσ, hσ', hlike.mono hle⟩
  apart e he := (h.apart e he).imp_right fun h => h.mono hle
  apart' e he := (h.apart' e he).imp_right fun h => h.mono (le_swap hle)

theorem swap (h : W.Envs N env env') : W.swap.Envs N env' env where
  sorted := h.sorted'
  sorted' := h.sorted
  plain := h.plain'
  plain' := h.plain
  known x hx := (h.known x hx).imp And.symm fun ⟨σ, σ', hσ, hσ', hlike⟩ =>
    ⟨σ', σ, hσ', hσ, hlike.swap⟩
  apart := h.apart'
  apart' := h.apart

/-- Another name that stands for the same. -/
theorem addValue (h : W.Envs N env env') (x : String) (hσ : W.Schemes σ σ') :
    W.Envs (fun y => y = x ∨ N y) (env.addValue x σ) (env'.addValue x σ') where
  sorted := h.sorted.insert x σ
  sorted' := h.sorted'.insert x σ'
  plain e he := by
    rcases mem_insert he with rfl | he
    · obtain ⟨role, hfits⟩ := hσ.left.fits
      exact hfits.ctor?_eq_none
    · exact h.plain e he
  plain' e he := by
    rcases mem_insert he with rfl | he
    · obtain ⟨role, hfits⟩ := hσ.right.fits
      exact hfits.ctor?_eq_none
    · exact h.plain' e he
  known y hy := by
    rw [value?_addValue, value?_addValue]
    by_cases hyx : y = x
    · rw [if_pos hyx, if_pos hyx]
      exact .inr ⟨σ, σ', rfl, rfl, hσ⟩
    · rw [if_neg hyx, if_neg hyx]
      exact h.known y (hy.resolve_left hyx)
  apart e he := by
    rcases mem_insert he with rfl | he
    · exact .inl (.inl rfl)
    · exact (h.apart e he).imp_left .inr
  apart' e he := by
    rcases mem_insert he with rfl | he
    · exact .inl (.inl rfl)
    · exact (h.apart' e he).imp_left .inr

theorem mem_freeVars (h : W.Envs N env env') {k : Kind} (hvw : W.pair k v w)
    (hv : v ∈ env.freeVars W.left.registry) : w ∈ env'.freeVars W.right.registry := by
  obtain ⟨e, he, hv⟩ := Env.mem_freeVars.mp hv
  rcases h.apart e he with hN | hapart
  · rcases h.known e.1 hN with ⟨hnone, -⟩ | ⟨σ, σ', hσ, hσ', hlike⟩
    · have hsome := h.sorted.lookup_of_mem he
      cases hnone.symm.trans hsome
    · obtain rfl : e.2 = σ := some.inj ((h.sorted.lookup_of_mem he).symm.trans hσ)
      obtain ⟨γ, -, -, hread⟩ := hlike.alike
      obtain ⟨_, _, hxy, hy⟩ := Like.exists_right hread hv
      cases hxy with
      | flex hxy =>
        obtain ⟨-, -, rfl⟩ := W.unique hvw hxy (.inl rfl)
        exact Env.mem_freeVars.mpr ⟨_, mem_of_lookup hσ', hy⟩
  · exact absurd hvw ((hapart v hv).2.2 k w)

/-- The two environments keep partners open together. -/
theorem freeVars_iff (h : W.Envs N env env') {k : Kind} (hvw : W.pair k v w) :
    v ∈ env.freeVars W.left.registry ↔ w ∈ env'.freeVars W.right.registry :=
  ⟨h.mem_freeVars hvw, h.swap.mem_freeVars hvw⟩

end Envs

end World

end RowTyping
