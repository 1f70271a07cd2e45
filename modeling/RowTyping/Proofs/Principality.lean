import RowTyping.Proofs.Covering
import RowTyping.Proofs.FreshInstances

/-!
# Steps towards principal types

What inference does at a point: it quantifies types, applies functions, and asks
records for fields and changes them. The point gives every type that was found
the value that a derivation of the declarative system has in its place. At a
`let` the scheme that inference finds covers whichever scheme the derivation
chose. The core language has no written types, constructors or modules.
-/

namespace RowTyping

open Check Row Table Ty List Option

/-! ## Quantifying covers -/

/-- A type stays as it is where nothing that it shows is quantified. -/
theorem Ty.Rowed.norm_closing {κ : Nat → Role} {k : Role} {t : Ty} (h : t.Rowed κ k)
    {close : Nat → Option Nat} (hopen : ∀ n, .flex n ∈ t.shown → close n = none) (f : Nat → Ty) :
    ((t.subst (closing close)).subst (fillGens f)).norm = t.norm := by
  rw [subst_subst]
  conv_rhs => rw [← subst_var t]
  refine norm_subst_congr fun y hy => ?_
  obtain ⟨k', n, rfl, -⟩ := h.role_of_shown hy
  rw [closing, fill, hopen n hy]
  rfl

/-- The roles of the variables that take the place of others when some are
quantified. -/
def Role.Closed (κ : Nat → Role) (close : Nat → Option Nat) (x : TyVar) (k : Role) : Prop :=
  ∃ n, Ty.closing close (.flex n) = .var x ∧ κ n = k

/-- A type keeps its role in an instance of a scheme that was quantified over a type
which shows the same variables. -/
theorem Ty.Rowed.closing {κ : Nat → Role} {k : Role} {s t : Ty} {close : Nat → Option Nat}
    {f : Nat → Ty} (h : t.Rowed κ k) (hs : s.IsMono κ)
    (hinj : ∀ v w g, close v = some g → close w = some g → v = w)
    (hf : (s.subst (closing close)).norm.IsBody fun u => (u.subst (fillGens f)).Rowed κ .type)
    (hshown : ∀ n, .flex n ∈ t.shown → .flex n ∈ s.shown) :
    ((t.norm.subst (Ty.closing close)).subst (fillGens f)).Rowed κ k := by
  have hclosed : ∀ n, (Ty.closing close (.flex n)).Fits False (fun _ _ => False)
      (Role.Closed κ close) (κ n) := by
    intro n
    obtain ⟨x, hx⟩ : ∃ x, Ty.closing close (.flex n) = .var x := by
      cases hn : close n with
      | none => exact ⟨.flex n, by simp [Ty.closing, fill, hn]⟩
      | some g => exact ⟨.gen g, by simp [Ty.closing, fill, hn]⟩
    rw [hx]
    exact .var ⟨n, hx, rfl⟩
  have hbody : (s.subst (Ty.closing close)).Fits False (fun _ _ => False)
      (Role.Closed κ close) .type := by
    have hfits : s.norm.Fits False (fun _ _ => False) (Role.Of κ) .type := hs.rowed.norm
    rw [hs.normal] at hfits
    refine hfits.subst ?_ (fun _ _ hx => hx.elim) fun _ _ hx => hx.elim
    rintro x k ⟨n, rfl, rfl⟩
    exact hclosed n
  have hnorm : t.norm.Fits False (fun _ _ => False) (Role.Of κ) k := h.norm
  rw [subst_subst]
  refine hnorm.restrict.subst ?_ (fun _ _ hx => hx.elim) fun _ _ hx => hx.elim
  rintro x k ⟨⟨n, rfl, rfl⟩, hn⟩
  cases hc : close n with
  | none =>
    simp only [Ty.closing, fill, hc]
    exact .var ⟨n, rfl, rfl⟩
  | some g =>
    have hmem : .gen g ∈ (s.subst (Ty.closing close)).shown :=
      mem_shown_subst.mpr ⟨.flex n, hshown n (mem_shown_of_norm hn), by simp [Ty.closing, fill, hc]⟩
    obtain ⟨k', ⟨m, hm, rfl⟩, hfits⟩ := (IsBody.of_value hbody hbody.parts_eq).of_subst hf hmem
    have hmg : close m = some g := by
      cases hcm : close m with
      | none => simp [Ty.closing, fill, hcm] at hm
      | some g' => simpa [Ty.closing, fill, hcm] using hm
    rw [hinj n m g hc hmg]
    simpa [Ty.closing, fill, hmg, subst] using hfits

namespace Point

variable {κ : Nat → Role} {p q : Point κ} {s t : Ty} {σ σ' : Scheme} {env Γ : Env} {x : String}

/-- What a free variable of the environment stands for is known to the context. -/
def Knows (p : Point κ) (env Γ : Env) : Prop :=
  p.registry.Sound → ∀ {v n : Nat}, v ∈ env.freeVars p.registry →
    .flex n ∈ (p.assign v).shown → Γ.Knows n

theorem knows_of_covers (hsorted : Sorted env.values)
    (hcovers : ∀ x σ, env.value? x = some σ → ∃ σ', Γ.value? x = some σ' ∧ p.CoversScheme σ σ') :
    p.Knows env Γ := by
  intro hsound v n hv hn
  rw [Env.freeVars, mem_distinct, mem_flatMap] at hv
  obtain ⟨e, he, hv⟩ := hv
  obtain ⟨y, hy, hyv⟩ := mem_filterMap.mp hv
  cases y with
  | gen g => cases hyv
  | flex w =>
    cases hyv
    rw [vars, mem_distinct] at hy
    obtain ⟨σ', hσ', hcovers⟩ := hcovers e.1 e.2 (hsorted.lookup_of_mem he)
    exact ⟨(e.1, σ'), mem_of_lookup hσ', hcovers.known p le_rfl hsound v hy n hn⟩

/-- The scheme that quantifies a type over everything that the environment does not
know covers whatever scheme the type system chose. -/
theorem coversScheme_closes (hsound : p.registry.Sound) (h : p.Knows env Γ) (ht : p.Value t s)
    (hσ' : Generalizes Γ s σ') {es : List (TyVar × Nat)} {c : TyVar → Ty}
    (hσ : σ.Closes (env.freeVars p.registry) (p.registry.resolveDeep t) es c) :
    σ.body.ctor? = none ∧ p.CoversScheme σ σ' := by
  obtain ⟨close', hclose', hinj', hbody'⟩ := hσ'
  have hdeep : p.Value (p.registry.resolveDeep t) s :=
    ⟨ht.fits.resolveDeep, Registry.faithful_resolveDeep hsound.acyclic hsound.faithful ht.faithful,
      (value_resolveDeep ht.fits.has).trans ht.eq⟩
  have hvalue : ((p.registry.resolveDeep t).subst (fill p.assign)).norm = s := hdeep.eq
  have hvar : ∀ x, x ∈ (p.registry.resolveDeep t).shown →
      ∃ v, x = .flex v ∧ v < p.registry.varCount ∧ ∃ k, (p.assign v).Rowed κ k := by
    intro x hx
    obtain ⟨k, hk, v, rfl⟩ := Ty.Fits.role_of_shown hdeep.fits hx
    exact ⟨v, rfl, hk.1, k, hk.2.2⟩
  -- what a variable of the type stands for is part of the value
  have hshown : ∀ {v n}, .flex v ∈ (p.registry.resolveDeep t).occurrences →
      .flex n ∈ (p.assign v).shown → .flex n ∈ s.shown := fun hv hn =>
    ht.eq ▸ mem_shown_value hsound ht.fits.has ht.faithful hv hn
  -- and if the variable stays open, the context knows it
  have hopen : ∀ {v n}, .flex v ∈ (p.registry.resolveDeep t).shown → c (.flex v) = .flex v →
      .flex n ∈ (p.assign v).shown → close' n = none := by
    intro v n hv hc hn
    rcases hσ.image_of_mem (shown_subset hv) with ⟨hfixed, -⟩ | ⟨-, g, -, hg⟩
    · cases hclose : close' n with
      | none => rfl
      | some g => exact absurd (h hsound hfixed hn) (hclose' n g hclose).1
    · cases hc.symm.trans hg
  have himage : ∀ x k, p.Has x k → (c x).Fits True p.Has p.Has k := by
    intro x k hx
    rcases hσ.image x with ⟨heq, -⟩ | ⟨g, -, heq⟩
    · rw [heq]
      exact .var hx
    · rw [heq]
      exact .var trivial
  have hfits : σ.body.Fits True p.Has p.Has .type := by
    rw [hσ.body]
    exact hdeep.fits.has.subst himage himage fun _ _ => id
  have hfaithful : σ.body.Faithful := by
    rw [hσ.body]
    refine hdeep.faithful.subst fun x => ?_
    rcases hσ.image x with ⟨heq, -⟩ | ⟨g, -, heq⟩ <;> rw [heq] <;> exact .var _
  refine ⟨hfits.ctor?_eq_none, coversScheme_value hfits hfaithful (fun s' hs' => ?_) fun n hn => ?_⟩
  · obtain ⟨f, hf, rfl⟩ := hs'
    rw [hbody'] at hf ⊢
    -- the variable that a quantifier takes the place of
    let source g := Classical.epsilon fun v => (.flex v, g) ∈ es
    have hsource : ∀ {v g}, (.flex v, g) ∈ es → source g = v := by
      intro v g hv
      have hspec := Classical.epsilon_spec (p := fun v => (.flex v, g) ∈ es) ⟨v, hv⟩
      exact TyVar.flex.inj (congrArg Prod.fst (inj_on_of_nodup_map hσ.numbers hspec hv rfl))
    have hvars : ∀ {v g}, (.flex v, g) ∈ es → σ.Opens (.gen g) := fun hv =>
      .inl (hσ.vars ▸ mem_map_of_mem hv)
    let val g := ((p.assign (source g)).norm.subst (closing close')).subst (fillGens f)
    refine ⟨fun x => p.kind (source (x.rec id id)), fillGens val, ⟨fun x hx => ?_, ?_⟩, ?_⟩
    · rw [hσ.body] at hx
      obtain ⟨y, hy, hxy⟩ := mem_shown_subst.mp hx
      obtain ⟨v, rfl, hlt, -⟩ := hvar y hy
      rcases hσ.image (.flex v) with ⟨heq, -⟩ | ⟨g, hin, heq⟩ <;>
        rw [heq, mem_shown_var] at hxy <;> subst hxy
      · exact .inl ⟨v, rfl, hlt⟩
      · exact .inr ⟨rfl, hvars hin⟩
    · intro q f' hle hf'
      have hflex : ∀ v k, p.Has (.flex v) k → q.Fits k ((c (.flex v)).subst f') := by
        intro v k hk
        rcases hσ.image (.flex v) with ⟨heq, -⟩ | ⟨g, hin, heq⟩
        · rw [heq, subst, hf'.flex]
          exact fits_flex.mpr (hle.has hk)
        · obtain ⟨u, hu, -, hissued⟩ := hf'.opened (hvars hin)
          have hmem := ((hσ.keys _).mp (mem_map_of_mem hin)).1
          rw [heq, subst, hu]
          refine fits_flex.mpr ⟨hissued.lt, ?_, ?_⟩
          · rw [hissued.kind, ← hk.2.1]
            exact congrArg p.kind (hsource hin)
          · rw [hissued.assign, fillGens]
            simp only [val, hsource hin]
            exact hk.2.2.closing ht.isMono hinj' hf fun n => hshown hmem
      have hbody : σ.body.subst f' = (p.registry.resolveDeep t).subst
          (fill fun v => (c (.flex v)).subst f') := by
        rw [hσ.body, subst_subst]
        refine subst_congr fun x hx => ?_
        obtain ⟨v, rfl, -⟩ := hvar x (hdeep.faithful.mem_shown hx)
        rfl
      have hq : q.Fits .type (σ.body.subst f') := by
        rw [hbody]
        refine Ty.Fits.subst hdeep.fits ?_ (fun x k hx => ?_) fun _ _ => hle.has
        · rintro x k ⟨hx, v, rfl⟩
          exact hflex v k hx
        · cases x with
          | flex v => exact (hflex v k hx).has
          | gen g => exact .var trivial
      exact .of_value hq (Ty.Fits.parts_eq hq)
    · rw [norm_subst, ← hvalue, subst_subst, norm_subst, subst_subst, hσ.body, subst_subst]
      refine norm_subst_congr fun x hx => ?_
      obtain ⟨v, rfl, -, k, hk⟩ := hvar x hx
      rw [← subst_subst, fill]
      rcases hσ.image (.flex v) with ⟨heq, -⟩ | ⟨g, hin, heq⟩
      · rw [hk.norm_closing (fun n => hopen hx heq) f, heq]
        rfl
      · rw [heq]
        change (val g).norm = _
        simp only [val, hsource hin]
        rw [subst_subst, norm_subst, ← subst_subst]
  · obtain ⟨y, hy, hny⟩ := mem_shown_subst.mp (mem_shown_of_norm hn)
    rw [hσ.body] at hy
    obtain ⟨x, hx, hyx⟩ := mem_shown_subst.mp hy
    obtain ⟨v, rfl, -⟩ := hvar x hx
    rcases hσ.image (.flex v) with ⟨heq, -⟩ | ⟨g, -, heq⟩ <;>
      rw [heq, mem_shown_var] at hyx <;> subst hyx
    · rw [hbody']
      refine mem_shown_subst.mpr ⟨.flex n, hshown (shown_subset hx) hny, ?_⟩
      simp [closing, fill, hopen hx heq hny]
    · simp [fill] at hny

/-- Quantifying finds a scheme that covers whatever scheme the type system chose. -/
theorem finds_generalizeIn (h : p.Knows env Γ) (ht : p.Value t s) (hσ' : Generalizes Γ s σ') :
    Finds At p (generalizeIn env t : Check Located Scheme) fun q σ =>
      σ.body.ctor? = none ∧ q.CoversScheme σ σ' := by
  intro st hst
  obtain ⟨hreg, hsound⟩ := hst
  obtain ⟨σ, st', es, c, hrun, hcloses, -, hst'⟩ :=
    closes_generalizeIn (ε := Located) env (Registry.flat_resolveDeep hsound.registry.acyclic t)
  have hsound' := (State.Sound.discipline.keeps_generalizeIn (ε := Located) env ht.faithful st
    hsound le_rfl).1
  rw [after_ok hrun] at hsound'
  rw [hreg] at hcloses hst'
  obtain ⟨hctor, hcovers⟩ := coversScheme_closes (hreg ▸ hsound.registry) h ht hσ' hcloses
  exact ⟨σ, st', p.addGens _, hrun, p.le_addGens _, ⟨hst', hsound'⟩, hctor,
    hcovers.mono (p.le_addGens _)⟩

/-! ## Names, records and bindings -/

theorem finds_find_bind {α : Type} {Q : Point κ → α → Prop} {f : Scheme → Check Located α}
    (hx : env.value? x = some σ) (span : Span) (h : Finds At p (f σ) Q) :
    Finds At p (env.find span x >>= f) Q := by
  have hfind : env.find span x = pure σ := by
    simp only [Env.find, Env.value, hx, fromExcept]
    rfl
  rwa [hfind]

theorem Use.value_asValue (h : p.Use σ t s) : p.Value t.asValue s.asValue :=
  ⟨Stage.fits_asValue h.body, State.Sound.discipline.asValue h.faithful,
    (Stage.value_asValue h.body fun _ hu => ⟨norm_norm _, p.rowed hu⟩).trans
      (congrArg asValue h.value)⟩

end Point

/-! ## Rests of records -/

namespace Ty

variable {κ : Nat → Role} {fs : Table Ty} {tail s : Ty} {entries : Table Ty}

/-- The result of a function is a type of the system. -/
theorem IsMono.result {a r : Ty} (h : (arrow a r).IsMono κ) : r.IsMono κ := by
  obtain ⟨hnormal, hrowed⟩ := h
  constructor
  · simpa using (cons.inj (cons.inj (con.inj hnormal).2).2).1
  · cases hrowed with
    | con _ _ hargs => exact hargs r (by simp)

/-- A field of a record is a type of the system. -/
theorem IsMono.field (h : (record fs tail).IsMono κ) {l : String} (hl : fs.lookup l = some s) :
    s.IsMono κ := by
  obtain ⟨hnormal, hrowed⟩ := h
  refine ⟨?_, ?_⟩
  · rw [norm_record] at hnormal
    have hfields : (prepend (mapValues norm fs) tail.norm.asRow).fields.lookup l = fs.lookup l := by
      rw [show (prepend (mapValues norm fs) tail.norm.asRow).fields = fs from
        (record.inj hnormal).1]
    rw [lookup_prepend, lookup_mapValues, hl] at hfields
    simpa using hfields
  · cases hrowed with
    | record _ _ hfields _ => exact hfields _ (mem_of_lookup hl)

/-- A record goes on, behind some of its fields, with the rest of them. -/
theorem IsMono.exists_rest (h : (record fs tail).IsMono κ)
    (hfs : ∀ e ∈ entries, fs.lookup e.1 = some e.2) :
    ∃ row : Ty, row.Rowed κ (Role.type.behind (ofList entries)) ∧
      (record (ofList entries) row).norm = .record fs tail := by
  have hasRow : (record fs tail).norm.asRow = ⟨fs, tail⟩ := by rw [h.normal]; rfl
  have hsorted : fs.Sorted := by
    cases h.rowed with
    | record hs _ _ _ => exact hs
  have hlookup : ∀ l u, (ofList entries).lookup l = some u → fs.lookup l = some u :=
    fun l u hl => hfs _ (mem_ofList (mem_of_lookup hl))
  have hkeep : ∀ l, ((ofList entries).lookup l).isNone = true ↔ l ∉ (ofList entries).names := by
    intro l
    rw [mem_names_iff_lookup, not_isSome_iff_eq_none, isNone_iff_eq_none]
  have hrest : (record fs tail).Rowed κ (.rest ∅) := h.rowed.record_congr rfl
  obtain ⟨row, hrow, heq⟩ := hrest.restrict_row hkeep fun l hl => by
    rw [hasRow, Finset.mem_union]
    obtain ⟨u, hu⟩ := isSome_iff_exists.mp (mem_names_iff_lookup.mp hl)
    exact .inr (mem_names_iff_lookup.mpr (by rw [hlookup l u hu]; rfl))
  refine ⟨row, hrow, ?_⟩
  rw [norm_record, heq, hasRow]
  change _ = toRecord ⟨fs, tail⟩
  refine congrArg toRecord (eq_of_lookup (prepend_sorted _ _) hsorted (fun l => ?_) rfl)
  rw [lookup_prepend, lookup_mapValues, lookup_restrict]
  cases hl : (ofList entries).lookup l with
  | none => simp
  | some u =>
    have hu := hlookup l u hl
    simp [hu, (h.field hu).normal]

end Ty

/-! ## Forms of expressions -/

namespace Point

variable {κ : Nat → Role} {p : Point κ} {r s : Ty} {fs : Table Ty} {tail : Ty}

/-- What is inferred is found with the value, here and later. -/
def FindsLater (p : Point κ) (x : Check Located Ty) (s : Ty) : Prop :=
  ∀ q, p ≤ q → Finds At q x fun q' t => q'.Value t s

/-- A function applied to an argument. -/
theorem finds_application {func arg : Check Located Ty} (span : Span)
    (hfunc : p.FindsLater func (.arrow s r)) (harg : p.FindsLater arg s) :
    Finds At p (do
      let funcT ← func
      let argT ← arg
      let result ← freshVar
      unifyAt span (.arrow argT result) funcT
      return result) fun q t => q.Value t r := by
  refine (hfunc p le_rfl).bind fun p₁ tf hle₁ htf => (harg p₁ hle₁).bind fun p₂ ta hle₂ hta => ?_
  refine (finds_freshValue htf.isMono.result).bind fun p₃ tr hle₃ htr =>
    (finds_unifyAt span ((hta.mono hle₃).arrow htr) (htf.mono (hle₂.trans hle₃))).bind
    fun p₄ _ hle₄ _ => ?_
  exact finds_pure (htr.mono hle₄)

theorem finds_conditional {cond thenI elseI : Check Located Ty} (condSpan span : Span)
    (hcond : p.FindsLater cond .bool) (hthen : p.FindsLater thenI s)
    (helse : p.FindsLater elseI s) :
    Finds At p (do
      let condT ← cond
      unifyAt condSpan condT .bool
      let thenT ← thenI
      let elseT ← elseI
      unifyAt span elseT thenT
      return thenT) fun q t => q.Value t s := by
  refine (hcond p le_rfl).bind fun p₁ tc hle₁ htc =>
    (finds_unifyAt condSpan htc (.base p₁ .bool)).bind fun p₂ _ hle₂ _ => ?_
  have hle := hle₁.trans hle₂
  refine (hthen p₂ hle).bind fun p₃ tt hle₃ htt => (helse p₃ (hle.trans hle₃)).bind
    fun p₄ te hle₄ hte => (finds_unifyAt span hte (htt.mono hle₄)).bind fun p₅ _ hle₅ _ => ?_
  exact finds_pure (htt.mono (hle₄.trans hle₅))

/-- Asking a record for a field. -/
theorem finds_selection {whole : Check Located Ty} (span : Span) {label : String}
    (hwhole : p.FindsLater whole (.record fs tail)) (hs : fs.lookup label = some s) :
    Finds At p (do
      let recordT ← whole
      let t ← freshVar
      let tail ← freshVar
      unifyAt span recordT (.record [(label, t)] tail)
      return t) fun q t => q.Value t s := by
  refine (hwhole p le_rfl).bind fun p₁ tr hle₁ htr => ?_
  have hentry : ∀ e ∈ [(label, s)], fs.lookup e.1 = some e.2 := forall_mem_singleton.mpr hs
  obtain ⟨row, hrow, hnorm⟩ := htr.isMono.exists_rest hentry
  refine (finds_freshValue (htr.isMono.field hs)).bind fun p₂ t hle₂ ht =>
    (finds_freshVar .row row).bind fun p₃ tail hle₃ htail => ?_
  obtain ⟨v, rfl, hv, -⟩ := htail
  have hfield : p₃.Values [(label, t)] [(label, s)] := .cons ⟨rfl, ht.mono hle₃⟩ .nil
  have hrecord := hfield.openRecord hv hrow
  rw [hnorm] at hrecord
  refine (finds_unifyAt span (htr.mono (hle₂.trans hle₃)) hrecord).bind fun p₄ _ hle₄ _ => ?_
  exact finds_pure (ht.mono (hle₃.trans hle₄))

/-- Changing some fields of a record. -/
theorem finds_change {whole : Check Located Ty} {changes : Check Located (Table Ty)} (span : Span)
    {entries : Table Ty} (hwhole : p.FindsLater whole (.record fs tail))
    (hchanges : ∀ q, p ≤ q → Finds At q changes fun q' fields =>
      ∃ bs, fields = .ofList bs ∧ q'.Values bs entries)
    (hfs : ∀ e ∈ entries, fs.lookup e.1 = some e.2) :
    Finds At p (do
      let recordT ← whole
      let fields ← changes
      let tail ← freshVar
      unifyAt span recordT (.record fields tail)
      return recordT) fun q t => q.Value t (.record fs tail) := by
  refine (hwhole p le_rfl).bind fun p₁ tr hle₁ htr =>
    (hchanges p₁ hle₁).bind fun p₂ fields hle₂ hfields => ?_
  obtain ⟨bs, rfl, hbs⟩ := hfields
  obtain ⟨row, hrow, hnorm⟩ := htr.isMono.exists_rest hfs
  refine (finds_freshVar .row row).bind fun p₃ tail hle₃ htail => ?_
  obtain ⟨v, rfl, hv, -⟩ := htail
  have hrecord := (hbs.mono hle₃).openRecord hv hrow
  rw [hnorm] at hrecord
  refine (finds_unifyAt span (htr.mono (hle₂.trans hle₃)) hrecord).bind fun p₄ _ hle₄ _ => ?_
  exact finds_pure (htr.mono (hle₂.trans (hle₃.trans hle₄)))

end Point

/-! ## The core language -/

/-- Where no name stands for a constructor, none is called. -/
theorem Env.callee_eq_none {env : Env}
    (h : ∀ x σ, env.value? x = some σ → σ.body.ctor? = none) (func : Expr) :
    env.callee func = pure none := by
  have hfilter : (env.applied? func).filter (fun σ => σ.body.ctor?.isSome) = none := by
    refine filter_eq_none_iff.mpr fun σ hσ => ?_
    obtain ⟨x, hx⟩ := Env.exists_of_applied? hσ
    simp [h x σ hx]
  unfold Env.callee
  rw [hfilter]

namespace Expr

mutual

/-- The expression is built from literals, names, functions, applications, `let`,
`if`, tuples, and records that are written down, changed or asked for a field.
Nothing is annotated. -/
def Core : Expr → Prop
  | .lit _ _ => True
  | .var _ _ => True
  | .lam _ _ ann body => ann = none ∧ body.Core
  | .app _ func arg => func.Core ∧ arg.Core
  | .letIn _ _ _ ann value body => ann = none ∧ value.Core ∧ body.Core
  | .ifThenElse _ cond thenE elseE => cond.Core ∧ thenE.Core ∧ elseE.Core
  | .tuple _ items => CoreList items
  | .record _ fields => CoreFields fields
  | .field _ whole _ => whole.Core
  | .update _ whole changes => whole.Core ∧ CoreFields changes
  | _ => False

def CoreList : List Expr → Prop
  | [] => True
  | e :: es => e.Core ∧ CoreList es

def CoreFields : List (String × Expr) → Prop
  | [] => True
  | (_, e) :: es => e.Core ∧ CoreFields es

end

mutual

/-- There are no patterns to be tidied. -/
theorem tidy_core : ∀ e : Expr, e.Core → e.tidy = e
  | .lit _ _, _ | .var _ _, _ => rfl
  | .lam _ _ _ body, h => by rw [tidy, tidy_core body h.2]
  | .app _ func arg, h => by rw [tidy, tidy_core func h.1, tidy_core arg h.2]
  | .letIn _ _ _ _ value body, h => by rw [tidy, tidy_core value h.2.1, tidy_core body h.2.2]
  | .ifThenElse _ cond thenE elseE, h => by
    rw [tidy, tidy_core cond h.1, tidy_core thenE h.2.1, tidy_core elseE h.2.2]
  | .tuple _ items, h => by rw [tidy, tidyList_core items h]
  | .record _ fields, h => by rw [tidy, tidyFields_core fields h]
  | .field _ whole _, h => by rw [tidy, tidy_core whole h]
  | .update _ whole changes, h => by rw [tidy, tidy_core whole h.1, tidyFields_core changes h.2]

theorem tidyList_core : ∀ es : List Expr, CoreList es → tidyList es = es
  | [], _ => rfl
  | e :: es, h => by rw [tidyList, tidy_core e h.1, tidyList_core es h.2]

theorem tidyFields_core : ∀ es : List (String × Expr), CoreFields es → tidyFields es = es
  | [], _ => rfl
  | (_, e) :: es, h => by rw [tidyFields, tidy_core e h.1, tidyFields_core es h.2]

end

end Expr

/-! ## Principal types -/

/-- Neither a synonym nor a module. -/
def Ty.IsOrdinary : Ty → Prop
  | .synonym _ _ _ _ => False
  | .module _ _ => False
  | _ => True

theorem Ty.All.faithful {t : Ty} (h : t.All IsOrdinary) : t.Faithful := by
  induction h with
  | intro t here _ ih =>
    cases t with
    | var x => exact .var x
    | con c args => exact .con ih
    | record fs tail =>
      exact .record (fun e he => ih e.2 (mem_children_record.mpr (.inl ⟨e, he, rfl⟩)))
        (ih tail (mem_children_record.mpr (.inr rfl)))
    | synonym => exact here.elim
    | module => exact here.elim

/-- The roles of the variables that a scheme quantifies. -/
def Scheme.Quantifies (σ : Scheme) (role : Nat → Role) (x : TyVar) (k : Role) : Prop :=
  ∃ g ∈ σ.vars, x = .gen g ∧ role g = k

/-- A closed scheme of the core language. It has neither synonyms nor modules, it is
not about a constructor, and all its variables are quantified, each as a type or as
the rest of a record behind certain labels. -/
structure Scheme.IsCore (σ : Scheme) : Prop where
  ordinary : σ.body.All Ty.IsOrdinary
  closed : ∃ role, σ.body.Fits True (fun _ _ => False) (σ.Quantifies role) .type

structure Env.IsCore (env : Env) : Prop where
  sorted : Table.Sorted env.values
  schemes : ∀ e ∈ env.values, e.2.IsCore

/-- The variables of the state have roles that its bindings agree with, and there is
no cycle among them. -/
def State.Ordered (s : State) : Prop := ∃ S : Stage True, S.SoundAt s

namespace Point

variable {κ : Nat → Role}

/-- Every stage is met by a point. -/
theorem exists_meets (S : Stage True) (κ : Nat → Role) :
    ∃ p : Point κ, p.registry = S.registry ∧ p.Meets S := by
  have hassigns : S.Assigns κ fun v => (S.roleOf (.flex v)).default := by
    intro v k hv
    show (S.roleOf (.flex v)).default.Rowed κ k
    rw [Stage.roleOf_eq hv]
    exact k.rowed_default κ
  obtain ⟨θ, hrowed, hsat⟩ : ∃ θ, S.Solves κ θ := ⟨_, Stage.solves_through hassigns⟩
  have hmeets : ∀ x k, S.role.Has x k → Suited κ S.registry.varCount S.kinds θ x k := by
    intro x k hx
    cases x with
    | flex v => exact ⟨S.issued hx, Stage.kinds_eq hx, hrowed v k hx⟩
    | gen g => trivial
  refine ⟨⟨S.registry, S.kinds, θ, fun hv => ?_, hsat, S.acyclic⟩, rfl, hmeets⟩
  obtain ⟨k, hk, ht⟩ := S.fits hv
  exact ⟨k, hmeets _ _ hk, ht.mono (fun x k hx => ⟨hmeets x k hx.1, hx.2⟩) hmeets id⟩

end Point

/-- If inference finds a type with the value at a point, then the value is an instance
of the type that it returns. -/
theorem Expr.infer_of_finds {κ : Nat → Role} {p : Point κ} {env : Env} {e : Expr} {s : Ty}
    {st : State} (hp : p.At st)
    (h : Finds Point.At p (e.inferHead env) fun q t => q.Value t s) :
    s.IsMono κ ∧ ∃ t st', (e.infer env).run st = .ok t st' ∧
      ∃ θ : Nat → Ty, (t.subst (fill θ)).Rowed κ .type ∧ s = (t.subst (fill θ)).norm := by
  obtain ⟨t, st', q, hrun, -, hq, ht⟩ := h st hp
  have hinfer : (e.infer env).run st = .ok (st'.registry.resolveDeep t) st' := by
    rw [Expr.infer, run_bind_ok hrun]
    rfl
  rw [hq.1] at hinfer
  refine ⟨ht.isMono, _, st', hinfer, q.assign, Point.rowed_subst ht.fits.resolveDeep, ?_⟩
  rw [← ht.eq]
  exact (Point.value_resolveDeep ht.fits.has).symm

/-- A function that selects the field `x` of any record. -/
def selecting : Env :=
  Env.empty.addValue "get" ⟨[0, 1], .arrow (.record [("x", .gen 0)] (.gen 1)) (.gen 0)⟩

theorem selecting_isCore : selecting.IsCore := by
  refine ⟨pairwise_singleton _ _, forall_mem_singleton.mpr ⟨?_, ?_⟩⟩
  · simp [Ty.arrow, gen, IsOrdinary]
  · refine ⟨fun g => if g = 1 then .rest {"x"} else .type, .arrow (.record ?_ ?_ ?_ ?_) ?_⟩
    · exact pairwise_singleton _ _
    · simp [Role.front]
    · exact forall_mem_singleton.mpr (.var ⟨0, by simp, rfl, rfl⟩)
    · exact .var ⟨1, by simp, rfl, by simp [Role.behind, Role.front, names]⟩
    · exact .var ⟨0, by simp, rfl, rfl⟩

/-- A quantifier that goes on with a record behind `x` in one place and behind `y` in
another. -/
def misaligned : Env :=
  Env.empty.addValue "g"
    ⟨[0], .arrow (.record [("x", .int)] (.gen 0)) (.record [("y", .int)] (.gen 0))⟩

theorem misaligned_ordinary : (Ty.arrow (.record [("x", .int)] (.gen 0))
    (.record [("y", .int)] (.gen 0))).All IsOrdinary := by
  simp [Ty.arrow, Ty.int, gen, IsOrdinary]

theorem State.ordered_empty : State.Ordered {} := by
  obtain ⟨S, hS⟩ := Stage.describes_start .empty
  exact ⟨S, hS.state⟩

end RowTyping
