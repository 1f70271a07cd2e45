import RowTyping.Proofs.Discipline
import RowTyping.Proofs.ParallelSchemes

/-!
# A `let` and its inlined form

A `let` infers its value once and instantiates the scheme at every use. Where the
value is written in the place of the name, it is inferred again at every use. The
two runs are followed side by side: at a use, the new run of the value is compared
with its first run, and the variables of the instance are paired with the variables
that the new run leaves open.

This needs an environment of closed schemes, so that the value has no variable in
common with its surroundings, and quantifiers that stand for the rest of a record
behind certain labels only.
-/

namespace RowTyping

open Registry Table Ty List

variable {env : Env} {x : String} {σ : Scheme} {t : Ty} {S : Stage True} {e : Expr}

open Check

/-! ## Names -/

namespace Expr

mutual

/-- The expression with other expressions in the place of certain names. Binders
are not looked at. -/
def inline (ρ : String → Option Expr) : Expr → Expr
  | .lit s b => .lit s b
  | .var s x => (ρ x).getD (.var s x)
  | .path s m x => .path s m x
  | .lam s x ann body => .lam s x ann (body.inline ρ)
  | .app s func arg => .app s (func.inline ρ) (arg.inline ρ)
  | .letIn s x isRec ann value body => .letIn s x isRec ann (value.inline ρ) (body.inline ρ)
  | .ifThenElse s cond thenE elseE =>
      .ifThenElse s (cond.inline ρ) (thenE.inline ρ) (elseE.inline ρ)
  | .tuple s items => .tuple s (inlineList ρ items)
  | .record s fields => .record s (inlineFields ρ fields)
  | .field s whole label => .field s (whole.inline ρ) label
  | .update s whole changes => .update s (whole.inline ρ) (inlineFields ρ changes)
  | .construct s c none => .construct s c none
  | .construct s c (some arg) => .construct s c (some (arg.inline ρ))
  | .cases s scrutinee arms => .cases s (scrutinee.inline ρ) (inlineArms ρ arms)
  | .annotate s inner ann => .annotate s (inner.inline ρ) ann

def inlineList (ρ : String → Option Expr) : List Expr → List Expr
  | [] => []
  | e :: es => e.inline ρ :: inlineList ρ es

def inlineFields (ρ : String → Option Expr) : List (String × Expr) → List (String × Expr)
  | [] => []
  | (l, e) :: es => (l, e.inline ρ) :: inlineFields ρ es

def inlineArms (ρ : String → Option Expr) : List (Pattern × Expr) → List (Pattern × Expr)
  | [] => []
  | (p, e) :: es => (p, e.inline ρ) :: inlineArms ρ es

end

mutual

/-- The names of values that an expression has from its surroundings. -/
def freeNames : Expr → List String
  | .lit _ _ => []
  | .var _ x => [x]
  | .path _ m _ => [m]
  | .lam _ x _ body => body.freeNames.filter (· ≠ x)
  | .app _ func arg => func.freeNames ++ arg.freeNames
  | .letIn _ x isRec _ value body =>
      value.freeNames.filter (fun y => !isRec || y ≠ x) ++ body.freeNames.filter (· ≠ x)
  | .ifThenElse _ cond thenE elseE => cond.freeNames ++ thenE.freeNames ++ elseE.freeNames
  | .tuple _ items => freeNamesList items
  | .record _ fields => freeNamesFields fields
  | .field _ whole _ => whole.freeNames
  | .update _ whole changes => whole.freeNames ++ freeNamesFields changes
  | .construct _ _ none => []
  | .construct _ _ (some arg) => arg.freeNames
  | .cases _ scrutinee arms => scrutinee.freeNames ++ freeNamesArms arms
  | .annotate _ inner _ => inner.freeNames

def freeNamesList : List Expr → List String
  | [] => []
  | e :: es => e.freeNames ++ freeNamesList es

def freeNamesFields : List (String × Expr) → List String
  | [] => []
  | (_, e) :: es => e.freeNames ++ freeNamesFields es

def freeNamesArms : List (Pattern × Expr) → List String
  | [] => []
  | (p, e) :: es => e.freeNames.filter (· ∉ p.names) ++ freeNamesArms es

end

mutual

/-- The names that an expression binds somewhere. -/
def binders : Expr → List String
  | .lit _ _ => []
  | .var _ _ => []
  | .path _ _ _ => []
  | .lam _ x _ body => x :: body.binders
  | .app _ func arg => func.binders ++ arg.binders
  | .letIn _ x _ _ value body => x :: value.binders ++ body.binders
  | .ifThenElse _ cond thenE elseE => cond.binders ++ thenE.binders ++ elseE.binders
  | .tuple _ items => bindersList items
  | .record _ fields => bindersFields fields
  | .field _ whole _ => whole.binders
  | .update _ whole changes => whole.binders ++ bindersFields changes
  | .construct _ _ none => []
  | .construct _ _ (some arg) => arg.binders
  | .cases _ scrutinee arms => scrutinee.binders ++ bindersArms arms
  | .annotate _ inner _ => inner.binders

def bindersList : List Expr → List String
  | [] => []
  | e :: es => e.binders ++ bindersList es

def bindersFields : List (String × Expr) → List String
  | [] => []
  | (_, e) :: es => e.binders ++ bindersFields es

def bindersArms : List (Pattern × Expr) → List String
  | [] => []
  | (p, e) :: es => p.names ++ e.binders ++ bindersArms es

end

mutual

theorem inline_none : ∀ e : Expr, e.inline (fun _ => none) = e
  | .lit _ _ => by rw [inline]
  | .var _ _ => by rw [inline]; rfl
  | .path _ _ _ => by rw [inline]
  | .lam _ _ _ body => by rw [inline, inline_none body]
  | .app _ func arg => by rw [inline, inline_none func, inline_none arg]
  | .letIn _ _ _ _ value body => by rw [inline, inline_none value, inline_none body]
  | .ifThenElse _ cond thenE elseE => by
    rw [inline, inline_none cond, inline_none thenE, inline_none elseE]
  | .tuple _ items => by rw [inline, inlineList_none items]
  | .record _ fields => by rw [inline, inlineFields_none fields]
  | .field _ whole _ => by rw [inline, inline_none whole]
  | .update _ whole changes => by rw [inline, inline_none whole, inlineFields_none changes]
  | .construct _ _ none => by rw [inline]
  | .construct _ _ (some arg) => by rw [inline, inline_none arg]
  | .cases _ scrutinee arms => by rw [inline, inline_none scrutinee, inlineArms_none arms]
  | .annotate _ inner _ => by rw [inline, inline_none inner]

theorem inlineList_none : ∀ es : List Expr, inlineList (fun _ => none) es = es
  | [] => rfl
  | e :: es => by rw [inlineList, inline_none e, inlineList_none es]

theorem inlineFields_none : ∀ es : List (String × Expr), inlineFields (fun _ => none) es = es
  | [] => rfl
  | (_, e) :: es => by rw [inlineFields, inline_none e, inlineFields_none es]

theorem inlineArms_none : ∀ es : List (Pattern × Expr), inlineArms (fun _ => none) es = es
  | [] => rfl
  | (_, e) :: es => by rw [inlineArms, inline_none e, inlineArms_none es]

end

end Expr

theorem Env.find_of_some (h : env.value? x = some σ) (span : Span) : env.find span x = pure σ := by
  simp only [Env.find, Env.value, h, fromExcept]
  rfl

theorem Env.find_of_none (h : env.value? x = none) (span : Span) :
    env.find span x = throw ⟨.unboundName x, span⟩ := by
  simp only [Env.find, Env.value, h, fromExcept]
  rfl

/-! ## Types of expressions -/

namespace World

variable {W W' : World} {t u a b x y : Ty} {f g : Finset String} {fs gs : Table Ty}

theorem pairs_con {c : Con} (hc : c.IsFormer) (zs : List (Ty × Ty)) (htuple : c = .tuple → zs ≠ [])
    (h : ∀ z ∈ zs, W.Pairs .type .type z.1 z.2) :
    W.Pairs .type .type (.con c (zs.map Prod.fst)) (.con c (zs.map Prod.snd)) := by
  refine ⟨⟨.con hc (by simpa using htuple) ?_, .con ?_⟩,
    ⟨.con hc (by simpa using htuple) ?_, .con ?_⟩, rfl,
    alike_con hc.1 zs _ _ fun z hz => (h z hz).alike⟩
  · exact forall_mem_map.mpr fun z hz => (h z hz).left.fits
  · exact forall_mem_map.mpr fun z hz => (h z hz).left.faithful
  · exact forall_mem_map.mpr fun z hz => (h z hz).right.fits
  · exact forall_mem_map.mpr fun z hz => (h z hz).right.faithful

theorem pairs_base (W : World) (b : Base) : W.Pairs .type .type (.base b) (.base b) :=
  pairs_con ⟨by simp, by simp⟩ [] (by simp) (by simp)

theorem Pairs.arrow (ha : W.Pairs .type .type a x) (hb : W.Pairs .type .type b y) :
    W.Pairs .type .type (.arrow a b) (.arrow x y) :=
  pairs_con ⟨by simp, by simp⟩ [(a, x), (b, y)] (by simp) (by simp [ha, hb])

theorem pairs_tuple (zs : List (Ty × Ty)) (h : ∀ z ∈ zs, W.Pairs .type .type z.1 z.2) :
    W.Pairs .type .type (tuple (zs.map Prod.fst)) (tuple (zs.map Prod.snd)) := by
  match zs with
  | [] => exact pairs_base W .unit
  | [z] => exact h z (by simp)
  | z :: z' :: zs => exact pairs_con ⟨by simp, by simp⟩ (z :: z' :: zs) (by simp) h

/-- The same labels with partners. -/
def FieldPairs (W : World) (fs gs : Table Ty) : Prop :=
  ∃ zs : Table (Ty × Ty), zs.Sorted ∧ fs = zs.mapValues Prod.fst ∧ gs = zs.mapValues Prod.snd ∧
    ∀ z ∈ zs, W.Pairs .type .type z.2.1 z.2.2

theorem FieldPairs.mono (h : W.FieldPairs fs gs) (hle : W ≤ W') : W'.FieldPairs fs gs := by
  obtain ⟨zs, hsorted, hfs, hgs, hzs⟩ := h
  exact ⟨zs, hsorted, hfs, hgs, fun z hz => (hzs z hz).mono hle⟩

theorem FieldPairs.insert (h : W.FieldPairs fs gs) (l : String) (htu : W.Pairs .type .type t u) :
    W.FieldPairs (fs.insert l t) (gs.insert l u) := by
  obtain ⟨zs, hsorted, rfl, rfl, hzs⟩ := h
  refine ⟨zs.insert l (t, u), hsorted.insert l _, ?_, ?_, fun z hz => ?_⟩
  · rw [mapValues_insert]
  · rw [mapValues_insert]
  · rcases mem_insert hz with rfl | hz
    · exact htu
    · exact hzs z hz

theorem FieldPairs.lookup (h : W.FieldPairs fs gs) (l : String) :
    (fs.lookup l).isSome = (gs.lookup l).isSome := by
  obtain ⟨zs, -, rfl, rfl, -⟩ := h
  rw [lookup_mapValues, lookup_mapValues, Option.isSome_map, Option.isSome_map]

theorem FieldPairs.record (h : W.FieldPairs fs gs)
    (htu : W.Pairs (Role.type.behind fs) (Role.type.behind gs) t u) :
    W.Pairs .type .type (.record fs t) (.record gs u) := by
  obtain ⟨zs, hsorted, rfl, rfl, hzs⟩ := h
  refine ⟨⟨.record (hsorted.mapValues _) (by simp [Role.front]) ?_ htu.left.fits,
    .record ?_ htu.left.faithful⟩,
    ⟨.record (hsorted.mapValues _) (by simp [Role.front]) ?_ htu.right.fits,
    .record ?_ htu.right.faithful⟩, rfl, alike_record (fun z hz => (hzs z hz).alike) htu.alike⟩
  · exact forall_mem_map.mpr fun z hz => (hzs z hz).left.fits
  · exact forall_mem_map.mpr fun z hz => (hzs z hz).left.faithful
  · exact forall_mem_map.mpr fun z hz => (hzs z hz).right.fits
  · exact forall_mem_map.mpr fun z hz => (hzs z hz).right.faithful

theorem pairs_emptyRow : W.Pairs (.rest f) (.rest g) .emptyRow .emptyRow :=
  ⟨⟨.emptyRow f, .con (by simp)⟩, ⟨.emptyRow g, .con (by simp)⟩, rfl, alike_emptyRow⟩

/-! ## Inference -/

/-- Inference on the two sides ends with partners. -/
abbrev Infers (W : World) (f g : Check Located Ty) : Prop :=
  W.Together f g fun W' a x => W'.Pairs .type .type a x

theorem Envs.callee_eq {N : String → Prop} {env env' : Env} (h : W.Envs N env env') (func : Expr) :
    env.callee func = pure none :=
  Env.callee_eq_none (fun _ _ hσ => h.plain _ (mem_of_lookup hσ)) func

theorem together_inferBinding {N : String → Prop} {env env' : Env} (henv : W.Envs N env env')
    (span : Span) (name : String) (isRec : Bool) {f g : Env → Check Located Ty}
    (hplain : isRec = false → W.Infers (f env) (g env'))
    (hrec : isRec = true → ∀ W' v w, W ≤ W' → W'.Pairs .type .type (.flex v) (.flex w) →
      W'.Infers (f (env.addValue name (.mono (.flex v))))
        (g (env'.addValue name (.mono (.flex w))))) :
    W.Together (inferBinding env span name isRec none f) (inferBinding env' span name isRec none g)
      fun W' σ σ' => W'.Schemes σ σ' := by
  have htypes : W.Infers (boundType env span name isRec none f)
      (boundType env' span name isRec none g) := by
    cases isRec with
    | false =>
      rw [boundType_plain, boundType_plain]
      exact hplain rfl
    | true =>
      refine (together_freshVar (l := .type) rfl).bind fun W₁ a x hle₁ hself => ?_
      obtain ⟨hself, v, w, rfl, rfl⟩ := hself
      refine (hrec rfl W₁ v w hle₁ hself).bind fun W₂ t u hle₂ htu => ?_
      refine (together_unifyAt span span htu (hself.mono hle₂)).bind fun W₃ _ _ hle₃ _ => ?_
      exact together_pure (htu.mono hle₃)
  rw [inferBinding_eq, inferBinding_eq]
  exact htypes.bind fun W' t u hle htu =>
    together_generalizeIn htu fun _ _ _ => (henv.mono hle).freeVars_iff

end World

/-- Definitions that are inlined, with what is known where they can be used: the
instance on the left and the value on the right are inferred together. -/
structure Inliner where
  defs : String → Option Expr
  Use : World → Env → Env → Prop
  mono : ∀ {W W' : World} {env env' : Env}, Use W env env' → W ≤ W' → Use W' env env'
  addValue : ∀ {W : World} {env env' : Env} {x : String}, Use W env env' →
    (defs x = none ∧ ∀ y v, defs y = some v → x ∉ v.freeNames) →
    ∀ σ σ', Use W (env.addValue x σ) (env'.addValue x σ')
  infers : ∀ {W : World} {N : String → Prop} {env env' : Env} {x : String} {v : Expr},
    Use W env env' → W.Envs N env env' → defs x = some v → ∀ span,
    W.Infers ((Expr.var span x).inferHead env) (v.inferHead env')

namespace Inliner

/-- The name can be bound around uses of the definitions. -/
def Avoids (I : Inliner) (x : String) : Prop :=
  I.defs x = none ∧ ∀ y v, I.defs y = some v → x ∉ v.freeNames

/-- What is needed to infer an expression with these free names and binders. -/
structure Covers (I : Inliner) (W : World) (N : String → Prop) (env env' : Env)
    (names binders : List String) : Prop where
  envs : W.Envs N env env'
  names : ∀ x ∈ names, I.defs x = none → N x
  use : I.Use W env env'
  avoids : ∀ x ∈ binders, I.Avoids x

variable {I : Inliner} {W W' : World} {N : String → Prop} {env env' : Env}
  {names names' bound bound' : List String} {x : String} {σ σ' : Scheme}

theorem Covers.mono (h : I.Covers W N env env' names bound) (hle : W ≤ W') :
    I.Covers W' N env env' names bound :=
  ⟨h.envs.mono hle, h.names, I.mono h.use hle, h.avoids⟩

/-- A part of the expression. -/
theorem Covers.part (h : I.Covers W N env env' names bound) (hnames : names' ⊆ names)
    (hbound : bound' ⊆ bound) : I.Covers W N env env' names' bound' :=
  ⟨h.envs, fun x hx => h.names x (hnames hx), h.use, fun x hx => h.avoids x (hbound hx)⟩

/-- A part of the expression behind a binder. -/
theorem Covers.addValue (h : I.Covers W N env env' names bound) (hσ : W.Schemes σ σ')
    (hx : x ∈ bound) (hnames : ∀ y ∈ names', y ≠ x → y ∈ names) (hbound : bound' ⊆ bound) :
    I.Covers W (fun y => y = x ∨ N y) (env.addValue x σ) (env'.addValue x σ') names' bound' where
  envs := h.envs.addValue x hσ
  names y hy hdef := by
    by_cases hyx : y = x
    · exact .inl hyx
    · exact .inr (h.names y (hnames y hy hyx) hdef)
  use := I.addValue h.use (h.avoids x hx) σ σ'
  avoids y hy := h.avoids y (hbound hy)

end Inliner

namespace Expr

open World

variable {I : Inliner}

mutual

/-- An expression and its inlined form are inferred together. -/
theorem infers_inline : ∀ (e : Expr) {W : World} {N : String → Prop} {env env' : Env}, e.Core →
    I.Covers W N env env' e.freeNames e.binders →
    W.Infers (e.inferHead env) ((e.inline I.defs).inferHead env')
  | .lit span b, W, N, env, env', _, _ => by
    rw [inline, inferHead, inferHead]
    exact together_pure (pairs_base W b)
  | .var span x, W, N, env, env', _, h => by
    rw [inline]
    cases hdef : I.defs x with
    | some v => exact I.infers h.use h.envs hdef span
    | none =>
      rw [Option.getD_none, inferHead, inferHead]
      rcases h.envs.known x (h.names x (by simp [freeNames]) hdef) with
        ⟨hnone, hnone'⟩ | ⟨σ, σ', hσ, hσ', hlike⟩
      · rw [Env.find_of_none hnone, Env.find_of_none hnone']
        exact together_throw _ _
      · rw [Env.find_of_some hσ, Env.find_of_some hσ', pure_bind, pure_bind]
        refine (together_instantiate hlike).bind fun W₁ t u _ htu => ?_
        rw [htu.left.fits.asValue_eq, htu.right.fits.asValue_eq]
        exact together_pure htu
  | .lam span x ann body, W, N, env, env', hcore, h => by
    obtain ⟨rfl, hcore⟩ := hcore
    rw [inline, inferHead, inferHead, paramType]
    refine (together_freshVar (l := .type) rfl).bind fun W₁ a b hle₁ hab => ?_
    obtain ⟨hab, v, w, rfl, rfl⟩ := hab
    have hbody : I.Covers W₁ _ _ _ body.freeNames body.binders :=
      (h.mono hle₁).addValue (x := x) (schemes_flex hab) (by simp [binders])
        (fun y hy hne => by simp [freeNames, hy, hne]) (by simp [binders])
    refine (infers_inline body hcore hbody).bind fun W₂ t u hle₂ htu => ?_
    exact together_pure ((hab.mono hle₂).arrow htu)
  | .app span func arg, W, N, env, env', hcore, h => by
    rw [inline, inferHead, inferHead, h.envs.callee_eq, h.envs.swap.callee_eq, pure_bind, pure_bind]
    refine (infers_inline func hcore.1 (h.part (by simp [freeNames]) (by simp [binders]))).bind
      fun W₁ t u hle₁ htu => ?_
    refine (infers_inline arg hcore.2 ((h.mono hle₁).part (by simp [freeNames])
      (by simp [binders]))).bind fun W₂ a b hle₂ hab => ?_
    refine (together_freshVar (l := .type) rfl).bind fun W₃ r s hle₃ hrs => ?_
    refine (together_unifyAt span span ((hab.mono hle₃).arrow hrs.1)
      (htu.mono (hle₂.trans hle₃))).bind fun W₄ _ _ hle₄ _ => ?_
    exact together_pure (hrs.1.mono hle₄)
  | .letIn span x isRec ann value body, W, N, env, env', hcore, h => by
    obtain ⟨rfl, hvalue, hbody⟩ := hcore
    rw [inline, inferHead, inferHead]
    refine (together_inferBinding h.envs span x isRec (fun hrec => ?_)
      fun hrec W' v w hle hvw => ?_).bind fun W₁ σ σ' hle₁ hσ => ?_
    · subst hrec
      exact infers_inline value hvalue
        (h.part (by simp [freeNames]) fun y hy => by simp [binders, hy])
    · subst hrec
      exact infers_inline value hvalue ((h.mono hle).addValue (schemes_flex hvw)
        (by simp [binders]) (fun y hy hne => by simp [freeNames, hy, hne])
        fun y hy => by simp [binders, hy])
    · exact infers_inline body hbody ((h.mono hle₁).addValue hσ (by simp [binders])
        (fun y hy hne => by simp [freeNames, hy, hne]) fun y hy => by simp [binders, hy])
  | .ifThenElse span cond thenE elseE, W, N, env, env', hcore, h => by
    rw [inline, inferHead, inferHead]
    refine (infers_inline cond hcore.1 (h.part (by simp [freeNames]) (by simp [binders]))).bind
      fun W₁ t u hle₁ htu => ?_
    refine (together_unifyAt _ _ htu (pairs_base W₁ .bool)).bind fun W₂ _ _ hle₂ _ => ?_
    refine (infers_inline thenE hcore.2.1 ((h.mono (hle₁.trans hle₂)).part
      (fun y hy => by simp [freeNames, hy]) fun y hy => by simp [binders, hy])).bind
      fun W₃ t u hle₃ htu => ?_
    refine (infers_inline elseE hcore.2.2 ((h.mono (hle₁.trans (hle₂.trans hle₃))).part
      (by simp [freeNames]) (by simp [binders]))).bind fun W₄ t' u' hle₄ htu' => ?_
    refine (together_unifyAt span span htu' (htu.mono hle₄)).bind fun W₅ _ _ hle₅ _ => ?_
    exact together_pure (htu.mono (hle₄.trans hle₅))
  | .tuple span items, W, N, env, env', hcore, h => by
    rw [inline, inferHead, inferHead]
    refine (together_inferList items hcore h).bind fun W₁ ts us hle hts => ?_
    obtain ⟨zs, rfl, rfl, hzs⟩ := hts
    exact together_pure (pairs_tuple zs hzs)
  | .record span fields, W, N, env, env', hcore, h => by
    rw [inline, inferHead, inferHead]
    refine (together_inferFields fields span hcore h ⟨[], .nil, rfl, rfl, by simp⟩).bind
      fun W₁ fs gs hle hfs => ?_
    exact together_pure (hfs.record pairs_emptyRow)
  | .field span whole label, W, N, env, env', hcore, h => by
    rw [inline, inferHead, inferHead]
    refine (infers_inline whole hcore h).bind fun W₁ t u hle₁ htu => ?_
    refine (together_freshVar (l := .type) rfl).bind fun W₂ a b hle₂ hab => ?_
    refine (together_freshVar
      (l := Role.type.behind [(label, b)]) rfl).bind fun W₃ r s hle₃ hrs => ?_
    have hfields : W₃.FieldPairs [(label, a)] [(label, b)] :=
      FieldPairs.insert ⟨[], .nil, rfl, rfl, by simp⟩ label (hab.1.mono hle₃)
    refine (together_unifyAt span span (htu.mono (hle₂.trans hle₃)) (hfields.record hrs.1)).bind
      fun W₄ _ _ hle₄ _ => ?_
    exact together_pure (hab.1.mono (hle₃.trans hle₄))
  | .update span whole changes, W, N, env, env', hcore, h => by
    rw [inline, inferHead, inferHead]
    refine (infers_inline whole hcore.1 (h.part (by simp [freeNames]) (by simp [binders]))).bind
      fun W₁ t u hle₁ htu => ?_
    refine (together_inferFields changes span hcore.2 ((h.mono hle₁).part (by simp [freeNames])
      (by simp [binders])) ⟨[], .nil, rfl, rfl, by simp⟩).bind fun W₂ fs gs hle₂ hfs => ?_
    refine (together_freshVar (k := Role.type.behind fs) (l := Role.type.behind gs) rfl).bind
      fun W₃ r s hle₃ hrs => ?_
    refine (together_unifyAt span span (htu.mono (hle₂.trans hle₃))
      ((hfs.mono hle₃).record hrs.1)).bind fun W₄ _ _ hle₄ _ => ?_
    exact together_pure (htu.mono (hle₂.trans (hle₃.trans hle₄)))
  | .path _ _ _, _, _, _, _, hcore, _ => hcore.elim
  | .construct _ _ _, _, _, _, _, hcore, _ => hcore.elim
  | .cases _ _ _, _, _, _, _, hcore, _ => hcore.elim
  | .annotate _ _ _, _, _, _, _, hcore, _ => hcore.elim

theorem together_inferList : ∀ (es : List Expr) {W : World} {N : String → Prop} {env env' : Env},
    CoreList es → I.Covers W N env env' (freeNamesList es) (bindersList es) →
    W.Together (inferList env es) (inferList env' (inlineList I.defs es)) fun W' ts us =>
      ∃ zs : List (Ty × Ty), ts = zs.map Prod.fst ∧ us = zs.map Prod.snd ∧
        ∀ z ∈ zs, W'.Pairs .type .type z.1 z.2
  | [], W, N, env, env', _, _ => by
    rw [inlineList, inferList, inferList]
    exact together_pure ⟨[], rfl, rfl, by simp⟩
  | e :: es, W, N, env, env', hcore, h => by
    rw [inlineList, inferList, inferList]
    refine (infers_inline e hcore.1 (h.part (by simp [freeNamesList]) (by simp [bindersList]))).bind
      fun W₁ t u hle₁ htu => ?_
    refine (together_inferList es hcore.2 ((h.mono hle₁).part (by simp [freeNamesList])
      (by simp [bindersList]))).bind fun W₂ ts us hle₂ hts => ?_
    obtain ⟨zs, rfl, rfl, hzs⟩ := hts
    exact together_pure ⟨(t, u) :: zs, rfl, rfl, forall_mem_cons.mpr ⟨htu.mono hle₂, hzs⟩⟩

theorem together_inferFields : ∀ (es : List (String × Expr)) (span : Span) {W : World}
    {N : String → Prop} {env env' : Env} {fs gs : Table Ty},
    CoreFields es → I.Covers W N env env' (freeNamesFields es) (bindersFields es) →
    W.FieldPairs fs gs →
    W.Together (inferFields env span es fs) (inferFields env' span (inlineFields I.defs es) gs)
      fun W' fs gs => W'.FieldPairs fs gs
  | [], span, W, N, env, env', fs, gs, _, _, hfs => by
    rw [inlineFields, inferFields, inferFields]
    exact together_pure hfs
  | (l, e) :: es, span, W, N, env, env', fs, gs, hcore, h, hfs => by
    rw [inlineFields, inferFields, inferFields]
    refine (infers_inline e hcore.1 (h.part (by simp [freeNamesFields])
      (by simp [bindersFields]))).bind fun W₁ t u hle₁ htu => ?_
    rw [hfs.lookup l]
    split
    · exact together_throw _ _
    · exact together_inferFields es span hcore.2 ((h.mono hle₁).part (by simp [freeNamesFields])
        (by simp [bindersFields])) ((hfs.mono hle₁).insert l htu)

end

end Expr

/-! ## Closed environments -/

/-- A type without synonyms is alike itself. -/
theorem Ty.Fits.like_self {G : Prop} {H V : TyVar → Role → Prop} {k : Role} (h : t.Fits G H V k)
    (ht : t.All IsOrdinary) :
    Like (fun c x y => x = y ∧ ∃ k, V x k ∧ k.kind = c) k.kind t t := by
  induction h with
  | var h => exact .var ⟨rfl, _, h, rfl⟩
  | @con V c args hc _ _ ih =>
    have hargs := Like.con_map hc.1 args id id fun u hu => ih u hu (ht.child hu)
    rwa [map_id] at hargs
  | emptyRow => exact .emptyRow
  | @record V k fs tail _ _ _ _ ihf iht =>
    have hfields : ∀ e ∈ fs, _ := fun e he =>
      ihf e he (ht.child (mem_children_record.mpr (.inl ⟨e, he, rfl⟩)))
    have htail := iht (ht.child (mem_children_record.mpr (.inr rfl)))
    simpa [mapValues] using Like.record_map fs id id hfields htail
  | synonym => exact ht.here.elim
  | module => exact ht.here.elim

theorem Scheme.IsCore.settled (h : σ.IsCore) : σ.body.Settled := by
  intro v hv
  obtain ⟨role, hfits⟩ := h.closed
  obtain ⟨k, g, -, hgen, -⟩ := hfits.role_of_shown (h.ordinary.faithful.mem_shown hv)
  cases hgen

/-- The variables that the schemes of an environment have are open. -/
structure Stage.OpenEnv (S : Stage True) (env : Env) : Prop where
  sorted : Table.Sorted env.values
  plain : ∀ e ∈ env.values, e.2.body.ctor? = none
  isOpen : ∀ e ∈ env.values, ∀ v, .flex v ∈ (S.registry.resolveDeep e.2.body).occurrences →
    S.registry.binding? v = none ∧ v < S.registry.varCount

theorem Env.IsCore.openEnv (h : env.IsCore) (S : Stage True) : S.OpenEnv env where
  sorted := h.sorted
  plain e he := by
    obtain ⟨role, hfits⟩ := (h.schemes e he).closed
    exact hfits.ctor?_eq_none
  isOpen e he v hv := absurd hv (settled_resolveDeepN (h.schemes e he).settled _ v)

theorem Stage.OpenEnv.addValue (h : S.OpenEnv env) (x : String) (hσ : S.HostsScheme σ)
    (hsettled : σ.body.Settled) :
    S.OpenEnv (env.addValue x σ) where
  sorted := h.sorted.insert x σ
  plain e he := by
    rcases mem_insert he with rfl | he
    · obtain ⟨role, hfits⟩ := hσ.fits
      exact hfits.ctor?_eq_none
    · exact h.plain e he
  isOpen e he := by
    rcases mem_insert he with rfl | he
    · exact fun v hv => absurd hv (settled_resolveDeepN hsettled _ v)
    · exact h.isOpen e he

namespace World

variable {W : World} {N : String → Prop} {env env' : Env}

theorem schemes_core (W : World) {σ : Scheme} (h : σ.IsCore) : W.Schemes σ σ := by
  obtain ⟨role, hfits⟩ := h.closed
  refine ⟨W.left.hostsScheme_core h, W.right.hostsScheme_core h,
    fun k g i => g = i ∧ g ∈ σ.vars ∧ (role g).kind = k, ?_, ?_, ?_⟩
  · rintro k g _ ⟨rfl, hg, -⟩
    exact ⟨hg, hg⟩
  · rintro k l g _ h _ ⟨rfl, -, rfl⟩ ⟨rfl, -, rfl⟩ heq
    obtain rfl : g = h := heq.elim id id
    exact ⟨rfl, rfl, rfl⟩
  · refine like_resolveDeep W.leftSound.acyclic W.rightSound.acyclic ?_ (hfits.like_self h.ordinary)
    rintro c x _ ⟨rfl, k, ⟨g, hg, rfl, rfl⟩, rfl⟩
    exact alike_gen ⟨rfl, hg, rfl⟩

theorem Envs.openEnv (h : W.Envs N env env') : W.left.OpenEnv env where
  sorted := h.sorted
  plain := h.plain
  isOpen e he v hv := by
    rcases h.apart e he with hN | hapart
    · rcases h.known e.1 hN with ⟨hnone, -⟩ | ⟨σ, σ', hσ, -, hlike⟩
      · cases hnone.symm.trans (h.sorted.lookup_of_mem he)
      · obtain rfl : e.2 = σ := Option.some.inj ((h.sorted.lookup_of_mem he).symm.trans hσ)
        obtain ⟨γ, -, -, hread⟩ := hlike.alike
        obtain ⟨_, _, hxy, -⟩ := Like.exists_right hread hv
        cases hxy with
        | flex hvw => exact ⟨(W.isOpen hvw).1, (W.issued hvw).1⟩
    · exact ⟨(hapart v hv).1, (hapart v hv).2.1⟩

/-- Two stages without pairs. -/
def start (S T : Stage True) (hS : S.registry.Sound) (hT : T.registry.Sound) : World where
  left := S
  right := T
  pair _ _ _ := False
  leftSound := hS
  rightSound := hT
  isOpen := False.elim
  issued := False.elim
  unique := False.elim

theorem start_envs {S T : Stage True} {hS : S.registry.Sound} {hT : T.registry.Sound}
    (h : S.OpenEnv env) (h' : T.OpenEnv env') (hsame : ∀ x, N x → env'.value? x = env.value? x)
    (hcore : ∀ x σ, N x → env.value? x = some σ → σ.IsCore) :
    (start S T hS hT).Envs N env env' where
  sorted := h.sorted
  sorted' := h'.sorted
  plain := h.plain
  plain' := h'.plain
  known x hx := by
    rw [hsame x hx]
    cases hσ : env.value? x with
    | none => exact .inl ⟨rfl, rfl⟩
    | some σ => exact .inr ⟨σ, σ, rfl, rfl, schemes_core _ (hcore x σ hx hσ)⟩
  apart e he := .inr fun v hv => ⟨(h.isOpen e he v hv).1, (h.isOpen e he v hv).2, fun _ _ => id⟩
  apart' e he := .inr fun v hv => ⟨(h'.isOpen e he v hv).1, (h'.isOpen e he v hv).2, fun _ _ => id⟩

end World

/-- Nothing is inlined. -/
def Inliner.none : Inliner where
  defs _ := .none
  Use _ _ _ := True
  mono _ _ := trivial
  addValue _ _ _ _ := trivial
  infers _ _ h := by cases h

/-- An expression is inferred together with itself, from states that need not have
anything in common. -/
theorem Expr.infers_self (hcore : e.Core) {T : Stage True} (hS : S.registry.Sound)
    (hT : T.registry.Sound) {env' : Env} (henv : env.IsCore) (h' : T.OpenEnv env')
    (hsame : ∀ x ∈ e.freeNames, env'.value? x = env.value? x) :
    (World.start S T hS hT).Infers (e.inferHead env) (e.inferHead env') := by
  have henvs : (World.start S T hS hT).Envs (· ∈ e.freeNames) env env' :=
    World.start_envs (henv.openEnv S) h' hsame fun x σ _ hσ =>
      henv.schemes _ (mem_of_lookup hσ)
  have hinfers := e.infers_inline (I := .none) hcore
    ⟨henvs, fun _ hx _ => hx, trivial, fun x _ => ⟨rfl, fun _ _ h => by cases h⟩⟩
  rwa [show e.inline Inliner.none.defs = e from e.inline_none] at hinfers

/-! ## The value of a `let` -/

/-- The first run of a value, and the closed scheme that it was quantified to. -/
structure FirstRun (env : Env) (value : Expr) (σ : Scheme) where
  stage : Stage True
  before : State
  after : State
  type : Ty
  close : Nat → Option Nat
  sound : stage.registry.Sound
  starts : before.registry = stage.registry
  run : (value.inferHead env).run before = .ok type after
  body : σ.body = (after.registry.resolveDeep type).subst (Ty.closing close)
  injective : ∀ {v w g : Nat}, close v = some g → close w = some g → v = w
  closed : ∀ {v : Nat}, .flex v ∈ (after.registry.resolveDeep type).occurrences →
    ∃ g ∈ σ.vars, close v = some g

namespace FirstRun

variable {env Γ env' : Env} {x : String} {value : Expr} {σ : Scheme} {W : World}

/-- A variable of the instance goes with the variable of the new run that has the
place of the one it was quantified for. -/
theorem grows (d : FirstRun Γ value σ) {S : Stage True} {f : TyVar → Ty}
    (hf : W.left.Renews S σ f) {W₁ : World}
    (hle : World.start d.stage W.right d.sound W.rightSound ≤ W₁) :
    W.Grows S W₁.right fun k v w => ∃ v₀ g, W₁.pair k v₀ w ∧ d.close v₀ = some g ∧
      g ∈ σ.vars ∧ f (.gen g) = .flex v := by
  refine ⟨hf.le, hle.right, W.leftSound.of_binding? hf.stays, W₁.rightSound,
    fun _ => hf.stays _, fun hlt => hle.keptRight hlt fun _ _ => id, ?_, ?_, ?_, ?_⟩
  · rintro k v w ⟨v₀, g, hpair, -, hg, hv⟩
    exact ⟨(hf.fresh hg hv).2.2, (W₁.isOpen hpair).2⟩
  · rintro k v w ⟨v₀, g, hpair, -, hg, hv⟩
    rcases hle.fresh hpair with hpair | ⟨-, hge⟩
    · exact hpair.elim
    · exact ⟨(hf.fresh hg hv).1, hge⟩
  · rintro k v w ⟨v₀, g, hpair, -, hg, hv⟩
    exact ⟨(hf.fresh hg hv).2.1, (W₁.issued hpair).2⟩
  · rintro k l v w x y ⟨v₀, g, hpair, hv₀, hg, hv⟩ ⟨x₀, h, hpair', hx₀, hh, hx⟩ heq
    have hsame : v₀ = x₀ ∨ w = y := by
      refine heq.imp_left fun hvx => d.injective hv₀ ?_
      rw [hf.injective g hg h hh (by rw [hv, hx, hvx])]
      exact hx₀
    obtain ⟨rfl, rfl, rfl⟩ := W₁.unique hpair hpair' hsame
    cases hv₀.symm.trans hx₀
    cases hv.symm.trans hx
    exact ⟨rfl, rfl, rfl⟩

/-- An instance of the scheme and a new run of the value end together. -/
theorem infers (d : FirstRun Γ value σ) (hΓ : Γ.IsCore) (hcore : value.Core)
    (hσ : W.left.HostsScheme σ) (hx : env.value? x = some σ) (henv' : W.right.OpenEnv env')
    (hsame : ∀ y ∈ value.freeNames, env'.value? y = Γ.value? y) (span : Span) :
    W.Infers ((Expr.var span x).inferHead env) (value.inferHead env') := by
  intro s s' hs hs'
  obtain ⟨f, s₁, S, hrun, hs₁, hf⟩ := Stage.exists_instantiate hσ hs
  have hleft : ((Expr.var span x).inferHead env).run s = .ok (σ.body.subst f) s₁ := by
    rw [Expr.inferHead, Env.find_of_some hx, pure_bind, run_bind_ok hrun, hf.hosts.fits.asValue_eq]
    rfl
  have hends := Expr.infers_self hcore d.sound W.rightSound hΓ henv' hsame d.before s' d.starts hs'
  rw [d.run] at hends
  rw [hleft]
  generalize hright : (value.inferHead env').run s' = q at hends ⊢
  cases hends with
  | @ok _ u _ s₁' W₁ hle left right htu =>
    have hgrows := d.grows hf hle
    refine .ok hgrows.world hgrows.le_world hs₁ right ⟨hf.hosts, htu.right, rfl, ?_⟩
    -- the body of the scheme is the type of the first run, read in the world of that run
    have hlike := Like.restrict htu.alike
    rw [← left] at hlike
    have hread : Like (hgrows.world.Rel World.noGens) .type _ _ :=
      like_resolveDeep_subst (f := fun x => (closing d.close x).subst f) (g := .var)
        hgrows.leftSound.acyclic hgrows.rightSound.acyclic ?_ hlike
    · rw [← subst_subst, ← d.body, subst_var,
        (Extends.refl _).resolveDeep_resolveDeep W₁.rightSound.acyclic
          W₁.rightSound.acyclic] at hread
      exact hread
    · rintro k x y ⟨hxy, hx, -⟩
      cases hxy with
      | gen h => exact h.elim
      | @flex v₀ w hpair =>
        obtain ⟨g, hg, hv₀⟩ := d.closed hx
        obtain ⟨v, hv, -⟩ := hf.gen g hg
        have himage : (closing d.close (.flex v₀)).subst f = .flex v := by
          rw [closing, fill, hv₀]
          exact hv
        rw [himage]
        exact World.alike_var (.inr ⟨v₀, g, hpair, hv₀, hg, hv⟩)

/-- The name of the `let` is inlined. -/
def inliner (d : FirstRun Γ value σ) (hΓ : Γ.IsCore) (hcore : value.Core) (x : String) :
    Inliner where
  defs y := if y = x then some value else none
  Use W env env' := W.left.HostsScheme σ ∧ env.value? x = some σ ∧
    ∀ y ∈ value.freeNames, env'.value? y = Γ.value? y
  mono h hle := ⟨h.1.mono hle.left, h.2⟩
  addValue {W env env' y} h hy σ₁ σ₂ := by
    obtain ⟨hσ, hx, hsame⟩ := h
    obtain ⟨hyx, hfree⟩ := hy
    have hne : x ≠ y := by
      rintro rfl
      simp at hyx
    refine ⟨hσ, ?_, fun z hz => ?_⟩
    · rw [Env.value?_addValue, if_neg hne, hx]
    · have hzy : z ≠ y := by
        rintro rfl
        exact hfree x value (if_pos rfl) hz
      rw [Env.value?_addValue, if_neg hzy, hsame z hz]
  infers {W N env env' y v} h henvs hdef span := by
    obtain ⟨rfl, hv⟩ : y = x ∧ value = v := by
      by_cases hy : y = x
      · rw [if_pos hy] at hdef
        exact ⟨hy, Option.some.inj hdef⟩
      · rw [if_neg hy] at hdef
        cases hdef
    subst hv
    exact d.infers hΓ hcore h.1 h.2.1 henvs.swap.openEnv h.2.2 span

end FirstRun

/-- A value that was inferred in a closed environment gets a closed scheme. -/
theorem Expr.exists_firstRun {value : Expr} (hcore : value.Core) (henv : env.IsCore)
    (hS : S.registry.Sound) {s s₁ : State} (hs : s.registry = S.registry)
    (hrun : (value.inferHead env).run s = .ok t s₁) : ∃ (σ : Scheme) (s₂ : State) (S₂ : Stage True),
      (generalizeIn env t : Check Located Scheme).run s₁ = .ok σ s₂ ∧ s₂.registry = S₂.registry ∧
      S₂.registry.Sound ∧ S₂.HostsScheme σ ∧ σ.body.Settled ∧ Nonempty (FirstRun env value σ) := by
  have hends := Expr.infers_self hcore hS hS henv (henv.openEnv S) (fun _ _ => rfl) s s hs hs
  rw [hrun] at hends
  cases hends with
  | ok W hle left right htt =>
    obtain ⟨σ, s₂, S₂, close, hgen, hs₂, hle₂, hq⟩ :=
      Stage.exists_generalizeIn env _ left
    have hσ : S₂.HostsScheme σ := hq.hostsScheme hle₂ htt.left W.leftSound htt.alike
    have hfaithful : ∀ e ∈ env.values, e.2.body.Faithful := fun e he =>
      (henv.schemes e he).ordinary.faithful
    have hfree : env.Closed := fun e he v hv =>
      (henv.schemes e he).settled v (shown_subset hv)
    have hclosed : ∀ {v}, .flex v ∈ (s₁.registry.resolveDeep t).occurrences →
        ∃ g ∈ σ.vars, close v = some g := by
      intro v hv
      rw [left] at hv
      have hshown := (faithful_resolveDeep W.leftSound.acyclic W.leftSound.faithful
        htt.left.faithful).mem_shown hv
      obtain ⟨g, hg⟩ := Option.ne_none_iff_exists'.mp
        (hq.closed hshown (by simp [hfree.freeVars hfaithful]))
      exact ⟨g, hq.vars hg, hg⟩
    refine ⟨σ, s₂, S₂, hgen, hs₂, W.leftSound.of_binding? hq.stays, hσ, fun v hv => ?_,
      ⟨⟨S, s, s₁, t, close, hS, hs, hrun, left ▸ hq.body, hq.injective, hclosed⟩⟩⟩
    exact hq.closed_of_closed hfree hfaithful v (hσ.faithful.mem_shown hv)

/-! ## Complete runs -/

theorem Expr.infer_ok {s s' : State} (h : (e.inferHead env).run s = .ok t s') :
    (e.infer env).run s = .ok (s'.registry.resolveDeep t) s' := by
  rw [Expr.infer, run_bind_ok h]
  rfl

theorem Expr.infer_error {s s' : State} {l : Located} (h : (e.inferHead env).run s = .error l s') :
    (e.infer env).run s = .error l s' := by
  rw [Expr.infer, run_bind_error h]

namespace World

variable {W : World} {t u : Ty}

theorem Alike.exists_rename {k : Kind}
    (h : W.Alike noGens k t u) : ∃ f : Nat → Nat,
      Set.InjOn f {v | (W.left.registry.resolveDeep t).Mentions v} ∧
      W.right.registry.resolveDeep u =
        (W.left.registry.resolveDeep t).subst (fill fun v => .flex (f v)) := by
  refine Like.exists_rename h ?_ ?_ ?_
  · rintro k _ _ (⟨h⟩ | ⟨⟨⟩⟩)
    exact ⟨_, _, rfl, rfl⟩
  · rintro k k' _ _ _ (⟨h⟩ | ⟨⟨⟩⟩) (⟨h'⟩ | ⟨⟨⟩⟩)
    rw [(W.unique h h' (.inl rfl)).2.2]
  · rintro k k' _ _ _ (⟨h⟩ | ⟨⟨⟩⟩) (⟨h'⟩ | ⟨⟨⟩⟩)
    rw [(W.unique h h' (.inr rfl)).2.1]

/-- The types that are found at the end differ in the names of variables. -/
theorem Infers.infer {e e' : Expr} {env env' : Env}
    (h : W.Infers (e.inferHead env) (e'.inferHead env')) :
    W.Together (e.infer env) (e'.infer env') fun _ t u => ∃ f : Nat → Nat,
      Set.InjOn f {v | t.Mentions v} ∧ u = t.subst (fill fun v => .flex (f v)) := by
  intro s s' hs hs'
  have hends := h s s' hs hs'
  generalize hleft : (e.inferHead env).run s = p at hends
  generalize hright : (e'.inferHead env').run s' = q at hends
  cases hends with
  | ok W' hle left right htu =>
    rw [Expr.infer_ok hleft, Expr.infer_ok hright, left, right]
    exact .ok W' hle left right htu.alike.exists_rename
  | error =>
    rw [Expr.infer_error hleft, Expr.infer_error hright]
    exact .error

end World

namespace Expr

variable {env : Env} {value body : Expr} {x : String} {s s₁ s₂ : State}

theorem infer_letIn_ok {t : Ty} {σ : Scheme} (hvalue : (value.inferHead env).run s = .ok t s₁)
    (hgen : (generalizeIn env t : Check Located Scheme).run s₁ = .ok σ s₂) (span : Span) :
    ((Expr.letIn span x false none value body).infer env).run s =
      (body.infer (env.addValue x σ)).run s₂ := by
  have hbinding : (inferBinding env span x false none fun env => value.inferHead env).run s =
      .ok σ s₂ := by
    rw [inferBinding_eq, boundType_plain, run_bind_ok hvalue, hgen]
  rw [infer, inferHead, bind_assoc, run_bind_ok hbinding]
  rfl

theorem infer_letIn_error {l : Located} (hvalue : (value.inferHead env).run s = .error l s₁)
    (span : Span) : ((Expr.letIn span x false none value body).infer env).run s = .error l s₁ := by
  have hbinding : (inferBinding env span x false none fun env => value.inferHead env).run s =
      .error l s₁ := by
    rw [inferBinding_eq, boundType_plain, run_bind_error hvalue]
  refine infer_error ?_
  rw [inferHead, run_bind_error hbinding]

end Expr

/-- The body with the scheme of the value and the body with the value written out
are inferred together. -/
theorem FirstRun.infers_body {value body : Expr} (d : FirstRun env value σ) (henv : env.IsCore)
    (hvalue : value.Core) (hbody : body.Core)
    (hbinders : ∀ y ∈ body.binders, y ≠ x ∧ y ∉ value.freeNames) {T : Stage True}
    (hS : S.registry.Sound) (hT : T.registry.Sound) (hσ : S.HostsScheme σ)
    (hsettled : σ.body.Settled) :
    (World.start S T hS hT).Infers (body.inferHead (env.addValue x σ))
      ((body.inline fun y => if y = x then some value else none).inferHead env) := by
  have hother : ∀ y, y ≠ x → (env.addValue x σ).value? y = env.value? y := fun y hy => by
    rw [Env.value?_addValue, if_neg hy]
  refine Expr.infers_inline (I := d.inliner henv hvalue x) body hbody
    (N := (· ≠ x)) ⟨?_, fun y _ hy => ?_, ⟨hσ, ?_, fun _ _ => rfl⟩, fun y hy => ?_⟩
  · refine World.start_envs ((henv.openEnv S).addValue x hσ hsettled) (henv.openEnv T)
      (fun y hy => (hother y hy).symm) fun y σ' hy hσ' => ?_
    rw [hother y hy] at hσ'
    exact henv.schemes _ (mem_of_lookup hσ')
  · rintro rfl
    simp [inliner] at hy
  · rw [Env.value?_addValue, if_pos rfl]
  · obtain ⟨hyx, hfree⟩ := hbinders y hy
    refine ⟨if_neg hyx, fun z v hv => ?_⟩
    simp only [inliner, Option.ite_none_right_eq_some, Option.some.injEq] at hv
    rwa [← hv.2]

/-- A `let` and its inlined form have the same types. From any ordered states, the `let`
is accepted just if the value and the body with the value in the place of the name
are, and then the two types differ in the names of variables only. -/
theorem infer_letIn_iff_inline {env : Env} {value body : Expr} {x : String} {s s₁ s₂ : State}
    (hs : s.Ordered) (hs₁ : s₁.Ordered) (hs₂ : s₂.Ordered) (henv : env.IsCore)
    (hvalue : value.Core) (hbody : body.Core)
    (hbinders : ∀ y ∈ body.binders, y ≠ x ∧ y ∉ value.freeNames) (span : Span) :
    let inlined := body.inline fun y => if y = x then some value else none
    ((∃ t s', ((Expr.letIn span x false none value body).infer env).run s = .ok t s') ↔
      (∃ t s', (value.infer env).run s₁ = .ok t s') ∧
      ∃ t s', (inlined.infer env).run s₂ = .ok t s') ∧
    ∀ t u s' s₂', ((Expr.letIn span x false none value body).infer env).run s = .ok t s' →
      (inlined.infer env).run s₂ = .ok u s₂' → ∃ f : Nat → Nat,
        Set.InjOn f {v | t.Mentions v} ∧ u = t.subst (Ty.fill fun v => .flex (f v)) := by
  intro inlined
  obtain ⟨S, hS, hsound⟩ := hs
  obtain ⟨S₁, hS₁, hsound₁⟩ := hs₁
  obtain ⟨S₂, hS₂, hsound₂⟩ := hs₂
  have hreg : S.registry.Sound := hS ▸ (hsound trivial).registry
  have hreg₁ : S₁.registry.Sound := hS₁ ▸ (hsound₁ trivial).registry
  have hreg₂ : S₂.registry.Sound := hS₂ ▸ (hsound₂ trivial).registry
  have hends := Expr.infers_self hvalue hreg hreg₁ henv (henv.openEnv S₁) (fun _ _ => rfl)
    s s₁ hS hS₁
  generalize hleft : (value.inferHead env).run s = p at hends
  generalize hright : (value.inferHead env).run s₁ = q at hends
  cases hends with
  | error =>
    rw [Expr.infer_letIn_error hleft, Expr.infer_error hright]
    simp
  | ok W hle left right htu =>
    obtain ⟨σ, s₃, S₃, hgen, hs₃, hreg₃, hσ, hsettled, ⟨d⟩⟩ :=
      Expr.exists_firstRun hvalue henv hreg hS hleft
    have hbodies := (d.infers_body henv hvalue hbody hbinders hreg₃ hreg₂ hσ hsettled).infer
      s₃ s₂ hs₃ hS₂
    rw [Expr.infer_letIn_ok hleft hgen, Expr.infer_ok hright]
    generalize hl : (body.infer (env.addValue x σ)).run s₃ = p at hbodies ⊢
    generalize hr : (inlined.infer env).run s₂ = q at hbodies ⊢
    cases hbodies with
    | error => simp
    | ok W' _ _ _ hrename =>
      refine ⟨⟨fun _ => ⟨⟨_, _, rfl⟩, _, _, rfl⟩, fun _ => ⟨_, _, rfl⟩⟩, ?_⟩
      rintro t u s' s₂' ⟨⟩ ⟨⟩
      exact hrename

/-- A function that selects the field `x`, used for a record and handed on. -/
def selector : Expr := .lam {} "r" none (.app {} (.var {} "get") (.var {} "r"))

def selectorTwice : Expr :=
  .lam {} "z" none (.tuple {}
    [.app {} (.var {} "f") (.record {} [("x", .lit {} .int), ("y", .var {} "z")]), .var {} "f"])

/-- Where the value is written out it is inferred twice, and the variables that stay
open have other numbers. -/
theorem selectorTwice_inlined :
    let whole := Expr.letIn {} "f" false none selector selectorTwice
    let inlined := selectorTwice.inline fun y => if y = "f" then some selector else none
    let found (z v w : Nat) : Ty :=
      .arrow (.flex z) (.tuple [.int, .arrow (.record [("x", .flex v)] (.flex w)) (.flex v)])
    State.Ordered {} ∧ selecting.IsCore ∧ selector.Core ∧ selectorTwice.Core ∧
      "z" ∈ selectorTwice.binders ∧
      (∀ y ∈ selectorTwice.binders, y ≠ "f" ∧ y ∉ selector.freeNames) ∧
      (∃ s, (whole.infer selecting).run {} = .ok (found 4 9 8) s) ∧
      (∃ t s, (selector.infer selecting).run {} = .ok t s) ∧
      (∃ s, (inlined.infer selecting).run {} = .ok (found 0 8 7) s) ∧
      ∃ f : Nat → Nat, Set.InjOn f {v | (found 4 9 8).Mentions v} ∧
        found 0 8 7 = (found 4 9 8).subst (Ty.fill fun v => .flex (f v)) := by
  intro whole inlined found
  have hvalue : selector.Core := by simp [selector, Expr.Core]
  have hbody : selectorTwice.Core := by
    simp [selectorTwice, Expr.Core, Expr.CoreList, Expr.CoreFields]
  have hmem : "z" ∈ selectorTwice.binders := by decide +kernel
  have hbinders : ∀ y ∈ selectorTwice.binders, y ≠ "f" ∧ y ∉ selector.freeNames := by
    decide +kernel
  have hwhole : (whole.infer selecting).result? {} = some (found 4 9 8) := by decide +kernel
  have hinlined : (inlined.infer selecting).result? {} = some (found 0 8 7) := by decide +kernel
  have hwhole := Check.run_of_result? hwhole
  have hinlined := Check.run_of_result? hinlined
  have hsame := infer_letIn_iff_inline State.ordered_empty State.ordered_empty State.ordered_empty
    selecting_isCore hvalue hbody hbinders {}
  exact ⟨State.ordered_empty, selecting_isCore, hvalue, hbody, hmem, hbinders, ⟨_, hwhole⟩,
    (hsame.1.mp ⟨_, _, hwhole⟩).1, ⟨_, hinlined⟩, hsame.2 _ _ _ _ hwhole hinlined⟩

/-- The result has the label `y` twice, and its type shows the first one only. -/
def repeatedLabel : Expr :=
  .lam {} "p" none (.app {} (.var {} "g") (.record {} [("x", .lit {} .int), ("y", .var {} "p")]))

def sameAsArgument : Expr :=
  .lam {} "q" none
    (.ifThenElse {} (.lit {} .bool) (.app {} (.var {} "f") (.var {} "q")) (.var {} "q"))

/-- A label that repeats is lost in the scheme. The value written out keeps it, and
then the argument would stand in its own type. -/
theorem sameAsArgument_not_inlined :
    let whole := Expr.letIn {} "f" false none repeatedLabel sameAsArgument
    let inlined := sameAsArgument.inline fun y => if y = "f" then some repeatedLabel else none
    (∀ e ∈ misaligned.values, e.2.body.All Ty.IsOrdinary ∧
        ∀ x ∈ e.2.body.occurrences, ∃ g ∈ e.2.vars, x = .gen g) ∧
      repeatedLabel.Core ∧ sameAsArgument.Core ∧
      (∀ y ∈ sameAsArgument.binders, y ≠ "f" ∧ y ∉ repeatedLabel.freeNames) ∧
      (whole.infer misaligned).result? {} ≠ none ∧
      (repeatedLabel.infer misaligned).result? {} ≠ none ∧
      (inlined.infer misaligned).result? {} = none := by
  refine ⟨List.forall_mem_singleton.mpr ⟨?_, ?_⟩, ?_, ?_, ?_, ?_, ?_, ?_⟩
  · exact misaligned_ordinary
  · decide +kernel
  · simp [repeatedLabel, Expr.Core, Expr.CoreFields]
  · simp [sameAsArgument, Expr.Core]
  · decide +kernel
  · decide +kernel
  · decide +kernel
  · decide +kernel

end RowTyping
