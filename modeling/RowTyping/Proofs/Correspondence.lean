import RowTyping.Proofs.ComparedPatterns

/-!
# Two runs of the checker

Runs on expressions and declarations whose states and environments are the same to a
comparison take the same steps, and what they yield is the same to it again.
-/

namespace RowTyping

open Check Table Ty List

variable {C : Comparison}

/-! ## Expressions -/

section

variable [Steady C.toFrame] (env env' : Env) [henv : C.Like env env'] (span : Span)

theorem corresponds_paramType (ann : Option TypeExpr)
    (h : ∀ l ∈ ann.elim [] (·.words), C.Label l) :
    C.Agrees (paramType env span ann) (paramType env' (C.span span) ann) := by
  cases ann with
  | none => exact corresponds_freshVar
  | some e => exact e.corresponds_annotated env env' span h

theorem corresponds_boundType (name : String) (isRec : Bool) (ann : Option TypeExpr)
    (h : ∀ l ∈ ann.elim [] (·.words), C.Label l) (value value' : Env → Check Located Ty)
    [∀ env, C.Onward (value env)]
    [hvalue : ∀ p : Couple C.toPairing Env, C.Agrees (value p.fst) (value' p.snd)] :
    C.Agrees (boundType env span name isRec ann value)
      (boundType env' (C.span span) name isRec ann value') := by
  have hvalue (env env') [h : C.Like env env'] : C.Agrees (value env) (value' env') :=
    hvalue ⟨env, env', h.alike⟩
  unfold boundType
  cases ann with
  | none => cases isRec <;> infer_instance
  | some e =>
    have := e.corresponds_annotated env env' span h
    cases isRec <;> simp only [Bool.false_eq_true, if_false, if_true, pure_bind] <;> infer_instance

theorem corresponds_inferBinding (name : String) (isRec : Bool) (ann : Option TypeExpr)
    (h : ∀ l ∈ ann.elim [] (·.words), C.Label l) (value value' : Env → Check Located Ty)
    [∀ env, C.Onward (value env)]
    [hvalue : ∀ p : Couple C.toPairing Env, C.Agrees (value p.fst) (value' p.snd)] :
    C.Agrees (inferBinding env span name isRec ann value)
      (inferBinding env' (C.span span) name isRec ann value') := by
  have := corresponds_boundType env env' span name isRec ann h value value'
  rw [inferBinding_eq, inferBinding_eq]
  infer_instance

omit [Steady C.toFrame] in
theorem alike_applied? (func : Expr) :
    Pairable.Alike C.anyName (env.applied? func) (env'.applied? func) := by
  unfold Env.applied?
  split
  · exact alike_lookup henv.alike.1 _
  · exact alike_lookup henv.alike.1 _
  · exact .none

instance corresponds_callee (func : Expr) : C.Agrees (env.callee func) (env'.callee func) := by
  have happlied := alike_applied? (C := C) env env' func
  unfold Env.callee
  generalize env.applied? func = a, env'.applied? func = b at happlied
  cases happlied with
  | none => exact corresponds_pure none none
  | @some σ τ h =>
    have hctor := isSome_eq (C.ctor? h.2)
    have : C.Like σ τ := ⟨h.1, h.2⟩
    have (t u : Ty) [h : C.Like t u] : C.Like t.ctor? u.ctor? := ⟨C.ctor? h.alike⟩
    rw [Option.filter_some, Option.filter_some, hctor]
    cases τ.body.ctor?.isSome
    · exact corresponds_pure none none
    · exact inferInstanceAs
        (C.Agrees (do return (← instantiate σ).ctor?) (do return (← instantiate τ).ctor?))

instance onward_member (owner name : String) (t : Ty) : C.Onward (t.member span owner name) := by
  unfold Ty.member
  split <;> infer_instance

instance alike_asValue (t u : Ty) [h : C.Like t u] : C.Like t.asValue u.asValue := by
  have hctor := C.ctor? h.alike
  unfold Ty.asValue
  generalize t.ctor? = c, u.ctor? = d at hctor
  cases hctor with
  | none => exact h
  | @some c d hc =>
    obtain ⟨_, owner, arg⟩ := c
    obtain ⟨_, owner', arg'⟩ := d
    obtain ⟨-, howner, harg⟩ := hc
    have := Akin.mk howner
    cases harg with
    | none => exact ⟨howner⟩
    | some harg =>
      have := Akin.mk harg
      exact alike_arrow _ _ _ _

instance corresponds_inferPath (owner name : String) :
    C.Agrees (inferPath env span owner name) (inferPath env' (C.span span) owner name) := by
  have hmember (s t : State) (hst : C.At s t) (a b : Ty) [h : C.Like a b] :
      C.Agrees ((s.registry.resolve a).member span owner name)
        ((t.registry.resolve b).member (C.span span) owner name) := by
    have hmembers := C.members hst h.alike
    unfold Ty.member
    generalize (s.registry.resolve a).members? = m, (t.registry.resolve b).members? = m' at hmembers
    cases hmembers with
    | none => exact corresponds_throw_located rfl span
    | @some m m' hm =>
      have : C.Agrees (m.find span name) (m'.find (C.span span) name) :=
        ⟨(corresponds_find_of span name hm).tracks.imp fun σ τ h => ⟨h.1, C.ofNamed h.2⟩⟩
      infer_instance
  have (p : Couple C.toPairing Ty) :
      C.Agrees (do ((← registry).resolve p.fst).member span owner name)
      (do ((← registry).resolve p.snd).member (C.span span) owner name) :=
    corresponds_registry fun s t hst => hmember s t hst p.fst p.snd
  rw [inferPath_eq, inferPath_eq]
  infer_instance

end

namespace Expr

variable [Steady C.toFrame]

mutual

theorem corresponds_inferHead : ∀ e : Expr, (∀ l ∈ e.words, C.Label l) →
    ∀ (env env' : Env) [C.Like env env'],
      C.Agrees (e.inferHead env) ((e.mapSpan C.span).inferHead env')
  | .lit _ b, _, env, env', _ => by
    simp only [mapSpan, inferHead]
    infer_instance
  | .var span x, _, env, env', _ => by
    simp only [mapSpan, inferHead]
    infer_instance
  | .path span m x, _, env, env', _ => by
    simp only [mapSpan, inferHead]
    infer_instance
  | .lam span x ann body, h, env, env', _ => by
    simp only [mapSpan, inferHead]
    have := corresponds_paramType env env' span ann fun l hl => h l (by simp [words, hl])
    have := corresponds_inferHead body fun l hl => h l (by simp [words, hl])
    infer_instance
  | .app span func arg, h, env, env', _ => by
    simp only [mapSpan, inferHead, callee_mapSpan]
    have := corresponds_inferHead func fun l hl => h l (by simp [words, hl])
    have := corresponds_inferHead arg fun l hl => h l (by simp [words, hl])
    refine (corresponds_callee env env' func).split (fun c => ?_) fun c c' hc => ?_
    · cases c <;> infer_instance
    · cases hc with
      | none => infer_instance
      | some hc =>
        have := Akin.mk hc
        infer_instance
  | .letIn span x isRec ann value body, h, env, env', _ => by
    simp only [mapSpan, inferHead]
    have := corresponds_inferHead value fun l hl => h l (by simp [words, hl])
    have := corresponds_inferHead body fun l hl => h l (by simp [words, hl])
    have := corresponds_inferBinding env env' span x isRec ann
      (fun l hl => h l (by simp [words, hl]))
      (fun env => value.inferHead env) fun env => (value.mapSpan C.span).inferHead env
    infer_instance
  | .ifThenElse span cond thenE elseE, h, env, env', _ => by
    simp only [mapSpan, inferHead, span_mapSpan]
    have := corresponds_inferHead cond fun l hl => h l (by simp [words, hl])
    have := corresponds_inferHead thenE fun l hl => h l (by simp [words, hl])
    have := corresponds_inferHead elseE fun l hl => h l (by simp [words, hl])
    infer_instance
  | .tuple _ items, h, env, env', _ => by
    simp only [mapSpan, inferHead]
    have := corresponds_inferList items fun l hl => h l (by simp [words, hl])
    infer_instance
  | .record span fields, h, env, env', _ => by
    simp only [mapSpan, inferHead]
    have := corresponds_inferFields fields fun l hl => h l (by simp [words, hl])
    infer_instance
  | .field span whole label, h, env, env', _ => by
    simp only [mapSpan, inferHead]
    have : C.Like label label := ⟨rfl, h label (by simp [words])⟩
    have := corresponds_inferHead whole fun l hl => h l (by simp [words, hl])
    infer_instance
  | .update span whole changes, h, env, env', _ => by
    simp only [mapSpan, inferHead]
    have := corresponds_inferHead whole fun l hl => h l (by simp [words, hl])
    have := corresponds_inferFields changes fun l hl => h l (by simp [words, hl])
    infer_instance
  | .construct span c none, _, env, env', _ => by
    simp only [mapSpan, inferHead]
    infer_instance
  | .construct span c (some arg), h, env, env', _ => by
    simp only [mapSpan, inferHead]
    have := corresponds_inferHead arg fun l hl => h l (by simp [words, hl])
    infer_instance
  | .cases span scrutinee arms, h, env, env', _ => by
    simp only [mapSpan, inferHead]
    have := corresponds_inferHead scrutinee fun l hl => h l (by simp [words, hl])
    have := corresponds_inferArms arms fun l hl => h l (by simp [words, hl])
    infer_instance
  | .annotate span inner ann, h, env, env', _ => by
    simp only [mapSpan, inferHead]
    have := corresponds_inferHead inner fun l hl => h l (by simp [words, hl])
    have := ann.corresponds_annotated env env' span fun l hl => h l (by simp [words, hl])
    infer_instance

theorem corresponds_inferList : ∀ es : List Expr, (∀ l ∈ wordsList es, C.Label l) →
    ∀ (env env' : Env) [C.Like env env'],
      C.Agrees (inferList env es) (inferList env' (mapSpanList C.span es))
  | [], _, env, env', _ => by
    simp only [mapSpanList, inferList]
    infer_instance
  | e :: es, h, env, env', _ => by
    simp only [mapSpanList, inferList]
    have := corresponds_inferHead e fun l hl => h l (by simp [wordsList, hl])
    have := corresponds_inferList es fun l hl => h l (by simp [wordsList, hl])
    infer_instance

theorem corresponds_inferFields : ∀ es : List (String × Expr), (∀ l ∈ wordsFields es, C.Label l) →
    ∀ (env env' : Env) (span : Span) (fs gs : Table Ty) [C.Like env env'] [C.Like fs gs],
      C.Agrees (inferFields env span es fs)
        (inferFields env' (C.span span) (mapSpanFields C.span es) gs)
  | [], _, env, env', span, fs, gs, _, _ => by
    simp only [mapSpanFields, inferFields]
    infer_instance
  | (l, e) :: es, h, env, env', span, fs, gs, _, hfs => by
    simp only [mapSpanFields, inferFields, isSome_eq (alike_lookup hfs.alike l)]
    have : C.Like l l := ⟨rfl, h l (by simp [wordsFields])⟩
    have := corresponds_inferHead e fun l hl => h l (by simp [wordsFields, hl])
    have := corresponds_inferFields es fun l hl => h l (by simp [wordsFields, hl])
    infer_instance

theorem corresponds_inferArms : ∀ arms : List (Pattern × Expr), (∀ l ∈ wordsArms arms, C.Label l) →
    ∀ (env env' : Env) (span : Span) (t t' u u' : Ty) [C.Like env env'] [C.Like t t'] [C.Like u u'],
      C.Agrees (inferArms env span t u arms)
        (inferArms env' (C.span span) t' u' (mapSpanArms C.span arms))
  | [], _, env, env', span, t, t', u, u', _, _, _ => by
    simp only [mapSpanArms, inferArms]
    infer_instance
  | (p, body) :: arms, h, env, env', span, t, t', u, u', _, _, _ => by
    simp only [mapSpanArms, inferArms, span_mapSpan]
    have := p.corresponds_check env env' span fun l hl => h l (by simp [wordsArms, hl])
    have := corresponds_inferHead body fun l hl => h l (by simp [wordsArms, hl])
    have := corresponds_inferArms arms fun l hl => h l (by simp [wordsArms, hl])
    infer_instance

end

end Expr

/-! ## Declarations -/

/-- What two declarations may make a name stand for is the same, given the identities of
the types and their parameters. -/
structure Comparison.Declared (C : Comparison) (i j : Nat) (args args' : List (String × Ty)) :
    Prop where
  alike : Pairable.Alike C.named args args'
  variant : C.Named (.variant i args) (.variant j args')
  abstract : C.Named (.abstract i args) (.abstract j args')
  synonym : ∀ {t u : Ty}, C.Named t u → C.Named (.synonymOf i args t) (.synonymOf j args' u)

/-- What declarations respect as well. -/
structure Declares (C : Comparison) : Prop where
  toNamed : ∀ {t u}, C.Same t u → C.Named t u
  resolveDeep : ∀ {s t : State} {a b : Ty}, C.At s t → C.Same a b →
    C.Same (s.registry.resolveDeep a) (t.registry.resolveDeep b)
  addType : ∀ {s t : State}, C.At s t → C.Lost { s with registry := s.registry.addType } ∨
    C.At { s with registry := s.registry.addType } { t with registry := t.registry.addType } ∧
      ∀ args args', Pairable.Alike C.named args args' →
        C.Declared s.registry.nextType t.registry.nextType args args'
  typeDeclared : ∀ {s t : State} (name : String) (n : Nat), C.At s t →
    C.At { s with log := s.log.push (.typeDeclared name n) }
      { t with log := t.log.push (.typeDeclared name n) }
  ofModule : ∀ {name : String} {members members' : Env}, C.Label name →
    Pairable.Alike C.toPairing members members' →
      C.Named (.module name members) (.module name members')

theorem Expr.corresponds_infer [Steady C.toFrame] (hC : Declares C) (e : Expr)
    (he : ∀ l ∈ e.words, C.Label l)
    (env env' : Env) [C.Like env env'] :
    C.Agrees (e.infer env) ((e.mapSpan C.span).infer env') := by
  have := corresponds_inferHead e he
  have (p : Couple C.toPairing Ty) :
      C.Agrees (do return (← registry).resolveDeep p.fst : Check Located Ty)
      (do return (← registry).resolveDeep p.snd) :=
    corresponds_registry fun s t hst => ⟨tracks_pure (hC.resolveDeep hst p.alike)⟩
  unfold infer
  infer_instance

instance onward_caseArg [Steady C.toFrame] {env : Env} (span : Span) (scope : Scope)
    (arg : Option TypeExpr) :
    C.Onward (caseArg env span scope arg) := by
  cases arg <;> unfold caseArg <;> infer_instance

instance onward_declareCases [Steady C.toFrame] (span : Span) (scope : Scope) (gens : List Nat)
    (owner : Ty) :
    ∀ (cases : List (String × Option TypeExpr)) (env : Env),
      C.Onward (declareCases span scope gens owner cases env)
  | [], env => by
    rw [declareCases]
    infer_instance
  | (name, arg) :: cases, env => by
    have := onward_declareCases span scope gens owner cases
    rw [declareCases]
    infer_instance

theorem alike_ofParams {V : Pairing} {args args' : Table Ty} (h : Pairable.Alike V args args') :
    (Scope.ofParams args).Alike V true (.ofParams args') := by
  refine ⟨rfl, ?_⟩
  exact alike_foldl (fun t u l a b hl ht hab =>
    (@alike_insert _ _ V l a b t u ⟨hl⟩ ⟨hab⟩ ⟨ht⟩).alike) h .nil

section

variable [Steady C.toFrame] (hC : Declares C) (span : Span)

theorem corresponds_caseArg {env env' : Env} [C.Like env env'] {scope scope' : Scope}
    (hscope : scope.Alike C.named true scope') (arg : Option TypeExpr)
    (harg : ∀ l ∈ arg.elim [] (·.words), C.Label l) :
    Corresponds C.toFrame C.named (caseArg env span scope arg)
      (caseArg env' (C.span span) scope' arg) := by
  cases arg with
  | none => exact corresponds_pure none none
  | some e =>
    have : Corresponds C.toFrame C.named (e.denote env scope) (e.denote env' scope') :=
      @TypeExpr.corresponds_denote C true _ env env' _ e harg _ _ hscope
    unfold caseArg
    infer_instance

theorem tracks_declareCases {scope scope' : Scope} (hscope : scope.Alike C.named true scope')
    (gens gens' : List Nat) [hgens : C.Like gens gens'] (owner owner' : Ty)
    [howner : Akin C.named owner owner'] : ∀ (cases : List (String × Option TypeExpr)),
    (∀ l ∈ (TypeDef.variant cases).words, C.Label l) → ∀ (env env' : Env) [C.Like env env'],
      Tracks C.toFrame (fun r r' => Pairable.Alike C.toPairing (r.1, Declared.mk r.2 [])
          (r'.1, Declared.mk r'.2 []))
        (declareCases span scope gens owner cases env)
        (declareCases (C.span span) scope' gens' owner' cases env')
  | [], _, env, env', henv => tracks_pure ⟨henv.alike, .nil, .nil⟩
  | (name, arg) :: cases, h, env, env', henv => by
    obtain ⟨harg, hcases⟩ := forall_mem_append.mp h
    rw [declareCases, declareCases]
    refine (corresponds_caseArg span hscope arg harg).tracks.bind fun a a' ha => ?_
    have hctor : C.Named (.ctor name owner a) (.ctor name owner' a') := by
      refine C.namedBuilds.con rfl (by simp) (.cons howner.alike ?_)
      cases ha with
      | none => exact .nil
      | some h => exact .cons h .nil
    have : C.Like (⟨gens, .ctor name owner a⟩ : Scheme) ⟨gens', .ctor name owner' a'⟩ :=
      ⟨hgens.alike, C.ofNamed hctor⟩
    refine (tracks_declareCases hscope gens gens' owner owner' cases hcases _ _).bind
      fun r r' hr => ?_
    exact tracks_pure ⟨hr.1, .cons ⟨⟨rfl, trivial⟩, this.alike⟩ hr.2.1, .nil⟩

include hC

theorem corresponds_declareType {env env' : Env} [henv : C.Like env env'] (name : String)
    (params : List String) (hparams : ∀ l ∈ params, C.Label l) (definition : TypeDef)
    (hdef : ∀ l ∈ definition.words, C.Label l) :
    C.Agrees (declareType env span name params definition)
      (declareType env' (C.span span) name params definition) := by
  have hend : ∀ (r r' : Env × Declared), Pairable.Alike C.toPairing r r' →
      C.Agrees (do emit (.typeDeclared name r.2.values.length); return r : Check Located _)
        (do emit (.typeDeclared name r'.2.values.length); return r') := by
    refine fun r r' h => ⟨fun s t hst => ?_⟩
    rw [show r.2.values.length = r'.2.values.length from h.2.1.length_eq]
    exact .ok (hC.typeDeclared name _ hst) h
  have hparams : C.Like params params := ⟨forall₂_same.mpr fun l hl => ⟨rfl, hparams l hl⟩⟩
  have hstart : ∀ {f g : Nat → List (String × Nat) → Check Located (Env × Declared)},
      (∀ i es, C.Onward (f i es)) → (∀ i j es es', C.Like (es.map (·.2)) (es'.map (·.2)) →
        C.Declared i j (es.map fun e => (e.1, gen e.2)) (es'.map fun e => (e.1, gen e.2)) →
        C.Agrees (f i es) (g j es')) →
      C.Agrees (do f (← freshType) (← freshFor freshGen params))
        (do g (← freshType) (← freshFor freshGen params)) := by
    intro f g _ hfg
    constructor
    refine Tracks.bind (Q := fun i j => ∀ args args', Pairable.Alike C.named args args' →
      C.Declared i j args args') (fun s t hst => ?_) fun i j hnew => ?_
    · exact (hC.addType hst).elim (fun h => .excused h) fun h => .ok h.1 h.2
    · refine Tracks.bind
        (corresponds_freshFor (V := C.toPairing) freshGen freshGen params params).tracks
        fun es es' hes => ?_
      have : C.Like es es' := ⟨hes⟩
      refine (hfg i j es es' inferInstance (hnew _ _ ?_)).tracks
      exact forall₂_map_left_iff.mpr (forall₂_map_right_iff.mpr
        (hes.imp fun _ _ h => ⟨h.1, C.gen h.2⟩))
  have hadded : ∀ σ τ : Scheme, Akin C.named σ τ → Pairable.Alike C.toPairing
      (env.addType name σ, Declared.mk [] [(name, σ)])
        (env'.addType name τ, Declared.mk [] [(name, τ)]) :=
    fun σ τ h =>
      ⟨(alike_addType env env' name σ τ).alike, .nil, .cons ⟨⟨rfl, trivial⟩, h.alike⟩ .nil⟩
  cases definition with
  | variant cases =>
    refine hstart inferInstance fun i j es es' hgens hnew => ?_
    have : Akin C.named (variant i (es.map fun e => (e.1, gen e.2)))
      (.variant j (es'.map fun e => (e.1, gen e.2))) := ⟨hnew.variant⟩
    have : Akin C.named (⟨es.map (·.2), .variant i (es.map fun e => (e.1, gen e.2))⟩ : Scheme)
      ⟨es'.map (·.2), .variant j (es'.map fun e => (e.1, gen e.2))⟩ := ⟨hgens.alike, hnew.variant⟩
    refine ⟨(tracks_declareCases span (alike_ofParams hnew.alike) _ _ _ _ cases hdef _ _).bind
      fun r r' hr => ?_⟩
    exact (hend (r.1, .mk r.2 [(name, _)]) (r'.1, .mk r'.2 [(name, _)])
      ⟨hr.1, hr.2.1, (hadded _ _ this).2.2⟩).tracks
  | synonym target =>
    refine hstart inferInstance fun i j es es' hgens hnew => ?_
    have : Corresponds C.toFrame C.named (target.denote env _) (target.denote env' _) :=
      @TypeExpr.corresponds_denote C true _ _ env' _ target hdef _ _ (alike_ofParams hnew.alike)
    refine ⟨(corresponds_located (V := C.named) span _ _).tracks.bind fun t u htu => ?_⟩
    exact (hend _ _ (hadded ⟨_, _⟩ ⟨_, _⟩ ⟨hgens.alike, hnew.synonym htu⟩)).tracks
  | abstract =>
    refine hstart inferInstance fun i j es es' hgens hnew => ?_
    exact hend _ _ (hadded ⟨_, _⟩ ⟨_, _⟩ ⟨hgens.alike, hnew.abstract⟩)

end

instance alike_values (x : String) (σ τ : Scheme) [h : C.Like σ τ] :
    C.Like (Declared.mk [(x, σ)] []) ⟨[(x, τ)], []⟩ := ⟨.cons ⟨⟨rfl, trivial⟩, h.alike⟩ .nil, .nil⟩

instance alike_empty : C.Like Env.empty .empty := ⟨.nil, .nil⟩

/-- What is exported is the same. -/
theorem alike_exportTo {V : Pairing} {d d' : Declared} (h : Pairable.Alike V d d')
    {members members' : Env}
    (hm : Pairable.Alike V members members') :
    Pairable.Alike V (d.exportTo members) (d'.exportTo members') := by
  have hfilter : ∀ {as bs : List (String × Scheme)}, Pairable.Alike V.anyName as bs →
      Pairable.Alike V.anyName (as.filter (·.1 ≠ expressionName))
        (bs.filter (·.1 ≠ expressionName)) := by
    intro as bs h
    induction h with
    | nil => exact .nil
    | @cons a b _ _ hab _ ih =>
      rw [filter_cons, filter_cons, show a.1 = b.1 from hab.1.1]
      split
      · exact .cons hab ih
      · exact ih
  refine alike_foldl (W := V.anyName.named) (fun b b' x σ τ _ hb h =>
    (@alike_addType V b b' ⟨hb⟩ x σ τ ⟨h⟩).alike) h.2 ?_
  exact alike_foldl (W := V.anyName) (fun b b' x σ τ _ hb h =>
    (@alike_addValue V b b' ⟨hb⟩ x σ τ ⟨h⟩).alike) (hfilter h.1) hm

namespace Decl

variable [Steady C.toFrame]

mutual

theorem corresponds_check (hC : Declares C) : ∀ d : Decl, (∀ l ∈ d.words, C.Label l) →
    ∀ (env env' : Env) [C.Like env env'], C.Agrees (d.check env) ((d.mapSpan C.span).check env')
  | .value span name isRec ann body, h, env, env', _ => by
    simp only [mapSpan, check]
    have := body.corresponds_inferHead fun l hl => h l (by simp [words, hl])
    have := corresponds_inferBinding env env' span name isRec ann
      (fun l hl => h l (by simp [words, hl]))
      (fun env => body.inferHead env) fun env => (body.mapSpan C.span).inferHead env
    infer_instance
  | .type span name params definition, h, env, env', _ => by
    simp only [mapSpan, check]
    exact corresponds_declareType hC span name params (fun l hl => h l (by simp [words, hl]))
      definition
      fun l hl => h l (by simp [words, hl])
  | .module _ name ds, h, env, env', _ => by
    simp only [mapSpan, check]
    have := corresponds_checkMembers hC ds fun l hl => h l (by simp [words, hl])
    have (p : Couple C.toPairing Env) : C.Like (Ty.module name p.fst) (.module name p.snd) :=
      ⟨C.ofNamed (hC.ofModule (h name (by simp [words])) p.alike)⟩
    infer_instance
  | .expr _ body, h, env, env', _ => by
    simp only [mapSpan, check]
    have := body.corresponds_infer hC fun l hl => h l (by simp [words, hl])
    infer_instance

theorem corresponds_checkMembers (hC : Declares C) :
    ∀ ds : List Decl, (∀ l ∈ wordsList ds, C.Label l) →
    ∀ (env env' members members' : Env) [C.Like env env'] [C.Like members members'],
      C.Agrees (checkMembers env members ds) (checkMembers env' members' (mapSpanList C.span ds))
  | [], _, env, env', members, members', _, _ => by
    simp only [mapSpanList, checkMembers]
    infer_instance
  | d :: ds, h, env, env', members, members', _, hm => by
    simp only [mapSpanList, checkMembers]
    have := corresponds_check hC d fun l hl => h l (by simp [wordsList, hl])
    have := corresponds_checkMembers hC ds fun l hl => h l (by simp [wordsList, hl])
    have (p : Couple C.toPairing (Env × Declared)) :
        C.Like (p.fst.2.exportTo members) (p.snd.2.exportTo members') :=
      ⟨alike_exportTo p.alike.2 hm.alike⟩
    infer_instance

end

end Decl

end RowTyping
