import RowTyping.Proofs.Comparison

/-!
# Written types, side by side

Two readers of a written type whose labels stand for types that are the same come to
types that are the same.
-/

namespace RowTyping

open Check Table Ty List

variable {C : Comparison}

/-- The labels of two scopes of one kind stand for types that are the same. -/
def Scope.Alike (V : Pairing) (isFixed : Bool) : Scope → Scope → Prop
  | .flexible ls, .flexible ls' => isFixed = false ∧ Pairable.Alike V ls ls'
  | .fixed ls, .fixed ls' => isFixed = true ∧ Pairable.Alike V ls ls'
  | _, _ => False

/-- The states of two readers, whose scopes are related. -/
def Frame.reading (F : Frame State) (A : Scope → Scope → Prop) : Frame ReadState where
  At s t := F.At s.state t.state ∧ A s.scope t.scope
  Fails e s e' t := F.Fails e s.state e' t.state ∧ A s.scope t.scope
  Lost s := F.Lost s.state
  lenient := F.lenient
  span := F.span

/-- The labels of both readers stand for types that are the same. -/
abbrev Comparison.reading (C : Comparison) (isFixed : Bool) : Frame ReadState :=
  C.toFrame.reading (Scope.Alike (C.written isFixed) isFixed)

abbrev Comparison.Reads {α : Type} [Pairable α] (C : Comparison) (isFixed : Bool) (x y : Read α) :
    Prop :=
  Corresponds (C.reading isFixed) (C.written isFixed) x y

section

variable {ε α β : Type} [Reported ε] [Pairable α] [Pairable β] {V : Pairing}

theorem corresponds_throw {e : TypeError} (he : e.isPlain) :
    Corresponds C.toFrame V (throw e : Check TypeError α) (throw e) :=
  ⟨fun _ _ hst => .error (C.fails hst he) trivial⟩

theorem corresponds_throw_located {e : TypeError} (he : e.isPlain) (span : Span) :
    Corresponds C.toFrame V (throw ⟨e, span⟩ : Check Located α) (throw ⟨e, C.span span⟩) :=
  ⟨fun _ _ hst => .error (C.fails hst he) rfl⟩

instance corresponds_located (span : Span) (x y : Check TypeError α)
    [hx : Corresponds C.toFrame V x y] :
    Corresponds C.toFrame V (located span x) (located (C.span span) y) where
  tracks s t hst := by
    have hrun : Outcome C.toFrame _ (x s) (y t) := hx.tracks s t hst
    show Outcome C.toFrame _ (EStateM.adaptExcept _ x s) (EStateM.adaptExcept _ y t)
    unfold EStateM.adaptExcept
    generalize x s = out, y t = out' at hrun
    cases hrun with
    | ok hst hab => exact .ok hst hab
    | error he _ => exact .error he rfl
    | excused hout => cases out <;> exact .excused hout

instance corresponds_freshVar : C.Agrees (freshVar : Check ε Ty) freshVar where
  tracks _ _ hst := (C.addVar hst).elim (fun h => .excused h) fun h => .ok h.1 h.2

instance corresponds_freshGen : C.Agrees (freshGen : Check ε Nat) freshGen where
  tracks _ _ hst := (C.addGen hst).elim (fun h => .excused h) fun h => .ok h.1 h.2

instance corresponds_freshFor [Steady C.toFrame] (fresh fresh' : Check ε α) [C.Onward fresh]
    [Corresponds C.toFrame V fresh fresh'] (bs bs' : List β) [h : Akin V bs bs'] :
    Corresponds C.toFrame V (freshFor fresh bs) (freshFor fresh' bs') := by
  obtain ⟨h⟩ := h
  induction h with
  | nil =>
    rw [freshFor, freshFor]
    infer_instance
  | cons h _ ih =>
    have : Akin V _ _ := ⟨h⟩
    rw [freshFor, freshFor]
    infer_instance

instance corresponds_unifyAt (span : Span) (a a' b b' : Ty) [ha : C.Like a a']
    [hb : C.Like b b'] :
    C.Agrees (unifyAt span a b) (unifyAt (C.span span) a' b') :=
  have : C.Agrees (unify a b) (unify a' b') := ⟨C.unify ha.alike hb.alike⟩
  corresponds_located span _ _

instance corresponds_instantiate (σ τ : Scheme) [h : C.Like σ τ] :
    C.Agrees (instantiate σ : Check ε Ty) (instantiate τ) :=
  ⟨C.instantiate h.alike⟩

instance corresponds_generalizeIn (env env' : Env) (t u : Ty) [henv : C.Like env env']
    [ht : C.Like t u] :
    C.Agrees (generalizeIn env t : Check ε Scheme) (generalizeIn env' u) :=
  ⟨C.generalizeIn henv.alike ht.alike⟩

/-- What is done with the registry. -/
theorem corresponds_registry {f g : Registry → Check ε α}
    (h : ∀ s t, C.At s t → Corresponds C.toFrame V (f s.registry) (g t.registry)) :
    Corresponds C.toFrame V (registry >>= f) (registry >>= g) where
  tracks s t hst := by
    exact (h s t hst).tracks s t hst

end

section

variable {isFixed : Bool} {α : Type} [Pairable α] {V : Pairing} {F : Frame State}
  {A : Scope → Scope → Prop}

instance onward_lift (x : Check TypeError α) [hx : Onward F x] :
    Onward (F.reading A) (Read.lift x) where
  lost s hs := by
    have hout := hx.lost s.state hs
    cases h : x.run s.state with
    | ok a st =>
      rw [h] at hout
      rw [Read.run_lift_ok h]
      exact hout
    | error e st =>
      rw [h] at hout
      rw [Read.run_lift_error h]
      exact hout

instance onward_isFixed : Onward (F.reading A) Read.isFixed := ⟨fun _ h => h⟩

instance corresponds_lift (x y : Check TypeError α) [hx : Corresponds C.toFrame V x y] :
    Corresponds (C.reading isFixed) V (Read.lift x) (Read.lift y) where
  tracks s t hst := by
    have hrun := hx.tracks s.state t.state hst.1
    have hlift : ∀ (z : Check TypeError α) (s : ReadState), (Read.lift z).run s =
        match z.run s.state with
        | .ok a st => .ok a { s with state := st }
        | .error e st => .error e { s with state := st } := fun _ _ => rfl
    rw [hlift, hlift]
    generalize x.run s.state = out, y.run t.state = out' at hrun
    cases hrun with
    | ok hst' hab => exact .ok ⟨hst', hst.2⟩ hab
    | error he hspan => exact .error ⟨he, hst.2⟩ hspan
    | excused hout => cases out <;> exact .excused hout

theorem Scope.Alike.isFixed_eq {V : Pairing} {scope scope' : Scope}
    (h : scope.Alike V isFixed scope') : scope.isFixed = isFixed ∧ scope'.isFixed = isFixed := by
  cases scope <;> cases scope' <;> simp_all [Scope.Alike, Scope.isFixed]

/-- Both readers are in a scope of the same kind. -/
instance corresponds_isFixed (f g : Bool → Read α)
    [h : Corresponds (C.reading isFixed) V (f isFixed) (g isFixed)] :
    Corresponds (C.reading isFixed) V (Read.isFixed >>= f) (Read.isFixed >>= g) where
  tracks s t hst := by
    have hrun : ∀ (f : Bool → Read α) (s : ReadState),
        (Read.isFixed >>= f).run s = (f s.scope.isFixed).run s := fun _ _ => rfl
    rw [hrun, hrun, hst.2.isFixed_eq.1, hst.2.isFixed_eq.2]
    exact h.tracks s t hst

end

instance onward_label {F : Frame State} {A : Scope → Scope → Prop} [Steady F] (l : String) :
    Onward (F.reading A) (Read.label l) where
  lost s hs := by
    rw [Read.run_label]
    split
    · split
      · exact hs
      · exact (Steady.freshVar (ε := TypeError)).lost s.state hs
    · split
      · exact hs
      · exact .inr hs

instance corresponds_label {isFixed : Bool} (l : String) [hl : Akin (C.written isFixed) l l] :
    C.Reads isFixed (Read.label l) (Read.label l) where
  tracks s t hst := by
    obtain ⟨st, scope⟩ := s
    obtain ⟨st', scope'⟩ := t
    obtain ⟨hst, hscope⟩ := hst
    rw [Read.run_label, Read.run_label]
    match scope, scope', hscope with
    | .flexible ls, .flexible ls', hscope =>
      obtain ⟨rfl, hls⟩ := hscope
      dsimp only
      have hlook := alike_lookup hls l
      generalize ls.lookup l = a, ls'.lookup l = b at hlook
      cases hlook with
      | some h => exact .ok ⟨hst, rfl, hls⟩ h
      | none =>
        rcases C.addVar hst with hlost | ⟨hnew, hv⟩
        · exact .excused hlost
        · have := (@alike_insert _ _ _ l _ _ ls ls' hl ⟨hv⟩ ⟨hls⟩).alike
          exact .ok ⟨hnew, rfl, this⟩ hv
    | .fixed ls, .fixed ls', hscope =>
      obtain ⟨rfl, hls⟩ := hscope
      dsimp only
      have hlook := alike_lookup hls l
      generalize ls.lookup l = a, ls'.lookup l = b at hlook
      cases hlook with
      | some h => exact .ok ⟨hst, rfl, hls⟩ h
      | none => exact .error ⟨C.fails hst rfl, rfl, hls⟩ trivial

instance corresponds_applyName (isFixed : Bool) (env env' : Env) (name : String) (ts us : List Ty)
    [henv : Akin C.anyName.named env.types env'.types]
    [hts : Akin (C.written isFixed) ts us] :
    Corresponds C.toFrame (C.written isFixed) (applyName env isFixed name ts)
      (applyName env' isFixed name us) := by
  have hlook := alike_lookup henv.alike name
  have hlen : ts.length = us.length := hts.alike.length_eq
  have hempty : ts.isEmpty = us.isEmpty := by cases hts.alike <;> rfl
  unfold applyName Env.type?
  generalize env.types.lookup name = a, env'.types.lookup name = b at hlook
  cases hlook with
  | some h =>
    cases isFixed
    · exact ⟨C.instantiateWith name h hts.alike⟩
    · exact ⟨C.instantiateDeclared name h hts.alike⟩
  | none =>
    rw [hlen, hempty]
    cases Base.ofName? name with
    | none => exact corresponds_throw rfl
    | some b =>
      dsimp only
      split
      · infer_instance
      · exact corresponds_throw rfl

theorem corresponds_throw_reading {isFixed : Bool} {e : TypeError} {α : Type} [Pairable α]
    {V : Pairing}
    (he : e.isPlain) : Corresponds (C.reading isFixed) V (throw e : Read α) (throw e) :=
  ⟨fun _ _ hst => .error ⟨C.fails hst.1 he, hst.2⟩ trivial⟩

namespace TypeExpr

section

variable {F : Frame State} {A : Scope → Scope → Prop} [Steady F] {env : Env}

mutual

instance onward_read : ∀ e : TypeExpr, Onward (F.reading A) (e.read env)
  | .name c => by
    rw [read]
    infer_instance
  | .var l => by
    rw [read]
    infer_instance
  | .app c args => by
    rw [read]
    have := onward_readList args
    infer_instance
  | .arrow a r => by
    rw [read]
    have := onward_read a
    have := onward_read r
    infer_instance
  | .tuple items => by
    rw [read]
    have := onward_readList items
    infer_instance
  | .record fields isOpen => by
    rw [read]
    have := onward_readFields fields []
    infer_instance

instance onward_readList : ∀ es : List TypeExpr, Onward (F.reading A) (readList env es)
  | [] => by
    rw [readList]
    infer_instance
  | e :: es => by
    rw [readList]
    have := onward_read e
    have := onward_readList es
    infer_instance

instance onward_readFields : ∀ (es : List (String × TypeExpr)) (fields : Table Ty),
    Onward (F.reading A) (readFields env es fields)
  | [], fields => by
    rw [readFields]
    infer_instance
  | (l, e) :: es, fields => by
    rw [readFields]
    have := onward_read e
    have := onward_readFields es
    infer_instance

end

instance onward_denote (scope : Scope) (e : TypeExpr) : Onward F (e.denote env scope) where
  lost s hs := by
    have hout := (@onward_read F (fun _ _ => True) _ env e).lost ⟨s, scope⟩ hs
    show F.Excuses (match (e.read env).run ⟨s, scope⟩ with
      | .ok t s => .ok t s.state
      | .error err s => .error err s.state : EStateM.Result TypeError State Ty)
    cases h : (e.read env).run ⟨s, scope⟩ <;> rw [h] at hout <;> exact hout

instance onward_annotated (e : TypeExpr) (span : Span) : Onward F (e.annotated env span) :=
  onward_located span _

end

variable {isFixed : Bool}

/-- The end of an open record. -/
instance corresponds_openTail (fs gs : Table Ty) [hfs : Akin (C.written isFixed) fs gs] :
    C.Reads isFixed
      (if isFixed then (do return .record fs (.gen (← Read.lift freshGen)) : Read Ty)
        else do return .record fs (← Read.lift freshVar))
      (if isFixed then (do return .record gs (.gen (← Read.lift freshGen)))
        else do return .record gs (← Read.lift freshVar)) := by
  cases isFixed with
  | false =>
    have : Corresponds C.toFrame (C.written false) (freshVar : Check TypeError Ty) freshVar :=
      corresponds_freshVar
    exact inferInstanceAs (Corresponds _ _ (Read.lift freshVar >>= _) (Read.lift freshVar >>= _))
  | true =>
    have : Corresponds C.toFrame (C.written true) (freshGen : Check TypeError Nat) freshGen :=
      ⟨corresponds_freshGen.tracks⟩
    have (p : Couple (C.written true) Nat) :
        Akin (C.written true) (Ty.gen p.fst) (Ty.gen p.snd) := ⟨C.gen p.alike⟩
    exact inferInstanceAs (Corresponds _ _ (Read.lift freshGen >>= _) (Read.lift freshGen >>= _))

variable [Steady C.toFrame] (env env' : Env)

mutual

theorem corresponds_read [Akin C.anyName.named env.types env'.types] :
    ∀ e : TypeExpr, (∀ l ∈ e.words, C.Label l) →
    C.Reads isFixed (e.read env) (e.read env')
  | .name c, _ => by
    rw [read, read]
    infer_instance
  | .var l, h => by
    rw [read, read]
    have : Akin (C.written isFixed) l l := ⟨rfl, by cases isFixed <;> exact h l (by simp [words])⟩
    infer_instance
  | .app c args, h => by
    rw [read, read]
    have := corresponds_readList args fun l hl => h l (by simp [words, hl])
    infer_instance
  | .arrow a r, h => by
    rw [read, read]
    have := corresponds_read a fun l hl => h l (by simp [words, hl])
    have := corresponds_read r fun l hl => h l (by simp [words, hl])
    infer_instance
  | .tuple items, h => by
    rw [read, read]
    have := corresponds_readList items fun l hl => h l (by simp [words, hl])
    infer_instance
  | .record fields isOpen, h => by
    rw [read, read]
    have := corresponds_readFields fields fun l hl => h l (by simp [words, hl])
    infer_instance

theorem corresponds_readList [Akin C.anyName.named env.types env'.types] :
    ∀ es : List TypeExpr, (∀ l ∈ wordsList es, C.Label l) →
    C.Reads isFixed (readList env es) (readList env' es)
  | [], _ => by
    rw [readList, readList]
    infer_instance
  | e :: es, h => by
    rw [readList, readList]
    have := corresponds_read e fun l hl => h l (by simp [wordsList, hl])
    have := corresponds_readList es fun l hl => h l (by simp [wordsList, hl])
    infer_instance

theorem corresponds_readFields [Akin C.anyName.named env.types env'.types] :
    ∀ es : List (String × TypeExpr), (∀ l ∈ wordsFields es, C.Label l) →
    ∀ (fs gs : Table Ty) [Akin (C.written isFixed) fs gs],
    C.Reads isFixed (readFields env es fs) (readFields env' es gs)
  | [], _, fs, gs, _ => by
    rw [readFields, readFields]
    infer_instance
  | (l, e) :: es, h, fs, gs, hfs => by
    rw [readFields, readFields, isSome_eq (alike_lookup hfs.alike l)]
    have := corresponds_read e fun l hl => h l (by simp [wordsFields, hl])
    have := corresponds_readFields es fun l hl => h l (by simp [wordsFields, hl])
    have : Akin (C.written isFixed) l l :=
      ⟨rfl, by cases isFixed <;> exact h l (by simp [wordsFields])⟩
    have : C.Reads isFixed
      (throw (.duplicateField l) : Read (Table Ty)) (throw (.duplicateField l)) :=
      corresponds_throw_reading rfl
    infer_instance

end

variable [Akin C.anyName.named env.types env'.types]

theorem corresponds_denote (e : TypeExpr) (he : ∀ l ∈ e.words, C.Label l) {scope scope' : Scope}
    (hscope : scope.Alike (C.written isFixed) isFixed scope') :
    Corresponds C.toFrame (C.written isFixed) (e.denote env scope) (e.denote env' scope') where
  tracks s t hst := by
    have hrun := (corresponds_read env env' e he).tracks ⟨s, scope⟩ ⟨t, scope'⟩ ⟨hst, hscope⟩
    have hdenote : ∀ env scope s, (e.denote env scope).run s =
        match (e.read env).run ⟨s, scope⟩ with
        | .ok t s => .ok t s.state
        | .error err s => .error err s.state := fun _ _ _ => rfl
    rw [hdenote, hdenote]
    generalize (e.read env).run _ = out, (e.read env').run _ = out' at hrun
    cases hrun with
    | ok hst hab => exact .ok hst.1 hab
    | error he hspan => exact .error he.1 hspan
    | excused hout => cases out <;> exact .excused hout

variable (e : TypeExpr) (span : Span)

theorem corresponds_annotated (he : ∀ l ∈ e.words, C.Label l) :
    C.Agrees (e.annotated env span) (e.annotated env' (C.span span)) :=
  have : C.Agrees (e.denote env .fresh) (e.denote env' .fresh) :=
    @corresponds_denote C false _ env env' _ e he _ _ ⟨rfl, .nil⟩
  corresponds_located span _ _

end TypeExpr

end RowTyping
