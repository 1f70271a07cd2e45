import RowTyping.Proofs.ComparedTypes

/-!
# Patterns, side by side

Constructors are found and applied, and patterns are checked, in two runs that take the
same steps.
-/

namespace RowTyping

open Check Table Ty List

variable {C : Comparison}

section

variable {env env' : Env} (span : Span) (name : String)

/-- A lookup among schemes. -/
theorem corresponds_find_of {V : Pairing} (h : Pairable.Alike V env.values env'.values) :
    Corresponds C.toFrame V (env.find span name) (env'.find (C.span span) name) := by
  have hlook := alike_lookup h name
  unfold Env.find Env.value Env.value?
  generalize env.values.lookup name = a, env'.values.lookup name = b at hlook
  cases hlook with
  | none =>
    exact ⟨fun _ _ hst => .error (C.fails hst rfl) rfl⟩
  | some h =>
    exact ⟨fun _ _ hst => .ok hst h⟩

variable [henv : C.Like env env']

instance corresponds_find :
    C.Agrees (env.find span name) (env'.find (C.span span) name) :=
  ⟨(corresponds_find_of span name henv.alike.1).tracks⟩

instance onward_constructor (t : Ty) : C.Onward (t.constructor span name) := by
  unfold Ty.constructor
  split <;> infer_instance

instance corresponds_Constructor (t u : Ty) [h : C.Like t u] :
    C.Agrees (t.constructor span name) (u.constructor (C.span span) name) := by
  have hctor := C.ctor? h.alike
  unfold Ty.constructor
  generalize t.ctor? = c, u.ctor? = d at hctor
  cases hctor with
  | none => exact corresponds_throw_located rfl span
  | some h =>
    have := Akin.mk h
    exact corresponds_pure _ _

variable [Steady C.toFrame]

instance corresponds_constructor :
    C.Agrees (env.constructor span name) (env'.constructor (C.span span) name) := by
  rw [Env.constructor_eq, Env.constructor_eq]
  infer_instance

instance onward_find : C.Onward (env.find span name) := by
  unfold Env.find
  infer_instance

end

section

variable (c c' : Ctor) [hc : C.Like c c'] (span : Span)

instance onward_checkArity (found : Arity) : C.Onward (c.checkArity span found) := by
  unfold Ctor.checkArity
  infer_instance

instance corresponds_checkArity (found : Arity) :
    C.Agrees (c.checkArity span found) (c'.checkArity (C.span span) found) := by
  refine corresponds_registry fun s t hst => ?_
  rw [C.arity hst hc.alike.2.2, hc.alike.1]
  dsimp only
  split
  · infer_instance
  · exact corresponds_throw_located rfl span

instance alike_owner : C.Like c.owner c'.owner := ⟨hc.alike.2.1⟩

instance alike_arg : C.Like c.arg c'.arg := ⟨hc.alike.2.2⟩

variable [Steady C.toFrame]

instance onward_settle (found : Option Ty) : C.Onward (c.settle span found) := by
  unfold Ctor.settle
  split <;> infer_instance

instance corresponds_settle (found found' : Option Ty) [hfound : C.Like found found'] :
    C.Agrees (c.settle span found) (c'.settle (C.span span) found') := by
  have harg := hc.alike.2.2
  obtain ⟨hfound⟩ := hfound
  unfold Ctor.settle
  generalize c.arg = a, c'.arg = a' at harg
  cases harg with
  | none => infer_instance
  | some ha =>
    cases hfound with
    | none => infer_instance
    | some ht =>
      have := Akin.mk ha
      have := Akin.mk ht
      infer_instance

/-- How many components are found is the same on both sides. -/
instance corresponds_measured (found found' : Option Ty) [hfound : C.Like found found'] :
    C.Agrees
      (do
        c.checkArity span ((← registry).arity found)
        c.settle span found)
      (do
        c'.checkArity (C.span span) ((← registry).arity found')
        c'.settle (C.span span) found') := by
  refine corresponds_registry fun s t hst => ?_
  rw [C.arity hst hfound.alike]
  infer_instance

instance onward_apply_none : C.Onward (c.apply span none) := by
  rw [Ctor.apply_none]
  infer_instance

instance onward_apply_some (x : Check Located Ty) [C.Onward x] :
    C.Onward (c.apply span (some x)) := by
  rw [Ctor.apply_some]
  infer_instance

instance corresponds_apply_none :
    C.Agrees (c.apply span none) (c'.apply (C.span span) none) := by
  rw [Ctor.apply_none, Ctor.apply_none]
  exact corresponds_measured c c' span none none

instance corresponds_apply_some (x y : Check Located Ty) [C.Agrees x y] :
    C.Agrees (c.apply span (some x)) (c'.apply (C.span span) (some y)) := by
  rw [Ctor.apply_some, Ctor.apply_some]
  infer_instance

instance onward_freshFields (ls : List String) (fields : Table Ty) :
    C.Onward (freshFields span ls fields) := by
  induction ls generalizing fields with
  | nil =>
    rw [freshFields]
    infer_instance
  | cons l ls ih =>
    rw [freshFields]
    infer_instance

instance corresponds_duplicate {α : Type} [Pairable α] (l : String) :
    C.Agrees (throw ⟨.duplicateField l, span⟩ : Check Located α)
      (throw ⟨.duplicateField l, C.span span⟩) := corresponds_throw_located rfl span

theorem corresponds_freshFields : ∀ (ls : List String), (∀ l ∈ ls, C.Label l) →
    ∀ (fs gs : Table Ty) [C.Like fs gs],
      C.Agrees (freshFields span ls fs) (freshFields (C.span span) ls gs)
  | [], _, fs, gs, _ => by
    rw [freshFields, freshFields]
    infer_instance
  | l :: ls, hls, fs, gs, hfs => by
    obtain ⟨hl, hls⟩ := forall_mem_cons.mp hls
    rw [freshFields, freshFields, isSome_eq (alike_lookup hfs.alike l)]
    have : C.Like l l := ⟨rfl, hl⟩
    have := corresponds_freshFields ls hls
    infer_instance

variable (env env' : Env) [C.Like env env']

instance corresponds_destruct (name : String) (found : Arity) (t u : Ty) [C.Like t u] :
    C.Agrees (env.destruct span name found t) (env'.destruct (C.span span) name found u) := by
  unfold Env.destruct
  infer_instance

end

namespace Pattern

theorem words_mem : ∀ {ps : List (String × Pattern)} {l : String}, l ∈ ps.map (·.1) →
    l ∈ wordsFields ps
  | (l, p) :: ps, l', h => by
    rcases mem_cons.mp h with rfl | h
    · simp [wordsFields]
    · simp [wordsFields, words_mem h]

variable [Steady C.toFrame] (env env' : Env) (span : Span)

mutual

theorem corresponds_check [C.Like env env'] :
    ∀ p : Pattern, (∀ l ∈ p.words, C.Label l) → ∀ (t u : Ty) [C.Like t u],
    C.Agrees (check env span p t) (check env' (C.span span) p u)
  | .wild, _, t, u, _ => by
    rw [check, check]
    infer_instance
  | .var x, h, t, u, _ => by
    rw [check, check]
    have : C.Like x x := ⟨rfl, h x (by simp [words])⟩
    infer_instance
  | .lit b, _, t, u, _ => by
    rw [check, check]
    infer_instance
  | .tuple ps, h, t, u, _ => by
    rw [check, check]
    have := corresponds_checkList ps fun l hl => h l (by simp [words, hl])
    infer_instance
  | .construct c none, _, t, u, _ => by
    rw [check, check]
    infer_instance
  | .construct c (some p), h, t, u, _ => by
    rw [check, check]
    have := corresponds_check p fun l hl => h l (by simp [words, hl])
    refine (corresponds_destruct span env env' c _ t u).split (fun a => ?_) fun a b hab => ?_
    · cases a <;> infer_instance
    · cases hab with
      | none => infer_instance
      | some h =>
        have := Akin.mk h
        infer_instance
  | .record fields isOpen, h, t, u, _ => by
    rw [check, check]
    have := corresponds_checkFields fields fun l hl => h l (by simp [words, hl])
    refine (corresponds_freshFields span _ (fun l hl => h l (by simp [words, words_mem hl]))
      [] []).split (fun _ => ?_)
      fun (types, row) (types', row') ⟨htypes, hrow⟩ => ?_
    · cases isOpen <;> infer_instance
    · have : C.Like types types' := ⟨htypes⟩
      have : C.Like row row' := ⟨hrow⟩
      cases isOpen <;> infer_instance

theorem corresponds_checkList [C.Like env env'] :
    ∀ ps : List Pattern, (∀ l ∈ wordsList ps, C.Label l) →
    ∀ (ts us : List Ty) [C.Like ts us],
      C.Agrees (checkList env span ps ts) (checkList env' (C.span span) ps us)
  | [], _, ts, us, _ => by
    simp only [checkList]
    infer_instance
  | p :: ps, h, ts, us, ⟨hts⟩ => by
    cases hts with
    | nil =>
      simp only [checkList]
      infer_instance
    | @cons t u ts us ht hts =>
      have := Akin.mk ht
      have : C.Like ts us := ⟨hts⟩
      rw [checkList, checkList]
      have := corresponds_check p fun l hl => h l (by simp [wordsList, hl])
      have := corresponds_checkList ps fun l hl => h l (by simp [wordsList, hl])
      infer_instance

theorem corresponds_checkFields [C.Like env env'] :
    ∀ ps : List (String × Pattern), (∀ l ∈ wordsFields ps, C.Label l) →
    ∀ (ts us : List Ty) [C.Like ts us],
      C.Agrees (checkFields env span ps ts) (checkFields env' (C.span span) ps us)
  | [], _, ts, us, _ => by
    simp only [checkFields]
    infer_instance
  | (l, p) :: ps, h, ts, us, ⟨hts⟩ => by
    cases hts with
    | nil =>
      simp only [checkFields]
      infer_instance
    | @cons t u ts us ht hts =>
      have := Akin.mk ht
      have : C.Like ts us := ⟨hts⟩
      rw [checkFields, checkFields]
      have := corresponds_check p fun l hl => h l (by simp [wordsFields, hl])
      have := corresponds_checkFields ps fun l hl => h l (by simp [wordsFields, hl])
      infer_instance

end

end Pattern

end RowTyping
