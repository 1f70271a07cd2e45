import RowTyping.Proofs.Naming
import RowTyping.Proofs.Vocabulary

/-!
# Registries only evolve

Bindings and display names are written once, and the counters of variables,
generalized variables and nominal types do not go down. This holds for every operation
of the checker, whether it succeeds or fails.
-/

namespace RowTyping

open Check Registry RowTyping.Expr List

/-! ## Evolution -/

namespace Registry

variable {r r' : Registry} {is : List Identity} {i : Identity}

/-- On the way to the other registry, bindings and identities are only added. -/
structure Before (r r' : Registry) : Prop extends Extends r r' where
  nextGen_le : r.nextGen ≤ r'.nextGen
  nextType_le : r.nextType ≤ r'.nextType

theorem Before.refl (r : Registry) : r.Before r := ⟨.refl r, le_rfl, le_rfl⟩

theorem Before.trans {r₁ r₂ : Registry} (h : r.Before r₁) (h' : r₁.Before r₂) : r.Before r₂ :=
  ⟨h.toExtends.trans h'.toExtends, h.nextGen_le.trans h'.nextGen_le,
    h.nextType_le.trans h'.nextType_le⟩

theorem Before.addVar (r : Registry) : r.Before r.addVar := ⟨.addVar r, le_rfl, le_rfl⟩

theorem Before.addGen (r : Registry) : r.Before r.addGen :=
  ⟨⟨le_rfl, fun _ _ h => h⟩, Nat.le_succ _, le_rfl⟩

theorem Before.addType (r : Registry) : r.Before r.addType :=
  ⟨⟨le_rfl, fun _ _ h => h⟩, le_rfl, Nat.le_succ _⟩

/-- The second registry has everything that was written into the first one, and
counts at least as far. -/
structure Evolves (r r' : Registry) : Prop extends Before r r' where
  name : ∀ v n, r.name? v = some n → r'.name? v = some n

theorem Evolves.addVar (r : Registry) : r.Evolves r.addVar :=
  ⟨.addVar r, fun v _ hn => (name?_addVar r v).trans hn⟩

theorem Evolves.setBinding {v : Nat} (h : r.binding? v = none) (t : Ty) :
    r.Evolves (r.setBinding v t) := by
  refine ⟨⟨⟨by simp, fun w u hw => ?_⟩, le_rfl, le_rfl⟩,
    fun w _ hn => (name?_setBinding r v w t).trans hn⟩
  rw [binding?_setBinding, if_neg (by rintro ⟨rfl, -⟩; simp [h] at hw)]
  exact hw

theorem Evolves.assignNames (r : Registry) : r.Evolves r.assignNames := by
  refine ⟨⟨⟨by rw [varCount_assignNames], fun v t hv => by simpa using hv⟩, le_rfl, le_rfl⟩,
    fun v n hn => ?_⟩
  rw [(assignNames_names r).2.2 v fun hwaits => ?_, hn]
  rw [(mem_unnamedVars.mp hwaits).2.2] at hn
  cases hn

/-- What can be done to a registry, and the identities that are issued on the way: the
next ones of the three counters. An open variable gets a binding, and the open
variables without a name get names. -/
inductive Steps (r : Registry) : List Identity → Registry → Prop where
  | refl : Steps r [] r
  | addVar {is : List Identity} {r' : Registry} (h : Steps r is r') :
      Steps r (is ++ [.var (.flex r'.varCount)]) r'.addVar
  | addGen {is : List Identity} {r' : Registry} (h : Steps r is r') :
      Steps r (is ++ [.var (.gen r'.nextGen)]) r'.addGen
  | addType {is : List Identity} {r' : Registry} (h : Steps r is r') :
      Steps r (is ++ [.type r'.nextType]) r'.addType
  | setBinding {is : List Identity} {r' : Registry} (h : Steps r is r') {v : Nat} {t : Ty}
      (hopen : r'.binding? v = none) : Steps r is (r'.setBinding v t)
  | assignNames {is : List Identity} {r' : Registry} (h : Steps r is r') : Steps r is r'.assignNames

theorem Steps.trans {r'' : Registry} {js : List Identity} (h : r.Steps is r')
    (h' : r'.Steps js r'') : r.Steps (is ++ js) r'' := by
  induction h' with
  | refl => rwa [append_nil]
  | addVar _ ih =>
    rw [← append_assoc]
    exact ih.addVar
  | addGen _ ih =>
    rw [← append_assoc]
    exact ih.addGen
  | addType _ ih =>
    rw [← append_assoc]
    exact ih.addType
  | setBinding _ hopen ih => exact ih.setBinding hopen
  | assignNames _ ih => exact ih.assignNames

/-- No step takes anything back. -/
theorem Steps.evolves (h : r.Steps is r') : r.Evolves r' := by
  have htrans : ∀ {r₁ r₂ : Registry}, r.Evolves r₁ → r₁.Evolves r₂ → r.Evolves r₂ :=
    fun h h' => ⟨h.toBefore.trans h'.toBefore, fun v n hn => h'.name v n (h.name v n hn)⟩
  induction h with
  | refl => exact ⟨.refl r, fun _ _ h => h⟩
  | addVar _ ih => exact htrans ih (.addVar _)
  | addGen _ ih => exact htrans ih ⟨.addGen _, fun _ _ h => h⟩
  | addType _ ih => exact htrans ih ⟨.addType _, fun _ _ h => h⟩
  | setBinding _ hopen ih => exact htrans ih (.setBinding hopen _)
  | assignNames _ ih => exact htrans ih (.assignNames _)

/-- The identity is at or above its counter. -/
def IsNew (r : Registry) : Identity → Prop
  | .var (.flex v) => r.varCount ≤ v
  | .var (.gen g) => r.nextGen ≤ g
  | .type i => r.nextType ≤ i

theorem isNew_addVar : r.addVar.IsNew i ↔ r.IsNew i ∧ i ≠ .var (.flex r.varCount) := by
  match i with
  | .var (.flex v) =>
    simp only [IsNew, varCount_addVar, ne_eq, Identity.var.injEq, TyVar.flex.injEq]
    omega
  | .var (.gen g) => simp [IsNew, addVar]
  | .type i => simp [IsNew, addVar]

theorem isNew_addGen : r.addGen.IsNew i ↔ r.IsNew i ∧ i ≠ .var (.gen r.nextGen) := by
  match i with
  | .var (.flex v) => simp [IsNew, addGen, varCount]
  | .var (.gen g) =>
    simp only [IsNew, addGen, ne_eq, Identity.var.injEq, TyVar.gen.injEq]
    omega
  | .type i => simp [IsNew, addGen]

theorem isNew_addType : r.addType.IsNew i ↔ r.IsNew i ∧ i ≠ .type r.nextType := by
  match i with
  | .var (.flex v) => simp [IsNew, addType, varCount]
  | .var (.gen g) => simp [IsNew, addType]
  | .type i =>
    simp only [IsNew, addType, ne_eq, Identity.type.injEq]
    omega

theorem isNew_congr (hvar : r'.varCount = r.varCount) (hgen : r'.nextGen = r.nextGen)
    (htype : r'.nextType = r.nextType) : r'.IsNew i ↔ r.IsNew i := by
  match i with
  | .var (.flex v) => simp [IsNew, hvar]
  | .var (.gen g) => simp [IsNew, hgen]
  | .type i => simp [IsNew, htype]

/-- The identity was issued on the way from one registry to the other. -/
def Issues (r r' : Registry) (i : Identity) : Prop := r.IsNew i ∧ ¬ r'.IsNew i

/-- The issued identities are all those between the old counters and the new ones. -/
theorem Steps.mem_iff (h : r.Steps is r') : i ∈ is ↔ r.Issues r' i := by
  have hissue : ∀ {is r₁ r₂ k}, (i ∈ is ↔ r.Issues r₁ i) → r.IsNew k →
      (r₂.IsNew i ↔ r₁.IsNew i ∧ i ≠ k) → (i ∈ is ++ [k] ↔ r.Issues r₂ i) := by
    intro is r₁ r₂ k hmem hk hnew
    rw [mem_append, hmem, Issues, Issues, hnew]
    by_cases hik : i = k
    · simp [hik, hk]
    · simp [hik]
  induction h with
  | refl => simp [Issues]
  | addVar h ih => exact hissue ih h.evolves.varCount_le isNew_addVar
  | addGen h ih => exact hissue ih h.evolves.nextGen_le isNew_addGen
  | addType h ih => exact hissue ih h.evolves.nextType_le isNew_addType
  | setBinding h hopen ih =>
    exact ih.trans (and_congr_right fun _ =>
      not_congr (isNew_congr (varCount_setBinding _ _ _) rfl rfl).symm)
  | assignNames h ih =>
    exact ih.trans (and_congr_right fun _ =>
      not_congr (isNew_congr (varCount_assignNames _) rfl rfl).symm)

/-- The identity as the word that is handed out for it. -/
def wordOf : Identity → Identity
  | .var (.flex v) => .var (.flex (word v))
  | .var (.gen g) => .var (.gen (word g))
  | .type i => .type (word i)

/-- The counters do not go down as words, and each issued identity is its own word. -/
structure WordsEvolve (r r' : Registry) (issued : List Identity) : Prop where
  nextGen_le : word r.nextGen ≤ word r'.nextGen
  nextType_le : word r.nextType ≤ word r'.nextType
  word : ∀ i ∈ issued, wordOf i = i

theorem Steps.wordsEvolve (h : r.Steps is r') (hrange : r'.InRange) : r.WordsEvolve r' is := by
  have hgen := h.evolves.nextGen_le
  have htype := h.evolves.nextType_le
  refine ⟨?_, ?_, fun i hi => ?_⟩
  · rwa [word_of_lt (hgen.trans_lt hrange.gens), word_of_lt hrange.gens]
  · rwa [word_of_lt (htype.trans_lt hrange.types), word_of_lt hrange.types]
  · have hold := (h.mem_iff.mp hi).2
    match i with
    | .var (.flex v) => rw [wordOf, word_of_lt ((Nat.not_le.mp hold).trans_le hrange.vars)]
    | .var (.gen g) => rw [wordOf, word_of_lt ((Nat.not_le.mp hold).trans hrange.gens)]
    | .type i => rw [wordOf, word_of_lt ((Nat.not_le.mp hold).trans hrange.types)]

instance : Preorder Registry where
  le r r' := ∃ is, r.Steps is r'
  le_refl r := ⟨[], .refl⟩
  le_trans _ _ _ := fun ⟨is, h⟩ ⟨js, h'⟩ => ⟨is ++ js, h.trans h'⟩

section

variable {r r' : Registry}

theorem evolves_of_le (h : r ≤ r') : r.Evolves r' := h.choose_spec.evolves

theorem IsNew.earlier {i : Identity} (h : r'.IsNew i) (hle : r ≤ r') : r.IsNew i := by
  have hev := evolves_of_le hle
  match i with
  | .var (.flex v) => exact hev.varCount_le.trans h
  | .var (.gen g) => exact hev.nextGen_le.trans h
  | .type i => exact hev.nextType_le.trans h

theorem Issues.later {r'' : Registry} {i : Identity} (h : r.Issues r' i) (hle : r' ≤ r'') :
    r.Issues r'' i :=
  ⟨h.1, fun hnew => h.2 (hnew.earlier hle)⟩

theorem issues_addVar (h : r ≤ r') : r.Issues r'.addVar (.var (.flex r'.varCount)) :=
  ⟨(evolves_of_le h).varCount_le, by simp [isNew_addVar]⟩

theorem issues_addGen (h : r ≤ r') : r.Issues r'.addGen (.var (.gen r'.nextGen)) :=
  ⟨(evolves_of_le h).nextGen_le, by simp [isNew_addGen]⟩

theorem issues_addType (h : r ≤ r') : r.Issues r'.addType (.type r'.nextType) :=
  ⟨(evolves_of_le h).nextType_le, by simp [isNew_addType]⟩

theorem le_addVar (r : Registry) : r ≤ r.addVar := ⟨_, .addVar .refl⟩

theorem le_addGen (r : Registry) : r ≤ r.addGen := ⟨_, .addGen .refl⟩

theorem le_addType (r : Registry) : r ≤ r.addType := ⟨_, .addType .refl⟩

theorem le_setBinding {v : Nat} (h : r.binding? v = none) (t : Ty) : r ≤ r.setBinding v t :=
  ⟨_, .setBinding .refl h⟩

theorem le_assignNames (r : Registry) : r ≤ r.assignNames := ⟨_, .assignNames .refl⟩

end

/-- Whatever the checker does, it takes nothing back. -/
theorem growing (r₀ : Registry) :
    Discipline (inRegistry (r₀ ≤ ·)) (fun _ _ => True) fun _ => True :=
  .of_registry (fun _ h => h.trans (le_addVar _)) (fun _ _ t h hv => h.trans (le_setBinding hv t))
    (fun _ h => h.trans (le_addGen _)) fun _ h => h.trans (le_addType _)

end Registry

/-- A run that has gone too far stays so, if this is about what its registry has issued. -/
theorem Steady.of_growing {F : Frame State}
    (h : ∀ {s s' : State}, s.registry ≤ s'.registry → F.Lost s → F.Lost s') : Steady F := by
  have honward : ∀ {ε α : Type} {x : Check ε α} {Q : Nat → α → Prop},
      (∀ r₀ : Registry, Keeps (watching (inRegistry (r₀ ≤ ·))) 0 x Q) → Onward F x := by
    refine fun {_ _ x _} hx => ⟨fun s hs => ?_⟩
    have hle : s.registry ≤ (after x s).registry := (hx s.registry s le_rfl (Nat.zero_le _)).1
    cases hrun : x.run s with
    | ok a s' => exact h (after_ok hrun ▸ hle) hs
    | error e s' => exact .inr (h (after_error hrun ▸ hle) hs)
  have D := growing
  have henv (env : Env) : env.Obeys (fun _ _ => True) fun _ => True :=
    (D {}).obeys (by simp) (by simp)
  have hrefl {α : Type} [Pairable α] (a : α) :
      Akin (Pairing.only (fun _ => True) fun _ => True) a a :=
    ⟨Pairable.refl (V := .only _ _)
      ⟨fun _ => ⟨rfl, trivial⟩, fun _ => ⟨rfl, trivial⟩, fun _ => rfl, fun _ => trivial⟩ a⟩
  have hagrees {α : Type} [Pairable α] {x : Check Located α}
      (hx : ∀ r₀ m, ((D r₀).comparison m).Agrees x x) : Onward F x :=
    honward fun r₀ => (D r₀).keeps_of_agrees (hx r₀)
  constructor
  case freshVar => exact ⟨fun s => h (le_addVar _)⟩
  case freshGen => exact ⟨fun s => h (le_addGen _)⟩
  case freshType => exact ⟨fun s => h (le_addType _)⟩
  case emit => exact fun e => ⟨fun s => h le_rfl⟩
  case solve =>
    exact fun v t => honward fun r₀ => Tracks.keeps
      (fun _ => (D r₀).respects.tracks_solve trivial trivial) fun _ _ _ _ => trivial
  case unifyN =>
    exact fun n a b => honward fun r₀ => Tracks.keeps
      (fun _ => ((D r₀).respects.tracks_unifyN n).1 a b trivial trivial) fun _ _ _ _ => trivial
  case unifyRowsN =>
    exact fun n a b => honward fun r₀ => Tracks.keeps
      (fun _ => ((D r₀).respects.tracks_unifyN n).2 a b trivial trivial) fun _ _ _ _ => trivial
  case check =>
    exact fun env span p t => hagrees fun r₀ m =>
      p.corresponds_check env env span (fun _ _ => trivial) t t
  case checkList =>
    exact fun env span ps ts => hagrees fun r₀ m =>
      Pattern.corresponds_checkList env env span ps (fun _ _ => trivial) ts ts
  case checkFields =>
    exact fun env span ps ts => hagrees fun r₀ m =>
      Pattern.corresponds_checkFields env env span ps (fun _ _ => trivial) ts ts
  case inferHead => exact fun env e => honward fun r₀ => (D r₀).keeps_inferHead e 0 (henv env)
  case inferList =>
    refine fun env es => hagrees fun r₀ m => ?_
    have hes := corresponds_inferList (C := (D r₀).comparison m) es (fun _ _ => trivial) env env
    rwa [mapSpanList_eq_self (f := ((D r₀).comparison m).span) es fun _ _ => rfl] at hes
  case inferFields =>
    refine fun env span es fields => hagrees fun r₀ m => ?_
    have hes := corresponds_inferFields (C := (D r₀).comparison m) es (fun _ _ => trivial) env env
      span fields fields
    rwa [mapSpanFields_eq_self (f := ((D r₀).comparison m).span) es fun _ _ => rfl] at hes
  case inferArms =>
    refine fun env span t u arms => hagrees fun r₀ m => ?_
    have harms := corresponds_inferArms (C := (D r₀).comparison m) arms (fun _ _ => trivial) env env
      span t t u u
    rwa [mapSpanArms_eq_self (f := ((D r₀).comparison m).span) arms fun _ _ => rfl] at harms
  case checkMembers =>
    exact fun env members ds => honward fun r₀ => Decl.keeps_anyMembers (D r₀) ds 0

/-- States that hold a registry. -/
class HasRegistry (σ : Type) where
  registry : σ → Registry

instance State.hasRegistry : HasRegistry State := ⟨State.registry⟩

instance ReadState.hasRegistry : HasRegistry ReadState := ⟨fun s => s.state.registry⟩

/-- Runs are followed no further once they have everything that a registry has. -/
def Frame.within (r : Registry) : Frame State where
  At _ _ := False
  Fails _ _ _ _ := False
  Lost s := r ≤ s.registry
  lenient := False
  span := id

instance (r : Registry) : Steady (Frame.within r) := .of_growing fun h hs => le_trans hs h

theorem Frame.lost_after {ε σ α : Type} {F : Frame σ} {x : EStateM ε σ α} {s : σ}
    (h : F.Excuses (x.run s)) (hF : ¬ F.lenient) : F.Lost (after x s) := by
  unfold after
  cases hrun : x.run s <;> rw [hrun] at h
  · exact h
  · exact h.resolve_left hF

/-- The operation takes nothing back. -/
class Grows {ε σ α : Type} [HasRegistry σ] (x : EStateM ε σ α) : Prop where
  le_after : ∀ s, HasRegistry.registry s ≤ HasRegistry.registry (after x s)

instance {ε α : Type} (x : Check ε α) [h : ∀ r, Onward (Frame.within r) x] : Grows x where
  le_after s := Frame.lost_after ((h s.registry).lost s le_rfl) id

instance (e : TypeExpr) (env : Env) : Grows (e.read env) where
  le_after s := Frame.lost_after
    ((e.onward_read (F := .within s.state.registry) (A := fun _ _ => False)).lost s le_rfl) id

instance (d : Decl) (env : Env) : Grows (d.check env) where
  le_after s := (d.keeps_any (growing s.registry) 0 s le_rfl (Nat.zero_le _)).1

end RowTyping
