import RowTyping.Proofs.Keeping
import RowTyping.Proofs.Relocation
import RowTyping.Typing.Decl

/-!
# Two runs side by side

The checker builds types, hands them on and unifies them, and looks into them at few
places only. So if two runs start from states and types that are the same to them, in
whatever sense these few places respect, they take the same steps and yield types that
are the same to them again. `Comparison` collects what has to be respected. The walk
over the checker is then made once, for written types, patterns, expressions and
declarations.

A run may also be compared with itself; then this is about what it keeps. And it may be
known where the first run ends: nothing has to be said about it once it is beyond that.
-/

namespace RowTyping

open Check Table Ty List

/-! ## Outcomes -/

/-- Errors with a cause. -/
class Fault (ε : Type) where
  cause : ε → TypeError

/-- Errors that may be reported against another span. -/
class Reported (ε : Type) extends Fault ε where
  Moved : (Span → Span) → ε → ε → Prop
  moved_id : ∀ e, Moved id e e

instance : Fault TypeError := ⟨id⟩

instance : Fault Located := ⟨Located.error⟩

instance : Reported TypeError := ⟨fun _ _ _ => True, fun _ => trivial⟩

instance : Reported Located := ⟨fun f e e' => e'.span = f e.span, fun _ => rfl⟩

/-- How the states of two runs are compared. -/
structure Frame (σ : Type) where
  At : σ → σ → Prop
  Fails : TypeError → σ → TypeError → σ → Prop
  /-- The first run has gone too far. -/
  Lost : σ → Prop
  /-- The second run may go on where the first one fails. -/
  lenient : Prop
  /-- The spans of the second run in terms of those of the first. -/
  span : Span → Span

section

variable {ε σ α β γ δ : Type} {F : Frame σ}

/-- An outcome of the first run that needs no counterpart. -/
def Frame.Excuses (F : Frame σ) : EStateM.Result ε σ α → Prop
  | .ok _ s => F.Lost s
  | .error _ s => F.lenient ∨ F.Lost s

/-- The operation does not bring a run back that has gone too far. -/
class Onward (F : Frame σ) (x : EStateM ε σ α) : Prop where
  lost : ∀ s, F.Lost s → F.Excuses (x.run s)

instance onward_pure (a : α) : Onward F (pure a : EStateM ε σ α) := ⟨fun _ h => h⟩

instance onward_throw (e : ε) : Onward F (throw e : EStateM ε σ α) := ⟨fun _ h => .inr h⟩

instance onward_bind (x : EStateM ε σ α) (f : α → EStateM ε σ β) [hx : Onward F x]
    [hf : ∀ a, Onward F (f a)] : Onward F (x >>= f) where
  lost s hs := by
    rw [EStateM.run_bind]
    have hout := hx.lost s hs
    cases hrun : x.run s with
    | ok a s' =>
      rw [hrun] at hout
      exact (hf a).lost s' hout
    | error e s' =>
      rw [hrun] at hout
      exact hout

instance onward_ite (p : Prop) [Decidable p] (x y : EStateM ε σ α) [Onward F x] [Onward F y] :
    Onward F (if p then x else y) := by
  split <;> infer_instance

variable [Reported ε]

inductive Outcome (F : Frame σ) (Q : α → β → Prop) :
    EStateM.Result ε σ α → EStateM.Result ε σ β → Prop
  | ok {a b s t} (hst : F.At s t) (hab : Q a b) : Outcome F Q (.ok a s) (.ok b t)
  | error {e e' s t} (h : F.Fails (Fault.cause e) s (Fault.cause e') t)
      (hspan : Reported.Moved F.span e e') : Outcome F Q (.error e s) (.error e' t)
  | excused {out out'} (h : F.Excuses out) : Outcome F Q out out'

/-- From states that are compared the operations lead to outcomes that are. -/
def Tracks (F : Frame σ) (Q : α → β → Prop) (x : EStateM ε σ α) (y : EStateM ε σ β) : Prop :=
  ∀ s t, F.At s t → Outcome F Q (x.run s) (y.run t)

variable {x : EStateM ε σ α} {y : EStateM ε σ β} {Q : α → β → Prop}

theorem Tracks.bind {f : α → EStateM ε σ γ} {g : β → EStateM ε σ δ} {R : γ → δ → Prop}
    [hf : ∀ a, Onward F (f a)] (hx : Tracks F Q x y)
    (h : ∀ a b, Q a b → Tracks F R (f a) (g b)) : Tracks F R (x >>= f) (y >>= g) := by
  intro s t hst
  rw [EStateM.run_bind, EStateM.run_bind]
  have hrun := hx s t hst
  generalize x.run s = out, y.run t = out' at hrun
  cases hrun with
  | ok hst hab => exact h _ _ hab _ _ hst
  | error he hspan => exact .error he hspan
  | excused hout =>
    cases out with
    | ok a s' => exact .excused ((hf a).lost s' hout)
    | error e s' => exact .excused hout

/-- A case split on what the operations yield comes next. -/
theorem Tracks.split {f : α → EStateM ε σ γ} {g : β → EStateM ε σ δ} {R : γ → δ → Prop}
    (hx : Tracks F Q x y) (_ : ∀ a, Onward F (f a))
    (h : ∀ a b, Q a b → Tracks F R (f a) (g b)) : Tracks F R (x >>= f) (y >>= g) :=
  hx.bind h

theorem Tracks.imp {R : α → β → Prop} (hx : Tracks F Q x y) (h : ∀ a b, Q a b → R a b) :
    Tracks F R x y := by
  intro s t hst
  have hrun := hx s t hst
  generalize x.run s = out, y.run t = out' at hrun ⊢
  cases hrun with
  | ok hst hab => exact .ok hst (h _ _ hab)
  | error he hspan => exact .error he hspan
  | excused hout => exact .excused hout

theorem tracks_pure {a : α} {b : β} (h : Q a b) : Tracks F Q (pure a : EStateM ε σ α) (pure b) :=
  fun _ _ hst => .ok hst h

end

/-! ## Values -/

/-- Which types and which generalized variables are the same to two runs, and which types
that type names and the members of modules stand for. Labels have to be as given. -/
structure Pairing where
  Same : Ty → Ty → Prop
  Named : Ty → Ty → Prop
  Gen : Nat → Nat → Prop
  Label : String → Prop

namespace Pairing

/-- All types are those that names stand for. -/
def named (V : Pairing) : Pairing := { V with Same := V.Named }

/-- Any name will do. -/
def anyName (V : Pairing) : Pairing := { V with Label := fun _ => True }

/-- The types that are read in a scope. -/
def written (V : Pairing) (isFixed : Bool) : Pairing := bif isFixed then V.named else V

end Pairing

/-- Only what is equal is the same. -/
structure Pairing.Diagonal (V : Pairing) : Prop where
  same : ∀ {t u}, V.Same t u → t = u
  named : ∀ {t u}, V.Named t u → t = u
  gen : ∀ {g h}, V.Gen g h → g = h

/-- What is equal is the same. -/
structure Pairing.Reflexive (V : Pairing) : Prop where
  same : ∀ t, V.Same t t
  named : ∀ t, V.Named t t
  gen : ∀ g, V.Gen g g
  label : ∀ l, V.Label l

class Pairable (α : Type) where
  Alike : Pairing → α → α → Prop
  eq : ∀ {V : Pairing}, V.Diagonal → ∀ {a b}, Alike V a b → a = b
  refl : ∀ {V : Pairing}, V.Reflexive → ∀ a, Alike V a a

section

variable {α β : Type} [Pairable α] [Pairable β]

instance : Pairable Ty := ⟨Pairing.Same, Pairing.Diagonal.same, Pairing.Reflexive.same⟩

instance : Pairable Nat := ⟨Pairing.Gen, Pairing.Diagonal.gen, Pairing.Reflexive.gen⟩

instance : Pairable Unit := ⟨fun _ _ _ => True, fun _ _ _ _ => rfl, fun _ _ => trivial⟩

instance : Pairable String :=
  ⟨fun V l l' => l = l' ∧ V.Label l, fun _ _ _ h => h.1, fun h l => ⟨rfl, h.label l⟩⟩

instance : Pairable Pattern := ⟨fun _ => Eq, fun _ _ _ h => h, fun _ _ => rfl⟩

instance : Pairable (α × β) where
  Alike V a b := Pairable.Alike V a.1 b.1 ∧ Pairable.Alike V a.2 b.2
  eq hV _ _ h := Prod.ext (Pairable.eq hV h.1) (Pairable.eq hV h.2)
  refl hV a := ⟨Pairable.refl hV a.1, Pairable.refl hV a.2⟩

instance : Pairable (List α) where
  Alike V := List.Forall₂ (Pairable.Alike V)
  eq hV _ _ h := List.forall₂_eq_eq_eq ▸ h.imp fun _ _ => Pairable.eq hV
  refl hV _ := List.forall₂_same.mpr fun a _ => Pairable.refl hV a

instance : Pairable (Option α) where
  Alike V := Option.Rel (Pairable.Alike V)
  eq hV _ _ h := by
    cases h with
    | none => rfl
    | some h => rw [Pairable.eq hV h]
  refl hV
    | none => .none
    | some a => .some (Pairable.refl hV a)

instance : Pairable Scheme where
  Alike V σ τ := Pairable.Alike V (σ.vars, σ.body) (τ.vars, τ.body)
  eq hV σ τ h := by
    have heq := Pairable.eq hV h
    cases σ
    cases τ
    simp_all
  refl hV σ := Pairable.refl hV (σ.vars, σ.body)

instance : Pairable Env where
  Alike V env env' := Pairable.Alike V.anyName env.values env'.values ∧
    Pairable.Alike V.anyName.named env.types env'.types
  eq {V} hV env env' h := by
    obtain ⟨values, types⟩ := env
    obtain ⟨values', types'⟩ := env'
    have hvalues : values = values' := Pairable.eq (V := V.anyName) ⟨hV.same, hV.named, hV.gen⟩ h.1
    have htypes : types = types' :=
      Pairable.eq (V := V.anyName.named) ⟨hV.named, hV.named, hV.gen⟩ h.2
    rw [hvalues, htypes]
  refl {V} hV env :=
    ⟨Pairable.refl (V := V.anyName) ⟨hV.same, hV.named, hV.gen, fun _ => trivial⟩ env.values,
    Pairable.refl (V := V.anyName.named) ⟨hV.named, hV.named, hV.gen, fun _ => trivial⟩ env.types⟩

instance : Pairable Declared where
  Alike V d d' := Pairable.Alike V (Env.mk d.values d.types) (Env.mk d'.values d'.types)
  eq hV d d' h := by
    have heq := Pairable.eq hV h
    cases d
    cases d'
    simp_all
  refl hV d := Pairable.refl hV (Env.mk d.values d.types)

instance : Pairable Ctor where
  Alike V c c' := c.name = c'.name ∧ Pairable.Alike V (c.owner, c.arg) (c'.owner, c'.arg)
  eq hV c c' h := by
    have heq := Pairable.eq hV h.2
    cases c
    cases c'
    simp_all
  refl hV c := ⟨rfl, Pairable.refl hV (c.owner, c.arg)⟩

/-- The two things are the same to both runs. -/
class Akin (V : Pairing) (a b : α) : Prop where
  alike : Pairable.Alike V a b

/-- Two things that are the same to both runs. -/
structure Couple (V : Pairing) (α : Type) [Pairable α] where
  fst : α
  snd : α
  alike : Pairable.Alike V fst snd

variable {V : Pairing}

instance alike_twin (p : Couple V α) : Akin V p.fst p.snd := ⟨p.alike⟩

instance alike_unit (u u' : Unit) : Akin V u u' := ⟨trivial⟩

instance alike_pair (a a' : α) (b b' : β) [ha : Akin V a a'] [hb : Akin V b b'] :
    Akin V (a, b) (a', b') := ⟨ha.alike, hb.alike⟩

instance alike_fst (p p' : α × β) [h : Akin V p p'] : Akin V p.1 p'.1 := ⟨h.alike.1⟩

instance alike_snd (p p' : α × β) [h : Akin V p p'] : Akin V p.2 p'.2 := ⟨h.alike.2⟩

instance alike_none : Akin V (none : Option α) none := ⟨.none⟩

instance alike_some (a b : α) [h : Akin V a b] : Akin V (some a) (some b) := ⟨.some h.alike⟩

instance alike_nil : Akin V ([] : List α) [] := ⟨.nil⟩

instance alike_cons (a b : α) (as bs : List α) [h : Akin V a b] [hs : Akin V as bs] :
    Akin V (a :: as) (b :: bs) := ⟨.cons h.alike hs.alike⟩

instance alike_append (as bs as' bs' : List α) [h : Akin V as bs] [h' : Akin V as' bs'] :
    Akin V (as ++ as') (bs ++ bs') := ⟨List.rel_append h.alike h'.alike⟩

instance alike_map_snd (as bs : List (β × α)) [h : Akin V as bs] :
    Akin V (as.map (·.2)) (bs.map (·.2)) :=
  ⟨List.forall₂_map_left_iff.mpr (List.forall₂_map_right_iff.mpr (h.alike.imp fun _ _ h => h.2))⟩

instance alike_patterns (ps : List Pattern) : Akin V ps ps := ⟨List.forall₂_same.mpr fun _ _ => rfl⟩

instance alike_mono (t u : Ty) [h : Akin V t u] : Akin V (Scheme.mono t) (.mono u) :=
  ⟨.nil, h.alike⟩

/-- Entries of one name are the same to both. -/
theorem alike_lookup {as bs : Table α} (h : Pairable.Alike V as bs) (x : String) :
    Pairable.Alike V (as.lookup x) (bs.lookup x) := by
  induction h with
  | nil => exact .none
  | @cons a b as bs hab _ ih =>
    obtain ⟨⟨hname, -⟩, hval⟩ := hab
    rw [show b = (b.1, b.2) from rfl, lookup_entry,
      lookup_entry, hname]
    split
    · exact .some hval
    · exact ih

/-- Entries are added one by one. -/
theorem alike_foldl {W : Pairing} {f : β → String → α → β}
    (hf : ∀ b b' x a a', Pairable.Alike W x x → Pairable.Alike V b b' → Pairable.Alike W a a' →
      Pairable.Alike V (f b x a) (f b' x a')) {as bs : Table α} (h : Pairable.Alike W as bs)
    {b b' : β} (hb : Pairable.Alike V b b') : Pairable.Alike V (as.foldl (fun b e => f b e.1 e.2) b)
      (bs.foldl (fun b e => f b e.1 e.2) b') := by
  induction h generalizing b b' with
  | nil => exact hb
  | @cons c d _ _ hcd _ ih =>
    obtain ⟨k, c⟩ := c
    obtain ⟨k', d⟩ := d
    obtain rfl : k = k' := hcd.1.1
    exact ih (hf _ _ _ _ _ hcd.1 hb hcd.2)

theorem isSome_eq {a b : Option α} (h : Pairable.Alike V a b) : a.isSome = b.isSome := by
  cases h <;> rfl

instance alike_insert (l : String) (a b : α) (as bs : Table α) [hl : Akin V l l] [h : Akin V a b]
    [hs : Akin V as bs] : Akin V (Table.insert l a as) (Table.insert l b bs) := by
  obtain ⟨hs⟩ := hs
  have hnew : Pairable.Alike V (l, a) (l, b) := ⟨hl.alike, h.alike⟩
  constructor
  induction hs with
  | nil => exact .cons hnew .nil
  | @cons c d cs ds hcd hs ih =>
    obtain ⟨k, c⟩ := c
    obtain ⟨k', d⟩ := d
    obtain rfl : k = k' := hcd.1.1
    rw [Table.insert, Table.insert]
    split
    · exact .cons hnew (.cons hcd hs)
    · split
      · exact .cons hnew hs
      · exact .cons hcd ih

end

section

variable {V : Pairing} (env env' : Env) [henv : Akin V env env']

instance alike_addValue (x : String) (σ τ : Scheme) [h : Akin V σ τ] :
    Akin V (env.addValue x σ) (env'.addValue x τ) :=
  ⟨(@alike_insert _ _ V.anyName x σ τ _ _ ⟨rfl, trivial⟩ ⟨h.alike⟩ ⟨henv.alike.1⟩).alike,
    henv.alike.2⟩

instance alike_addType (x : String) (σ τ : Scheme) [h : Akin V.named σ τ] :
    Akin V (env.addType x σ) (env'.addType x τ) :=
  ⟨henv.alike.1, (@alike_insert _ _ V.anyName.named x σ τ _ _ ⟨rfl, trivial⟩ ⟨h.alike⟩
    ⟨henv.alike.2⟩).alike⟩

instance alike_types : Akin V.anyName.named env.types env'.types := ⟨henv.alike.2⟩

instance alike_addMonos (bs bs' : List (String × Ty)) [h : Akin V bs bs'] :
    Akin V (env.addMonos bs) (env'.addMonos bs') :=
  ⟨alike_foldl
    (fun b b' x t u _ hb ht => (@alike_addValue V b b' ⟨hb⟩ x _ _ (@alike_mono V t u ⟨ht⟩)).alike)
    h.alike henv.alike⟩

end

/-- Heads that are not issued by a declaration. -/
def Con.isGiven : Con → Bool
  | .variant _ _ | .abstract _ _ => false
  | _ => true

/-- Types of parts that are the same are the same. -/
class Forms (V : Pairing) : Prop where
  con : ∀ {c : Con} {ts us : List Ty}, c.isGiven → (c = .tuple → 2 ≤ ts.length) →
    Pairable.Alike V ts us → V.Same (.con c ts) (.con c us)
  record : ∀ {fs gs : Table Ty} {t u : Ty}, Pairable.Alike V fs gs → V.Same t u →
    V.Same (.record fs t) (.record gs u)

section

variable {V : Pairing} [hV : Forms V]

instance alike_base (b : Base) : Akin V (Ty.base b) (.base b) :=
  ⟨hV.con rfl (by simp) .nil⟩

instance alike_emptyRow : Akin V Ty.emptyRow .emptyRow := ⟨hV.con rfl (by simp) .nil⟩

instance alike_arrow (t t' u u' : Ty) [ht : Akin V t t'] [hu : Akin V u u'] :
    Akin V (Ty.arrow t u) (.arrow t' u') :=
  ⟨hV.con rfl (by simp) (.cons ht.alike (.cons hu.alike .nil))⟩

instance alike_tuple (ts us : List Ty) [h : Akin V ts us] : Akin V (Ty.tuple ts) (.tuple us) := by
  obtain ⟨h⟩ := h
  constructor
  match ts, us, h with
  | [], [], _ => exact (alike_base .unit).alike
  | [_], [_], .cons ht .nil => exact ht
  | _ :: _ :: _, _ :: _ :: _, h => exact hV.con rfl (by simp) h

instance alike_record (fs gs : Table Ty) (t u : Ty) [hfs : Akin V fs gs] [ht : Akin V t u] :
    Akin V (Ty.record fs t) (.record gs u) := ⟨hV.record hfs.alike ht.alike⟩

end

/-! ## Operations -/

/-- The operations take the same steps and yield what is the same to both. -/
class Corresponds {ε σ α : Type} [Reported ε] [Pairable α] (F : Frame σ) (V : Pairing)
    (x y : EStateM ε σ α) : Prop where
  tracks : Tracks F (Pairable.Alike V) x y

section

variable {ε σ α β : Type} [Reported ε] [Pairable α] [Pairable β] {F : Frame σ} {V : Pairing}

instance corresponds_bind (x y : EStateM ε σ α) (f g : α → EStateM ε σ β)
    [hx : Corresponds F V x y] [∀ a, Onward F (f a)]
    [hf : ∀ p : Couple V α, Corresponds F V (f p.fst) (g p.snd)] :
    Corresponds F V (x >>= f) (y >>= g) :=
  ⟨hx.tracks.bind fun a b h => (hf ⟨a, b, h⟩).tracks⟩

theorem Corresponds.split {x y : EStateM ε σ α} {f g : α → EStateM ε σ β}
    (hx : Corresponds F V x y) (_ : ∀ a, Onward F (f a))
    (hf : ∀ a b, Pairable.Alike V a b → Corresponds F V (f a) (g b)) :
    Corresponds F V (x >>= f) (y >>= g) :=
  ⟨hx.tracks.bind fun a b h => (hf a b h).tracks⟩

instance corresponds_pure (a b : α) [h : Akin V a b] :
    Corresponds F V (pure a : EStateM ε σ α) (pure b) :=
  ⟨tracks_pure h.alike⟩

instance corresponds_ite (p : Prop) [Decidable p] (x x' y y' : EStateM ε σ α)
    [Corresponds F V x y] [Corresponds F V x' y'] :
    Corresponds F V (if p then x else x') (if p then y else y') := by
  split <;> infer_instance

end

/-- Errors that speak of no types. -/
def TypeError.isPlain : TypeError → Bool
  | .mismatch _ _ | .cyclic _ _ | .bindingConflict _ _ _ | .unknownVariable _ => false
  | _ => true

/-- The environment of what is a module. -/
def Ty.members? : Ty → Option Env
  | .module _ members => some members
  | _ => none

/-- What the inference of expressions respects. -/
structure Comparison extends Frame State, Pairing where
  builds : Forms toPairing
  namedBuilds : Forms toPairing.named
  ofNamed : ∀ {t u}, Named t u → Same t u
  gen : ∀ {g h}, Gen g h → Named (.gen g) (.gen h)
  fails : ∀ {s t} {e : TypeError}, At s t → e.isPlain → Fails e s e t
  addVar : ∀ {s t : State}, At s t → Lost { s with registry := s.registry.addVar } ∨
    At { s with registry := s.registry.addVar } { t with registry := t.registry.addVar } ∧
      Same (.flex s.registry.varCount) (.flex t.registry.varCount)
  addGen : ∀ {s t : State}, At s t → Lost { s with registry := s.registry.addGen } ∨
    At { s with registry := s.registry.addGen } { t with registry := t.registry.addGen } ∧
      Gen s.registry.nextGen t.registry.nextGen
  unify : ∀ {a a' b b'}, Same a a' → Same b b' →
    Tracks toFrame (fun _ _ => True) (unify a b) (unify a' b')
  instantiate : ∀ {ε : Type} [Reported ε] {σ τ : Scheme}, Pairable.Alike toPairing σ τ →
    Tracks toFrame Same (instantiate σ : Check ε Ty) (instantiate τ)
  generalizeIn : ∀ {ε : Type} [Reported ε] {env env' : Env} {t u : Ty},
    Pairable.Alike toPairing env env' → Same t u →
      Tracks toFrame (Pairable.Alike toPairing) (generalizeIn env t : Check ε Scheme)
        (generalizeIn env' u)
  instantiateWith : ∀ {σ τ : Scheme} {ts us : List Ty} (name : String),
    Pairable.Alike toPairing.named σ τ → Pairable.Alike toPairing ts us →
      Tracks toFrame Same (instantiateWith name σ ts) (instantiateWith name τ us)
  instantiateDeclared : ∀ {σ τ : Scheme} {ts us : List Ty} (name : String),
    Pairable.Alike toPairing.named σ τ → Pairable.Alike toPairing.named ts us →
      Tracks toFrame Named (instantiateDeclared name σ ts) (instantiateDeclared name τ us)
  ctor? : ∀ {t u : Ty}, Same t u → Pairable.Alike toPairing t.ctor? u.ctor?
  arity : ∀ {s t : State} {a b : Option Ty}, At s t → Pairable.Alike toPairing a b →
    s.registry.arity a = t.registry.arity b
  members : ∀ {s t : State} {a b : Ty}, At s t → Same a b →
    Option.Rel (fun m m' => Pairable.Alike toPairing.anyName.named m.values m'.values)
      (s.registry.resolve a).members? (t.registry.resolve b).members?

/-! ## Labels -/

namespace TypeExpr

mutual

/-- The labels of a written type. -/
def words : TypeExpr → List String
  | .name _ => []
  | .var l => [l]
  | .app _ args => wordsList args
  | .arrow a r => a.words ++ r.words
  | .tuple items => wordsList items
  | .record fields _ => wordsFields fields

def wordsList : List TypeExpr → List String
  | [] => []
  | e :: es => e.words ++ wordsList es

def wordsFields : List (String × TypeExpr) → List String
  | [] => []
  | (l, e) :: es => l :: e.words ++ wordsFields es

end

end TypeExpr

namespace Pattern

mutual

/-- The labels and the variables of a pattern. -/
def words : Pattern → List String
  | .wild | .lit _ | .construct _ none => []
  | .var x => [x]
  | .tuple ps => wordsList ps
  | .construct _ (some p) => p.words
  | .record ps _ => wordsFields ps

def wordsList : List Pattern → List String
  | [] => []
  | p :: ps => p.words ++ wordsList ps

def wordsFields : List (String × Pattern) → List String
  | [] => []
  | (l, p) :: ps => l :: p.words ++ wordsFields ps

end

end Pattern

namespace Expr

mutual

/-- The labels in an expression, with those of its patterns and written types. -/
def words : Expr → List String
  | .lit _ _ | .var _ _ | .path _ _ _ | .construct _ _ none => []
  | .lam _ _ ann body => ann.elim [] (·.words) ++ body.words
  | .app _ func arg => func.words ++ arg.words
  | .letIn _ _ _ ann value body => ann.elim [] (·.words) ++ value.words ++ body.words
  | .ifThenElse _ cond thenE elseE => cond.words ++ thenE.words ++ elseE.words
  | .tuple _ items => wordsList items
  | .record _ fields => wordsFields fields
  | .field _ whole label => label :: whole.words
  | .update _ whole changes => whole.words ++ wordsFields changes
  | .construct _ _ (some arg) => arg.words
  | .cases _ scrutinee arms => scrutinee.words ++ wordsArms arms
  | .annotate _ inner ann => inner.words ++ ann.words

def wordsList : List Expr → List String
  | [] => []
  | e :: es => e.words ++ wordsList es

def wordsFields : List (String × Expr) → List String
  | [] => []
  | (l, e) :: es => l :: e.words ++ wordsFields es

def wordsArms : List (Pattern × Expr) → List String
  | [] => []
  | (p, e) :: es => p.words ++ e.words ++ wordsArms es

end

end Expr

def TypeDef.words : TypeDef → List String
  | .variant cases => cases.flatMap fun c => c.2.elim [] (·.words)
  | .synonym target => target.words
  | .abstract => []

namespace Decl

mutual

/-- The labels in a declaration, with the parameters of types and the names of modules. -/
def words : Decl → List String
  | .value _ _ _ ann body => ann.elim [] (·.words) ++ body.words
  | .type _ _ params definition => params ++ definition.words
  | .module _ name ds => name :: wordsList ds
  | .expr _ body => body.words

def wordsList : List Decl → List String
  | [] => []
  | d :: ds => d.words ++ wordsList ds

end

end Decl

/-! ## Operations of the checker -/

/-- The constructor whose type this is, or the error that it is none. -/
def Ty.constructor (span : Span) (name : String) (t : Ty) : Check Located Ctor :=
  match t.ctor? with
  | some c => return c
  | none => throw ⟨.notConstructor name, span⟩

theorem Env.constructor_eq (env : Env) (span : Span) (name : String) :
    env.constructor span name =
      (do
        let t ← instantiate (← env.find span name)
        t.constructor span name) :=
  rfl

/-- The end of an application: the argument has the type that was declared. -/
def Ctor.settle (c : Ctor) (span : Span) (found : Option Ty) : Check Located Ty :=
  match c.arg, found with
  | some expected, some actual => do
      unifyAt span actual expected
      return c.owner
  | _, _ => return c.owner

theorem Ctor.apply_none (c : Ctor) (span : Span) :
    c.apply span none =
      (do
        c.checkArity span ((← registry).arity none)
        c.settle span none) :=
  rfl

theorem Ctor.apply_some (c : Ctor) (span : Span) (x : Check Located Ty) :
    c.apply span (some x) =
      (do
        let t ← x
        c.checkArity span ((← registry).arity (some t))
        c.settle span (some t)) := by
  exact bind_congr fun t => rfl

/-- The type of a member of what has to be a module. -/
def Ty.member (span : Span) (owner name : String) (t : Ty) : Check Located Ty :=
  match t.members? with
  | some members => do
      let t ← instantiate (← members.find span name)
      return t.asValue
  | none => throw ⟨.notModule owner, span⟩

theorem inferPath_eq (env : Env) (span : Span) (owner name : String) :
    inferPath env span owner name =
      (do
        let t ← instantiate (← env.find span owner)
        ((← registry).resolve t).member span owner name) := by
  refine bind_congr fun σ => bind_congr fun t => bind_congr fun r => ?_
  cases r.resolve t <;> rfl

/-- The type of a bound name before it is quantified. -/
def boundType (env : Env) (span : Span) (name : String) (isRec : Bool) (ann : Option TypeExpr)
    (value : Env → Check Located Ty) : Check Located Ty := do
  let t ←
    if isRec then do
      let self ← freshVar
      let t ← value (env.addValue name (.mono self))
      unifyAt span t self
      pure t
    else value env
  match ann with
  | some e => do unifyAt span t (← e.annotated env span)
  | none => pure ()
  return t

theorem inferBinding_eq (env : Env) (span : Span) (name : String) (isRec : Bool)
    (ann : Option TypeExpr) (value : Env → Check Located Ty) :
    inferBinding env span name isRec ann value =
      boundType env span name isRec ann value >>= generalizeIn env := by
  unfold inferBinding boundType
  cases isRec <;> cases ann <;> simp

/-- The two things are the same to both runs. -/
abbrev Comparison.Like {α : Type} [Pairable α] (C : Comparison) (a b : α) : Prop :=
  Akin C.toPairing a b

/-- Both operations take the same steps. -/
abbrev Comparison.Agrees {ε α : Type} [Reported ε] [Pairable α] (C : Comparison) (x y : Check ε α) :
    Prop :=
  Corresponds C.toFrame C.toPairing x y

abbrev Comparison.Onward {ε α : Type} (C : Comparison) (x : Check ε α) : Prop :=
  RowTyping.Onward C.toFrame x

variable {C : Comparison}

instance : Forms C.toPairing := C.builds

instance : Forms C.toPairing.named := C.namedBuilds

instance (isFixed : Bool) : Forms (C.written isFixed) := by
  cases isFixed
  · exact C.builds
  · exact C.namedBuilds

/-- Where a run has gone too far, no operation of the checker brings it back. -/
class Steady (F : Frame State) : Prop where
  freshVar : ∀ {ε : Type}, Onward F (freshVar : Check ε Ty)
  freshGen : ∀ {ε : Type}, Onward F (freshGen : Check ε Nat)
  freshType : ∀ {ε : Type}, Onward F (freshType : Check ε Nat)
  emit : ∀ {ε : Type} (e : Event), Onward F (emit e : Check ε Unit)
  solve : ∀ v t, Onward F (solve v t)
  unifyN : ∀ n a b, Onward F (unifyN n a b)
  unifyRowsN : ∀ n a b, Onward F (unifyRowsN n a b)
  check : ∀ env span p t, Onward F (Pattern.check env span p t)
  checkList : ∀ env span ps ts, Onward F (Pattern.checkList env span ps ts)
  checkFields : ∀ env span ps ts, Onward F (Pattern.checkFields env span ps ts)
  inferHead : ∀ env e, Onward F (Expr.inferHead env e)
  inferList : ∀ env es, Onward F (Expr.inferList env es)
  inferFields : ∀ env span es fields, Onward F (Expr.inferFields env span es fields)
  inferArms : ∀ env span t u arms, Onward F (Expr.inferArms env span t u arms)
  checkMembers : ∀ env members ds, Onward F (Decl.checkMembers env members ds)

attribute [instance] Steady.freshVar Steady.freshGen Steady.freshType Steady.emit Steady.solve
  Steady.unifyN Steady.unifyRowsN Steady.check Steady.checkList Steady.checkFields Steady.inferHead
    Steady.inferList
  Steady.inferFields Steady.inferArms Steady.checkMembers

theorem Steady.of_never {F : Frame State} (h : ∀ s, ¬ F.Lost s) : Steady F := by
  constructor <;> intros <;> exact ⟨fun s hs => absurd hs (h s)⟩

section

variable {ε α : Type} {F : Frame State}

instance onward_registry : Onward F (registry : Check ε Registry) := ⟨fun _ h => h⟩

instance onward_fromExcept (x : Except ε α) : Onward F (fromExcept x) := by
  cases x <;> unfold fromExcept <;> infer_instance

instance onward_located (span : Span) (x : Check TypeError α) [hx : Onward F x] :
    Onward F (located span x) where
  lost s hs := by
    have hout : F.Excuses (x s) := hx.lost s hs
    show F.Excuses (EStateM.adaptExcept _ x s)
    unfold EStateM.adaptExcept
    cases h : x s <;> rw [h] at hout <;> exact hout

instance onward_forM {α : Type} (f : α → Check ε Unit) [∀ a, Onward F (f a)] (as : List α) :
    Onward F (forM as f : Check ε Unit) := by
  induction as with
  | nil => exact onward_pure ()
  | cons a as ih => exact onward_bind (f a) fun _ => forM as f

instance onward_mismatch (a b : Ty) : Onward F (mismatch a b : Check TypeError α) := by
  unfold mismatch
  infer_instance

instance onward_unify [Steady F] (a b : Ty) : Onward F (unify a b) :=
  inferInstanceAs (Onward F (do unifyN ((← registry).unifyFuel a b) a b))

instance onward_unifyAt [Steady F] (span : Span) (a b : Ty) :
    Onward F (unifyAt span a b) := onward_located span _

instance onward_freshFor {β : Type} (fresh : Check ε α) [Onward F fresh] (bs : List β) :
    Onward F (freshFor fresh bs) := by
  induction bs with
  | nil =>
    rw [freshFor]
    infer_instance
  | cons b bs ih =>
    rw [freshFor]
    infer_instance

variable [Steady F]

instance onward_instantiate (σ : Scheme) : Onward F (instantiate σ : Check ε Ty) := by
  unfold instantiate
  infer_instance

instance onward_generalizeOver (fixed : List Nat) (t : Ty) :
    Onward F (generalizeOver fixed t : Check ε Scheme) := by
  unfold generalizeOver
  infer_instance

instance onward_generalizeIn (env : Env) (t : Ty) :
    Onward F (generalizeIn env t : Check ε Scheme) := by
  unfold generalizeIn
  infer_instance

instance onward_instantiateWith (name : String) (σ : Scheme) (args : List Ty) :
    Onward F (instantiateWith name σ args) := by
  unfold instantiateWith
  infer_instance

instance onward_instantiateDeclared (name : String) (σ : Scheme) (args : List Ty) :
    Onward F (instantiateDeclared name σ args) := by
  unfold instantiateDeclared
  infer_instance

instance onward_infer (env : Env) (e : Expr) : Onward F (e.infer env) := by
  unfold Expr.infer
  infer_instance

instance onward_applyName (env : Env) (isFixed : Bool) (name : String) (args : List Ty) :
    Onward F (applyName env isFixed name args) := by
  unfold applyName
  split
  · infer_instance
  · split <;> infer_instance

end

end RowTyping
