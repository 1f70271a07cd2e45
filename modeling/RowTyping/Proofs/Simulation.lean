import Mathlib.Data.List.Zip
import RowTyping.Proofs.Unifies
import RowTyping.Proofs.Values

/-!
# Unification in step

Two runs of unification over two registries go through the same meetings if the
types that they work on are related: partners are resolved to the same head, rows
of partners have the same labels, and variables are solved together. A simulation
says what has to be known of such a relation, and the runs then end alike.

The run on the right may take the two types of a meeting, and the two rows, in the
other order if the simulation allows it. A synonym may stand on the left only, and
gives way to its target.
-/

namespace RowTyping

open Row Table Ty List

variable {T : Prop} {R : Ty → Ty → Prop} {a b x y : Ty}

open Registry

/-! ## Tables side by side -/

namespace Table

variable {α β γ δ : Type}

/-- The entries of the labels that both tables have. -/
def join (t : Table α) (u : Table β) : Table (α × β) :=
  t.filterMap fun e => (u.lookup e.1).map fun b => (e.1, e.2, b)

theorem lookup_join (t : Table α) (u : Table β) (k : String) :
    (t.join u).lookup k = (t.lookup k).bind fun a => (u.lookup k).map fun b => (a, b) := by
  induction t with
  | nil => rfl
  | cons e t ih =>
    obtain ⟨l, a⟩ := e
    rw [join, filterMap_cons]
    cases hl : u.lookup l with
    | none =>
      simp only [Option.map_none]
      by_cases hkl : k = l
      · subst hkl
        rw [← join, ih, hl]
        simp
      · rw [← join, ih, lookup_entry, if_neg hkl]
    | some b =>
      simp only [Option.map_some, lookup_entry]
      by_cases hkl : k = l
      · subst hkl
        simp [hl]
      · rw [if_neg hkl, if_neg hkl, ← join, ih]

theorem Sorted.join {t : Table α} (h : t.Sorted) (u : Table β) : (t.join u).Sorted := by
  refine Pairwise.filterMap _ (fun e f hef b hb c hc => ?_) h
  obtain ⟨x, -, rfl⟩ := Option.map_eq_some_iff.mp hb
  obtain ⟨y, -, rfl⟩ := Option.map_eq_some_iff.mp hc
  exact hef

theorem join_comm {t : Table α} {u : Table β} (ht : t.Sorted) (hu : u.Sorted) :
    u.join t = (t.join u).mapValues Prod.swap := by
  refine (hu.join t).ext ((ht.join u).mapValues _) fun k => ?_
  rw [lookup_mapValues, lookup_join, lookup_join]
  cases t.lookup k <;> cases u.lookup k <;> rfl

theorem join_mapValues (f : α → γ) (g : β → δ) (t : Table α) (u : Table β) :
    (t.mapValues f).join (u.mapValues g) = (t.join u).mapValues (Prod.map f g) := by
  simp only [join, mapValues, filterMap_map, map_filterMap]
  refine filterMap_congr fun e _ => ?_
  show Option.map _ ((u.mapValues g).lookup e.1) = _
  rw [lookup_mapValues, Option.map_map, Option.map_map]
  rfl

end Table

theorem Row.shared_eq (mine theirs : Row) :
    mine.shared theirs = (mine.fields.join theirs.fields).map Prod.snd := by
  simp only [shared, join, map_filterMap, Option.map_map]
  rfl

/-- The fields that the first of two tables lacks. -/
def Table.lacking {α β : Type} (t : Table α) (u : Table β) : Table β :=
  u.filter fun e => (t.lookup e.1).isNone

theorem Table.lacking_mapValues {α β γ δ : Type} (f : α → γ) (g : β → δ) (t : Table α)
    (u : Table β) : (t.mapValues f).lacking (u.mapValues g) = (t.lacking u).mapValues g := by
  simp only [lacking, mapValues, filter_map]
  refine congrArg _ (filter_congr fun e _ => ?_)
  show (lookup e.1 (t.mapValues f)).isNone = _
  rw [lookup_mapValues, Option.isNone_map]

theorem Table.mem_join {α β : Type} {t : Table α} {u : Table β} {z : String × α × β}
    (h : z ∈ t.join u) : (z.1, z.2.1) ∈ t ∧ (z.1, z.2.2) ∈ u := by
  obtain ⟨e, he, hz⟩ := mem_filterMap.mp h
  obtain ⟨b, hb, rfl⟩ := Option.map_eq_some_iff.mp hz
  exact ⟨he, mem_of_lookup hb⟩

/-! ## Meetings in either order -/

/-- The two types are related to two others, in the same order or, if this is
allowed, crosswise. -/
inductive Facing (T : Prop) (R : Ty → Ty → Prop) (a b : Ty) : Ty → Ty → Prop where
  | straight {x y : Ty} (ha : R a x) (hb : R b y) : Facing T R a b x y
  | crossed {x y : Ty} (turn : T) (ha : R a x) (hb : R b y) : Facing T R a b y x

theorem Facing.imp {R' : Ty → Ty → Prop} (h : Facing T R a b x y) (hR : ∀ {t u}, R t u → R' t u) :
    Facing T R' a b x y := by
  cases h with
  | straight ha hb => exact .straight (hR ha) (hR hb)
  | crossed turn ha hb => exact .crossed turn (hR ha) (hR hb)

/-- The pairs of two lists are related, each in its own order. -/
def AllFacing (T : Prop) (R : Ty → Ty → Prop) : List (Ty × Ty) → List (Ty × Ty) → Prop :=
  List.Forall₂ fun p q => Facing T R p.1 p.2 q.1 q.2

/-- The same kind of meeting, other than of a variable or a synonym. -/
inductive Meeting.Mirrored (T : Prop) (R : Ty → Ty → Prop) : Meeting → Meeting → Prop where
  | same : Mirrored T R .same .same
  | rows : Mirrored T R .rows .rows
  | clash : Mirrored T R .clash .clash
  | children {ps qs : List (Ty × Ty)} {ragged : Bool} (h : AllFacing T R ps qs) :
      Mirrored T R (.children ps ragged) (.children qs ragged)

theorem Con.agrees_comm (c d : Con) : c.agrees d = d.agrees c := by
  rw [Bool.eq_iff_iff, agrees_iff, agrees_iff, eq_comm]

/-- How type formers meet depends on the number of their children only. -/
theorem Con.meet_mirrored (c d : Con) {ps qs : List (Ty × Ty)} (hps : ∀ p ∈ ps, R p.1 p.2)
    (hqs : ∀ q ∈ qs, R q.1 q.2) :
    Meeting.Mirrored T R (c.meet d (ps.map Prod.fst) (qs.map Prod.fst))
        (c.meet d (ps.map Prod.snd) (qs.map Prod.snd)) ∧
      (T → Meeting.Mirrored T R (c.meet d (ps.map Prod.fst) (qs.map Prod.fst))
        (d.meet c (qs.map Prod.snd) (ps.map Prod.snd))) := by
  have hstraight : AllFacing T R ((ps.map Prod.fst).zip (qs.map Prod.fst))
      ((ps.map Prod.snd).zip (qs.map Prod.snd)) := by
    rw [zip_map, zip_map, AllFacing, forall₂_map_left_iff, forall₂_map_right_iff, forall₂_same]
    intro z hz
    obtain ⟨hp, hq⟩ := of_mem_zip hz
    exact .straight (hps z.1 hp) (hqs z.2 hq)
  have hcrossed : T → AllFacing T R ((ps.map Prod.fst).zip (qs.map Prod.fst))
      ((qs.map Prod.snd).zip (ps.map Prod.snd)) := by
    intro turn
    rw [zip_map, ← zip_swap (ps.map Prod.snd), zip_map, map_map, AllFacing,
      forall₂_map_left_iff, forall₂_map_right_iff, forall₂_same]
    intro z hz
    obtain ⟨hp, hq⟩ := of_mem_zip hz
    exact .crossed turn (hps z.1 hp) (hqs z.2 hq)
  simp only [meet, agrees_comm d c, length_map]
  by_cases hagree : c.agrees d = true
  · simp only [hagree, if_true]
    by_cases hlen : ps.length = qs.length
    · simp only [hlen, if_true]
      exact ⟨.children hstraight, fun turn => .children (hcrossed turn)⟩
    · simp only [hlen, Ne.symm hlen, if_false]
      cases c <;> cases d <;>
        first
        | exact ⟨.children hstraight, fun turn => .children (hcrossed turn)⟩
        | exact ⟨.clash, fun _ => .clash⟩
        | simp [agrees] at hagree
  · simp only [hagree]
    exact ⟨.clash, fun _ => .clash⟩

/-- Neither an open variable nor a synonym. -/
def Ty.IsRigid (t : Ty) : Prop :=
  (∀ v, t ≠ .flex v) ∧ ∀ id labels params target, t ≠ .synonym id labels params target

theorem Ty.meet_flex_of_ne {v : Nat} {t : Ty} (ht : ∀ w, t ≠ .flex w) :
    (flex v).meet t = .solve v t ∧ t.meet (.flex v) = .solve v t := by
  cases t with
  | var x =>
    cases x with
    | flex w => exact absurd rfl (ht w)
    | gen g => exact ⟨rfl, rfl⟩
  | _ => exact ⟨rfl, rfl⟩

theorem Ty.meet_flex_flex {v w : Nat} (h : v ≠ w) : (flex v).meet (.flex w) = .solve v (.flex w) :=
  if_neg h

/-- Where no variable is solved and no synonym expanded, the types are rigid or one
variable. -/
theorem Ty.rigid_of_meet (hsolve : ∀ v t, a.meet b ≠ .solve v t)
    (hexpand : ∀ t u, a.meet b ≠ .expand t u) :
    (∃ v, a = .flex v ∧ b = .flex v) ∨ a.IsRigid ∧ b.IsRigid := by
  by_cases ha : ∃ v, a = .flex v
  · obtain ⟨v, rfl⟩ := ha
    by_cases hb : b = .flex v
    · exact .inl ⟨v, rfl, hb⟩
    · by_cases hw : ∃ w, b = .flex w
      · obtain ⟨w, rfl⟩ := hw
        exact (hsolve v (.flex w) (meet_flex_flex fun h => hb (by rw [h]))).elim
      · exact absurd (meet_flex_of_ne fun w hw' => hw ⟨w, hw'⟩).1 (hsolve _ _)
  · replace ha : ∀ v, a ≠ .flex v := fun v hv => ha ⟨v, hv⟩
    have hb : ∀ v, b ≠ .flex v := by
      rintro v rfl
      exact hsolve _ _ (meet_flex_of_ne ha).2
    refine .inr ⟨⟨ha, ?_⟩, hb, ?_⟩
    · rintro id labels params target rfl
      cases b with
      | var x =>
        cases x with
        | flex w => exact hb w rfl
        | gen g => exact hexpand _ _ rfl
      | _ => exact hexpand _ _ rfl
    · rintro id labels params target rfl
      cases a with
      | var x =>
        cases x with
        | flex w => exact ha w rfl
        | gen g => exact hexpand _ _ rfl
      | _ => exact hexpand _ _ rfl

/-- Two rigid types of the same form. -/
inductive Ty.SameForm (R : Ty → Ty → Prop) : Ty → Ty → Prop where
  | gen (g : Nat) : SameForm R (.gen g) (.gen g)
  | con (c : Con) {ps : List (Ty × Ty)} (hps : ∀ p ∈ ps, R p.1 p.2) :
      SameForm R (.con c (ps.map Prod.fst)) (.con c (ps.map Prod.snd))
  | record (fs gs : List (String × Ty)) (t u : Ty) : SameForm R (.record fs t) (.record gs u)
  | module (name : String) (members : Env) :
      SameForm R (.module name members) (.module name members)

/-- Rigid types meet as their partners do, in either order. -/
theorem Ty.SameForm.meet (ha : SameForm R a x) (hb : SameForm R b y) :
    Meeting.Mirrored T R (a.meet b) (x.meet y) ∧
      (T → Meeting.Mirrored T R (a.meet b) (y.meet x)) := by
  cases ha with
  | gen g =>
    cases hb with
    | gen h =>
      simp only [meet, eq_comm]
      split
      · exact ⟨.same, fun _ => .same⟩
      · exact ⟨.clash, fun _ => .clash⟩
    | _ => exact ⟨.clash, fun _ => .clash⟩
  | con c hps =>
    cases hb with
    | con d hqs => exact Con.meet_mirrored c d hps hqs
    | record =>
      cases c <;> first | exact ⟨.rows, fun _ => .rows⟩ | exact ⟨.clash, fun _ => .clash⟩
    | _ => exact ⟨.clash, fun _ => .clash⟩
  | record =>
    cases hb with
    | record => exact ⟨.rows, fun _ => .rows⟩
    | con d =>
      cases d <;> first | exact ⟨.rows, fun _ => .rows⟩ | exact ⟨.clash, fun _ => .clash⟩
    | _ => exact ⟨.clash, fun _ => .clash⟩
  | module name =>
    cases hb with
    | module other =>
      simp only [meet, eq_comm]
      split
      · exact ⟨.same, fun _ => .same⟩
      · exact ⟨.clash, fun _ => .clash⟩
    | _ => exact ⟨.clash, fun _ => .clash⟩

/-! ## What remains of rows -/

/-- One thing remains of two rows. -/
theorem Row.Remains.eq {mine theirs : Row} {m : Remainder} (h : Remains mine theirs t u m) :
    mine.remainder theirs t u = m := by
  have h' := remains mine theirs t u
  generalize mine.remainder theirs t u = m' at h' ⊢
  cases h <;> cases h' <;> simp_all [isRecord]

/-- What remains of two rows, taken the other way around. -/
def Remainder.swap : Remainder → Remainder
  | .tails t u => .tails u t
  | .split v w fs gs => .split w v gs fs
  | m => m

theorem Row.remainder_swap (mine theirs : Row) (t u : Ty) :
    theirs.remainder mine u t = (mine.remainder theirs t u).swap := by
  have h := remains mine theirs t u
  generalize mine.remainder theirs t u = m at h ⊢
  cases h with
  | again record => exact (Remains.again record.symm).eq
  | tails ht hu toMine toTheirs => exact (Remains.tails hu ht toTheirs toMine).eq
  | extendMine hu toMine toTheirs => exact (Remains.extendTheirs hu toTheirs toMine).eq
  | extendTheirs ht toMine toTheirs => exact (Remains.extendMine ht toTheirs toMine).eq
  | split ne toMine toTheirs => exact (Remains.split ne.symm toTheirs toMine).eq
  | clash ht hu full =>
    refine (Remains.clash hu ht ?_).eq
    obtain h | h | ⟨hmine, htheirs, heq⟩ := full
    · exact .inr (.inl h)
    · exact .inl h
    · exact .inr (.inr ⟨htheirs, hmine, heq.symm⟩)

/-- One variable is solved and then another one, unless the first cannot be. -/
inductive SolvedBoth (r : Registry) (v : Nat) (t : Ty) (w : Nat) (u : Ty) :
    Except TypeError Unit → Registry → Prop where
  | both {r₁ r₂ : Registry} {out : Except TypeError Unit} (first : Solved r v t (.ok ()) r₁)
      (second : Solved r₁ w u out r₂) : SolvedBoth r v t w u out r₂
  | stop {err : TypeError} {r₁ : Registry} (first : Solved r v t (.error err) r₁) :
      SolvedBoth r v t w u (.error err) r₁

/-- Two tails take the fields that their rows lack, in front of a new variable. -/
def Splits (r : Registry) (v w : Nat) (fs gs : Table Ty) :
    Except TypeError Unit → Registry → Prop :=
  SolvedBoth r.addVar v (.record fs (.flex r.varCount)) w (.record gs (.flex r.varCount))

theorem Splits.unifies {e e₁ e' : Registry} {v w : Nat} {fs gs : Table Ty}
    {out : Except TypeError Unit} (h : Splits e₁ v w fs gs out e')
    (shared : Unifies e (.all ((e.row x).shared (e.row y))) (.ok ()) e₁)
    (left : e.remainder e₁ x y = .split v w fs gs) : Unifies e (.rows x y) out e' := by
  cases h with
  | both first second => exact .split shared left first second
  | stop first => exact .splitStop shared left first

/-! ## Simulations -/

/-- The registries on the two sides of a world. -/
structure Sides (ω : Type) where
  left : ω → Registry
  right : ω → Registry
  /-- The order may change on the right. -/
  turns : Prop
  /-- Failure is followed. -/
  fails : Prop

/-- How a run on the right has to end, given the end of the run on the left. -/
def Sides.Answers {ω : Type} [Preorder ω] (S : Sides ω) (W : ω)
    (run : Except TypeError Unit → Registry → Prop) : Except TypeError Unit → Registry → Prop
  | .ok _, r => ∃ W', W ≤ W' ∧ S.left W' = r ∧ run (.ok ()) (S.right W')
  | .error _, _ => S.fails → ∃ err e, run (.error err) e

/-- A relation of types, each of some index, and of rows that unification keeps: what
is related has the same form, and variables are solved together. -/
structure Simulation (ω ι : Type) [Preorder ω] extends Sides ω where
  Rel : ω → ι → Ty → Ty → Prop
  Rows : ω → ι → Row → Row → Prop
  /-- The index of ordinary types. -/
  type : ι
  /-- What records of an index are as rows. -/
  rest : ι → ι
  mono {W W' : ω} {k : ι} {t u : Ty} : W ≤ W' → Rel W k t u → Rel W' k t u
  monoRows {W W' : ω} {k : ι} {m m' : Row} : W ≤ W' → Rows W k m m' → Rows W' k m m'
  flex {W : ω} {k : ι} {t u : Ty} {v : Nat} : Rel W k t u → (left W).resolve t = .flex v →
    ∃ w, (right W).resolve u = .flex w
  unique {W : ω} {k l : ι} {a b x y : Ty} {v v' w w' : Nat} : Rel W k a x → Rel W l b y →
    (left W).resolve a = .flex v → (left W).resolve b = .flex v' →
    (right W).resolve x = .flex w → (right W).resolve y = .flex w' → (v = v' ↔ w = w')
  form {W : ω} {k : ι} {t u : Ty} : Rel W k t u → ((left W).resolve t).IsRigid →
    Ty.SameForm (Rel W type) ((left W).resolve t) ((right W).resolve u)
  synonym {W : ω} {k : ι} {a b x y target : Ty} {id : Nat} {labels : List String}
    {params : List Ty} : Rel W k a x → Rel W k b y →
    (left W).resolve a = .synonym id labels params target →
    turns ∧ Rel W type target x ∧ Rel W type ((left W).resolve b) y
  solve {W : ω} {k : ι} {a b x y : Ty} {v : Nat} {out : Except TypeError Unit} {r : Registry} :
    Rel W k a x → Rel W k b y → (left W).resolve a = .flex v → (left W).resolve b ≠ .flex v →
    Solved (left W) v ((left W).resolve b) out r →
    toSides.Answers W (Unifies (right W) (.types x y)) out r ∧
      (turns ∨ (∀ w, (left W).resolve b ≠ .flex w) →
        toSides.Answers W (Unifies (right W) (.types y x)) out r)
  asRow {W : ω} {k : ι} {t u : Ty} : Rel W k t u → ((left W).resolve t).IsRowForm →
    Rel W (rest k) ((left W).resolve t) ((right W).resolve u)
  row {W : ω} {k : ι} {t u : Ty} : Rel W (rest k) t u → Rows W k ((left W).row t) ((right W).row u)
  fields {W : ω} {k : ι} {m m' : Row} : Rows W k m m' → ∃ zs : Table (Ty × Ty), zs.Sorted ∧
    m.fields = zs.mapValues Prod.fst ∧ m'.fields = zs.mapValues Prod.snd ∧
    ∀ z ∈ zs, Rel W type z.2.1 z.2.2
  tail {W : ω} {k : ι} {m m' : Row} : Rows W k m m' → (∃ l, Rel W l m.tail m'.tail) ∧
    ((∃ v, (left W).resolve m.tail = .flex v) ∨ ((left W).resolve m.tail).IsRigid)
  tails {W : ω} {k : ι} {m n m' n' : Row} : Rows W k m m' → Rows W k n n' →
    m.lacking n = [] → n.lacking m = [] → ∃ l,
      Rel W l ((left W).resolve m.tail) ((right W).resolve m'.tail) ∧
      Rel W l ((left W).resolve n.tail) ((right W).resolve n'.tail)
  extend {W : ω} {k : ι} {m n m' n' : Row} {v w : Nat} {out : Except TypeError Unit}
    {r : Registry} : Rows W k m m' → Rows W k n n' → n.lacking m = [] →
    (left W).resolve m.tail = .flex v → (right W).resolve m'.tail = .flex w →
    Solved (left W) v (.record (m.lacking n) ((left W).resolve n.tail)) out r →
    toSides.Answers W
      (Solved (right W) w (.record (m'.lacking n') ((right W).resolve n'.tail))) out r
  split {W : ω} {k : ι} {m n m' n' : Row} {v v' w w' : Nat} {out : Except TypeError Unit}
    {r : Registry} : Rows W k m m' → Rows W k n n' → v ≠ v' →
    (left W).resolve m.tail = .flex v → (left W).resolve n.tail = .flex v' →
    (right W).resolve m'.tail = .flex w → (right W).resolve n'.tail = .flex w' →
    Splits (left W) v v' (m.lacking n) (n.lacking m) out r →
    toSides.Answers W (Splits (right W) w w' (m'.lacking n') (n'.lacking m')) out r ∧
      (turns → toSides.Answers W (Splits (right W) w' w (n'.lacking m') (m'.lacking n')) out r)

variable {ω ι : Type} [Preorder ω]

namespace Sides

variable {S : Sides ω} {W W' : ω} {out : Except TypeError Unit} {r : Registry}
  {run run' : Except TypeError Unit → Registry → Prop}

/-- A run goes on after one that was followed. -/
theorem Answers.after (h : S.Answers W' run out r) (hle : W ≤ W')
    (hrun : ∀ out e, run out e → run' out e) : S.Answers W run' out r := by
  cases out with
  | ok =>
    obtain ⟨W₁, hle₁, hleft, hright⟩ := h
    exact ⟨W₁, hle.trans hle₁, hleft, hrun _ _ hright⟩
  | error =>
    intro hfails
    obtain ⟨err, e, hright⟩ := h hfails
    exact ⟨err, e, hrun _ _ hright⟩

theorem Answers.imp (h : S.Answers W run out r) (hrun : ∀ out e, run out e → run' out e) :
    S.Answers W run' out r :=
  h.after le_rfl hrun

end Sides

namespace Simulation

variable {S : Simulation ω ι} {W W₁ : ω} {k : ι} {a b x y : Ty} {v : Nat}
  {out : Except TypeError Unit} {r : Registry}

/-- The two types are related to two others, in an order that the simulation allows. -/
abbrev Pairs (S : Simulation ω ι) (W : ω) (k : ι) : Ty → Ty → Ty → Ty → Prop :=
  Facing S.turns (S.Rel W k)

/-- The same work on related types. -/
inductive Tasks (S : Simulation ω ι) (W : ω) : Task → Task → Prop where
  | types {k : ι} {a b x y : Ty} (h : S.Pairs W k a b x y) : Tasks S W (.types a b) (.types x y)
  | rows {k : ι} {a b x y : Ty} (h : S.Pairs W (S.rest k) a b x y) :
      Tasks S W (.rows a b) (.rows x y)
  | all {ps qs : List (Ty × Ty)} (h : AllFacing S.turns (S.Rel W S.type) ps qs) :
      Tasks S W (.all ps) (.all qs)

theorem Tasks.mono {task task' : Task} (h : S.Tasks W task task') (hle : W ≤ W₁) :
    S.Tasks W₁ task task' := by
  cases h with
  | types h => exact .types (h.imp (S.mono hle))
  | rows h => exact .rows (h.imp (S.mono hle))
  | all h => exact .all (Forall₂.imp (fun _ _ h => h.imp (S.mono hle)) h)

/-- Where no variable is solved and no synonym expanded, the partners of two types
meet as these do. -/
theorem Pairs.meet (h : S.Pairs W k a b x y) {m : Meeting}
    (meet : ((S.left W).resolve a).meet ((S.left W).resolve b) = m)
    (hsolve : ∀ v t, m ≠ .solve v t) (hexpand : ∀ t u, m ≠ .expand t u) :
    ∃ n, ((S.right W).resolve x).meet ((S.right W).resolve y) = n ∧
      Meeting.Mirrored S.turns (S.Rel W S.type) m n := by
  subst meet
  refine ⟨_, rfl, ?_⟩
  have hsame : ∀ w, (Ty.flex w).meet (.flex w) = .same := fun w => if_pos rfl
  rcases Ty.rigid_of_meet hsolve hexpand with ⟨v, ha, hb⟩ | ⟨ha, hb⟩
  · cases h with
    | straight hax hby | crossed _ hax hby =>
      obtain ⟨w, hw⟩ := S.flex hax ha
      obtain ⟨w', hw'⟩ := S.flex hby hb
      obtain rfl := (S.unique hax hby ha hb hw hw').mp rfl
      rw [ha, hb, hw, hw', hsame, hsame]
      exact .same
  · cases h with
    | straight hax hby => exact ((S.form hax ha).meet (S.form hby hb)).1
    | crossed turn hax hby => exact ((S.form hax ha).meet (S.form hby hb)).2 turn

/-- A variable on one side is solved. -/
theorem Pairs.solve (h : S.Pairs W k a b x y) {t : Ty}
    (meet : ((S.left W).resolve a).meet ((S.left W).resolve b) = .solve v t)
    (hs : Solved (S.left W) v t out r) :
    S.Answers W (Unifies (S.right W) (.types x y)) out r := by
  obtain ⟨⟨ha, rfl⟩ | ⟨hb, rfl⟩, hne⟩ := (Meets.of_meet meet).solve_inv
  · cases h with
    | straight hax hby => exact (S.solve hax hby ha hne hs).1
    | crossed turn hax hby => exact (S.solve hax hby ha hne hs).2 (.inl turn)
  · cases h with
    | straight hax hby =>
      refine (S.solve hby hax hb hne hs).2 (.inr fun w hw => hne ?_)
      -- of two variables the left one is solved
      rw [hw, hb] at meet
      by_cases hwv : w = v
      · rw [hw, hwv]
      · rw [meet_flex_flex hwv] at meet
        cases meet
        exact absurd rfl hwv
    | crossed turn hax hby => exact (S.solve hby hax hb hne hs).1

/-- A synonym on one side gives way to its target. -/
theorem Pairs.expand (h : S.Pairs W k a b x y) {t u : Ty}
    (meet : ((S.left W).resolve a).meet ((S.left W).resolve b) = .expand t u) :
    S.Pairs W S.type t u x y := by
  obtain ⟨id, labels, params, ⟨ha, rfl⟩ | ⟨hb, rfl⟩⟩ := (Meets.of_meet meet).expand_inv
  · cases h with
    | straight hax hby =>
      obtain ⟨-, ht, hu⟩ := S.synonym hax hby ha
      exact .straight ht hu
    | crossed turn hax hby =>
      obtain ⟨-, ht, hu⟩ := S.synonym hax hby ha
      exact .crossed turn ht hu
  · cases h with
    | straight hax hby =>
      obtain ⟨turn, ht, hu⟩ := S.synonym hby hax hb
      exact .crossed turn ht hu
    | crossed turn hax hby =>
      obtain ⟨-, ht, hu⟩ := S.synonym hby hax hb
      exact .straight ht hu

theorem Pairs.rows (h : S.Pairs W k a b x y)
    (meet : ((S.left W).resolve a).meet ((S.left W).resolve b) = .rows) :
    S.Pairs W (S.rest k) ((S.left W).resolve a) ((S.left W).resolve b) ((S.right W).resolve x)
      ((S.right W).resolve y) := by
  obtain ⟨ha, hb, -⟩ := (Meets.of_meet meet).rows_inv
  cases h with
  | straight hax hby => exact .straight (S.asRow hax ha) (S.asRow hby hb)
  | crossed turn hax hby => exact .crossed turn (S.asRow hax ha) (S.asRow hby hb)

/-- The fields that two rows share are those that their partners share. -/
theorem Pairs.shared (h : S.Pairs W (S.rest k) a b x y) :
    S.Tasks W (.all (((S.left W).row a).shared ((S.left W).row b)))
      (.all (((S.right W).row x).shared ((S.right W).row y))) := by
  cases h with
  | straight hax hby | crossed turn hax hby =>
    obtain ⟨zs, hzs, hmine, hmine', hrel⟩ := S.fields (S.row hax)
    obtain ⟨ws, hws, htheirs, htheirs', hrel'⟩ := S.fields (S.row hby)
    refine .all ?_
    simp only [shared_eq, hmine, htheirs, hmine', htheirs', join_mapValues, join_comm hzs hws]
    simp only [mapValues, map_map, AllFacing, forall₂_map_left_iff,
      forall₂_map_right_iff, forall₂_same]
    intro z hz
    have hz₁ := hrel _ (mem_join hz).1
    have hz₂ := hrel' _ (mem_join hz).2
    first
    | exact .straight hz₁ hz₂
    | exact .crossed turn hz₁ hz₂

/-- The same remains of two rows and of their partners. -/
inductive Remainders (S : Simulation ω ι) (W : ω) : Remainder → Remainder → Prop where
  | again : Remainders S W .again .again
  | tails {k : ι} {t u t' u' : Ty} (h : S.Pairs W k t u t' u') :
      Remainders S W (.tails t u) (.tails t' u')
  | extend {v w : Nat} {fs gs : Table Ty} {t u : Ty}
      (h : ∀ {out r}, Solved (S.left W) v (.record fs t) out r →
        S.Answers W (Solved (S.right W) w (.record gs u)) out r) :
      Remainders S W (.extend v fs t) (.extend w gs u)
  | split {v w v' w' : Nat} {fs gs fs' gs' : Table Ty}
      (h : ∀ {out r}, Splits (S.left W) v w fs gs out r →
        S.Answers W (Splits (S.right W) v' w' fs' gs') out r ∧
          (S.turns → S.Answers W (Splits (S.right W) w' v' gs' fs') out r)) :
      Remainders S W (.split v w fs gs) (.split v' w' fs' gs')
  | clash : Remainders S W .clash .clash

theorem Remainders.swap {m n : Remainder} (h : S.Remainders W m n) (turn : S.turns) :
    S.Remainders W m n.swap := by
  cases h with
  | again => exact .again
  | tails h =>
    cases h with
    | straight ht hu => exact .tails (.crossed turn ht hu)
    | crossed _ ht hu => exact .tails (.straight ht hu)
  | extend h => exact .extend h
  | split h => exact .split fun hs => ⟨(h hs).2 turn, fun _ => (h hs).1⟩
  | clash => exact .clash

/-- What a row ends in is a record or an open variable just if what its partner ends
in is. -/
theorem ends {m m' : Row} (h : S.Rows W k m m') :
    ((S.left W).resolve m.tail).isRecord = ((S.right W).resolve m'.tail).isRecord ∧
      ((∃ v w, (S.left W).resolve m.tail = .flex v ∧ (S.right W).resolve m'.tail = .flex w) ∨
        (∀ v, (S.left W).resolve m.tail ≠ .flex v) ∧
          ∀ w, (S.right W).resolve m'.tail ≠ .flex w) := by
  obtain ⟨⟨l, htail⟩, ⟨v, hv⟩ | hrigid⟩ := S.tail h
  · obtain ⟨w, hw⟩ := S.flex htail hv
    rw [hv, hw]
    exact ⟨rfl, .inl ⟨v, w, rfl, rfl⟩⟩
  · have hform := S.form htail hrigid
    generalize (S.left W).resolve m.tail = t at hrigid hform ⊢
    generalize (S.right W).resolve m'.tail = t' at hform ⊢
    cases hform with
    | _ => exact ⟨rfl, .inr ⟨hrigid.1, by simp⟩⟩

/-- What remains of two rows remains of their partners. -/
theorem remainders {m n m' n' : Row} (h : S.Rows W k m m') (h' : S.Rows W k n n') :
    S.Remainders W (m.remainder n ((S.left W).resolve m.tail) ((S.left W).resolve n.tail))
      (m'.remainder n' ((S.right W).resolve m'.tail) ((S.right W).resolve n'.tail)) := by
  have hempty : ∀ {ls : Table (Ty × Ty)},
      ls.mapValues Prod.fst = [] ↔ ls.mapValues Prod.snd = [] := by simp [mapValues]
  have hlacking : ∀ {m n m' n' : Row}, S.Rows W k m m' → S.Rows W k n n' →
      (m.lacking n = [] ↔ m'.lacking n' = []) := by
    intro m n m' n' h h'
    obtain ⟨zs, -, hm, hm', -⟩ := S.fields h
    obtain ⟨ws, -, hn, hn', -⟩ := S.fields h'
    have hleft := lacking_mapValues Prod.fst Prod.fst zs ws
    have hright := lacking_mapValues Prod.snd Prod.snd zs ws
    rw [← hm, ← hn] at hleft
    rw [← hm', ← hn'] at hright
    exact (Eq.congr_left hleft).trans (hempty.trans (Eq.congr_left hright).symm)
  have hnil := hlacking h h'
  have hnil' := hlacking h' h
  obtain ⟨hrec, hends⟩ := ends h
  obtain ⟨hrec', hends'⟩ := ends h'
  have hm := remains m n ((S.left W).resolve m.tail) ((S.left W).resolve n.tail)
  generalize m.remainder n _ _ = l at hm
  generalize ht : (S.left W).resolve m.tail = t at hm hrec hends
  generalize hu : (S.left W).resolve n.tail = u at hm hrec' hends'
  generalize ht' : (S.right W).resolve m'.tail = t' at hrec hends
  generalize hu' : (S.right W).resolve n'.tail = u' at hrec' hends'
  have hsame : ∀ {v v' w w'}, t = .flex v → u = .flex v' → t' = .flex w → u' = .flex w' →
      (v = v' ↔ w = w') := by
    rintro v v' w w' rfl rfl rfl rfl
    obtain ⟨⟨_, htail⟩, -⟩ := S.tail h
    obtain ⟨⟨_, htail'⟩, -⟩ := S.tail h'
    exact S.unique htail htail' ht hu ht' hu'
  cases hm with
  | again record =>
    rw [(Remains.again (hrec ▸ hrec' ▸ record)).eq]
    exact .again
  | tails htr hur toMine toTheirs =>
    rw [(Remains.tails (hrec ▸ htr) (hrec' ▸ hur) (hnil.mp toMine) (hnil'.mp toTheirs)).eq]
    obtain ⟨l, hl, hl'⟩ := S.tails h h' toMine toTheirs
    rw [ht, ht'] at hl
    rw [hu, hu'] at hl'
    exact .tails (.straight hl hl')
  | extendMine hur toMine toTheirs =>
    obtain ⟨v, w, hv, rfl⟩ | ⟨hne, -⟩ := hends
    · rw [(Remains.extendMine (hrec' ▸ hur) (mt hnil.mpr toMine) (hnil'.mp toTheirs)).eq]
      refine .extend fun hs => ?_
      subst hu hu'
      exact S.extend h h' toTheirs ht ht' hs
    · exact absurd rfl (hne _)
  | extendTheirs htr toMine toTheirs =>
    obtain ⟨v, w, hv, rfl⟩ | ⟨hne, -⟩ := hends'
    · rw [(Remains.extendTheirs (hrec ▸ htr) (hnil.mp toMine) (mt hnil'.mpr toTheirs)).eq]
      refine .extend fun hs => ?_
      subst ht ht'
      exact S.extend h' h toMine hu hu' hs
    · exact absurd rfl (hne _)
  | split ne toMine toTheirs =>
    obtain ⟨v, w, hv, rfl⟩ | ⟨hne, -⟩ := hends
    · obtain ⟨v', w', hv', rfl⟩ | ⟨hne, -⟩ := hends'
      · cases hv'
        rw [(Remains.split (mt (hsame rfl rfl rfl rfl).mpr ne) (mt hnil.mpr toMine)
          (mt hnil'.mpr toTheirs)).eq]
        exact .split fun hs => S.split h h' ne ht hu ht' hu' hs
      · exact absurd rfl (hne _)
    · exact absurd rfl (hne _)
  | clash htr hur full =>
    rw [(Remains.clash (hrec ▸ htr) (hrec' ▸ hur) ?_).eq]
    · exact .clash
    · obtain ⟨hlack, hne⟩ | ⟨hlack, hne⟩ | ⟨hlack, hlack', rfl⟩ := full
      · obtain ⟨v, w, hv, -⟩ | ⟨-, hne'⟩ := hends
        · exact absurd hv (hne v)
        · exact .inl ⟨mt hnil.mpr hlack, hne'⟩
      · obtain ⟨v, w, hv, -⟩ | ⟨-, hne'⟩ := hends'
        · exact absurd hv (hne v)
        · exact .inr (.inl ⟨mt hnil'.mpr hlack, hne'⟩)
      · obtain ⟨v, w, rfl, rfl⟩ | ⟨-, hne'⟩ := hends
        · obtain ⟨v', w', hv, rfl⟩ | ⟨hne, -⟩ := hends'
          · obtain rfl := (hsame rfl hv rfl rfl).mp (by cases hv; rfl)
            exact .inr (.inr ⟨mt hnil.mpr hlack, mt hnil'.mpr hlack', rfl⟩)
          · exact absurd rfl (hne v)
        · exact .inl ⟨mt hnil.mpr hlack, hne'⟩

theorem Pairs.remainder (h : S.Pairs W (S.rest k) a b x y) (hle : W ≤ W₁) {m : Remainder}
    (left : (S.left W).remainder (S.left W₁) a b = m) :
    ∃ n, (S.right W).remainder (S.right W₁) x y = n ∧ S.Remainders W₁ m n := by
  subst left
  refine ⟨_, rfl, ?_⟩
  cases h with
  | straight hax hby => exact remainders (S.monoRows hle (S.row hax)) (S.monoRows hle (S.row hby))
  | @crossed y x turn hax hby =>
    have hflip : (S.right W).remainder (S.right W₁) x y =
        ((S.right W).remainder (S.right W₁) y x).swap := remainder_swap _ _ _ _
    rw [hflip]
    exact (remainders (S.monoRows hle (S.row hax)) (S.monoRows hle (S.row hby))).swap turn

end Simulation

open Simulation

/-- What the run of a task does, the run of a task on related types does. -/
theorem Unifies.follows {S : Simulation ω ι} {W : ω} {r r' : Registry} {task task' : Task}
    {out : Except TypeError Unit} (h : Unifies r task out r') (hr : S.left W = r)
    (ht : S.Tasks W task task') : S.Answers W (Unifies (S.right W) task') out r' := by
  induction h generalizing W task' with
  | same meet =>
    subst hr
    cases ht with
    | types h =>
      obtain ⟨m, hm, hmeet⟩ := h.meet meet (by simp) (by simp)
      cases hmeet
      exact ⟨W, le_rfl, rfl, .same hm⟩
  | clash meet =>
    subst hr
    cases ht with
    | types h =>
      obtain ⟨m, hm, hmeet⟩ := h.meet meet (by simp) (by simp)
      cases hmeet
      exact fun _ => ⟨_, _, .clash hm⟩
  | solve meet solved =>
    subst hr
    cases ht with
    | types h => exact h.solve meet solved
  | expand meet inner ih =>
    subst hr
    cases ht with
    | types h => exact ih rfl (.types (h.expand meet))
  | @children _ _ _ _ _ out _ meet inner even ih =>
    subst hr
    cases ht with
    | types h =>
      obtain ⟨m, hm, hmeet⟩ := h.meet meet (by simp) (by simp)
      cases hmeet with
      | children hall =>
        have hinner := ih rfl (.all hall)
        cases out with
        | ok =>
          obtain ⟨W', hle, hleft, hu⟩ := hinner
          exact ⟨W', hle, hleft, .children hm hu even⟩
        | error =>
          intro hfails
          obtain ⟨err, e, hu⟩ := hinner hfails
          exact ⟨err, e, .children hm hu (by simp)⟩
  | ragged meet inner ih =>
    subst hr
    cases ht with
    | types h =>
      obtain ⟨m, hm, hmeet⟩ := h.meet meet (by simp) (by simp)
      cases hmeet with
      | children hall =>
        obtain ⟨W', -, -, hu⟩ := ih rfl (.all hall)
        exact fun _ => ⟨_, _, .ragged hm hu⟩
  | rows meet inner ih =>
    subst hr
    cases ht with
    | types h =>
      obtain ⟨m, hm, hmeet⟩ := h.meet meet (by simp) (by simp)
      cases hmeet
      exact (ih rfl (.rows (h.rows meet))).imp fun _ _ => .rows hm
  | nil =>
    subst hr
    cases ht with
    | all h =>
      cases h
      exact ⟨W, le_rfl, rfl, .nil⟩
  | cons head rest ih₁ ih₂ =>
    cases ht with
    | all h =>
      cases h with
      | cons hp hps =>
        obtain ⟨W₁, hle, hleft, hu⟩ := ih₁ hr (.types hp)
        exact (ih₂ hleft ((Tasks.all hps).mono hle)).after hle fun _ _ => .cons hu
  | stop head ih =>
    cases ht with
    | all h =>
      cases h with
      | cons hp hps =>
        intro hfails
        obtain ⟨err, e, hu⟩ := ih hr (.types hp) hfails
        exact ⟨err, e, .stop hu⟩
  | fields shared ih =>
    subst hr
    cases ht with
    | rows h =>
      intro hfails
      obtain ⟨err, e, hu⟩ := ih rfl h.shared hfails
      exact ⟨err, e, .fields hu⟩
  | again shared left rest ih₁ ih₂ =>
    subst hr
    cases ht with
    | rows h =>
      obtain ⟨W₁, hle, rfl, hu⟩ := ih₁ rfl h.shared
      obtain ⟨m, hleft, hrem⟩ := h.remainder hle left
      cases hrem
      exact (ih₂ rfl ((Tasks.rows h).mono hle)).after hle fun _ _ => .again hu hleft
  | tails shared left rest ih₁ ih₂ =>
    subst hr
    cases ht with
    | rows h =>
      obtain ⟨W₁, hle, rfl, hu⟩ := ih₁ rfl h.shared
      obtain ⟨m, hleft, hrem⟩ := h.remainder hle left
      cases hrem with
      | tails ht => exact (ih₂ rfl (.types ht)).after hle fun _ _ => .tails hu hleft
  | extend shared left solved ih =>
    subst hr
    cases ht with
    | rows h =>
      obtain ⟨W₁, hle, rfl, hu⟩ := ih rfl h.shared
      obtain ⟨m, hleft, hrem⟩ := h.remainder hle left
      cases hrem with
      | extend hs => exact (hs solved).after hle fun _ _ => .extend hu hleft
  | split shared left mine theirs ih =>
    subst hr
    cases ht with
    | rows h =>
      obtain ⟨W₁, hle, rfl, hu⟩ := ih rfl h.shared
      obtain ⟨m, hleft, hrem⟩ := h.remainder hle left
      cases hrem with
      | split hs => exact (hs (.both mine theirs)).1.after hle fun _ _ h => h.unifies hu hleft
  | splitStop shared left mine ih =>
    subst hr
    cases ht with
    | rows h =>
      obtain ⟨W₁, hle, rfl, hu⟩ := ih rfl h.shared
      obtain ⟨m, hleft, hrem⟩ := h.remainder hle left
      cases hrem with
      | split hs => exact (hs (.stop mine)).1.after hle fun _ _ h => h.unifies hu hleft
  | lacking shared left ih =>
    subst hr
    cases ht with
    | rows h =>
      obtain ⟨W₁, hle, rfl, hu⟩ := ih rfl h.shared
      obtain ⟨m, hleft, hrem⟩ := h.remainder hle left
      cases hrem
      exact fun _ => ⟨_, _, .lacking hu hleft⟩

end RowTyping
