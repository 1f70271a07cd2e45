import RowTyping.Proofs.Keeping
import RowTyping.Proofs.Shown

/-!
# Translations

A translation gives the identities in a type other numbers and keeps its form;
what it does with the arguments of a synonym does not matter. A registry may hold
a translated copy of another one behind variables of its own. Both are then read
alike, and unification takes the same steps over both, whatever fuel it has.

Leaving out the arguments of synonyms is a translation as well. Bare bindings
never form a cycle, so the fuel that unification starts with is enough over
either registry.
-/

namespace RowTyping

open Check Row Table Ty Function Option

/-- A map of types that keeps their form. -/
structure Translation where
  ty : Ty → Ty
  var : Nat → Nat
  gen : Nat → Nat
  con : Con → Con
  synonym : Nat → Nat
  params : List Ty → List Ty
  members : Env → Env
  var_injective : Function.Injective var
  gen_injective : Function.Injective gen
  ty_flex : ∀ v, ty (.flex v) = .flex (var v)
  ty_gen : ∀ g, ty (.gen g) = .gen (gen g)
  ty_con : ∀ c args, ty (.con c args) = .con (con c) (args.map ty)
  ty_record : ∀ fs tail, ty (.record fs tail) = .record (Table.mapValues ty fs) (ty tail)
  ty_synonym : ∀ id labels ps target,
    ty (.synonym id labels ps target) = .synonym (synonym id) labels (params ps) (ty target)
  ty_module : ∀ name env, ty (.module name env) = .module name (members env)
  agrees : ∀ c d, (con c).agrees (con d) = c.agrees d
  con_emptyRow : ∀ {c}, con c = .emptyRow ↔ c = .emptyRow
  con_ctor : ∀ {c}, (∃ name, con c = .ctor name) ↔ ∃ name, c = .ctor name
  height : ∀ t, t.bare.height ≤ (ty t).height

/-- The arguments of synonyms are translated as well. -/
structure Translation.Full (T : Translation) : Prop where
  params : ∀ ps, T.params ps = ps.map T.ty
  unit : T.ty .unit = .unit
  height : ∀ t, t.height ≤ (T.ty t).height

/-- Leaving out the arguments of synonyms. -/
def Translation.bare : Translation where
  ty := Ty.bare
  var := id
  gen := id
  con := id
  synonym := id
  params _ := []
  members := id
  var_injective := Function.injective_id
  gen_injective := Function.injective_id
  ty_flex _ := rfl
  ty_gen _ := rfl
  ty_con := Ty.bare_con
  ty_record := Ty.bare_record
  ty_synonym _ _ _ _ := rfl
  ty_module _ _ := rfl
  agrees _ _ := rfl
  con_emptyRow := Iff.rfl
  con_ctor := Iff.rfl
  height _ := le_rfl

/-! ## Meetings and remainders -/

def Meeting.map (T : Translation) : Meeting → Meeting
  | .same => .same
  | .solve v t => .solve (T.var v) (T.ty t)
  | .expand target other => .expand (T.ty target) (T.ty other)
  | .children pairs ragged => .children (pairs.map fun p => (T.ty p.1, T.ty p.2)) ragged
  | .rows => .rows
  | .clash => .clash

def Remainder.map (T : Translation) : Remainder → Remainder
  | .again => .again
  | .tails t u => .tails (T.ty t) (T.ty u)
  | .extend v fields rest => .extend (T.var v) (fields.mapValues T.ty) (T.ty rest)
  | .split v w fs gs =>
      .split (T.var v) (T.var w) (fs.mapValues T.ty) (gs.mapValues T.ty)
  | .clash => .clash

def Row.map (f : Ty → Ty) (row : Row) : Row := ⟨row.fields.mapValues f, f row.tail⟩

/-- A record and the empty row are rows, a record and another type former clash. -/
theorem Ty.meet_record_con (fs : Table Ty) (t : Ty) (c : Con) (us : List Ty) :
    (record fs t).meet (.con c us) = if c = .emptyRow then .rows else .clash := by
  cases c <;> simp [meet]

theorem Ty.meet_con_record (c : Con) (ts : List Ty) (gs : Table Ty) (u : Ty) :
    (con c ts).meet (.record gs u) = if c = .emptyRow then .rows else .clash := by
  cases c <;> simp [meet]

namespace Translation

attribute [simp] ty_flex ty_gen ty_con ty_record ty_synonym ty_module

variable (T : Translation)

theorem ty_eq_flex {t : Ty} {v : Nat} (h : T.ty t = .flex v) : ∃ w, t = .flex w ∧ v = T.var w := by
  cases t with
  | var x =>
    cases x with
    | flex w =>
      rw [T.ty_flex] at h
      cases h
      exact ⟨w, rfl, rfl⟩
    | gen g =>
      rw [T.ty_gen] at h
      cases h
  | _ => simp at h

@[simp] theorem isRecord_ty (t : Ty) : (T.ty t).isRecord = t.isRecord := by
  cases t with
  | var x => cases x <;> simp [isRecord]
  | _ => simp [isRecord]

theorem con_meet (c d : Con) (ts us : List Ty) :
    (T.con c).meet (T.con d) (ts.map T.ty) (us.map T.ty) = (c.meet d ts us).map T := by
  have hzip : (ts.map T.ty).zip (us.map T.ty) = (ts.zip us).map fun p => (T.ty p.1, T.ty p.2) := by
    rw [List.zip_map]
    rfl
  unfold Con.meet
  rw [T.agrees, List.length_map, List.length_map, hzip]
  split
  · split
    · rfl
    · -- a constructor type stays one
      by_cases hc : ∃ name, c = .ctor name
      · obtain ⟨name, rfl⟩ := hc
        obtain ⟨name', heq⟩ := T.con_ctor.mpr ⟨name, rfl⟩
        rw [heq]
        rfl
      · have hc' : ¬ ∃ name, T.con c = .ctor name := fun h => hc (T.con_ctor.mp h)
        generalize T.con c = d' at hc'
        cases c with
        | ctor name => exact absurd ⟨name, rfl⟩ hc
        | _ =>
          cases d' with
          | ctor name => exact absurd ⟨name, rfl⟩ hc'
          | _ => rfl
  · rfl

theorem meet (a b : Ty) : (T.ty a).meet (T.ty b) = (a.meet b).map T := by
  cases a with
  | var x =>
    cases x with
    | flex v =>
      cases b with
      | var y =>
        cases y with
        | flex w =>
          by_cases hvw : v = w
          · simp [hvw, Ty.meet, Meeting.map]
          · simp [hvw, Ty.meet, Meeting.map, T.var_injective.eq_iff]
        | gen g => simp [Ty.meet, Meeting.map]
      | _ => simp [Ty.meet, Meeting.map]
    | gen g =>
      cases b with
      | var y =>
        cases y with
        | flex w => simp [Ty.meet, Meeting.map]
        | gen h =>
          simp only [T.ty_gen, Ty.meet, T.gen_injective.eq_iff]
          split <;> rfl
      | _ => simp [Ty.meet, Meeting.map]
  | con c ts =>
    cases b with
    | var y => cases y <;> simp [Ty.meet, Meeting.map]
    | con d us =>
      simp only [T.ty_con, Ty.meet]
      exact T.con_meet c d ts us
    | record gs u =>
      simp only [T.ty_con, T.ty_record, Ty.meet_con_record, T.con_emptyRow]
      split <;> rfl
    | _ => simp [Ty.meet, Meeting.map]
  | record fs t =>
    cases b with
    | var y => cases y <;> simp [Ty.meet, Meeting.map]
    | con d us =>
      simp only [T.ty_con, T.ty_record, Ty.meet_record_con, T.con_emptyRow]
      split <;> rfl
    | _ => simp [Ty.meet, Meeting.map]
  | synonym id labels params target =>
    cases b with
    | var y => cases y <;> simp [Ty.meet, Meeting.map]
    | _ => simp [Ty.meet, Meeting.map]
  | module name env =>
    cases b with
    | var y => cases y <;> simp [Ty.meet, Meeting.map]
    | module name' env' =>
      simp only [T.ty_module, Ty.meet]
      split <;> rfl
    | _ => simp [Ty.meet, Meeting.map]

theorem shared (mine theirs : Row) :
    (mine.map T.ty).shared (theirs.map T.ty) =
      (mine.shared theirs).map fun p => (T.ty p.1, T.ty p.2) := by
  unfold Row.shared Row.map Table.mapValues
  simp only [List.filterMap_map, List.map_filterMap]
  refine List.filterMap_congr fun e _ => ?_
  change ((theirs.fields.mapValues T.ty).lookup e.1).map _ = _
  rw [lookup_mapValues]
  cases theirs.fields.lookup e.1 <;> rfl

theorem lacking (mine theirs : Row) :
    (mine.map T.ty).lacking (theirs.map T.ty) = (mine.lacking theirs).mapValues T.ty := by
  unfold Row.lacking Row.map Table.mapValues
  rw [List.filter_map]
  refine congrArg _ (List.filter_congr fun e _ => ?_)
  change ((mine.fields.mapValues T.ty).lookup e.1).isNone = _
  rw [lookup_mapValues, isNone_map]

theorem remainder (mine theirs : Row) (t u : Ty) :
    (mine.map T.ty).remainder (theirs.map T.ty) (T.ty t) (T.ty u) =
      (mine.remainder theirs t u).map T := by
  unfold Row.remainder
  rw [T.isRecord_ty, T.isRecord_ty, T.lacking, T.lacking]
  split
  · rfl
  · generalize mine.lacking theirs = fs
    generalize theirs.lacking mine = gs
    cases fs with
    | nil =>
      cases gs with
      | nil => rfl
      | cons g gs => rcases u with (w | _) | _ | _ | _ | _ <;> simp [mapValues, Remainder.map]
    | cons f fs =>
      cases gs with
      | nil => rcases t with (v | _) | _ | _ | _ | _ <;> simp [mapValues, Remainder.map]
      | cons g gs =>
        rcases t with (v | _) | _ | _ | _ | _
        · rcases u with (w | _) | _ | _ | _ | _
          · simp only [mapValues, List.map_cons, T.ty_flex, T.var_injective.eq_iff]
            split <;> rfl
          all_goals simp [mapValues, Remainder.map]
        all_goals simp [mapValues, Remainder.map]

end Translation

/-! ## Reading a copy -/

namespace Registry

variable {c r : Registry}

/-- Variables of a registry are bound as those of another one, in translation, and
both registries issue such variables from now on. -/
structure Copies (T : Translation) (c r : Registry) : Prop where
  varCount_le : c.varCount ≤ r.varCount
  issued : ∀ v, T.var v < r.varCount ↔ v < c.varCount
  next : ∀ k, T.var (c.varCount + k) = r.varCount + k
  binding : ∀ v, r.binding? (T.var v) = (c.binding? v).map T.ty

theorem copies_bare (r : Registry) : Copies .bare r r.bare :=
  ⟨(varCount_bare r).ge, fun v => by rw [varCount_bare]; rfl,
    fun k => by rw [varCount_bare]; rfl, binding?_bare r⟩

section

variable {r : Registry} (hr : r.bare.Acyclic) {t : Ty}
include hr

/-- Fuel above the number of variables makes no difference, also where arguments of
synonyms lead in a cycle. -/
theorem follow_of_le {m : Nat} (hm : r.varCount ≤ m) : r.follow m t = r.resolve t := by
  by_cases ht : ∃ v, t = .flex v
  · obtain ⟨v, rfl⟩ := ht
    have hbare : ∀ {v t}, r.binding? v = some t → r.bare.binding? v = some t.bare := by
      intro v t hv
      rw [binding?_bare, hv]
      rfl
    have hrank := rank_le r.bare v
    rw [varCount_bare] at hrank
    have hpos : ∀ {v t}, r.binding? v = some t → 0 < r.bare.rank v := fun hb => rank_pos (hbare hb)
    refine follow_stable_of hpos (fun hb => ?_) (hrank.trans hm) hrank
    exact rank_lt hr ⟨_, hbare hb, mentions_flex.mpr rfl⟩
  · have hne : ∀ v, t ≠ .flex v := fun v hv => ht ⟨v, hv⟩
    rw [follow_of_not_flex hne, resolve_of_not_flex hne]

/-- Fuel above the bare depth makes no difference to a row. -/
theorem collect_of_le {m : Nat} (hm : r.bare.fuel t.bare ≤ m) : r.collect m [] t = r.row t := by
  have hdepth : ∀ {u fs tail}, r.resolve u = .record fs tail →
      tail.bare ∈ (r.bare.resolve u.bare).children := by
    intro u fs tail heq
    rw [resolve_bare, heq]
    simp [children]
  refine collect_stable_of (D := fun n u => r.bare.Within n u.bare) ?_ ?_ ?_ (within_bare hr t).succ
  · intro u fs tail h heq
    have hmem := hdepth heq
    rw [show (r.bare.resolve u.bare).children = [] from h] at hmem
    cases hmem
  · exact fun h heq => h _ (hdepth heq)
  · exact (within_fuel hr t.bare).mono (Nat.le_of_succ_le hm)

end

namespace Copies

variable {T : Translation} {c r : Registry} (h : Copies T c r)
include h

theorem follow (n : Nat) (t : Ty) : r.follow n (T.ty t) = T.ty (c.follow n t) := by
  induction n generalizing t with
  | zero => rfl
  | succ n ih =>
    by_cases ht : ∃ v, t = .flex v
    · obtain ⟨v, rfl⟩ := ht
      rw [T.ty_flex, Registry.follow, Registry.follow, h.binding]
      cases c.binding? v with
      | none => rw [map_none, T.ty_flex]
      | some u => exact ih u
    · have hne : ∀ v, t ≠ .flex v := fun v hv => ht ⟨v, hv⟩
      rw [follow_of_not_flex hne, follow_of_not_flex fun v hv => ?_]
      obtain ⟨w, hw, -⟩ := T.ty_eq_flex hv
      exact hne w hw

theorem maxHeight_le : c.bare.maxHeight ≤ r.maxHeight := by
  refine maxHeight_le_iff.mpr fun v t hv => ?_
  rw [binding?_bare] at hv
  obtain ⟨u, hu, rfl⟩ := map_eq_some_iff.mp hv
  refine (T.height u).trans (height_le_maxHeight (v := T.var v) ?_)
  rw [h.binding, hu]
  rfl

theorem fuel_le (t : Ty) : c.bare.fuel t.bare ≤ r.fuel (T.ty t) := by
  have hcount : c.bare.varCount ≤ r.varCount := (varCount_bare c).trans_le h.varCount_le
  have hmul := Nat.mul_le_mul hcount h.maxHeight_le
  have hheight := T.height t
  unfold fuel
  omega

variable (hc : c.bare.Acyclic)
include hc

theorem resolve (t : Ty) : r.resolve (T.ty t) = T.ty (c.resolve t) := by
  rw [Registry.resolve, h.follow, follow_of_le hc h.varCount_le]

theorem collect (n : Nat) (fields : Table Ty) (t : Ty) :
    r.collect n (fields.mapValues T.ty) (T.ty t) = (c.collect n fields t).map T.ty := by
  induction n generalizing fields t with
  | zero =>
    rw [Registry.collect, Registry.collect, h.resolve hc]
    rfl
  | succ n ih =>
    rw [Registry.collect, Registry.collect, h.resolve hc]
    cases c.resolve t with
    | record fs tail =>
      simp only [T.ty_record]
      rw [← mapValues_union]
      exact ih _ _
    | var x => cases x <;> simp [map]
    | _ => simp [map]

theorem row (t : Ty) : r.row (T.ty t) = (c.row t).map T.ty := by
  rw [← collect_of_le hc (h.fuel_le t), ← h.collect hc]
  rfl

theorem occursN (v n : Nat) (t : Ty) : r.occursN (T.var v) n (T.ty t) = c.occursN v n t := by
  induction n generalizing t with
  | zero => rfl
  | succ n ih =>
    rw [Registry.occursN, Registry.occursN, h.resolve hc]
    cases c.resolve t with
    | var x => cases x <;> simp [T.var_injective.eq_iff]
    | con d args => simp [List.any_map, comp_def, ih]
    | record fs tail => simp [mapValues, List.any_map, comp_def, ih]
    | synonym id labels params target => simp [ih]
    | module name members => simp

theorem occurs (v : Nat) (t : Ty) : r.occurs (T.var v) (T.ty t) = c.occurs v t := by
  rw [Registry.occurs, h.occursN hc, ← occurs_bare hc, ← occursN_bare]
  have hfuel := h.fuel_le t
  unfold fuel at hfuel ⊢
  exact occursN_stable ((within_fuel hc t.bare).mono (by omega)) (within_fuel hc t.bare)

theorem resolveDeepN (hT : T.Full) (n : Nat) (t : Ty) :
    r.resolveDeepN n (T.ty t) = T.ty (c.resolveDeepN n t) := by
  induction n generalizing t with
  | zero => exact hT.unit.symm
  | succ n ih =>
    rw [Registry.resolveDeepN, Registry.resolveDeepN, h.resolve hc]
    cases c.resolve t with
    | var x => cases x <;> simp
    | con d args =>
      simp only [T.ty_con, List.map_map]
      exact congrArg _ (List.map_congr_left fun t _ => ih t)
    | record fs tail =>
      have hrow := h.row hc (.record fs tail)
      rw [T.ty_record] at hrow
      simp only [T.ty_record]
      rw [hrow]
      simp only [map, mapValues, List.map_map]
      congr 1
      exact List.map_congr_left fun e _ => Prod.ext rfl (ih e.2)
    | synonym id labels params target =>
      simp only [T.ty_synonym, hT.params, List.map_map, ih]
      congr 1
      exact List.map_congr_left fun t _ => ih t
    | module name members => simp

end Copies

variable {T : Translation}

theorem Copies.resolveDeep (h : Copies T c r) (hc : c.Acyclic) (hT : T.Full) (t : Ty) :
    r.resolveDeep (T.ty t) = T.ty (c.resolveDeep t) := by
  have hmax : c.maxHeight ≤ r.maxHeight := by
    refine maxHeight_le_iff.mpr fun v t hv => (hT.height t).trans ?_
    refine height_le_maxHeight (v := T.var v) ?_
    rw [h.binding, hv]
    rfl
  have hfuel : c.fuel t ≤ r.fuel (T.ty t) := by
    have hmul := Nat.mul_le_mul h.varCount_le hmax
    have hheight := hT.height t
    unfold fuel
    omega
  obtain ⟨n, hn⟩ : ∃ n, r.fuel (T.ty t) = n + 1 := ⟨_, rfl⟩
  rw [Registry.resolveDeep, h.resolveDeepN hc.bare hT]
  rw [hn] at hfuel ⊢
  refine congrArg _ (resolveDeepN_stable hc ?_ (within_fuel hc t))
  exact (within_fuel hc t).mono (Nat.le_of_succ_le_succ hfuel)

theorem Copies.addVar (h : Copies T c r) : Copies T c.addVar r.addVar where
  varCount_le := by simpa using h.varCount_le
  issued v := by
    have hlast : T.var v = r.varCount ↔ v = c.varCount := by
      rw [← show T.var c.varCount = r.varCount from h.next 0, T.var_injective.eq_iff]
    have hbefore := h.issued v
    rw [varCount_addVar, varCount_addVar]
    omega
  next k := by
    rw [varCount_addVar, varCount_addVar, Nat.add_assoc, Nat.add_assoc, Nat.add_comm 1 k]
    exact h.next (k + 1)
  binding v := by simpa using h.binding v

theorem Copies.setBinding (h : Copies T c r) (v : Nat) (t : Ty) :
    Copies T (c.setBinding v t) (r.setBinding (T.var v) (T.ty t)) where
  varCount_le := by simpa using h.varCount_le
  issued w := by simpa using h.issued w
  next k := by simpa using h.next k
  binding w := by
    simp only [binding?_setBinding, T.var_injective.eq_iff, h.issued, h.binding]
    split <;> rfl

end Registry

/-! ## Unification in step -/

open Registry

/-- Two runs end alike: both fail, or both succeed, with related results and with a
registry and its copy. -/
inductive EndAlike {ε α β : Type} (T : Translation) (V : α → β → Prop) :
    EStateM.Result ε State α → EStateM.Result ε State β → Prop where
  | ok {a : α} {b : β} {s s' : State} (hV : V a b) (h : Copies T s.registry s'.registry)
      (hs : s.registry.bare.Acyclic) : EndAlike T V (.ok a s) (.ok b s')
  | error (e e' : ε) (s s' : State) : EndAlike T V (.error e s) (.error e' s')

/-- Two operations end alike from a registry and its copy. -/
def InStep {ε α β : Type} (T : Translation) (V : α → β → Prop) (x : Check ε α) (y : Check ε β) :
    Prop :=
  ∀ s s', Copies T s.registry s'.registry → s.registry.bare.Acyclic →
    EndAlike T V (x.run s) (y.run s')

section

variable {ε α β γ δ : Type} {T : Translation} {V : α → β → Prop} {W : γ → δ → Prop}

theorem InStep.bind {x : Check ε α} {y : Check ε β} {f : α → Check ε γ} {g : β → Check ε δ}
    (hx : InStep T V x y) (hf : ∀ a b, V a b → InStep T W (f a) (g b)) :
    InStep T W (x >>= f) (y >>= g) := by
  intro s s' h hs
  have hend := hx s s' h hs
  generalize hxs : x.run s = rx at hend
  generalize hys : y.run s' = ry at hend
  cases hend with
  | ok hV h₁ hs₁ =>
    rw [run_bind_ok hxs, run_bind_ok hys]
    exact hf _ _ hV _ _ h₁ hs₁
  | error e e' s₁ s₁' =>
    rw [run_bind_error hxs, run_bind_error hys]
    exact .error e e' s₁ s₁'

theorem inStep_pure {a : α} {b : β} (h : V a b) : InStep T V (pure a : Check ε α) (pure b) :=
  fun _ _ hcopies hs => .ok h hcopies hs

theorem inStep_throw (e e' : ε) : InStep T V (throw e : Check ε α) (throw e') :=
  fun s s' _ _ => .error e e' s s'

/-- The registry is read on both sides. -/
theorem inStep_registry {f : Registry → Check ε γ} {g : Registry → Check ε δ}
    (hf : ∀ c r, Copies T c r → c.bare.Acyclic → InStep T W (f c) (g r)) :
    InStep T W (registry >>= f) (registry >>= g) := by
  intro s s' h hs
  rw [run_bind_ok (run_registry s), run_bind_ok (run_registry s')]
  exact hf _ _ h hs s s' h hs

theorem inStep_emit (e e' : Event) : InStep T (fun _ _ => True) (emit e : Check ε Unit) (emit e') :=
  fun _ _ h hs => .ok trivial h hs

theorem inStep_freshVar : InStep T (fun t u => u = T.ty t) (freshVar : Check ε Ty) freshVar := by
  intro s s' h hs
  refine .ok ?_ h.addVar ?_
  · rw [T.ty_flex]
    exact congrArg flex (h.next 0).symm
  · rw [bare_addVar]
    exact hs.addVar

theorem inStep_mismatch (a b a' b' : Ty) :
    InStep T V (mismatch a b : Check TypeError α) (mismatch a' b') :=
  inStep_registry fun _ _ _ _ => inStep_throw _ _

theorem inStep_solve (v : Nat) (t : Ty) :
    InStep T (fun _ _ => True) (solve v t) (solve (T.var v) (T.ty t)) := by
  intro s s' h hs
  -- both are solved under the same conditions
  have hiff : (s'.registry.binding? (T.var v) = none ∧
      s'.registry.occurs (T.var v) (T.ty t) = false ∧ T.var v < s'.registry.varCount) ↔
      s.registry.binding? v = none ∧ s.registry.occurs v t = false ∧ v < s.registry.varCount := by
    rw [h.binding, h.occurs hs, h.issued, map_eq_none_iff]
  rcases run_solve v t s with ⟨e, hrun, hnot⟩ | ⟨hrun, hopen, hocc, hlt⟩
  · rcases run_solve (T.var v) (T.ty t) s' with ⟨e', hrun', -⟩ | ⟨-, hcan⟩
    · rw [hrun, hrun']
      exact .error e e' s s'
    · exact absurd (hiff.mp hcan) hnot
  · rcases run_solve (T.var v) (T.ty t) s' with ⟨e', -, hnot⟩ | ⟨hrun', -⟩
    · exact absurd (hiff.mpr ⟨hopen, hocc, hlt⟩) hnot
    · rw [hrun, hrun']
      exact .ok trivial (h.setBinding v t) (acyclic_bare_setBinding hs hopen hocc)

/-- Unification takes the same steps over both registries. -/
theorem inStep_unifyN (T : Translation) (fuel : Nat) :
    (∀ a b, InStep T (fun _ _ => True) (unifyN fuel a b) (unifyN fuel (T.ty a) (T.ty b))) ∧
    ∀ a b, InStep T (fun _ _ => True) (unifyRowsN fuel a b)
      (unifyRowsN fuel (T.ty a) (T.ty b)) := by
  induction fuel with
  | zero => exact ⟨fun a b => inStep_mismatch a b _ _, fun a b => inStep_mismatch a b _ _⟩
  | succ fuel ih =>
    obtain ⟨htypes, hrows⟩ := ih
    have hall : ∀ pairs : List (Ty × Ty), InStep T (fun _ _ => True)
        (forM pairs fun p => unifyN fuel p.1 p.2 : Check TypeError Unit)
        (forM (pairs.map fun p => (T.ty p.1, T.ty p.2)) fun p => unifyN fuel p.1 p.2) := by
      intro pairs
      induction pairs with
      | nil => exact inStep_pure trivial
      | cons p pairs ih => exact (htypes p.1 p.2).bind fun _ _ _ => ih
    constructor
    · intro a b
      rw [unifyN, unifyN]
      refine inStep_registry fun c r h hc => ?_
      rw [h.resolve hc, h.resolve hc]
      refine (inStep_emit _ _).bind fun _ _ _ => ?_
      rw [T.meet]
      cases (c.resolve a).meet (c.resolve b) with
      | same => exact inStep_pure trivial
      | solve v t => exact inStep_solve v t
      | expand t u => exact htypes t u
      | children pairs ragged =>
        refine (hall pairs).bind fun _ _ _ => ?_
        cases ragged with
        | true => exact inStep_mismatch _ _ _ _
        | false => exact inStep_pure trivial
      | rows => exact hrows _ _
      | clash => exact inStep_mismatch _ _ _ _
    · intro a b
      rw [unifyRowsN, unifyRowsN]
      refine inStep_registry fun c r h hc => ?_
      rw [h.row hc, h.row hc]
      simp only [T.shared]
      refine (hall _).bind fun _ _ _ => inStep_registry fun c₁ r₁ h₁ hc₁ => ?_
      have htail : ∀ row : Row, r₁.resolve (row.map T.ty).tail = T.ty (c₁.resolve row.tail) :=
        fun row => h₁.resolve hc₁ row.tail
      rw [htail, htail, T.remainder]
      cases (c.row a).remainder (c.row b) _ _ with
      | again => exact hrows a b
      | tails t u => exact htypes t u
      | extend v fs rest =>
        have hstep := htypes (.flex v) (.record fs rest)
        rwa [T.ty_flex, T.ty_record] at hstep
      | split v w fs gs =>
        refine inStep_freshVar.bind fun rest rest' hrest => ?_
        subst hrest
        have hmine := htypes (.flex v) (.record fs rest)
        have htheirs := htypes (.flex w) (.record gs rest)
        rw [T.ty_flex, T.ty_record] at hmine htheirs
        exact hmine.bind fun _ _ _ => htheirs
      | clash => exact inStep_mismatch _ _ _ _

end

/-! ## Fuel that is enough -/

section

variable {ε α β : Type}

/-- Where the first operation succeeds, the second one does the same. -/
def Grants (x y : Check ε α) : Prop := ∀ s a s', x.run s = .ok a s' → y.run s = .ok a s'

theorem Grants.refl (x : Check ε α) : Grants x x := fun _ _ _ h => h

theorem Grants.bind {x y : Check ε α} {f g : α → Check ε β} (hx : Grants x y)
    (hf : ∀ a, Grants (f a) (g a)) : Grants (x >>= f) (y >>= g) := by
  intro s b s' h
  cases hrun : x.run s with
  | ok a s₁ =>
    rw [run_bind_ok hrun] at h
    rw [run_bind_ok (hx s a s₁ hrun)]
    exact hf a s₁ b s' h
  | error e s₁ =>
    rw [run_bind_error hrun] at h
    cases h

theorem grants_mismatch (a b : Ty) (y : Check TypeError α) : Grants (mismatch a b) y := by
  intro s u s' h
  cases h

/-- A run that succeeds does the same with more fuel. -/
theorem grants_unifyN {n m : Nat} (hnm : n ≤ m) :
    (∀ a b, Grants (unifyN n a b) (unifyN m a b)) ∧
      ∀ a b, Grants (unifyRowsN n a b) (unifyRowsN m a b) := by
  induction n generalizing m with
  | zero => exact ⟨fun a b => grants_mismatch a b _, fun a b => grants_mismatch a b _⟩
  | succ n ih =>
    obtain ⟨m, rfl⟩ : ∃ k, m = k + 1 := ⟨m - 1, by omega⟩
    obtain ⟨htypes, hrows⟩ := ih (Nat.le_of_succ_le_succ hnm)
    have hall : ∀ pairs : List (Ty × Ty),
        Grants (forM pairs fun p => unifyN n p.1 p.2 : Check TypeError Unit)
          (forM pairs fun p => unifyN m p.1 p.2) := by
      intro pairs
      induction pairs with
      | nil => exact .refl _
      | cons p pairs ih => exact (htypes p.1 p.2).bind fun _ => ih
    constructor
    · intro a b
      rw [unifyN, unifyN]
      refine (Grants.refl _).bind fun r => (Grants.refl _).bind fun _ => ?_
      cases (r.resolve a).meet (r.resolve b) with
      | expand t u => exact htypes t u
      | children pairs ragged => exact (hall pairs).bind fun _ => .refl _
      | rows => exact hrows _ _
      | _ => exact .refl _
    · intro a b
      rw [unifyRowsN, unifyRowsN]
      refine (Grants.refl _).bind fun r => (hall _).bind fun _ => (Grants.refl _).bind fun r₁ => ?_
      cases (r.row a).remainder (r.row b) _ _ with
      | again => exact hrows a b
      | tails t u => exact htypes t u
      | extend v fs rest => exact htypes _ _
      | split v w fs gs =>
        exact (Grants.refl _).bind fun rest => (htypes _ _).bind fun _ => htypes _ _
      | clash => exact .refl _

end

/-- Whether a run succeeds does not depend on the fuel, from the fuel on that the
bare types need. -/
theorem unifyN_ok_iff {s : State} (hs : s.registry.bare.Acyclic) {a b : Ty} {n m : Nat}
    (hn : s.registry.bare.unifyFuel a.bare b.bare ≤ n)
    (hm : s.registry.bare.unifyFuel a.bare b.bare ≤ m) (u : Unit) (s' : State) :
    (unifyN n a b).run s = .ok u s' ↔ (unifyN m a b).run s = .ok u s' := by
  have hwf := WellFormed.of_covered hs (allBindings_bare s.registry)
  let t : State := ⟨s.registry.bare, #[]⟩
  have hends : ∀ k, t.registry.unifyFuel a.bare b.bare ≤ k → (Task.types a.bare b.bare).Ends k t :=
    fun k hk => (ready_ends k).1 _ _ t (unifyFuel_ready hwf (covered_bare a) (covered_bare b) hk)
  have hstep : ∀ k, EndAlike .bare (fun _ _ => True) ((unifyN k a b).run s)
      ((unifyN k a.bare b.bare).run t) :=
    fun k => (inStep_unifyN .bare k).1 a b s t (copies_bare s.registry) hs
  -- success with one fuel is success with the other, over the bare bindings first
  have hgo : ∀ {k l}, t.registry.unifyFuel a.bare b.bare ≤ k →
      t.registry.unifyFuel a.bare b.bare ≤ l →
      (unifyN k a b).run s = .ok u s' → (unifyN l a b).run s = .ok u s' := by
    intro k l hk hl hrun
    have hboth := ((hends k hk).unique (hends l hl)).1
    have hk' := hstep k
    have hl' := hstep l
    rw [hrun] at hk'
    unfold Task.run Check.ends at hboth
    generalize (unifyN k a.bare b.bare).run t = x at hk' hboth
    generalize (unifyN l a.bare b.bare).run t = y at hl' hboth
    cases hk' with
    | ok =>
      cases y with
      | error => cases hboth
      | ok v t' =>
        generalize hlrun : (unifyN l a b).run s = z at hl'
        cases hl' with
        | @ok w _ s₁ _ =>
          -- both runs are the run with all the fuel
          have hk'' := (grants_unifyN (le_max_left k l)).1 a b s u s' hrun
          have hl'' := (grants_unifyN (le_max_right k l)).1 a b s w s₁ hlrun
          rw [hk''] at hl''
          cases hl''
          rfl
  exact ⟨hgo hn hm, hgo hm hn⟩

theorem Registry.unifyFuel_le {c r : Registry} {a b a' b' : Ty} (hcount : c.varCount ≤ r.varCount)
    (hmax : c.maxHeight ≤ r.maxHeight) (ha : a.height ≤ a'.height) (hb : b.height ≤ b'.height) :
    c.unifyFuel a b ≤ r.unifyFuel a' b' := by
  have hheight : max c.maxHeight (max a.height b.height) ≤
      max r.maxHeight (max a'.height b'.height) := by omega
  unfold unifyFuel
  exact Nat.mul_le_mul (Nat.mul_le_mul (Nat.mul_le_mul le_rfl (by omega)) (by omega)) (by omega)

/-- Unification ends alike over a registry and its copy. -/
theorem inStep_unify (T : Translation) (a b : Ty) :
    InStep T (fun _ _ => True) (unify a b) (unify (T.ty a) (T.ty b)) := by
  intro s s' h hs
  have hmine : s.registry.bare.unifyFuel a.bare b.bare ≤ s.registry.unifyFuel a b :=
    unifyFuel_le (varCount_bare _).le (maxHeight_bare _) (height_bare a) (height_bare b)
  have htheirs : s.registry.bare.unifyFuel a.bare b.bare ≤
      s'.registry.unifyFuel (T.ty a) (T.ty b) := by
    exact unifyFuel_le ((varCount_bare _).trans_le h.varCount_le) h.maxHeight_le (T.height a)
      (T.height b)
  have hsame := unifyN_ok_iff hs hmine htheirs
  unfold unify
  rw [run_bind_ok (run_registry s), run_bind_ok (run_registry s')]
  have hstep := (inStep_unifyN T (s'.registry.unifyFuel (T.ty a) (T.ty b))).1 a b s s' h hs
  generalize (unifyN _ (T.ty a) (T.ty b)).run s' = y at hstep ⊢
  generalize hx : (unifyN _ a b).run s = x at hstep
  cases hstep with
  | ok hV hcopies hs₁ =>
    rw [(hsame _ _).mpr hx]
    exact .ok hV hcopies hs₁
  | error e e' s₁ s₁' =>
    cases hrun : (unifyN (s.registry.unifyFuel a b) a b).run s with
    | ok u s₂ =>
      rw [(hsame _ _).mp hrun] at hx
      cases hx
    | error e₂ s₂ => exact .error e₂ e' s₂ s₁'

end RowTyping
