import RowTyping.Proofs.Discipline

/-!
# What can be seen of a type

The bindings show of a type what is left when all its variables are followed:
its open variables and its modules. A field of a record is hidden when a label
in front of it has the same name. `Sees` says what is seen, `Confined` that all
of it is allowed.

Bindings are only added, so what a run may touch can be said about the registry
that it starts from. Unification binds no variable that is not seen there, and
what it binds a variable to is confined again.
-/

namespace RowTyping

open Registry Table Ty Env Finset List Option

namespace Registry

/-- What the bindings show of a type behind the labels `front`: an open variable
or a module. -/
inductive Sees (r : Registry) : Finset String → Ty → Ty → Prop where
  | unbound {front : Finset String} {v : Nat} (h : r.binding? v = none) :
      Sees r front (.flex v) (.flex v)
  | bound {front : Finset String} {v : Nat} {t u : Ty} (h : r.binding? v = some t)
      (hu : Sees r front t u) : Sees r front (.flex v) u
  | arg {front : Finset String} {c : Con} {args : List Ty} {t u : Ty} (h : t ∈ args)
      (hu : Sees r ∅ t u) : Sees r front (.con c args) u
  | field {front : Finset String} {fs : List (String × Ty)} {tail : Ty} {l : String} {t u : Ty}
      (hl : l ∉ front) (h : fs.lookup l = some t) (hu : Sees r ∅ t u) :
      Sees r front (.record fs tail) u
  | tail {front : Finset String} {fs : List (String × Ty)} {tail u : Ty}
      (hu : Sees r (front ∪ Table.names fs) tail u) : Sees r front (.record fs tail) u
  | param {front : Finset String} {id : Nat} {labels : List String} {params : List Ty}
      {target t u : Ty} (h : t ∈ params) (hu : Sees r ∅ t u) :
      Sees r front (.synonym id labels params target) u
  | target {front : Finset String} {id : Nat} {labels : List String} {params : List Ty}
      {target u : Ty} (hu : Sees r ∅ target u) : Sees r front (.synonym id labels params target) u
  | module {front : Finset String} (name : String) (members : Env) :
      Sees r front (.module name members) (.module name members)

/-- Fewer labels in front hide less. -/
theorem Sees.anti {r : Registry} {front front' : Finset String} {t u : Ty}
    (h : r.Sees front' t u) (hsub : front ⊆ front') : r.Sees front t u := by
  induction h generalizing front with
  | unbound h => exact .unbound h
  | bound h _ ih => exact .bound h (ih hsub)
  | arg h hu _ => exact .arg h hu
  | field hl h hu _ => exact .field (fun hmem => hl (hsub hmem)) h hu
  | tail _ ih => exact .tail (ih (union_subset_union_left hsub))
  | param h hu _ => exact .param h hu
  | target hu _ => exact .target hu
  | module name members => exact .module name members

/-- Everything that is seen of the type behind the labels is allowed. -/
def Confined (r : Registry) (L : Ty → Prop) (front : Finset String) (t : Ty) : Prop :=
  ∀ u, r.Sees front t u → L u

namespace Confined

variable {r : Registry} {L : Ty → Prop} {front front' : Finset String} {t tail target : Ty}
  {fs : Table Ty} {params : List Ty} {id : Nat} {labels : List String}

theorem mono (h : r.Confined L front t) (hsub : front ⊆ front') : r.Confined L front' t :=
  fun u hu => h u (hu.anti hsub)

theorem behind (h : r.Confined L ∅ t) : r.Confined L front t := h.mono (empty_subset _)

theorem gen (g : Nat) : r.Confined L front (.gen g) := by
  intro u hu
  cases hu

theorem con {c : Con} {args : List Ty} :
    r.Confined L front (.con c args) ↔ ∀ t ∈ args, r.Confined L ∅ t := by
  constructor
  · exact fun h t ht u hu => h u (.arg ht hu)
  · intro h u hu
    cases hu with
    | arg ht hu => exact h _ ht u hu

theorem record : r.Confined L front (.record fs tail) ↔
    (∀ l t, l ∉ front → fs.lookup l = some t → r.Confined L ∅ t) ∧
      r.Confined L (front ∪ names fs) tail := by
  constructor
  · exact fun h => ⟨fun l t hl ht u hu => h u (.field hl ht hu), fun u hu => h u (.tail hu)⟩
  · rintro ⟨hfields, htail⟩ u hu
    cases hu with
    | field hl ht hu => exact hfields _ _ hl ht u hu
    | tail hu => exact htail u hu

theorem synonym : r.Confined L front (.synonym id labels params target) ↔
    (∀ t ∈ params, r.Confined L ∅ t) ∧ r.Confined L ∅ target := by
  constructor
  · exact fun h => ⟨fun t ht u hu => h u (.param ht hu), fun u hu => h u (.target hu)⟩
  · rintro ⟨hparams, htarget⟩ u hu
    cases hu with
    | param ht hu => exact hparams _ ht u hu
    | target hu => exact htarget u hu

theorem module {name : String} {members : Env} :
    r.Confined L front (.module name members) ↔ L (.module name members) := by
  constructor
  · exact fun h => h _ (.module name members)
  · intro h u hu
    cases hu
    exact h

theorem unbound {v : Nat} (hv : r.binding? v = none) :
    r.Confined L front (.flex v) ↔ L (.flex v) := by
  constructor
  · exact fun h => h _ (.unbound hv)
  · intro h u hu
    cases hu with
    | unbound _ => exact h
    | bound hb _ =>
      rw [hv] at hb
      cases hb

/-- A record of confined fields and a confined tail. -/
theorem recordOf (hfs : ∀ e ∈ fs, r.Confined L ∅ e.2) (htail : r.Confined L ∅ tail) :
    r.Confined L ∅ (.record fs tail) :=
  record.mpr ⟨fun _ _ _ ht => hfs _ (mem_of_lookup ht), htail.behind⟩

/-- Confined types in the place of variables. -/
theorem subst {f : TyVar → Ty} (h : r.Confined L front t)
    (hf : ∀ x, f x = .var x ∨ r.Confined L ∅ (f x)) : r.Confined L front (t.subst f) := by
  induction t generalizing front with
  | var x =>
    rcases hf x with heq | hx
    · rwa [subst, heq]
    · exact hx.behind
  | con c args ih =>
    rw [subst, substList_eq, con]
    exact forall_mem_map.mpr fun t ht => ih t ht (con.mp h t ht)
  | record fs tail ihfs ih =>
    obtain ⟨hfields, htail⟩ := record.mp h
    rw [subst, substFields_eq, record]
    change (∀ l t, l ∉ front → (mapValues (subst f) fs).lookup l = some t → _) ∧
      r.Confined L (front ∪ (mapValues (subst f) fs).names) _
    rw [names_mapValues]
    refine ⟨fun l t hl ht => ?_, ih htail⟩
    rw [lookup_mapValues] at ht
    obtain ⟨u, hu, rfl⟩ := map_eq_some_iff.mp ht
    exact ihfs _ (mem_of_lookup hu) (hfields l u hl hu)
  | synonym id labels params target ihp ih =>
    obtain ⟨hparams, htarget⟩ := synonym.mp h
    rw [subst, substList_eq, synonym]
    exact ⟨forall_mem_map.mpr fun t ht => ihp t ht (hparams t ht), ih htarget⟩
  | module name members => exact h

end Confined

/-! ## Confined runs -/

/-- The registry has come from `r₀` by bindings of variables that are allowed to
types that are confined. -/
structure Grown (r₀ : Registry) (L : Ty → Prop) (r : Registry) : Prop where
  varCount_le : r₀.varCount ≤ r.varCount
  kept : ∀ {v t}, r₀.binding? v = some t → r.binding? v = some t
  made : ∀ {v t}, r.binding? v = some t →
    r₀.binding? v = some t ∨ r₀.binding? v = none ∧ L (.flex v) ∧ r₀.Confined L ∅ t
  acyclic : r.bare.Acyclic

theorem resolve_resolve_of_bare {r : Registry} (hr : r.bare.Acyclic) (t : Ty) :
    r.resolve (r.resolve t) = r.resolve t := by
  by_cases h : ∃ v, r.resolve t = .flex v
  · obtain ⟨v, hv⟩ := h
    rw [hv, resolve_none (open_of_resolve hr hv)]
  · exact resolve_of_not_flex fun v hv => h ⟨v, hv⟩

namespace Grown

variable {r₀ r : Registry} {L : Ty → Prop} {front : Finset String} {t : Ty} {v : Nat}

theorem refl (hr : r₀.bare.Acyclic) : r₀.Grown L r₀ := ⟨le_rfl, id, .inl, hr⟩

theorem unbound (h : r₀.Grown L r) (hv : r.binding? v = none) : r₀.binding? v = none := by
  cases hb : r₀.binding? v with
  | none => rfl
  | some t => rw [h.kept hb] at hv; cases hv

theorem addVar (h : r₀.Grown L r) : r₀.Grown L r.addVar where
  varCount_le := by simpa using h.varCount_le.trans (Nat.le_succ _)
  kept hv := by simpa using h.kept hv
  made hv := h.made (by simpa using hv)
  acyclic := by
    rw [bare_addVar]
    exact h.acyclic.addVar

theorem setBinding (h : r₀.Grown L r) (hv : r.binding? v = none) (hL : L (.flex v))
    (ht : r₀.Confined L ∅ t) (hocc : r.occurs v t = false) : r₀.Grown L (r.setBinding v t) where
  varCount_le := by simpa using h.varCount_le
  kept hw := (Extends.setBinding hv t).binding _ _ (h.kept hw)
  made hw := by
    rcases binding?_setBinding_inv hw with ⟨rfl, rfl⟩ | hw
    · exact .inr ⟨h.unbound hv, hL, ht⟩
    · exact h.made hw
  acyclic := acyclic_bare_setBinding h.acyclic hv hocc

/-! ### Reading a grown registry -/

theorem confined_binding (h : r₀.Grown L r) (hv : r₀.Confined L front (.flex v))
    (hb : r.binding? v = some t) : r₀.Confined L front t := by
  rcases h.made hb with hold | ⟨-, -, ht⟩
  · exact fun u hu => hv u (.bound hold hu)
  · exact ht.behind

theorem confined_resolve (h : r₀.Grown L r) (ht : r₀.Confined L front t) :
    r₀.Confined L front (r.resolve t) :=
  Passes.follow (P := r₀.Confined L front) (fun _ _ hv hb => h.confined_binding hv hb) ht _

/-- What resolution ends in, if it is no record, hides nothing. -/
theorem confined_end (h : r₀.Grown L r) (ht : r₀.Confined L front t)
    (hrec : (r.resolve t).isRecord = false) : r₀.Confined L ∅ (r.resolve t) := by
  have hres := h.confined_resolve ht
  cases heq : r.resolve t with
  | var x =>
    rw [heq] at hres
    cases x with
    | gen g => exact .gen g
    | flex v =>
      have hv := h.unbound (open_of_resolve h.acyclic heq)
      rwa [Confined.unbound hv] at hres ⊢
  | con c args =>
    rw [heq, Confined.con] at hres
    exact Confined.con.mpr hres
  | record fs tail =>
    rw [heq] at hrec
    cases hrec
  | synonym id labels params target =>
    rw [heq, Confined.synonym] at hres
    exact Confined.synonym.mpr hres
  | module name members =>
    rw [heq, Confined.module] at hres
    exact Confined.module.mpr hres

/-- The collected fields are confined, and the end of the row is so behind
them. -/
theorem confined_collect (h : r₀.Grown L r) (n : Nat) {fields : Table Ty} (hsorted : fields.Sorted)
    (hfields : ∀ e ∈ fields, r₀.Confined L ∅ e.2) (ht : r₀.Confined L fields.names t) :
    (∀ e ∈ (r.collect n fields t).fields, r₀.Confined L ∅ e.2) ∧
      r₀.Confined L (r.collect n fields t).fields.names (r.collect n fields t).tail := by
  induction n generalizing fields t with
  | zero => exact ⟨hfields, h.confined_resolve ht⟩
  | succ n ih =>
    have hres := h.confined_resolve ht
    rw [collect]
    split
    · next fs tail heq =>
      rw [heq] at hres
      obtain ⟨hfs, htail⟩ := Confined.record.mp hres
      have hsorted' := hsorted.union fs
      refine ih hsorted' (fun e he => ?_) (by rwa [names_union])
      -- a field that is added is the first of its name
      have hlookup := hsorted'.lookup_of_mem he
      rw [lookup_union] at hlookup
      cases hold : fields.lookup e.1 with
      | some u =>
        rw [hold] at hlookup
        cases hlookup
        exact hfields _ (mem_of_lookup hold)
      | none =>
        rw [hold] at hlookup
        refine hfs e.1 e.2 ?_ hlookup
        rw [mem_names_iff_lookup, hold]
        simp
    · exact ⟨hfields, hres⟩

theorem confined_row (h : r₀.Grown L r) (ht : r₀.Confined L ∅ t) :
    (∀ e ∈ (r.row t).fields, r₀.Confined L ∅ e.2) ∧
      r₀.Confined L (r.row t).fields.names (r.row t).tail :=
  h.confined_collect _ .nil (by simp) ht

theorem confined_resolveDeepN (h : r₀.Grown L r) (n : Nat) (ht : r₀.Confined L ∅ t) :
    r₀.Confined L ∅ (r.resolveDeepN n t) := by
  induction n generalizing t with
  | zero => exact Confined.con.mpr (by simp)
  | succ n ih =>
    have hres := h.confined_resolve ht
    rw [resolveDeepN]
    cases heq : r.resolve t with
    | con c args =>
      rw [heq, Confined.con] at hres
      exact Confined.con.mpr (forall_mem_map.mpr fun u hu => ih (hres u hu))
    | record fs tail =>
      rw [heq] at hres
      obtain ⟨hfields, htail⟩ := h.confined_row hres
      refine Confined.record.mpr ⟨fun l u _ hu => ?_, ?_⟩
      · change (mapValues (r.resolveDeepN n) _).lookup l = some u at hu
        rw [lookup_mapValues] at hu
        obtain ⟨w, hw, rfl⟩ := map_eq_some_iff.mp hu
        exact ih (hfields _ (mem_of_lookup hw))
      · change r₀.Confined L (∅ ∪ (mapValues (r.resolveDeepN n) _).names) _
        rwa [names_mapValues]
    | synonym id labels params target =>
      rw [heq, Confined.synonym] at hres
      exact Confined.synonym.mpr ⟨forall_mem_map.mpr fun u hu => ih (hres.1 u hu), ih hres.2⟩
    | var x => rwa [heq] at hres
    | module name members => rwa [heq] at hres

theorem confined_resolveDeep (h : r₀.Grown L r) (ht : r₀.Confined L ∅ t) :
    r₀.Confined L ∅ (r.resolveDeep t) :=
  h.confined_resolveDeepN _ ht

end Grown

end Registry

/-- What may be seen: certain variables, and sealed modules. -/
def Allowed (W : Nat → Prop) : Ty → Prop
  | .flex v => W v
  | .module _ members => members.Sealed
  | _ => True

theorem Ty.Sealed.confined {t : Ty} (h : t.Sealed) (r : Registry) (W : Nat → Prop)
    (front : Finset String) : r.Confined (Allowed W) front t := by
  induction h generalizing front with
  | gen g => exact .gen g
  | con _ ih => exact Confined.con.mpr fun t ht => ih t ht ∅
  | record _ _ ihfs ih =>
    exact Confined.record.mpr ⟨fun l t _ ht => ihfs _ (mem_of_lookup ht) ∅, ih _⟩
  | synonym _ _ ihp ih => exact Confined.synonym.mpr ⟨fun t ht => ihp t ht ∅, ih ∅⟩
  | module hvalues htypes _ _ => exact Confined.module.mpr ⟨hvalues, htypes⟩

/-- Everything that is issued is allowed. -/
def Fresh (r₀ : Registry) (L : Ty → Prop) : Prop := ∀ v, r₀.varCount ≤ v → L (.flex v)

section

variable {r₀ : Registry} {L : Ty → Prop}

theorem Fresh.confined (hL : Fresh r₀ L) {v : Nat} (hv : r₀.varCount ≤ v) (front : Finset String) :
    r₀.Confined L front (.flex v) :=
  (Confined.unbound (binding?_of_le hv)).mpr (hL v hv)

/-- Unification binds only what is seen, to what is confined. -/
theorem Fresh.unifying (hL : Fresh r₀ L) : Unifying (inRegistry (r₀.Grown L)) (r₀.Confined L) where
  addVar h := ⟨h.addVar, hL.confined h.varCount_le ∅⟩
  push h _ := h
  setBinding h hopen hocc _ hv ht :=
    h.setBinding hopen ((Confined.unbound (h.unbound hopen)).mp hv) ht hocc
  resolve h ht := h.confined_resolve ht
  row h ht := h.confined_row ht
  ends h ht hrec := h.confined_end ht hrec
  con _ := Confined.con.mpr
  args := Confined.con.mp
  target h := (Confined.synonym.mp h).2
  record := .recordOf

/-- Inference does so too, where modules are sealed. -/
theorem Fresh.discipline {W : Nat → Prop} (hW : Fresh r₀ (Allowed W)) :
    Discipline (inRegistry (r₀.Grown (Allowed W))) (r₀.Confined (Allowed W)) Sealed where
  toUnifying := hW.unifying
  addGen h := ⟨h.varCount_le, h.kept, h.made, h.acyclic⟩
  addType h := ⟨h.varCount_le, h.kept, h.made, h.acyclic⟩
  resolveDeep h ht := h.confined_resolveDeep ht
  subst h hf := h.subst hf
  naming := Sealed.naming
  ofNamed h := h.confined r₀ W ∅
  members h := Sealed.values (Confined.module.mp h)

end

end RowTyping
