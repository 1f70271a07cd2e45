import RowTyping.Proofs.Sealing

/-!
# Vocabularies

A checking run issues three sorts of identities: variables, generalized variables
and nominal types. A vocabulary says which of them may be mentioned, and whether the
members of a module count as mentioned by its type. A type, a scheme, an environment
or the bindings of a registry are covered by a vocabulary if they mention nothing
else. Reading a type through the bindings and substitution stay within the
vocabulary, on bindings with cycles too.
-/

namespace RowTyping

open Registry Table Ty List Scheme Subst

/-- What a registry issues. -/
inductive Identity where
  | var (x : TyVar)
  | type (id : Nat)

/-- What may be mentioned. -/
structure Vocabulary where
  Has : Identity → Prop
  /-- Whether the members of modules count. -/
  entersModules : Prop

namespace Vocabulary

/-- The second vocabulary has every identity of the first one, and looks into modules
only if that one does. -/
protected structure Le (K L : Vocabulary) : Prop where
  has : ∀ {i : Identity}, K.Has i → L.Has i
  enters : L.entersModules → K.entersModules

instance : Preorder Vocabulary where
  le := Vocabulary.Le
  le_refl _ := ⟨id, id⟩
  le_trans _ _ _ h h' := ⟨fun hi => h'.has (h.has hi), fun hm => h.enters (h'.enters hm)⟩

end Vocabulary

/-- The head carries no identity outside the vocabulary. -/
def Con.Within (K : Vocabulary) : Con → Prop
  | .variant id _ => K.Has (.type id)
  | .abstract id _ => K.Has (.type id)
  | _ => True

/-- The type mentions no identity outside the vocabulary. -/
inductive Ty.Within (K : Vocabulary) : Ty → Prop where
  | var {x : TyVar} (h : K.Has (.var x)) : Ty.Within K (.var x)
  | con {c : Con} {args : List Ty} (hc : c.Within K) (hargs : ∀ t ∈ args, Ty.Within K t) :
      Ty.Within K (.con c args)
  | record {fs : List (String × Ty)} {tail : Ty} (hfs : ∀ e ∈ fs, Ty.Within K e.2)
      (htail : Ty.Within K tail) : Ty.Within K (.record fs tail)
  | synonym {id : Nat} {labels : List String} {params : List Ty} {target : Ty}
      (hid : K.Has (.type id)) (hparams : ∀ t ∈ params, Ty.Within K t)
      (htarget : Ty.Within K target) : Ty.Within K (.synonym id labels params target)
  | module {name : String} {members : Env}
      (hvars : K.entersModules → ∀ e ∈ members.values ++ members.types, ∀ g ∈ e.2.vars,
        K.Has (.var (.gen g)))
      (hbodies : K.entersModules → ∀ e ∈ members.values ++ members.types, Ty.Within K e.2.body) :
      Ty.Within K (.module name members)

/-- The vocabulary of everything. -/
def Vocabulary.all : Vocabulary := ⟨fun _ => True, True⟩

/-- Things that carry identities. -/
class Identified (α : Type) where
  Within : Vocabulary → α → Prop
  mono : ∀ {K L : Vocabulary} {a : α}, K ≤ L → Within K a → Within L a
  all : ∀ a, Within .all a

/-- Everything that is mentioned is in the vocabulary. -/
def Vocabulary.Covers {α : Type} [Identified α] (K : Vocabulary) (a : α) : Prop :=
  Identified.Within K a

section

variable {α β : Type} [Identified α] [Identified β] {K L : Vocabulary}

theorem Vocabulary.Covers.mono {a : α} (h : K.Covers a) (hle : K ≤ L) : L.Covers a :=
  Identified.mono hle h

theorem Vocabulary.covers_all (a : α) : Vocabulary.all.Covers a := Identified.all a

theorem Con.Within.mono {c : Con} (h : c.Within K) (hle : K ≤ L) : c.Within L := by
  cases c with
  | variant id labels => exact hle.has h
  | abstract id labels => exact hle.has h
  | _ => trivial

theorem Ty.Within.mono {t : Ty} (h : t.Within K) (hle : K ≤ L) : t.Within L := by
  induction h with
  | var h => exact .var (hle.has h)
  | con hc _ ih => exact .con (hc.mono hle) ih
  | record _ _ ihfs ih => exact .record ihfs ih
  | synonym hid _ _ ihp ih => exact .synonym (hle.has hid) ihp ih
  | module hvars _ ih =>
    exact .module (fun hm e he g hg => hle.has (hvars (hle.enters hm) e he g hg))
      fun hm => ih (hle.enters hm)

theorem Ty.within_all (t : Ty) : t.Within .all :=
  @rec (fun t => t.Within .all) (fun σ => σ.body.Within .all)
    (fun env => ∀ e ∈ env.values ++ env.types, e.2.body.Within .all)
    (fun ts => ∀ t ∈ ts, t.Within .all) (fun fs => ∀ e ∈ fs, e.2.Within .all)
    (fun es => ∀ e ∈ es, e.2.body.Within .all) (fun e => e.2.Within .all)
    (fun e => e.2.body.Within .all)
    (fun _ => .var trivial)
    (fun c _ h => .con (by cases c <;> trivial) h)
    (fun _ _ hfs ht => .record hfs ht)
    (fun _ _ _ _ hps ht => .synonym trivial hps ht)
    (fun _ _ h => .module (fun _ _ _ _ _ => trivial) fun _ => h)
    (fun _ _ h => h)
    (fun _ _ hvs hts => forall_mem_append.mpr ⟨hvs, hts⟩)
    (by simp) (fun _ _ h hs => forall_mem_cons.mpr ⟨h, hs⟩)
    (by simp) (fun _ _ h hs => forall_mem_cons.mpr ⟨h, hs⟩)
    (by simp) (fun _ _ h hs => forall_mem_cons.mpr ⟨h, hs⟩)
    (fun _ _ h => h) (fun _ _ h => h) t

instance : Identified Unit := ⟨fun _ _ => True, fun _ => id, fun _ => trivial⟩

instance : Identified String := ⟨fun _ _ => True, fun _ => id, fun _ => trivial⟩

instance : Identified Ty := ⟨Ty.Within, fun hle h => h.mono hle, Ty.within_all⟩

instance : Identified Scheme where
  Within K σ := (∀ g ∈ σ.vars, K.Has (.var (.gen g))) ∧ K.Covers σ.body
  mono hle h := ⟨fun g hg => hle.has (h.1 g hg), h.2.mono hle⟩
  all σ := ⟨fun _ _ => trivial, σ.body.within_all⟩

instance : Identified (α × β) where
  Within K p := K.Covers p.1 ∧ K.Covers p.2
  mono hle h := ⟨h.1.mono hle, h.2.mono hle⟩
  all p := ⟨Vocabulary.covers_all p.1, Vocabulary.covers_all p.2⟩

instance : Identified (List α) where
  Within K as := ∀ a ∈ as, K.Covers a
  mono hle h a ha := (h a ha).mono hle
  all _ a _ := Vocabulary.covers_all a

instance : Identified (Option α) where
  Within K o := ∀ a, o = some a → K.Covers a
  mono hle h a ha := (h a ha).mono hle
  all _ a _ := Vocabulary.covers_all a

instance : Identified Env where
  Within K env := K.Covers env.values ∧ K.Covers env.types
  mono hle h := ⟨h.1.mono hle, h.2.mono hle⟩
  all env := ⟨Vocabulary.covers_all env.values, Vocabulary.covers_all env.types⟩

instance : Identified Registry where
  Within K r := ∀ v t, r.binding? v = some t → K.Covers t
  mono hle h v t hv := (h v t hv).mono hle
  all _ _ t _ := Vocabulary.covers_all t

end

namespace Vocabulary

variable {α β : Type} [Identified α] [Identified β] {K L : Vocabulary} {a : α} {as : List α}
  {σ : Scheme} {t : Ty}

/-! ## What is covered -/

@[simp] theorem covers_unit (u : Unit) : K.Covers u := trivial

@[simp] theorem covers_string (l : String) : K.Covers l := trivial

@[simp] theorem covers_pair {b : β} : K.Covers (a, b) ↔ K.Covers a ∧ K.Covers b := .rfl

theorem covers_list : K.Covers as ↔ ∀ a ∈ as, K.Covers a := .rfl

@[simp] theorem covers_nil : K.Covers ([] : List α) := by simp [covers_list]

@[simp] theorem covers_cons : K.Covers (a :: as) ↔ K.Covers a ∧ K.Covers as := by
  simp [covers_list]

@[simp] theorem covers_append {bs : List α} : K.Covers (as ++ bs) ↔ K.Covers as ∧ K.Covers bs := by
  simp only [covers_list, forall_mem_append]

@[simp] theorem covers_var {x : TyVar} : K.Covers (var x) ↔ K.Has (.var x) :=
  ⟨fun h => by cases h; assumption, .var⟩

@[simp] theorem covers_con {c : Con} {args : List Ty} :
    K.Covers (con c args) ↔ c.Within K ∧ K.Covers args :=
  ⟨fun h => by cases h with | con hc hargs => exact ⟨hc, hargs⟩, fun h => .con h.1 h.2⟩

@[simp] theorem covers_record {fs : Table Ty} {tail : Ty} :
    K.Covers (record fs tail) ↔ K.Covers fs ∧ K.Covers tail :=
  ⟨fun h => by cases h with | record hfs htail => exact ⟨fun e he => ⟨trivial, hfs e he⟩, htail⟩,
    fun h => .record (fun e he => (h.1 e he).2) h.2⟩

@[simp] theorem covers_synonym {id : Nat} {labels : List String} {params : List Ty} {target : Ty} :
    K.Covers (synonym id labels params target) ↔
      K.Has (.type id) ∧ K.Covers params ∧ K.Covers target :=
  ⟨fun h => by cases h with | synonym hid hparams htarget => exact ⟨hid, hparams, htarget⟩,
    fun h => .synonym h.1 h.2.1 h.2.2⟩

theorem covers_scheme : K.Covers σ ↔ (∀ g ∈ σ.vars, K.Has (.var (.gen g))) ∧ K.Covers σ.body := .rfl

@[simp] theorem covers_mono : K.Covers (mono t) ↔ K.Covers t := by
  simp [covers_scheme, mono]

@[simp] theorem covers_module {name : String} {members : Env} :
    K.Covers (module name members) ↔ (K.entersModules → K.Covers members) := by
  constructor
  · intro h hm
    cases h with
    | module hvars hbodies =>
      have hall : ∀ e ∈ members.values ++ members.types, K.Covers e :=
        fun e he => ⟨trivial, hvars hm e he, hbodies hm e he⟩
      exact ⟨fun e he => hall e (mem_append_left _ he), fun e he => hall e (mem_append_right _ he)⟩
  · intro h
    have hall : K.entersModules → ∀ e ∈ members.values ++ members.types, K.Covers e :=
      fun hm => forall_mem_append.mpr (h hm)
    exact .module (fun hm e he => (hall hm e he).2.1) fun hm e he => (hall hm e he).2.2

/-! ## Types built from parts -/

theorem covers_insert {l : String} {table : Table α} (ha : K.Covers a) (h : K.Covers table) :
    K.Covers (insert l a table) := by
  intro e he
  rcases mem_insert he with rfl | he
  · exact ⟨trivial, ha⟩
  · exact h e he

theorem covers_of_lookup {l : String} {table : Table α} (h : K.Covers table)
    (hl : table.lookup l = some a) : K.Covers a :=
  (h _ (mem_of_lookup hl)).2

theorem covers_addValue {env : Env} {x : String} (henv : K.Covers env) (hσ : K.Covers σ) :
    K.Covers (env.addValue x σ) :=
  ⟨covers_insert hσ henv.1, henv.2⟩

theorem rebuilds : Rebuilds K.Covers K.Covers where
  child {t u} h hu := by
    cases t with
    | var | module => simp [children] at hu
    | con c args => exact (covers_con.mp h).2 u hu
    | record fs tail =>
      obtain ⟨hfs, htail⟩ := covers_record.mp h
      rcases mem_children_record.mp hu with ⟨e, he, rfl⟩ | rfl
      · exact (hfs e he).2
      · exact htail
    | synonym id labels params target =>
      obtain ⟨-, hparams, htarget⟩ := covers_synonym.mp h
      rcases mem_append.mp hu with hu | hu
      · exact hparams u hu
      · exact mem_singleton.mp hu ▸ htarget
  con h _ hus := covers_con.mpr ⟨(covers_con.mp h).1, hus⟩
  record hfs htail := covers_record.mpr ⟨fun e he => ⟨trivial, hfs e he⟩, htail⟩
  synonym h hqs hu := covers_synonym.mpr ⟨(covers_synonym.mp h).1, hqs, hu⟩
  module h := h

/-! ## Reading through the bindings -/

section

variable {r : Registry} (hr : K.Covers r) {t : Ty}
include hr

theorem covers_resolve (h : K.Covers t) : K.Covers (r.resolve t) :=
  (AllBindings.passes hr).follow h _

theorem covers_row (h : K.Covers t) : K.Covers (r.row t).fields ∧ K.Covers (r.row t).tail := by
  obtain ⟨hfields, htail⟩ := (AllBindings.passes hr).row rebuilds h
  exact ⟨fun e he => ⟨trivial, hfields e he⟩, htail⟩

theorem covers_resolveDeep (h : K.Covers t) : K.Covers (r.resolveDeep t) :=
  (AllBindings.passes hr).resolveDeepN rebuilds (by simp [Con.Within]) h _

end

/-! ## Substitution -/

theorem covers_apply {entries : List (TyVar × Ty)} (ht : K.Covers t)
    (h : ∀ e ∈ entries, K.Covers e.2) : K.Covers ((ofList entries).apply t) := by
  refine rebuilds.subst ht fun x _ hx => ?_
  rcases image_cases entries x with ⟨heq, -⟩ | hmem
  · rw [heq]
    exact hx
  · exact h _ hmem

theorem covers_applyGens {gens : List (TyVar × Nat)} (ht : K.Covers t)
    (h : ∀ e ∈ gens, K.Has (.var (.gen e.2))) : K.Covers ((ofGens gens).apply t) :=
  covers_apply ht (forall_mem_map.mpr fun e he => covers_var.mpr (h e he))

theorem covers_applyArgs {name : String} {args : List Ty} (hσ : K.Covers σ) (hargs : K.Covers args)
    (h : applyArgs name σ args = .ok t) : K.Covers t := by
  unfold applyArgs at h
  split at h
  · obtain rfl := Except.ok.inj h
    exact covers_apply hσ.2 fun e he => hargs _ (of_mem_zip he).2
  · cases h

end Vocabulary

end RowTyping
