import RowTyping.Proofs.Declarations

/-!
# Coherence of rows

Records are spread over the registry: the tail of a record is a variable, and
this is bound to further fields. Over the whole of a program the pieces stay
coherent. Every variable stands either for types or for what comes behind one
fixed set of labels, and wherever a record is followed through the bindings no
label comes twice, so that flattening a record loses no field.
-/

namespace RowTyping

open Table Ty Finset List

namespace Table

variable {α : Type}

theorem insert_perm {k : String} (a : α) {t : Table α} (h : t.lookup k = none) :
    (insert k a t).Perm ((k, a) :: t) := by
  induction t with
  | nil => exact .refl _
  | cons e t ih =>
    obtain ⟨k', b⟩ := e
    rw [lookup_entry] at h
    have hk : k ≠ k' := by
      intro hk
      simp [hk] at h
    rw [if_neg hk] at h
    rw [insert]
    split
    · exact .refl _
    · exact ((ih h).cons _).trans (.swap _ _ _)

/-- Where no name repeats, nothing is left out of a union. -/
theorem union_perm {t u : Table α} (h : ((t ++ u).map (·.1)).Nodup) :
    (t.union u).Perm (t ++ u) := by
  induction u generalizing t with
  | nil => simp [union]
  | cons e u ih =>
    have hswap : ((e :: t) ++ u).Perm (t ++ e :: u) := perm_middle.symm
    have hnodup : (((e :: t) ++ u).map (·.1)).Nodup := (hswap.map _).nodup_iff.mpr h
    have hnone : t.lookup e.1 = none := by
      refine lookup_eq_none.mpr fun d hd heq => ?_
      rw [List.cons_append, List.map_cons, List.nodup_cons] at hnodup
      exact hnodup.1 (heq ▸ mem_map_of_mem (mem_append_left _ hd))
    have hnew : (t.insertNew e.1 e.2).Perm (e :: t) := by
      rw [insertNew, if_neg (by simp [hnone])]
      exact insert_perm e.2 hnone
    have happend : (t.insertNew e.1 e.2 ++ u).Perm (t ++ e :: u) :=
      (hnew.append_right u).trans hswap
    refine Perm.trans ?_ happend
    exact ih ((happend.map _).nodup_iff.mpr h)

end Table

namespace Registry

/-- A row followed through the bindings: the fields that are met, in their order,
and what is at the end. -/
inductive Trail (r : Registry) : Ty → List (String × Ty) → Ty → Prop where
  | stop {t : Ty} (hrecord : t.isRecord = false) (hopen : r.Resolved t) : Trail r t [] t
  | bound {v : Nat} {t e : Ty} {fs : List (String × Ty)} (hv : r.binding? v = some t)
      (h : Trail r t fs e) : Trail r (.flex v) fs e
  | record {fs gs : List (String × Ty)} {tail e : Ty} (h : Trail r tail gs e) :
      Trail r (.record fs tail) (fs ++ gs) e

namespace Trail

variable {r : Registry} {t e e' : Ty} {fs gs : Table Ty}

theorem ends (h : r.Trail t fs e) : e.isRecord = false ∧ r.Resolved e := by
  induction h with
  | stop hrecord hopen => exact ⟨hrecord, hopen⟩
  | bound _ _ ih => exact ih
  | record _ ih => exact ih

theorem of_follow {n : Nat} (h : r.Trail (r.follow n t) fs e) : r.Trail t fs e := by
  induction n generalizing t with
  | zero => exact h
  | succ n ih =>
    by_cases ht : ∃ v, t = .flex v
    · obtain ⟨v, rfl⟩ := ht
      cases hb : r.binding? v with
      | none => rwa [follow, hb] at h
      | some u =>
        rw [follow, hb] at h
        exact .bound hb (ih h)
    · rwa [follow_of_not_flex fun v hv => ht ⟨v, hv⟩] at h

end Trail

variable {r : Registry} {t : Ty}

/-- Collecting fields follows the trail. -/
theorem trail_collect (n : Nat) (fs : Table Ty) (hrecord : (r.collect n fs t).tail.isRecord = false)
    (hopen : r.Resolved (r.collect n fs t).tail) :
    ∃ gs, r.Trail t gs (r.collect n fs t).tail ∧
      (((fs ++ gs).map (·.1)).Nodup → (r.collect n fs t).fields.Perm (fs ++ gs)) := by
  induction n generalizing fs t with
  | zero => exact ⟨[], .of_follow (.stop hrecord hopen), fun _ => by simp [collect]⟩
  | succ n ih =>
    rw [collect] at hrecord hopen ⊢
    cases hres : r.resolve t with
    | record gs tail =>
      rw [hres] at hrecord hopen
      obtain ⟨gs', htrail, hperm⟩ := ih (fs.union gs) hrecord hopen
      refine ⟨gs ++ gs', .of_follow (n := r.varCount) ?_, fun hnodup => ?_⟩
      · rw [← resolve, hres]
        exact .record htrail
      · rw [← append_assoc] at hnodup ⊢
        have hfirst : ((fs ++ gs).map (·.1)).Nodup :=
          hnodup.sublist ((sublist_append_left _ _).map _)
        have hunion := (union_perm hfirst).append_right gs'
        exact (hperm ((hunion.map _).nodup_iff.mpr hnodup)).trans hunion
    | var | con | synonym | module =>
      rw [hres] at hrecord hopen
      refine ⟨[], .of_follow (n := r.varCount) ?_, fun _ => by simp⟩
      rw [← resolve, hres]
      exact .stop hrecord hopen

end Registry

namespace Stage

variable {G : Prop} {S : Stage G} {V : TyVar → Role → Prop} {t e : Ty} {front : Finset String}
  {fs : Table Ty}

/-- Along a trail no label comes twice, and the end stands behind all of them. -/
theorem fits_trail (hV : S.role.Allows V) (h : S.registry.Trail t fs e)
    (ht : t.Fits G S.role.Has V (.rest front)) :
    (fs.map (·.1)).Nodup ∧ (∀ f ∈ fs, f.1 ∉ front) ∧
      e.Fits G S.role.Has V (.rest (front ∪ names fs)) := by
  induction h generalizing front with
  | stop => exact ⟨.nil, by simp, by simpa using ht⟩
  | bound hv _ ih =>
    obtain ⟨k, hk, hu⟩ := S.fits hv
    cases (hV.role (Fits.var_iff.mp ht)).eq hk
    exact ih (hu.mono (fun _ _ => hV.flex) (fun _ _ => id) id)
  | @record fs gs _ _ _ ih =>
    cases ht with
    | record hs hfront _ htail =>
      obtain ⟨hnodup, hbehind, hend⟩ := ih htail
      refine ⟨?_, ?_, ?_⟩
      · rw [map_append, nodup_append]
        refine ⟨?_, hnodup, ?_⟩
        · exact pairwise_map.mpr (hs.imp fun h => h.ne)
        · intro l hl l' hl' heq
          obtain ⟨f, hf, rfl⟩ := mem_map.mp hl
          obtain ⟨g, hg, rfl⟩ := mem_map.mp hl'
          exact hbehind g hg (mem_union_right _ (mem_names.mpr ⟨f, hf, heq⟩))
      · intro f hf hmem
        rcases mem_append.mp hf with hf | hf
        · exact hfront f hf hmem
        · exact hbehind f hf (mem_union_left _ hmem)
      · have hnames : names (fs ++ gs) = names fs ∪ names gs := by
          simp [names]
        rwa [hnames, ← Finset.union_assoc]

/-- What is at the end of a row. -/
theorem trail_row (hV : S.role.Allows V) (ht : t.Fits G S.role.Has V (.rest front)) :
    ∃ fs, S.registry.Trail t fs (S.registry.row t).tail ∧ (S.registry.row t).fields.Perm fs := by
  obtain ⟨hopen, hrecord⟩ := Registry.row_tail_of_bare S.acyclic t
  obtain ⟨fs, htrail, hperm⟩ := Registry.trail_collect (S.registry.fuel t) [] hrecord hopen
  exact ⟨fs, htrail, hperm (fits_trail hV htrail ht).1⟩

end Stage

/-! ## What stands where -/

/-- The parts of the types of a registry and an environment, each with its role,
given the roles of the variables: a binding has the role of its variable, what
comes behind the fields of a record is a rest, and all other parts are types. -/
inductive Stands (role : TyVar → Option Role) (r : Registry) (env : Env) : Role → Ty → Prop where
  | binding {v : Nat} {t : Ty} {k : Role} (hb : r.binding? v = some t)
      (hv : role (.flex v) = some k) : Stands role r env k t
  | value {e : String × Scheme} {t : Ty} (he : e ∈ env.values) (ht : t ∈ e.2.body.parts) :
      Stands role r env .type t
  | typeName {e : String × Scheme} (he : e ∈ env.types) : Stands role r env .type e.2.body
  | arg {k : Role} {c : Con} {args : List Ty} {t : Ty} (h : Stands role r env k (.con c args))
      (ht : t ∈ args) : Stands role r env .type t
  | field {k : Role} {fs : List (String × Ty)} {tail : Ty} {e : String × Ty}
      (h : Stands role r env k (.record fs tail)) (he : e ∈ fs) : Stands role r env .type e.2
  | tail {k : Role} {fs : List (String × Ty)} {tail : Ty}
      (h : Stands role r env k (.record fs tail)) : Stands role r env (k.behind fs) tail
  | param {k : Role} {id : Nat} {labels : List String} {params : List Ty} {target t : Ty}
      (h : Stands role r env k (.synonym id labels params target)) (ht : t ∈ params) :
      Stands role r env .type t
  | target {k : Role} {id : Nat} {labels : List String} {params : List Ty} {target : Ty}
      (h : Stands role r env k (.synonym id labels params target)) : Stands role r env .type target
  | memberValue {k : Role} {name : String} {members : Env} {e : String × Scheme} {t : Ty}
      (h : Stands role r env k (.module name members)) (he : e ∈ members.values)
      (ht : t ∈ e.2.body.parts) : Stands role r env .type t
  | memberType {k : Role} {name : String} {members : Env} {e : String × Scheme}
      (h : Stands role r env k (.module name members)) (he : e ∈ members.types) :
      Stands role r env .type e.2.body

/-- The rows of a registry and an environment are coherent. -/
structure Coherent (role : TyVar → Option Role) (r : Registry) (env : Env) : Prop where
  /-- Every binding has a role. -/
  bound : ∀ {v : Nat} {t : Ty}, r.binding? v = some t → ∃ k, role (.flex v) = some k
  /-- A variable stands in one role everywhere, so none is both a tail and a
  type. -/
  var : ∀ {k : Role} {x : TyVar}, Stands role r env k (.var x) → role x = some k
  /-- Following a record never meets a label twice, nor one that is in front of
  it. It ends in the empty row or in an open or generalized variable, which
  stands behind all labels. Flattening finds all the fields and the end. -/
  record : ∀ {k : Role} {fs : List (String × Ty)} {tail : Ty},
    Stands role r env k (.record fs tail) → ∃ fields e, r.Trail (.record fs tail) fields e ∧
      (fields.map (·.1)).Nodup ∧ (∀ f ∈ fields, f.1 ∉ k.front) ∧
      (e = .emptyRow ∨ ∃ x, e = .var x ∧ (∀ v, x = .flex v → r.binding? v = none) ∧
        role x = some (.rest (k.front ∪ Table.names fields))) ∧
      (r.row (.record fs tail)).tail = e ∧ (r.row (.record fs tail)).fields.Perm fields
  /-- Records that end in the same variable have the same labels, those in front
  of them included. -/
  same : ∀ {k k' : Role} {fs fs' : List (String × Ty)} {tail tail' : Ty}
    {fields fields' : List (String × Ty)} {x : TyVar},
    Stands role r env k (.record fs tail) → Stands role r env k' (.record fs' tail') →
    r.Trail (.record fs tail) fields (.var x) → r.Trail (.record fs' tail') fields' (.var x) →
    k.front ∪ Table.names fields = k'.front ∪ Table.names fields'

namespace Stage

variable {S : Stage False} {env : Env}

theorem fits_of_stands (henv : S.FitsEnv env) {k : Role} {t : Ty}
    (h : Stands S.role S.registry env k t) : t.Fits False S.role.Has S.role.Has k := by
  induction h with
  | binding hb hv =>
    obtain ⟨k', hk', ht⟩ := S.fits hb
    cases Roles.Has.eq hv hk'
    exact ht.mono (fun _ _ hx => hx.1) (fun _ _ => id) id
  | value he ht =>
    exact ((henv.values _ he).body.parts _ ht).mono (fun _ _ hx => hx.1) (fun _ _ => id) id
  | typeName he => exact (henv.types _ he).body.mono (fun _ _ hx => hx.1) (fun _ _ => id) id
  | arg _ ht ih =>
    cases ih with
    | con _ _ hargs => exact hargs _ ht
    | emptyRow => cases ht
  | field _ he ih =>
    cases ih with
    | record _ _ hfields _ => exact hfields _ he
  | tail _ ih =>
    cases ih with
    | record _ _ _ htail => exact htail
  | param _ ht ih =>
    cases ih with
    | synonym hparams => exact hparams _ ht
  | target _ ih =>
    cases ih with
    | synonym _ htarget => exact htarget
  | memberValue _ he ht ih =>
    cases ih with
    | module _ hvalues => exact (hvalues _ he _ ht).mono (fun _ _ hx => hx.1) (fun _ _ => id) id
  | memberType _ he ih =>
    cases ih with
    | module _ _ htypes => exact htypes _ he

/-- The end of a record stands behind its labels. -/
theorem fits_end (henv : S.FitsEnv env) {k : Role} {fs fields : Table Ty} {tail e : Ty}
    (h : Stands S.role S.registry env k (.record fs tail))
    (htrail : S.registry.Trail (.record fs tail) fields e) :
    (fields.map (·.1)).Nodup ∧ (∀ f ∈ fields, f.1 ∉ k.front) ∧
      e.Fits False S.role.Has S.role.Has (.rest (k.front ∪ names fields)) :=
  fits_trail S.role.allows_has htrail ((fits_of_stands henv h).record_congr rfl)

theorem coherent (henv : S.FitsEnv env) : Coherent S.role S.registry env := by
  refine ⟨fun hb => ?_, fun h => ?_, fun {k fs tail} h => ?_, fun h h' htrail htrail' => ?_⟩
  · obtain ⟨k, hk, -⟩ := S.fits hb
    exact ⟨k, hk⟩
  · exact Fits.var_iff.mp (fits_of_stands henv h)
  · have hfits : (record fs tail).Fits False S.role.Has S.role.Has (.rest k.front) :=
      (fits_of_stands henv h).record_congr rfl
    obtain ⟨fields, htrail, hperm⟩ := trail_row S.role.allows_has hfits
    obtain ⟨hnodup, hfront, hend⟩ := fits_end henv h htrail
    refine ⟨fields, _, htrail, hnodup, hfront, ?_, rfl, hperm⟩
    obtain ⟨hrecord, hopen⟩ := htrail.ends
    generalize (S.registry.row (.record fs tail)).tail = e at *
    cases hend with
    | var h => exact .inr ⟨_, rfl, fun v hv => hopen v (congrArg _ hv), h⟩
    | emptyRow => exact .inl rfl
    | record => cases hrecord
  · have hrole := Fits.var_iff.mp (fits_end henv h htrail).2.2
    have hrole' := Fits.var_iff.mp (fits_end henv h' htrail').2.2
    exact Role.rest.inj (hrole.eq hrole')

end Stage

/-- Checking a program keeps the rows coherent, after every declaration and at
the end. A declaration that is rejected is no exception. -/
theorem checkProgram_coherent {env : Env} {s : State} (hstart : Start env s) (ds : List Decl) :
    (∀ n, ∃ role, Coherent role (checkDecls (ds.take n) { env } s).2.registry
      (checkDecls (ds.take n) { env } s).1.env) ∧
    ∃ role, Coherent role (checkProgram env ds s).2.registry (checkProgram env ds s).1.env := by
  obtain ⟨S, hS⟩ := Stage.describes_start hstart
  have hcoherent : ∀ {S : Stage False} {env : Env} {s : State}, S.Describes env s →
      ∃ role, Coherent role s.registry env := by
    intro S env s h
    rw [show s.registry = S.registry from h.state.1]
    exact ⟨S.role, Stage.coherent h.declared.fitsEnv⟩
  refine ⟨fun n => ?_, ?_⟩
  · obtain ⟨S', -, h⟩ := Stage.Describes.checkDecls (ds.take n) { env } hS False.elim
    exact hcoherent h
  · obtain ⟨S', -, h⟩ := hS.checkProgram ds False.elim
    exact hcoherent h

/-- A function that takes two fields of its argument. -/
def selectTwo : List Decl :=
  [.expr {} (.lam {} "r" none
    (.tuple {} [.field {} (.var {} "r") "x", .field {} (.var {} "r") "y"]))]

/-- The argument is a record in three pieces: behind the first field there is the
second, and behind this an open variable. -/
theorem selectTwo_coherent :
    let s := (checkProgram .empty selectTwo {}).2
    Start .empty {} ∧ s.registry.binding? 0 = some (.record [("x", .flex 1)] (.flex 2)) ∧
      s.registry.binding? 2 = some (.record [("y", .flex 3)] (.flex 5)) ∧
      ∃ role, Coherent role s.registry .empty := by
  intro s
  have henv : (checkProgram .empty selectTwo {}).1.env = .empty := by decide +kernel
  have hcoherent := (checkProgram_coherent .empty selectTwo).2
  rw [henv] at hcoherent
  exact ⟨.empty, by decide +kernel, by decide +kernel, hcoherent⟩

/-- The pieces by themselves have different labels: two records that are bound to
row variables end in the same open variable, one with the label `y` and one with
the label `x`. -/
theorem selectTwo_labels_differ :
    let r := (checkProgram .empty selectTwo {}).2.registry
    r.binding? 2 = some (.record [("y", .flex 3)] (.flex 5)) ∧
      r.binding? 4 = some (.record [("x", .flex 1)] (.flex 5)) ∧ r.binding? 5 = none ∧
      (r.row (.flex 2)).tail = (r.row (.flex 4)).tail ∧
      (r.row (.flex 2)).fields.map (·.1) ≠ (r.row (.flex 4)).fields.map (·.1) := by
  decide +kernel

end RowTyping
