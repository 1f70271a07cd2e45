import RowTyping.Proofs.Discipline

/-!
# Written types are faithful

To be faithful is a discipline of inference. In a declaration the type that is read
also shows every parameter that is written: type names show their arguments, and the
rows that they leave open get generalized variables of their own, which are no
parameters.
-/

namespace RowTyping

open Check Registry Table Ty List Option Subst

namespace TypeExpr

mutual

/-- The labels of a written type, from left to right, with repetition. -/
def labels : TypeExpr → List String
  | .name _ => []
  | .var l => [l]
  | .app _ args => labelsList args
  | .arrow a r => labels a ++ labels r
  | .tuple items => labelsList items
  | .record fields _ => labelsFields fields

def labelsList : List TypeExpr → List String
  | [] => []
  | e :: es => labels e ++ labelsList es

def labelsFields : List (String × TypeExpr) → List String
  | [] => []
  | (_, e) :: es => labels e ++ labelsFields es

end

end TypeExpr

/-! ## The discipline of sound states -/

/-- Checking is watched for sound states and for the generalized variables that
are issued. -/
def checking : Watch State := watching State.Sound

theorem State.Sound.discipline : Discipline State.Sound (fun _ t => t.Faithful) Faithful where
  addVar h := ⟨h.addVar, .var _⟩
  setBinding h hopen hocc hlt _ ht := h.setBinding hopen hocc hlt ht
  push h he := h.push he
  resolve h ht := h.registry.faithful.passes.follow ht _
  row h ht := h.registry.faithful.row h.registry.acyclic (fun h hu => h.child hu) (fun h => h) ht
  ends h ht _ := h.registry.faithful.passes.follow ht _
  con _ := .con
  args h _ ht := h.child ht
  target h := h.child (by simp [children])
  record := .record
  naming :=
    { gen := fun _ => .var _
      con := fun _ => .con
      record := .record
      module := fun hvalues _ => .module hvalues
      subst := fun h hf => h.subst fun x => (hf x).elim (fun heq => heq ▸ .var x) id }
  addGen h := ⟨⟨h.registry.acyclic, h.registry.faithful⟩, h.recorded⟩
  addType h := ⟨⟨h.registry.acyclic, h.registry.faithful⟩, h.recorded⟩
  resolveDeep h ht := faithful_resolveDeep h.registry.acyclic h.registry.faithful ht
  subst h hf := h.subst fun x => (hf x).elim (fun heq => heq ▸ .var x) id
  ofNamed h := h
  members := fun | .module h => h

/-! ## Type names and their tails -/

namespace Ty

theorem mem_varSelf {x : TyVar} {t : Ty} : x ∈ t.varSelf ↔ t = .var x := by
  cases t <;> simp [varSelf, eq_comm]

/-- Only a variable becomes a variable. -/
theorem eq_var_of_subst {f : TyVar → Ty} {t : Ty} {x : TyVar} (h : t.subst f = .var x) :
    ∃ y, t = .var y ∧ f y = .var x := by
  cases t with
  | var y => exact ⟨y, rfl, h⟩
  | _ => simp [subst] at h

/-- A tail of a substituted type is what became of a tail, or a tail of what was
put in. -/
theorem mem_tailOccurrences_subst {f : TyVar → Ty} {t : Ty} {x : TyVar}
    (h : x ∈ (t.subst f).tailOccurrences) :
    (∃ y ∈ t.tailOccurrences, f y = .var x) ∨ ∃ y ∈ t.occurrences, x ∈ (f y).tailOccurrences := by
  induction t with
  | var y => exact .inr ⟨y, by simp [occurrences], h⟩
  | con c args ih =>
    simp only [subst, substList_eq, tailOccurrences, tailOccurrencesList_eq, List.mem_flatMap,
      List.mem_map] at h
    obtain ⟨_, ⟨t, ht, rfl⟩, h⟩ := h
    rcases ih t ht h with ⟨y, hy, heq⟩ | ⟨y, hy, hx⟩
    · exact .inl ⟨y, (Shows.arg ht (.self t)).mem_tailOccurrences hy, heq⟩
    · exact .inr ⟨y, mem_occurrences.mpr (.inr ⟨t, ht, hy⟩), hx⟩
  | record fs tail ihf iht =>
    simp only [subst, substFields_eq, tailOccurrences, tailOccurrencesFields_eq, List.mem_append,
      List.mem_flatMap, List.mem_map] at h
    rcases h with (⟨_, ⟨e, he, rfl⟩, h⟩ | h) | h
    · rcases ihf e he h with ⟨y, hy, heq⟩ | ⟨y, hy, hx⟩
      · refine .inl ⟨y, ?_, heq⟩
        simp only [tailOccurrences, tailOccurrencesFields_eq, List.mem_append, List.mem_flatMap]
        exact .inl (.inl ⟨e, he, hy⟩)
      · exact .inr ⟨y, mem_occurrences.mpr
          (.inr ⟨_, mem_children_record.mpr (.inl ⟨e, he, rfl⟩), hy⟩), hx⟩
    · obtain ⟨y, rfl, heq⟩ := eq_var_of_subst (mem_varSelf.mp h)
      exact .inl ⟨y, by simp [tailOccurrences, varSelf], heq⟩
    · rcases iht h with ⟨y, hy, heq⟩ | ⟨y, hy, hx⟩
      · exact .inl ⟨y, by simp [tailOccurrences, hy], heq⟩
      · have hchild : tail ∈ (record fs tail).children := mem_children_record.mpr (.inr rfl)
        exact .inr ⟨y, mem_occurrences.mpr (.inr ⟨tail, hchild, hy⟩), hx⟩
  | synonym id labels params target _ iht =>
    rcases iht h with ⟨y, hy, heq⟩ | ⟨y, hy, hx⟩
    · exact .inl ⟨y, hy, heq⟩
    · exact .inr ⟨y, mem_occurrences.mpr (.inr ⟨target, by simp [children], hy⟩), hx⟩
  | module name members => simp [subst, tailOccurrences] at h

end Ty

/-- What a type name stands for, when `n` generalized variables are issued. The
type shows all parameters, and none of them ends a record. -/
structure Scheme.Declares (n : Nat) (s : Scheme) : Prop where
  faithful : s.body.Faithful
  nodup : s.vars.Nodup
  shows : ∀ g ∈ s.vars, s.body.Shows (.gen g)
  apart : ∀ g ∈ s.vars, .gen g ∉ s.body.tailOccurrences
  issued : ∀ g, .gen g ∈ s.body.tailOccurrences → g < n

/-- Values have faithful types, and type names stand for such. -/
structure Env.Sound (n : Nat) (env : Env) : Prop where
  values : ∀ e ∈ env.values, e.2.body.Faithful
  types : ∀ e ∈ env.types, e.2.Declares n

theorem Scheme.Declares.mono {n m : Nat} {s : Scheme} (h : s.Declares n) (hnm : n ≤ m) :
    s.Declares m :=
  { h with issued := fun g hg => (h.issued g hg).trans_le hnm }

namespace Env.Sound

variable {n m : Nat} {env : Env}

theorem mono (h : env.Sound n) (hnm : n ≤ m) : env.Sound m :=
  ⟨h.values, fun e he => (h.types e he).mono hnm⟩

theorem addValue (h : env.Sound n) (name : String) {s : Scheme} (hs : s.body.Faithful) :
    (env.addValue name s).Sound n := by
  refine ⟨fun e he => ?_, h.types⟩
  rcases mem_insert he with rfl | he
  · exact hs
  · exact h.values e he

theorem addType (h : env.Sound n) (name : String) {s : Scheme} (hs : s.Declares n) :
    (env.addType name s).Sound n := by
  refine ⟨h.values, fun e he => ?_⟩
  rcases mem_insert he with rfl | he
  · exact hs
  · exact h.types e he

theorem value? (h : env.Sound n) {name : String} {s : Scheme} (hs : env.value? name = some s) :
    s.body.Faithful :=
  h.values _ (mem_of_lookup hs)

theorem type? (h : env.Sound n) {name : String} {s : Scheme} (hs : env.type? name = some s) :
    s.Declares n :=
  h.types _ (mem_of_lookup hs)

theorem obeys (h : env.Sound n) : env.Obeys (fun _ t => t.Faithful) Faithful :=
  ⟨h.values, fun e he => (h.types e he).faithful⟩

end Env.Sound

/-! ## Substitutions in type names -/

/-- A type name is applied by a substitution that puts its arguments in the place of
its parameters and does nothing else. -/
theorem Subst.of_applyArgs {σ : Scheme} (hnodup : σ.vars.Nodup) {name : String} {args : List Ty}
    {t : Ty} (h : RowTyping.applyArgs name σ args = .ok t) : ∃ f : TyVar → Ty,
      t = σ.body.subst f ∧ σ.vars.map (fun g => f (.gen g)) = args ∧
      (∀ g, g ∉ σ.vars → f (.gen g) = .gen g) ∧ ∀ v, f (.flex v) = .flex v := by
  unfold RowTyping.applyArgs at h
  split at h
  · next hlen =>
    obtain rfl := Except.ok.inj h
    have hkeys : ((σ.vars.map TyVar.gen).zip args).map (·.1) = σ.vars.map TyVar.gen :=
      map_fst_zip (by simp [hlen])
    have hother : ∀ x, x ∉ σ.vars.map TyVar.gen →
        (ofList ((σ.vars.map TyVar.gen).zip args)).image x = .var x := by
      intro x hx
      rcases image_cases ((σ.vars.map TyVar.gen).zip args) x with ⟨heq, -⟩ | hin
      · exact heq
      · exact absurd (of_mem_zip hin).1 hx
    refine ⟨_, rfl, ?_, fun g hg => hother _ (by simpa using hg), fun v => hother _ (by simp)⟩
    refine ext_getElem (by simp [hlen]) fun i h₁ h₂ => ?_
    rw [getElem_map]
    refine image_of_mem (by rw [hkeys]; exact hnodup.map fun _ _ h => TyVar.gen.inj h) ?_
    have hi : i < ((σ.vars.map TyVar.gen).zip args).length := by simpa [hlen] using h₂
    have hget := getElem_mem hi
    rwa [getElem_zip, getElem_map] at hget
  · cases h

/-- A type name shows the arguments it is applied to, and brings no other tails
than its own and theirs. -/
theorem Scheme.Declares.applyArgs {n : Nat} {s : Scheme} (hs : s.Declares n) {name : String}
    {args : List Ty} {t : Ty} (h : applyArgs name s args = .ok t) :
    ((∀ a ∈ args, a.Faithful) → t.Faithful) ∧ (∀ a ∈ args, t.Shows a) ∧ ∀ x ∈ t.tailOccurrences,
      x ∈ s.body.tailOccurrences ∨ ∃ a ∈ args, x ∈ a.tailOccurrences := by
  obtain ⟨f, rfl, rfl, hkept, hflex⟩ := of_applyArgs hs.nodup h
  have himage : ∀ x, f x = .var x ∨ ∃ g ∈ s.vars, x = .gen g := by
    intro x
    cases x with
    | flex v => exact .inl (hflex v)
    | gen g => exact or_iff_not_imp_right.mpr fun hg => hkept g fun hmem => hg ⟨g, hmem, rfl⟩
  refine ⟨fun hargs => hs.faithful.subst fun x => ?_, fun a ha => ?_, fun x hx => ?_⟩
  · rcases himage x with heq | ⟨g, hg, rfl⟩
    · exact heq ▸ .var x
    · exact hargs _ (mem_map_of_mem hg)
  · obtain ⟨g, hg, rfl⟩ := mem_map.mp ha
    exact (hs.shows g hg).subst f
  · rcases mem_tailOccurrences_subst hx with ⟨y, hy, heq⟩ | ⟨y, -, hy⟩
    · rcases himage y with hvar | ⟨g, hg, rfl⟩
      · cases hvar.symm.trans heq
        exact .inl hy
      · exact absurd hy (hs.apart g hg)
    · rcases himage y with hvar | ⟨g, hg, rfl⟩
      · simp [hvar, tailOccurrences] at hy
      · exact .inr ⟨_, mem_map_of_mem hg, hy⟩

/-- A generalized tail of the renamed type has the number of a tail. -/
theorem Subst.mem_rows_of_tail {t : Ty} {rows : List (TyVar × Nat)} {g : Nat}
    (hkeys : rows.map (·.1) = t.openTails.filter (·.isGen))
    (hg : .gen g ∈ ((ofGens rows).apply t).tailOccurrences) :
    ∃ x ∈ t.tailOccurrences, (x, g) ∈ rows := by
  rcases mem_tailOccurrences_subst hg with ⟨y, hy, heq⟩ | ⟨y, -, hy⟩
  · rcases image_ofGens rows y with ⟨himage, hnot⟩ | ⟨g', hg', himage⟩ <;>
      cases himage.symm.trans heq
    · rw [hkeys, mem_filter, openTails, mem_distinct] at hnot
      exact absurd ⟨hy, rfl⟩ hnot
    · exact ⟨y, hy, hg'⟩
  · rcases image_ofGens rows y with ⟨himage, -⟩ | ⟨g', -, himage⟩ <;>
      simp [himage, tailOccurrences] at hy

/-- New generalized variables for the generalized tails of a type. -/
theorem Subst.rename_tails {t : Ty} {rows : List (TyVar × Nat)} {n m : Nat}
    (hkeys : rows.map (·.1) = t.openTails.filter (·.isGen))
    (hgens : ∀ g ∈ rows.map (·.2), n ≤ g ∧ g < m) :
    (∀ g, t.Shows (.gen g) → .gen g ∉ t.tailOccurrences → ((ofGens rows).apply t).Shows (.gen g)) ∧
      ∀ g, .gen g ∈ ((ofGens rows).apply t).tailOccurrences → n ≤ g ∧ g < m := by
  constructor
  · intro g hshows hnot
    have := hshows.subst (ofGens rows).image
    rcases image_ofGens rows (.gen g) with ⟨heq, -⟩ | ⟨g', hg', -⟩
    · rwa [subst, heq] at this
    · have hkey := mem_map_of_mem (f := (·.1)) hg'
      rw [hkeys, mem_filter, openTails, mem_distinct] at hkey
      exact absurd hkey.1 hnot
  · intro g hg
    obtain ⟨x, -, hin⟩ := mem_rows_of_tail hkeys hg
    exact hgens g (mem_map_of_mem hin)

/-! ## Reading in a declaration -/

/-- What is known about types that were read from written types with the given
labels, in a declaration with the given parameters. They are faithful, some of them
shows each label that is written, and their generalized tails are new ones, from `k`
on. -/
structure Reads (params : Table Ty) (k m : Nat) (labels : List String) (S : Ty → Prop) : Prop where
  faithful : ∀ t, S t → t.Faithful
  shows : ∀ l ∈ labels, ∃ g, params.lookup l = some (.gen g) ∧ ∃ t, S t ∧ t.Shows (.gen g)
  tails : ∀ t, S t → ∀ g, .gen g ∈ t.tailOccurrences → k ≤ g ∧ g < m

namespace Reads

variable {params : Table Ty} {k n m : Nat} {ls ls' : List String} {S S' : Ty → Prop}

theorem mono (h : Reads params k n ls S) (hnm : n ≤ m) : Reads params k m ls S :=
  { h with tails := fun t ht g hg =>
      ⟨(h.tails t ht g hg).1, (h.tails t ht g hg).2.trans_le hnm⟩ }

theorem union (h : Reads params k n ls S) (h' : Reads params k n ls' S') :
    Reads params k n (ls ++ ls') fun t => S t ∨ S' t where
  faithful t ht := ht.elim (h.faithful t) (h'.faithful t)
  shows l hl := by
    rcases mem_append.mp hl with hl | hl
    · obtain ⟨g, hg, t, ht, hshows⟩ := h.shows l hl
      exact ⟨g, hg, t, .inl ht, hshows⟩
    · obtain ⟨g, hg, t, ht, hshows⟩ := h'.shows l hl
      exact ⟨g, hg, t, .inr ht, hshows⟩
  tails t ht := ht.elim (h.tails t) (h'.tails t)

theorem congr (h : Reads params k n ls S) (hS : ∀ t, S t ↔ S' t) : Reads params k n ls S' := by
  rwa [← funext fun t => propext (hS t)]

/-- No types are read from nothing. -/
theorem none (params : Table Ty) (k n : Nat) : Reads params k n [] fun _ => False :=
  ⟨fun _ h => h.elim, by simp, fun _ h => h.elim⟩

/-- A type that shows what was read, and has no other tails. -/
theorem combine (h : Reads params k n ls S) {t : Ty} (hfaithful : t.Faithful)
    (hshows : ∀ u, S u → t.Shows u)
    (htails : ∀ g, .gen g ∈ t.tailOccurrences →
      (∃ u, S u ∧ .gen g ∈ u.tailOccurrences) ∨ k ≤ g ∧ g < n) :
    Reads params k n ls fun u => u = t where
  faithful u hu := hu ▸ hfaithful
  shows l hl := by
    obtain ⟨g, hg, u, hu, hug⟩ := h.shows l hl
    exact ⟨g, hg, t, rfl, (hshows u hu).trans hug⟩
  tails u hu g hg := by
    subst hu
    rcases htails g hg with ⟨u, hu, hgu⟩ | hbounds
    · exact h.tails u hu g hgu
    · exact hbounds

theorem con (h : Reads params k n ls S) {c : Con} {args : List Ty} (hS : ∀ t, S t ↔ t ∈ args) :
    Reads params k n ls fun u => u = .con c args := by
  refine h.combine (.con fun t ht => h.faithful t ((hS t).mpr ht))
    (fun u hu => .arg ((hS u).mp hu) (.self u)) fun g hg => .inl ?_
  rw [tailOccurrences, tailOccurrencesList_eq] at hg
  obtain ⟨t, ht, hgt⟩ := mem_flatMap.mp hg
  exact ⟨t, (hS t).mpr ht, hgt⟩

theorem tuple {ts : List Ty} (h : Reads params k n ls (· ∈ ts)) :
    Reads params k n ls fun u => u = .tuple ts := by
  match ts with
  | [] => exact h.con fun _ => .rfl
  | [t] => exact h.congr (by simp [Ty.tuple])
  | t :: u :: ts => exact h.con fun _ => .rfl

theorem record (h : Reads params k n ls S) {fields : Table Ty} (hsorted : fields.Sorted)
    (hS : ∀ t, S t ↔ ∃ l, fields.lookup l = some t) {tail : Ty} (hfaithful : tail.Faithful)
    (htail : ∀ g, .gen g ∈ tail.varSelf ++ tail.tailOccurrences → k ≤ g ∧ g < n) :
    Reads params k n ls fun u => u = .record fields tail := by
  have hfield : ∀ e ∈ fields, S e.2 := fun e he => (hS _).mpr ⟨e.1, hsorted.lookup_of_mem he⟩
  refine h.combine (.record (fun e he => h.faithful _ (hfield e he)) hfaithful) (fun u hu => ?_)
    fun g hg => ?_
  · obtain ⟨l, hl⟩ := (hS u).mp hu
    exact .field hl (.self u)
  · rw [tailOccurrences, tailOccurrencesFields_eq, append_assoc] at hg
    rcases mem_append.mp hg with hg | hg
    · obtain ⟨e, he, hge⟩ := mem_flatMap.mp hg
      exact .inl ⟨e.2, hfield e he, hge⟩
    · exact .inr (htail g hg)

end Reads

/-- The parameters stand for generalized variables between the two bounds. -/
def Table.GensIn (params : Table Ty) (lo hi : Nat) : Prop :=
  ∀ e ∈ params, ∃ g, e.2 = .gen g ∧ lo ≤ g ∧ g < hi

/-- Reading in a declaration with the given parameters is watched like checking. -/
def reading (params : Table Ty) : Watch ReadState := checking.scoped (· = .fixed params)

section

variable {env : Env} {params : Table Ty} {lo k n : Nat}

theorem keeps_instantiateDeclared {s : Scheme} (hs : s.Declares lo)
    (hparams : params.GensIn lo k) (hn : k ≤ n) {ls : List String}
    {args : List Ty} (hargs : Reads params k n ls (· ∈ args)) (name : String) :
    Keeps checking n (instantiateDeclared name s args) fun m t => Reads params k m ls (· = t) := by
  refine (keeps_fromExcept fun t m _ ht => ht).bind fun t m hm ht =>
    (State.Sound.discipline.keeps_freshGens _).bind
    fun rows m' hm' hrows => keeps_pure fun m'' hm'' => ?_
  obtain ⟨hkeys, -, hgens⟩ := hrows
  obtain ⟨hfaithful, hshows, htails⟩ := hs.applyArgs ht
  obtain ⟨hkept, hnew⟩ := rename_tails hkeys hgens
  refine ⟨fun u hu => hu ▸ State.Sound.discipline.applyGens (hfaithful hargs.faithful) rows,
    fun l hl => ?_,
    fun u hu g hg => ?_⟩
  · obtain ⟨g, hg, a, ha, hag⟩ := hargs.shows l hl
    obtain ⟨_, heq, hlo, hhi⟩ := hparams _ (mem_of_lookup hg)
    cases heq
    refine ⟨g, hg, _, rfl, hkept g ((hshows a ha).trans hag) fun htail => ?_⟩
    -- a parameter is neither a tail of the name's type nor one of its arguments
    rcases htails _ htail with hbody | ⟨b, hb, hbg⟩
    · have := hs.issued g hbody
      omega
    · have := hargs.tails b hb g hbg
      omega
  · subst hu
    have := hnew g hg
    omega

/-- A type name applied to arguments that were read. -/
theorem keeps_applyName (henv : env.Sound lo)
    (hparams : params.GensIn lo k) (hn : k ≤ n) {ls : List String}
    {args : List Ty} (hargs : Reads params k n ls (· ∈ args)) (name : String) :
    Keeps checking n (applyName env true name args) fun m t => Reads params k m ls (· = t) := by
  unfold applyName
  cases hname : env.type? name with
  | some s => exact keeps_instantiateDeclared (henv.type? hname) hparams hn hargs name
  | none =>
    cases hbase : Base.ofName? name with
    | none => exact keeps_throw _
    | some b =>
      simp only
      split
      · next hempty =>
        obtain rfl : args = [] := by simpa using hempty
        exact keeps_pure fun m hm => (hargs.mono hm).con fun t => .rfl
      · exact keeps_throw _

theorem keeps_isFixed : Keeps (reading params) n Read.isFixed fun _ b => b = true :=
  Read.keeps_isFixed fun _ hscope => hscope ▸ rfl

/-- A parameter stands for itself, in the open and not at a tail. -/
theorem keeps_label (hparams : params.GensIn lo k) (l : String) :
    Keeps (reading params) n (Read.label l) fun m t => Reads params k m [l] (· = t) := by
  refine Read.keeps_label l (fun labels t m _ hscope hl => ?_) fun labels hscope => by cases hscope
  obtain rfl : labels = params := by simpa using hscope
  obtain ⟨g, rfl, -⟩ := hparams _ (mem_of_lookup hl)
  refine ⟨fun u hu => hu ▸ .var _, fun l' hl' => ?_, fun u hu g' hg' => ?_⟩
  · cases mem_singleton.mp hl'
    exact ⟨g, hl, _, rfl, .self _⟩
  · subst hu
    simp [tailOccurrences] at hg'

end

namespace TypeExpr

variable {env : Env} {params : Table Ty} {lo k : Nat}

mutual

/-- Reading a written type in a declaration. -/
theorem keeps_read (henv : env.Sound lo) (hparams : params.GensIn lo k) :
    ∀ (e : TypeExpr) {n : Nat}, k ≤ n →
    Keeps (reading params) n (e.read env) fun m t => Reads params k m e.labels (· = t)
  | .name c, n, hn => by
    rw [read, labels]
    refine keeps_isFixed.bind fun b m hm hb => ?_
    subst hb
    exact Read.keeps_lift_scoped (keeps_applyName henv hparams (hn.trans hm)
      ((Reads.none params k m).congr (by simp)) c)
  | .var l, n, hn => by
    rw [read, labels]
    exact keeps_label hparams l
  | .app c args, n, hn => by
    rw [read, labels]
    refine (keeps_readList henv hparams args hn).bind fun ts m hm hts =>
      keeps_isFixed.bind fun b m' hm' hb => ?_
    subst hb
    exact Read.keeps_lift_scoped
      (keeps_applyName henv hparams ((hn.trans hm).trans hm') (hts.mono hm') c)
  | .arrow a r, n, hn => by
    rw [read, labels]
    refine (keeps_read henv hparams a hn).bind fun ta m hm hta =>
      (keeps_read henv hparams r (hn.trans hm)).bind fun tr m' hm' htr =>
      keeps_pure fun m'' hm'' => ?_
    refine (((hta.mono hm').union htr).mono hm'').con fun t => ?_
    simp
  | .tuple items, n, hn => by
    rw [read, labels]
    refine (keeps_readList henv hparams items hn).bind fun ts m hm hts =>
      keeps_pure fun m' hm' => ?_
    exact (hts.mono hm').tuple
  | .record fields isOpen, n, hn => by
    rw [read, labels]
    refine (keeps_readFields henv hparams fields hn .nil
      ((Reads.none params k n).congr (by simp))).bind fun row m hm hrow => ?_
    obtain ⟨hsorted, hrow⟩ := hrow
    split
    · refine keeps_isFixed.bind fun b m' hm' hb => ?_
      subst hb
      -- an open row gets a generalized variable of its own
      refine (Read.keeps_lift_scoped State.Sound.discipline.keeps_freshGen).bind
        fun g m'' hm'' hg => keeps_pure fun j hj => ?_
      refine (hrow.mono (by omega)).record hsorted (fun _ => .rfl) (.var _) fun g' hg' => ?_
      cases (by simpa [varSelf, tailOccurrences] using hg' : g' = g)
      omega
    · refine keeps_pure fun m' hm' => (hrow.mono hm').record hsorted (fun _ => .rfl)
        (.con (by simp)) fun g hg => ?_
      simp [varSelf, tailOccurrences] at hg

theorem keeps_readList (henv : env.Sound lo) (hparams : params.GensIn lo k) :
    ∀ (es : List TypeExpr) {n : Nat}, k ≤ n →
    Keeps (reading params) n (readList env es) fun m ts => Reads params k m (labelsList es) (· ∈ ts)
  | [], n, hn => by
    rw [readList, labelsList]
    exact keeps_pure fun m hm => (Reads.none params k m).congr (by simp)
  | e :: es, n, hn => by
    rw [readList, labelsList]
    refine (keeps_read henv hparams e hn).bind fun t m hm ht =>
      (keeps_readList henv hparams es (hn.trans hm)).bind fun ts m' hm' hts =>
      keeps_pure fun m'' hm'' => ?_
    exact (((ht.mono hm').union hts).mono hm'').congr (by simp)

theorem keeps_readFields (henv : env.Sound lo) (hparams : params.GensIn lo k) :
    ∀ (es : List (String × TypeExpr)) {fields : Table Ty} {ls : List String} {n : Nat}, k ≤ n →
      fields.Sorted → Reads params k n ls (fun t => ∃ l, fields.lookup l = some t) →
      Keeps (reading params) n (readFields env es fields) fun m fields => fields.Sorted ∧
        Reads params k m (ls ++ labelsFields es) fun t => ∃ l, fields.lookup l = some t
  | [], fields, ls, n, hn, hsorted, hfields => by
    rw [readFields, labelsFields, append_nil]
    exact keeps_pure fun m hm => ⟨hsorted, hfields.mono hm⟩
  | (l, e) :: es, fields, ls, n, hn, hsorted, hfields => by
    rw [readFields, labelsFields]
    refine (keeps_read henv hparams e hn).bind fun t m hm ht => ?_
    split
    · exact keeps_throw _
    · next hnew =>
      rw [← append_assoc]
      refine keeps_readFields henv hparams es (hn.trans hm) (hsorted.insert l t)
        (((hfields.mono hm).union ht).congr fun u => ?_)
      exact (exists_lookup_insert (not_isSome_iff_eq_none.mp hnew)).symm

end

theorem keeps_denote (henv : env.Sound lo)
    (hparams : params.GensIn lo k) {n : Nat} (hn : k ≤ n)
    (e : TypeExpr) :
    Keeps checking n (e.denote env (.fixed params)) fun m t => Reads params k m e.labels (· = t) :=
  keeps_denote_scoped (C := (· = .fixed params)) rfl (keeps_read henv hparams e hn)

end TypeExpr

end RowTyping
