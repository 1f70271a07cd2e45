import RowTyping.Proofs.Declarations
import RowTyping.Proofs.FreshInstances

/-!
# A synonym stands for its definition

The target of a synonym is read once, in its declaration, where the rows that are left
open get numbers of their own. Where the synonym is used these numbers get new
variables. Reading the target at the place of use, with the arguments for the
parameters, gives the same type up to the choice of these variables: a row that is
read once is one row on both sides, and two rows stay two.

Both readings are compared step by step. In a declaration a type name renews the rows
of its arguments, at a use it does not, so the numbers of the one reading are matched
with the variables of the other as they come.
-/

namespace RowTyping

open Check Table Ty List Subst

namespace Ty

/-- What is left of a tail that becomes a variable is a tail. -/
theorem mem_tailOccurrences_image {f : TyVar → Ty} {t : Ty} {x y : TyVar}
    (hx : x ∈ t.tailOccurrences) (hf : f x = .var y) : y ∈ (t.subst f).tailOccurrences := by
  induction t with
  | var => simp [tailOccurrences] at hx
  | con c args ih =>
    simp only [subst, substList_eq, tailOccurrences, tailOccurrencesList_eq, flatMap_map,
      mem_flatMap] at hx ⊢
    obtain ⟨t, ht, hx⟩ := hx
    exact ⟨t, ht, ih t ht hx⟩
  | record fs tail ihf iht =>
    simp only [subst, substFields_eq, tailOccurrences, tailOccurrencesFields_eq, flatMap_map,
      mem_append, mem_flatMap] at hx ⊢
    rcases hx with (⟨e, he, hx⟩ | hx) | hx
    · exact .inl (.inl ⟨e, he, ihf e he hx⟩)
    · refine .inl (.inr (mem_varSelf.mpr ?_))
      rw [mem_varSelf.mp hx, subst, hf]
    · exact .inr (iht hx)
  | synonym id labels params target _ iht => exact iht hx
  | module => simp [tailOccurrences] at hx

/-- A type without generalized variables keeps its variables. -/
theorem subst_eq_self {f : TyVar → Ty} {t : Ty} (ht : ∀ g, .gen g ∉ t.occurrences)
    (hf : ∀ v, f (.flex v) = .flex v) : t.subst f = t := by
  refine Eq.trans (subst_congr fun x hx => ?_) (subst_var _)
  cases x with
  | flex v => exact hf v
  | gen g => exact absurd hx (ht g)

theorem subst_tuple (f : TyVar → Ty) (ts : List Ty) :
    (tuple ts).subst f = .tuple (ts.map (subst f)) := by
  rcases ts with _ | ⟨t, _ | ⟨u, ts⟩⟩
  · rfl
  · rfl
  · simp [tuple, subst]

theorem subst_synonymOf (f : TyVar → Ty) (id : Nat) (args : List (String × Ty)) (t : Ty) :
    (synonymOf id args t).subst f =
      .synonymOf id (args.map fun e => (e.1, e.2.subst f)) (t.subst f) := by
  simp [synonymOf, subst, Function.comp_def]

end Ty

/-- The variables of the scheme are its quantifiers and its tails, all of them numbers. -/
def Scheme.Rowed (σ : Scheme) : Prop := ∀ x ∈ σ.body.occurrences, ∃ g, x = .gen g ∧ σ.Opens x

theorem Stage.FitsType.rowed {G : Prop} {S : Stage G} {σ : Scheme} (h : S.FitsType σ)
    (hfaithful : σ.body.Faithful) : σ.Rowed := by
  intro x hx
  have hshown := hfaithful.mem_shown hx
  obtain ⟨k, -, g, rfl, -⟩ := h.body.role_of_shown hshown
  refine ⟨g, rfl, ?_⟩
  rcases h.body.mem_tailOccurrences hshown with hvar | ⟨-, g', heq, hg'⟩ | htail
  · exact absurd hvar (h.solid _)
  · cases heq
    exact .inl (hg' rfl)
  · exact .inr htail

/-- The parameters of a declaration, with numbers from `lo` up to `hi`, and arguments
for them. -/
structure Use where
  lo : Nat
  hi : Nat
  gens : List Nat
  arg : Nat → Ty
  params : Table Ty
  labels : Table Ty
  lo_le_hi : lo ≤ hi
  bounds : ∀ g ∈ gens, lo ≤ g ∧ g < hi
  closed : ∀ g ∈ gens, ∀ h, .gen h ∉ (arg g).occurrences
  param : ∀ e ∈ params, ∃ g ∈ gens, e.2 = .gen g ∧ labels.lookup e.1 = some (arg g)

namespace Use

variable {U : Use} {n m k v w x : Nat} {e f f' : Nat → Ty} {R R' : Set Nat} {S S' : Ty → Prop}
  {t : Ty}

/-- Distinct variables from `v` to `w` stand for the numbers. -/
structure Fills (f : Nat → Ty) (R : Set Nat) (v w : Nat) : Prop where
  le : v ≤ w
  var : ∀ g ∈ R, ∃ x, f g = .flex x ∧ v ≤ x ∧ x < w
  inj : Set.InjOn f R

theorem Fills.mono (h : Fills f R v w) (hR : R' ⊆ R) : Fills f R' v w :=
  ⟨h.le, fun g hg => h.var g (hR hg), h.inj.mono hR⟩

/-- Later variables stand for other numbers. -/
theorem Fills.union (h : Fills f R v w) (h' : Fills f' R' w x) (hf : Set.EqOn f e R)
    (hf' : Set.EqOn f' e R') (hR : ∀ g ∈ R, g ∉ R') : Fills e (R ∪ R') v x := by
  refine ⟨h.le.trans h'.le, ?_, (Set.injOn_union (Set.disjoint_left.mpr hR)).mpr
    ⟨h.inj.congr hf, h'.inj.congr hf', fun g hg i hi heq => ?_⟩⟩
  · rintro g (hg | hg)
    · obtain ⟨y, hy, hle, hlt⟩ := h.var g hg
      exact ⟨y, (hf hg).symm.trans hy, hle, hlt.trans_le h'.le⟩
    · obtain ⟨y, hy, hle, hlt⟩ := h'.var g hg
      exact ⟨y, (hf' hg).symm.trans hy, h.le.trans hle, hlt⟩
  · obtain ⟨y, hy, -, hlt⟩ := h.var g hg
    obtain ⟨z, hz, hle, -⟩ := h'.var i hi
    rw [← hf hg, ← hf' hi, hy, hz] at heq
    cases heq
    omega

/-- The numbers of the rows in the types. -/
def rows (S : Ty → Prop) : Set Nat := {g | ∃ t, S t ∧ .gen g ∈ t.tailOccurrences}

theorem rows_mono (h : ∀ t, S' t → S t) : rows S' ⊆ rows S := fun _ ⟨t, ht, hg⟩ => ⟨t, h t ht, hg⟩

/-- The types have parameters and rows only. In the place of the parameters `f` puts their
arguments, and in the place of the rows, numbered from `n` to `m`, distinct variables
from `v` to `w`. -/
structure Opens (U : Use) (n m v w : Nat) (f : Nat → Ty) (S : Ty → Prop) : Prop where
  hi : U.hi ≤ n
  le : n ≤ m
  rowed : ∀ t, S t → Scheme.Rowed ⟨U.gens, t⟩
  arg : ∀ g ∈ U.gens, f g = U.arg g
  row : rows S ⊆ Set.Ico n m
  fills : Fills f (rows S) v w

/-- What is read in the declaration is at the use what it is opened to. -/
def Unfolds (U : Use) (n v m w : Nat) (t u : Ty) : Prop :=
  ∃ f, U.Opens n m v w f (· = t) ∧ u = t.subst (fillGens f)

namespace Opens

theorem subset (h : U.Opens n m v w f S) (hS : ∀ t, S' t → S t) : U.Opens n m v w f S' :=
  ⟨h.hi, h.le, fun t ht => h.rowed t (hS t ht), h.arg, (rows_mono hS).trans h.row,
    h.fills.mono (rows_mono hS)⟩

/-- Types without rows. -/
theorem of_rows_eq (hn : U.hi ≤ n) (hS : ∀ t, S t → Scheme.Rowed ⟨U.gens, t⟩)
    (hrows : rows S = ∅) : U.Opens n n v v U.arg S :=
  ⟨hn, le_rfl, hS, fun _ _ => rfl, by simp [hrows], le_rfl, by simp [hrows], by simp [hrows]⟩

theorem none (hn : U.hi ≤ n) : U.Opens n n v v U.arg fun _ => False :=
  of_rows_eq hn (fun _ => False.elim) (by simp [rows])

theorem union (h : U.Opens n m v w f S) (h' : U.Opens m k w x f' S') :
    ∃ e, U.Opens n k v x e (fun t => S t ∨ S' t) ∧
      (∀ t, S t → t.subst (fillGens e) = t.subst (fillGens f)) ∧
      ∀ t, S' t → t.subst (fillGens e) = t.subst (fillGens f') := by
  let e g := if g < m then f g else f' g
  have hold : ∀ g < m, f g = e g := fun g hg => (if_pos hg).symm
  have hrow : Set.EqOn f e (rows S) := fun g hg => hold g (h.row hg).2
  have hrow' : Set.EqOn f' e (rows S') := fun g hg => (if_neg (h'.row hg).1.not_gt).symm
  have harg : ∀ g ∈ U.gens, e g = U.arg g := fun g hg =>
    (hold g ((U.bounds g hg).2.trans_le h'.hi)).symm.trans (h.arg g hg)
  have hunion : rows (fun t => S t ∨ S' t) = rows S ∪ rows S' := by
    ext g
    simp [rows, or_and_right, exists_or]
  have hsame : ∀ {S : Ty → Prop} {f n m v w}, U.Opens n m v w f S → Set.EqOn f e (rows S) →
      ∀ t, S t → t.subst (fillGens e) = t.subst (fillGens f) := by
    intro S f n m v w h hrow t ht
    refine subst_congr fun y hy => ?_
    obtain ⟨g, rfl, hg | hg⟩ := h.rowed t ht y hy
    · exact (harg g hg).trans (h.arg g hg).symm
    · exact (hrow ⟨t, ht, hg⟩).symm
  refine ⟨e, ⟨h.hi, h.le.trans h'.le, ?_, harg, ?_, ?_⟩, hsame h hrow, hsame h' hrow'⟩
  · exact fun t ht => ht.elim (h.rowed t) (h'.rowed t)
  · rw [hunion]
    exact Set.union_subset (h.row.trans (Set.Ico_subset_Ico_right h'.le))
      (h'.row.trans (Set.Ico_subset_Ico_left h.le))
  · rw [hunion]
    exact h.fills.union h'.fills hrow hrow' fun g hg hg' =>
      (h.row hg).2.not_ge (h'.row hg').1

/-- A type with the variables and the tails of the types. -/
theorem combine (h : U.Opens n m v w f S)
    (hvars : ∀ x ∈ t.occurrences, ∃ u, S u ∧ x ∈ u.occurrences)
    (htails : ∀ x, x ∈ t.tailOccurrences ↔ ∃ u, S u ∧ x ∈ u.tailOccurrences) :
    U.Opens n m v w f (· = t) := by
  have hrows : rows (· = t) = rows S := by
    ext g
    simp [rows, htails]
  refine ⟨h.hi, h.le, ?_, h.arg, hrows ▸ h.row, hrows ▸ h.fills⟩
  rintro _ rfl y hy
  obtain ⟨u, hu, hyu⟩ := hvars y hy
  obtain ⟨g, rfl, hg⟩ := h.rowed u hu y hyu
  exact ⟨g, rfl, hg.imp_right fun hg => (htails _).mpr ⟨u, hu, hg⟩⟩

theorem con {c : Con} {args : List Ty} (h : U.Opens n m v w f (· ∈ args)) :
    U.Opens n m v w f (· = .con c args) :=
  h.combine (by simp [occurrences, occurrencesList_eq])
    (by simp [tailOccurrences, tailOccurrencesList_eq])

theorem tuple {ts : List Ty} (h : U.Opens n m v w f (· ∈ ts)) :
    U.Opens n m v w f (· = .tuple ts) := by
  rcases ts with _ | ⟨t, _ | ⟨u, ts⟩⟩
  · exact h.con
  · exact h.subset (by simp [Ty.tuple])
  · exact h.con

theorem record {fields : Table Ty} {tail : Ty}
    (h : U.Opens n m v w f fun t => t ∈ fields.map (·.2) ∨ t = .record [] tail) :
    U.Opens n m v w f (· = .record fields tail) := by
  refine h.combine (fun x hx => ?_) fun x => ?_
  · rw [occurrences, occurrencesFields_eq, mem_append, mem_flatMap] at hx
    rcases hx with ⟨e, he, hx⟩ | hx
    · exact ⟨e.2, .inl (mem_map_of_mem he), hx⟩
    · exact ⟨_, .inr rfl, by simpa [occurrences, occurrencesFields_eq] using hx⟩
  · simp only [tailOccurrences, tailOccurrencesFields_eq, append_assoc, mem_append, mem_flatMap,
      mem_map, or_and_right, exists_or, exists_eq_left]
    simp

/-- An argument that stands for itself. -/
theorem param (hn : U.hi ≤ n) {g : Nat} (hg : g ∈ U.gens) :
    U.Opens n n v v U.arg (· = .gen g) := by
  refine of_rows_eq hn ?_ (by simp [rows, tailOccurrences])
  rintro _ rfl y hy
  exact ⟨g, by simpa [occurrences] using hy, by simp_all [Scheme.Opens, occurrences]⟩

/-- A new row on both sides. -/
theorem row_of_fresh (hn : U.hi ≤ n) : ∃ f, f n = .flex v ∧
    U.Opens n (n + 1) v (v + 1) f (· = .record [] (.gen n)) := by
  have hrows : rows (· = .record [] (.gen n)) = {n} := by
    ext g
    simp [rows, tailOccurrences, tailOccurrencesFields_eq, varSelf]
  let f g := if g < n then U.arg g else .flex v
  have hf : f n = .flex v := if_neg (lt_irrefl n)
  refine ⟨f, hf, hn, Nat.le_succ n, ?_, fun g hg => if_pos ((U.bounds g hg).2.trans_le hn),
    by simp [hrows], Nat.le_succ v, by simp [hrows, hf], by simp [hrows]⟩
  rintro _ rfl y hy
  obtain rfl : y = .gen n := by simpa [occurrences, occurrencesFields_eq] using hy
  exact ⟨n, rfl, .inr (by simp [tailOccurrences, varSelf])⟩

end Opens

/-! ## Type names -/

theorem run_fromExcept_inv {ε α : Type} {x : Except ε α} {a : α} {s s' : State}
    (h : (fromExcept x).run s = .ok a s') : x = .ok a ∧ s = s' := by
  cases x with
  | ok b =>
    cases h
    exact ⟨rfl, rfl⟩
  | error e => cases h

/-- The rows of a type get new numbers. -/
theorem exists_renumbered {T : Ty} {F : Nat → Ty} (hn : U.hi ≤ n) (hm : n ≤ m)
    (hT : Scheme.Rowed ⟨U.gens, T⟩) (harg : ∀ g ∈ U.gens, F g = U.arg g)
    (hF : Fills F (rows (· = T)) v w) {es : List (TyVar × Nat)}
    (hkeys : es.map (·.1) = T.openTails.filter (·.isGen)) (hvalues : es.map (·.2) = range' m k) :
    U.Unfolds n v (m + k) w ((ofGens es).apply T) (T.subst (fillGens F)) := by
  have hkey : ∀ {y}, y ∈ es.map (·.1) ↔ y ∈ T.tailOccurrences ∧ y.isGen = true := by
    intro y
    rw [hkeys, mem_filter, openTails, mem_distinct]
  have hbounds : ∀ {y g}, (y, g) ∈ es → m ≤ g ∧ g < m + k := fun {y g} hin => by
    have hmem := mem_map_of_mem (f := (·.2)) hin
    rwa [hvalues, mem_range'_1] at hmem
  have hnodup : (es.map (·.2)).Nodup := hvalues ▸ nodup_range'
  -- a new number stands for what the old one stood for
  let swapped := es.map fun e => (TyVar.gen e.2, fillGens F e.1)
  let e g := if g < m then F g else (ofList swapped).image (.gen g)
  have hnew : ∀ {y g}, (y, g) ∈ es → e g = fillGens F y := by
    intro y g hin
    refine (if_neg (hbounds hin).1.not_gt).trans (image_of_mem ?_ (mem_map.mpr ⟨_, hin, rfl⟩))
    rw [map_map]
    have := hnodup.map (f := TyVar.gen) fun _ _ h => TyVar.gen.inj h
    rwa [map_map] at this
  have hold : ∀ g ∈ U.gens, e g = F g := fun g hg =>
    if_pos ((U.bounds g hg).2.trans_le (hn.trans hm))
  have hcases : ∀ y ∈ T.occurrences, (∃ g, (y, g) ∈ es ∧ (ofGens es).image y = .gen g) ∨
      ∃ g ∈ U.gens, y = .gen g ∧ (ofGens es).image y = .gen g := by
    intro y hy
    obtain ⟨g, rfl, hg⟩ := hT y hy
    rcases image_ofGens es (.gen g) with ⟨heq, hnot⟩ | hin
    · exact .inr ⟨g, hg.resolve_right fun htail => hnot (hkey.mpr ⟨htail, rfl⟩), rfl, heq⟩
    · exact .inl hin
  have htail : ∀ {g}, g ∈ rows (· = (ofGens es).apply T) → ∃ i ∈ rows (· = T),
      (.gen i, g) ∈ es ∧ e g = F i := by
    rintro g ⟨_, rfl, hg⟩
    obtain ⟨y, hy, hin⟩ := mem_rows_of_tail hkeys hg
    obtain ⟨i, rfl, -⟩ := hT y (tailOccurrences_subset T hy)
    exact ⟨i, ⟨T, rfl, hy⟩, hin, hnew hin⟩
  refine ⟨e, ⟨hn, by omega, ?_, fun g hg => (hold g hg).trans (harg g hg), fun g hg => ?_, hF.le,
    fun g hg => ?_, fun g hg h hh heq => ?_⟩, ?_⟩
  · rintro _ rfl z hz
    rw [Subst.apply, occurrences_subst, mem_flatMap] at hz
    obtain ⟨y, hy, hz⟩ := hz
    rcases hcases y hy with ⟨g, hin, heq⟩ | ⟨g, hg, rfl, heq⟩
    · obtain rfl : z = .gen g := by simpa [heq, occurrences] using hz
      exact ⟨g, rfl, .inr (mem_tailOccurrences_image
        (hkey.mp (mem_map_of_mem (f := (·.1)) hin)).1 heq)⟩
    · exact ⟨g, by simpa [heq, occurrences] using hz, by simp_all [Scheme.Opens, occurrences]⟩
  · obtain ⟨i, -, hin, -⟩ := htail hg
    exact ⟨hm.trans (hbounds hin).1, (hbounds hin).2⟩
  · obtain ⟨i, hi, -, heq⟩ := htail hg
    rw [heq]
    exact hF.var i hi
  · obtain ⟨i, hi, hin, hei⟩ := htail hg
    obtain ⟨j, hj, hjn, hej⟩ := htail hh
    obtain rfl := hF.inj hi hj (by rw [← hei, ← hej, heq])
    have hkeys' : (es.map (·.1)).Nodup := hkeys ▸ (nodup_distinct _).filter _
    exact (Prod.mk.inj (inj_on_of_nodup_map hkeys' hin hjn rfl)).2
  · rw [Subst.apply, subst_subst]
    refine subst_congr fun y hy => ?_
    rcases hcases y hy with ⟨g, hin, heq⟩ | ⟨g, hg, rfl, heq⟩
    · rw [heq]
      exact (hnew hin).symm
    · rw [heq]
      exact (hold g hg).symm

variable {σ : Scheme} {ts : List Ty} {name : String} {s s' : State}

/-- A type name brings rows of its own, with numbers before those of the parameters.
A declaration renews all rows, and a use issues variables for the new ones only. -/
theorem Opens.unfolds_instance (h : U.Opens n m v w f (· ∈ ts)) (hσ : σ.Declares U.lo)
    (hrowed : σ.Rowed) (hs : s.registry.nextGen = m)
    (hrun : (instantiateDeclared name σ ts).run s = .ok t s') {st : State}
    (hst : st.registry.varCount = w) :
    ∃ u st', (instantiateWith name σ (ts.map (subst (fillGens f)))).run st = .ok u st' ∧
      U.Unfolds n v s'.registry.nextGen st'.registry.varCount t u := by
  rw [instantiateDeclared] at hrun
  obtain ⟨_, s₁, hfrom, hfresh⟩ := run_bind_inv hrun
  obtain ⟨happly, rfl⟩ := run_fromExcept_inv hfrom
  rw [run_bind_ok (run_freshGens _ s)] at hfresh
  cases hfresh
  obtain ⟨-, hshows, htails⟩ := hσ.applyArgs happly
  obtain ⟨a, rfl, ha, hkept, -⟩ := of_applyArgs hσ.nodup happly
  obtain ⟨T, happly'⟩ : ∃ T, applyArgs name σ (ts.map (subst (fillGens f))) = .ok T :=
    ⟨_, if_pos (by simp [← ha])⟩
  obtain ⟨b, rfl, hb, hkept', -⟩ := of_applyArgs hσ.nodup happly'
  obtain ⟨e, st', hinst, hle, he⟩ :=
    opened_instantiate (ε := TypeError) ⟨[], σ.body.subst b⟩ st
  rw [hst] at hle he
  refine ⟨(σ.body.subst b).subst e, st', by rw [instantiateWith_eq, happly']; exact hinst, ?_⟩
  have hpart : ∀ g ∈ σ.vars, a (.gen g) ∈ ts ∧ b (.gen g) = (a (.gen g)).subst (fillGens f) := by
    rw [← ha, map_map] at hb
    exact fun g hg => ⟨ha ▸ mem_map_of_mem hg, map_inj_left.mp hb g hg⟩
  -- the rows of the type name are new, those of the arguments are as before
  let F g := if g < U.lo then e (.gen g) else f g
  have hnew : ∀ g, U.lo ≤ g → F g = f g := fun g hg => if_neg hg.not_gt
  have hlate : ∀ {g}, g ∈ rows (· ∈ ts) → U.lo ≤ g := fun hg =>
    U.lo_le_hi.trans (h.hi.trans (h.row hg).1)
  have hrow : Set.EqOn f F (rows (· ∈ ts)) := fun g hg => (hnew g (hlate hg)).symm
  have hearly : ∀ {g}, g ∈ rows (· = σ.body) → g < U.lo := fun ⟨_, rfl, hg⟩ => hσ.issued _ hg
  have hopens : ∀ {g}, g ∈ rows (· = σ.body) → Scheme.Opens ⟨[], σ.body.subst b⟩ (.gen g) :=
    fun ⟨_, rfl, hg⟩ => .inr (mem_tailOccurrences_image hg
      (hkept' _ fun hmem => hσ.apart _ hmem hg))
  have hown : Set.EqOn (e ∘ .gen) F (rows (· = σ.body)) := fun g hg => (if_pos (hearly hg)).symm
  have hfills : Fills (e ∘ .gen) (rows (· = σ.body)) w st'.registry.varCount :=
    ⟨hle, fun g hg => he.gen (hopens hg), fun g hg i hi => he.injective (hopens hg) (hopens hi)⟩
  have hF := h.fills.union hfills hrow hown fun g hg hg' =>
    (hlate hg).not_gt (hearly hg')
  have heq : (σ.body.subst b).subst e = (σ.body.subst a).subst (fillGens F) := by
    rw [subst_subst, subst_subst]
    refine subst_congr fun x hx => ?_
    obtain ⟨g, rfl, hg⟩ := hrowed x hx
    by_cases hmem : g ∈ σ.vars
    · obtain ⟨hin, hbg⟩ := hpart g hmem
      rw [hbg, subst_subst]
      refine subst_congr fun y hy => ?_
      obtain ⟨i, rfl, hi | hi⟩ := h.rowed _ hin y hy
      · show (f i).subst e = F i
        rw [hnew i (U.bounds i hi).1, h.arg i hi]
        exact subst_eq_self (U.closed i hi) he.flex
      · show (f i).subst e = F i
        obtain ⟨x, hx, -⟩ := h.fills.var i ⟨_, hin, hi⟩
        rw [← hrow ⟨_, hin, hi⟩, hx]
        exact he.flex x
    · rw [hkept g hmem, hkept' g hmem]
      exact hown ⟨_, rfl, hg.resolve_left hmem⟩
  rw [heq]
  refine exists_renumbered h.hi (hs ▸ h.le) ?_
    (fun g hg => (hnew g (U.bounds g hg).1).trans (h.arg g hg)) (hF.mono ?_)
    (map_fst_zip (by simp)) (map_snd_zip (by simp))
  · intro y hy
    rw [occurrences_subst, mem_flatMap] at hy
    obtain ⟨x, hx, hy⟩ := hy
    obtain ⟨g, rfl, hg⟩ := hrowed x hx
    by_cases hmem : g ∈ σ.vars
    · have hin := (hpart g hmem).1
      obtain ⟨i, rfl, hi⟩ := h.rowed _ hin y hy
      exact ⟨i, rfl, hi.imp_right fun hi => (hshows _ hin).mem_tailOccurrences hi⟩
    · obtain rfl : y = .gen g := by simpa [hkept g hmem, occurrences] using hy
      exact ⟨g, rfl, .inr (mem_tailOccurrences_image (hg.resolve_left hmem) (hkept g hmem))⟩
  · rintro g ⟨_, rfl, hg⟩
    exact (htails _ hg).elim (fun hg => .inr ⟨_, rfl, hg⟩) .inl

/-- Renewing the rows of the declared type at a use gives the type that is read there,
up to the choice of the variables. -/
theorem Opens.exists_renews (h : U.Opens n m v w f (· = t)) {a e : TyVar → Ty}
    (ha : ∀ g ∈ U.gens, a (.gen g) = U.arg g) (hkept : ∀ g, U.hi ≤ g → a (.gen g) = .gen g)
    (hscoped : ∀ g ∈ U.gens, (U.arg g).Scoped v) (he : Scheme.Opened ⟨[], t.subst a⟩ e v k) :
    ∃ ρ, (t.subst a).subst e = (t.subst (fillGens f)).subst (fill fun v => .flex (ρ v)) ∧
      (t.subst (fillGens f)).Renews (range v) ρ v k := by
  have htail : ∀ {g}, g ∈ rows (· = t) → a (.gen g) = .gen g ∧
      Scheme.Opens ⟨[], t.subst a⟩ (.gen g) := by
    intro g hg
    have heq := hkept g (h.hi.trans (h.row hg).1)
    obtain ⟨_, rfl, hg⟩ := hg
    exact ⟨heq, .inr (mem_tailOccurrences_image hg heq)⟩
  have hρ :
      ∀ x, ∃ y, (x < v → y = x) ∧ ∀ g ∈ rows (· = t), f g = .flex x → e (.gen g) = .flex y := by
    intro x
    by_cases hx : ∃ g ∈ rows (· = t), f g = .flex x
    · obtain ⟨g, hg, heq⟩ := hx
      obtain ⟨z, hz, hge, -⟩ := h.fills.var g hg
      cases hz.symm.trans heq
      obtain ⟨y, hy, -⟩ := he.gen (htail hg).2
      refine ⟨y, fun hlt => absurd hge hlt.not_ge, fun i hi heqi => ?_⟩
      rwa [h.fills.inj hi hg (heqi.trans heq.symm)]
    · exact ⟨x, fun _ => rfl, fun g hg heq => absurd ⟨g, hg, heq⟩ hx⟩
  choose ρ hold hnew using hρ
  have hvar : ∀ x, (t.subst (fillGens f)).Mentions x → x ∉ range v →
      ∃ g ∈ rows (· = t), f g = .flex x := by
    intro x hx hnot
    rw [Mentions, occurrences_subst, mem_flatMap] at hx
    obtain ⟨y, hy, hx⟩ := hx
    obtain ⟨g, rfl, hg | hg⟩ := h.rowed t rfl y hy
    · rw [fillGens, h.arg g hg] at hx
      exact absurd (mem_range.mpr (hscoped g hg x hx)) hnot
    · obtain ⟨z, hz, -⟩ := h.fills.var g ⟨t, rfl, hg⟩
      rw [fillGens, hz] at hx
      obtain rfl : x = z := by simpa [occurrences] using hx
      exact ⟨g, ⟨t, rfl, hg⟩, hz⟩
  refine ⟨ρ, ?_, renews_of_new (fun x hx => hold x (mem_range.mp hx)) (fun x hx hnot => ?_)
    (fun x hx _ => mem_range.mp hx) fun x y hx hy hx' hy' heq => ?_⟩
  · rw [subst_subst, subst_subst]
    refine subst_congr fun y hy => ?_
    obtain ⟨g, rfl, hg | hg⟩ := h.rowed t rfl y hy
    · rw [ha g hg, fillGens, h.arg g hg, subst_eq_self (U.closed g hg) he.flex]
      refine (subst_var _).symm.trans (subst_congr fun z hz => ?_)
      cases z with
      | flex x => rw [fill, hold x (hscoped g hg x hz)]
      | gen i => exact absurd hz (U.closed g hg i)
    · have hg : g ∈ rows (· = t) := ⟨t, rfl, hg⟩
      obtain ⟨x, hx, -⟩ := h.fills.var g hg
      rw [(htail hg).1, fillGens, hx]
      exact hnew x g hg hx
  · obtain ⟨g, hg, heq⟩ := hvar x hx hnot
    obtain ⟨y, hy, hbounds⟩ := he.gen (htail hg).2
    cases hy.symm.trans (hnew x g hg heq)
    exact hbounds
  · obtain ⟨g, hg, hgx⟩ := hvar x hx hx'
    obtain ⟨i, hi, hiy⟩ := hvar y hy hy'
    have hsame := he.injective (htail hg).2 (htail hi).2
      (by rw [hnew x g hg hgx, hnew y i hi hiy, heq])
    rw [hsame, hiy] at hgx
    cases hgx
    rfl

/-! ## Written types -/

/-- One state is that of the declaration, where `n` numbers are issued, and one that of
the use, where `v` variables are. -/
structure At (U : Use) (n v : Nat) (s st : ReadState) : Prop where
  fixed : s.scope = .fixed U.params
  gens : s.state.registry.nextGen = n
  flexible : st.scope = .flexible U.labels
  vars : st.state.registry.varCount = v

/-- What is read in the declaration is found at the use too. -/
def Mirrors (U : Use) {α β : Type} (n v : Nat) (x : Read α) (y : Read β)
    (Q : Nat → Nat → α → β → Prop) : Prop :=
  ∀ s s' a st, U.At n v s st → x.run s = .ok a s' →
    ∃ m w b st', y.run st = .ok b st' ∧ U.At m w s' st' ∧ Q m w a b

section

variable {α β γ δ : Type} {Q : Nat → Nat → α → β → Prop}

theorem Mirrors.bind {x : Read α} {y : Read β} {f : α → Read γ} {g : β → Read δ}
    {R : Nat → Nat → γ → δ → Prop} (hx : U.Mirrors n v x y Q)
    (h : ∀ m w a b, Q m w a b → U.Mirrors m w (f a) (g b) R) :
    U.Mirrors n v (x >>= f) (y >>= g) R := by
  intro s s' c st hat hrun
  obtain ⟨a, s₁, ha, hrun⟩ := run_bind_inv hrun
  obtain ⟨m, w, b, st₁, hb, hat₁, hab⟩ := hx s s₁ a st hat ha
  obtain ⟨m', w', d, st', hd, hat', hcd⟩ := h m w a b hab s₁ s' c st₁ hat₁ hrun
  exact ⟨m', w', d, st', (run_bind_ok hb).trans hd, hat', hcd⟩

theorem mirrors_pure {a : α} {b : β} (h : Q n v a b) : U.Mirrors n v (pure a) (pure b) Q := by
  rintro s s' _ st hat hrun
  cases hrun
  exact ⟨n, v, b, st, rfl, hat, h⟩

theorem mirrors_lift {x : Check TypeError α} {y : Check TypeError β}
    (h : ∀ s s' a st, s.registry.nextGen = n → st.registry.varCount = v → x.run s = .ok a s' →
      ∃ b st', y.run st = .ok b st' ∧ Q s'.registry.nextGen st'.registry.varCount a b) :
    U.Mirrors n v (Read.lift x) (Read.lift y) Q := by
  intro s s' a st hat hrun
  obtain ⟨s₁, hx, rfl⟩ := Read.run_lift_inv hrun
  obtain ⟨b, st₁, hy, hq⟩ := h s.state s₁ a st.state hat.gens hat.vars hx
  exact ⟨_, _, b, _, Read.run_lift_ok hy, ⟨hat.fixed, rfl, hat.flexible, rfl⟩, hq⟩

theorem mirrors_isFixed : U.Mirrors n v Read.isFixed Read.isFixed fun m w b b' =>
    m = n ∧ w = v ∧ b = true ∧ b' = false := by
  rintro s s' b st hat hrun
  cases hrun
  exact ⟨n, v, _, st, rfl, hat, rfl, rfl, by rw [hat.fixed]; rfl, by rw [hat.flexible]; rfl⟩

end

theorem mirrors_label (hn : U.hi ≤ n) (l : String) :
    U.Mirrors n v (Read.label l) (Read.label l) (U.Unfolds n v) := by
  rintro s s' t st hat hrun
  rw [Read.run_label, hat.fixed] at hrun
  cases hl : U.params.lookup l with
  | none => simp [hl] at hrun
  | some u =>
    simp only [hl] at hrun
    cases hrun
    obtain ⟨g, hg, heq, hlabel⟩ := U.param _ (mem_of_lookup hl)
    cases heq
    refine ⟨n, v, U.arg g, st, ?_, hat, U.arg, .param hn hg, rfl⟩
    rw [Read.run_label, hat.flexible]
    simp only [hlabel]

theorem mirrors_applyName {env : Env} (henv : env.Sound U.lo)
    (hrowed : ∀ e ∈ env.types, e.2.Rowed) (name : String)
    (h : U.Opens n m v w f (· ∈ ts)) :
    U.Mirrors m w (Read.lift (applyName env true name ts))
      (Read.lift (applyName env false name (ts.map (subst (fillGens f))))) (U.Unfolds n v) := by
  refine mirrors_lift fun s s' t st hs hst hrun => ?_
  unfold applyName at hrun ⊢
  cases hname : env.type? name with
  | some σ =>
    rw [hname] at hrun
    exact h.unfolds_instance (henv.type? hname) (hrowed _ (mem_of_lookup hname)) hs hrun hst
  | none =>
    rw [hname] at hrun
    cases hbase : Base.ofName? name with
    | none =>
      rw [hbase] at hrun
      cases hrun
    | some b =>
      simp only [hbase] at hrun ⊢
      split at hrun
      · next hempty =>
        obtain rfl : ts = [] := by simpa using hempty
        cases hrun
        rw [hs]
        exact ⟨_, st, rfl, f, by rw [hst]; exact h.con, rfl⟩
      · cases hrun

end Use

namespace TypeExpr

variable {U : Use} {env : Env}

open Use

mutual

theorem mirrors_read (henv : env.Sound U.lo) (hrowed : ∀ e ∈ env.types, e.2.Rowed) :
    ∀ (e : TypeExpr) {n v : Nat}, U.hi ≤ n →
      U.Mirrors n v (e.read env) (e.read env) (U.Unfolds n v)
  | .name c, n, v, hn => by
    rw [read]
    refine mirrors_isFixed.bind ?_
    rintro _ _ _ _ ⟨rfl, rfl, rfl, rfl⟩
    refine mirrors_applyName henv hrowed c (Opens.subset (Opens.none hn) ?_)
    simp
  | .var l, n, v, hn => by
    rw [read]
    exact mirrors_label hn l
  | .app c args, n, v, hn => by
    rw [read]
    refine (mirrors_readList henv hrowed args hn).bind ?_
    rintro m w ts _ ⟨f, hf, rfl⟩
    refine mirrors_isFixed.bind ?_
    rintro _ _ _ _ ⟨rfl, rfl, rfl, rfl⟩
    exact mirrors_applyName henv hrowed c hf
  | .arrow a r, n, v, hn => by
    rw [read]
    refine (mirrors_read henv hrowed a hn).bind ?_
    rintro m w ta _ ⟨f, hf, rfl⟩
    refine (mirrors_read henv hrowed r (hn.trans hf.le)).bind ?_
    rintro m' w' tr _ ⟨f', hf', rfl⟩
    obtain ⟨e, he, hleft, hright⟩ := hf.union hf'
    have hboth : U.Opens n m' v w' e (· ∈ [ta, tr]) := he.subset (by simp)
    refine mirrors_pure ⟨e, hboth.con, ?_⟩
    rw [← hleft ta rfl, ← hright tr rfl]
    rfl
  | .tuple items, n, v, hn => by
    rw [read]
    refine (mirrors_readList henv hrowed items hn).bind ?_
    rintro m w ts _ ⟨f, hf, rfl⟩
    exact mirrors_pure ⟨f, hf.tuple, (subst_tuple _ ts).symm⟩
  | .record fields isOpen, n, v, hn => by
    rw [read]
    have hnone : U.Opens n n v v U.arg (· ∈ ([] : Table Ty).map (·.2)) :=
      (Opens.none hn).subset (by simp)
    refine (mirrors_readFields henv hrowed fields hnone).bind ?_
    rintro m w row _ ⟨f, hf, rfl⟩
    have hm := hn.trans hf.le
    cases isOpen with
    | false =>
      have hend : U.Opens m m w w U.arg (· = .record [] .emptyRow) :=
        (Opens.none hm).combine (by simp [occurrences]) (by simp [tailOccurrences, varSelf])
      obtain ⟨e, he, hleft, -⟩ := hf.union hend
      refine mirrors_pure ⟨e, he.record, ?_⟩
      rw [subst_record, mapValues_congr fun d hd => hleft d.2 (mem_map_of_mem hd)]
      rfl
    | true =>
      refine mirrors_isFixed.bind ?_
      rintro m w _ _ ⟨rfl, rfl, rfl, rfl⟩
      refine (mirrors_lift (Q := fun i j g u => i = m + 1 ∧ j = w + 1 ∧ g = m ∧ u = .flex w)
        fun s s' g st hs hst hrun => ?_).bind ?_
      · cases hrun
        subst hs hst
        exact ⟨_, _, run_freshVar st, rfl, by simp, rfl, rfl⟩
      rintro _ _ _ _ ⟨rfl, rfl, rfl, rfl⟩
      obtain ⟨f', heq, hf'⟩ := Opens.row_of_fresh (v := w) hm
      obtain ⟨e, he, hleft, hright⟩ := hf.union hf'
      refine mirrors_pure ⟨e, he.record, ?_⟩
      have hrow := hright _ rfl
      rw [subst_record, subst_record] at hrow
      rw [subst_record, mapValues_congr fun d hd => hleft d.2 (mem_map_of_mem hd)]
      exact congrArg (Ty.record _) (heq.symm.trans (Ty.record.inj hrow).2.symm)

theorem mirrors_readList (henv : env.Sound U.lo) (hrowed : ∀ e ∈ env.types, e.2.Rowed) :
    ∀ (es : List TypeExpr) {n v : Nat}, U.hi ≤ n →
      U.Mirrors n v (readList env es) (readList env es) fun m w ts us =>
        ∃ f, U.Opens n m v w f (· ∈ ts) ∧ us = ts.map (subst (fillGens f))
  | [], n, v, hn => by
    rw [readList]
    exact mirrors_pure ⟨U.arg, (Opens.none hn).subset (by simp), rfl⟩
  | e :: es, n, v, hn => by
    rw [readList]
    refine (mirrors_read henv hrowed e hn).bind ?_
    rintro m w t _ ⟨f, hf, rfl⟩
    refine (mirrors_readList henv hrowed es (hn.trans hf.le)).bind ?_
    rintro m' w' ts _ ⟨f', hf', rfl⟩
    obtain ⟨e, he, hleft, hright⟩ := hf.union hf'
    refine mirrors_pure ⟨e, he.subset (by simp), ?_⟩
    rw [map_cons, hleft t rfl, map_congr_left hright]

theorem mirrors_readFields (henv : env.Sound U.lo) (hrowed : ∀ e ∈ env.types, e.2.Rowed) :
    ∀ (es : List (String × TypeExpr)) {fields : Table Ty} {n m v w : Nat} {f : Nat → Ty},
      U.Opens n m v w f (· ∈ fields.map (·.2)) →
      U.Mirrors m w (readFields env es fields)
        (readFields env es (fields.mapValues (subst (fillGens f)))) fun m w row row' =>
          ∃ f, U.Opens n m v w f (· ∈ row.map (·.2)) ∧ row' = row.mapValues (subst (fillGens f))
  | [], fields, n, m, v, w, f, hf => by
    rw [readFields, readFields]
    exact mirrors_pure ⟨f, hf, rfl⟩
  | (l, e) :: es, fields, n, m, v, w, f, hf => by
    rw [readFields, readFields]
    refine (mirrors_read henv hrowed e (hf.hi.trans hf.le)).bind ?_
    rintro m' w' t _ ⟨f', hf', rfl⟩
    by_cases hl : (fields.lookup l).isSome
    · rw [if_pos hl]
      intro s s' a st hat hrun
      cases hrun
    · rw [if_neg hl, if_neg (by simpa using hl)]
      obtain ⟨e, he, hleft, hright⟩ := hf.union hf'
      have hinsert : insert l (t.subst (fillGens f')) (fields.mapValues (subst (fillGens f))) =
          (insert l t fields).mapValues (subst (fillGens e)) := by
        rw [mapValues_insert, hright t rfl, mapValues_congr
          fun d hd => hleft d.2 (mem_map_of_mem hd)]
      rw [hinsert]
      refine mirrors_readFields henv hrowed es (he.subset fun u hu => ?_)
      obtain ⟨d, hd, rfl⟩ := mem_map.mp hu
      exact (mem_insert hd).elim (fun h => .inr (congrArg Prod.snd h))
        fun h => .inl (mem_map_of_mem h)

end

end TypeExpr

/-! ## Declarations -/

/-- Applied to the arguments the name yields a synonym with these arguments. Its target
is what the definition reads as with the arguments for the labels, up to the choice of
the new variables. -/
def Scheme.StandsFor (σ : Scheme) (name : String) (args : List (String × Ty)) (env : Env)
    (definition : TypeExpr) (s : State) : Prop :=
  ∃ id t s₁ u s₂ ρ, (instantiateWith name σ (args.map (·.2))).run s =
      .ok (.synonymOf id args t) s₁ ∧
    (definition.denote env (.flexible (.ofList args))).run s = .ok u s₂ ∧
    t = u.subst (fill fun v => .flex (ρ v)) ∧
    u.Renews (range s.registry.varCount) ρ s.registry.varCount s₁.registry.varCount

theorem standsFor_of_declareType {env : Env} {s₀ s₁ s : State} {span : Span} {name : String}
    {args : List (String × Ty)} {definition : TypeExpr} {r : Env × Declared}
    (henv : env.Sound s₀.registry.nextGen) (hrowed : ∀ e ∈ env.types, e.2.Rowed)
    (hlabels : (args.map (·.1)).Nodup)
    (hrun : (declareType env span name (args.map (·.1)) (.synonym definition)).run s₀ = .ok r s₁)
    (hclosed : ∀ e ∈ args, ∀ g, .gen g ∉ e.2.occurrences)
    (hscoped : ∀ e ∈ args, e.2.Scoped s.registry.varCount) :
    ∃ σ, r.1.type? name = some σ ∧ σ.StandsFor name args env definition s := by
  obtain ⟨id, _, htype, hrest⟩ := run_bind_inv hrun
  cases htype
  rw [run_bind_ok (run_freshGens _ _)] at hrest
  obtain ⟨t, _, hlocated, hrest⟩ := run_bind_inv hrest
  obtain ⟨st, hread, rfl⟩ := TypeExpr.run_denote_inv (run_located_ok.mp hlocated)
  cases hrest
  let lo := s₀.registry.nextGen
  let numbered := (args.map (·.1)).zip (range' lo (args.map (·.1)).length)
  have hgens : numbered.map (·.2) = range' lo args.length := by
    have hlength : (range' lo args.length).length ≤ (args.map (·.1)).length := by simp
    simpa [numbered] using map_snd_zip hlength
  have hbounds : ∀ g ∈ numbered.map (·.2), lo ≤ g ∧ g < lo + args.length := by
    rw [hgens]
    exact fun g hg => mem_range'_1.mp hg
  -- the arguments by the numbers of the parameters
  let σ : Scheme :=
    ⟨numbered.map (·.2), .synonymOf s₀.registry.nextType (numbered.map fun e => (e.1, .gen e.2)) t⟩
  obtain ⟨w, hw⟩ : ∃ w, applyArgs name σ (args.map (·.2)) = .ok w :=
    ⟨_, if_pos (by simp [σ, numbered])⟩
  obtain ⟨a, rfl, hargs, hkept, -⟩ :=
    of_applyArgs (σ := σ) (show (numbered.map (·.2)).Nodup from hgens ▸ nodup_range') hw
  have hentries : numbered.map (fun e => (e.1, a (.gen e.2))) = args := by
    have hzip : (numbered.map (·.1)).zip (args.map (·.2)) = args := by
      rw [map_fst_zip (by simp), zip_map']
      simp
    rw [← hargs, map_map, zip_map'] at hzip
    exact hzip
  have hmem : ∀ g ∈ numbered.map (·.2), ∃ e ∈ args, e.2 = a (.gen g) := by
    intro g hg
    obtain ⟨d, hd, rfl⟩ := mem_map.mp hg
    exact ⟨_, hentries ▸ mem_map_of_mem hd, rfl⟩
  let U : Use :=
    { lo := lo, hi := lo + args.length, gens := numbered.map (·.2), arg := fun g => a (.gen g)
      params := .ofList (numbered.map fun e => (e.1, .gen e.2))
      labels := .ofList args
      lo_le_hi := Nat.le_add_right _ _
      bounds := hbounds
      closed := fun g hg => by
        obtain ⟨e, he, heq⟩ := hmem g hg
        exact heq ▸ hclosed e he
      param := fun e he => by
        obtain ⟨d, hd, rfl⟩ := mem_map.mp (mem_ofList he)
        exact ⟨d.2, mem_map_of_mem hd, rfl,
          lookup_ofList (e := (d.1, a (.gen d.2))) hlabels (hentries ▸ mem_map_of_mem hd)⟩ }
  obtain ⟨m, v, u, st', hread', -, f, hopens, rfl⟩ := TypeExpr.mirrors_read (U := U) henv hrowed
    definition le_rfl _ _ t ⟨s, .flexible U.labels⟩
        ⟨rfl, by simp [U, lo, Registry.addType], rfl, rfl⟩ hread
  have hbody : σ.body.subst a = .synonymOf s₀.registry.nextType args (t.subst a) := by
    rw [subst_synonymOf, map_map]
    exact congrArg (synonymOf _ · _) hentries
  rw [hbody] at hw
  obtain ⟨e, s₁, hinst, -, he⟩ := opened_instantiate (ε := TypeError)
    ⟨[], .synonymOf s₀.registry.nextType args (t.subst a)⟩ s
  obtain ⟨ρ, heq, hrenews⟩ := hopens.exists_renews (fun g hg => rfl)
    (fun g hg => hkept g fun hmem => absurd (hbounds g hmem).2 hg.not_gt)
    (fun g hg => by
      obtain ⟨e, he, heq⟩ := hmem g hg
      show (a (.gen g)).Scoped _
      rw [← heq]
      exact hscoped e he)
    ⟨he.flex, he.kept, he.gen, he.injective⟩
  refine ⟨σ, (lookup_insert ..).trans (if_pos rfl), s₀.registry.nextType, _, s₁, _, st'.state,
    ρ, ?_,
    TypeExpr.run_denote_ok hread', heq, hrenews⟩
  rw [instantiateWith_eq, hw]
  refine Eq.trans hinst ?_
  rw [subst_synonymOf]
  have hkeep : (args.map fun d => (d.1, d.2.subst e)) = args :=
    (map_congr_left (g := id) fun d hd => congrArg (Prod.mk d.1)
      (subst_eq_self (hclosed d hd) he.flex)).trans (map_id _)
  rw [hkeep]

/-- Using a synonym is writing its definition. Let declarations whose synonyms use their
parameters have been checked, and let a synonym with distinct parameters be accepted
after them. Applied to arguments without generalized variables its name stands for its
definition, read where it could have been written in its stead. -/
theorem synonym_stands_for_definition {env₀ : Env} {s₀ s₁ s : State} (hstart : Start env₀ s₀)
    {ds : List Decl} (huses : ∀ d ∈ ds, d.UsesParams) {span : Span} {name : String}
    {args : List (String × Ty)} {definition : TypeExpr} {r : Env × Declared}
    (hlabels : (args.map (·.1)).Nodup)
    (hrun : ((Decl.type span name (args.map (·.1)) (.synonym definition)).check
      (checkDecls ds { env := env₀ } s₀).1.env).run (checkDecls ds { env := env₀ } s₀).2 = .ok r s₁)
    (hclosed : ∀ e ∈ args, ∀ g, .gen g ∉ e.2.occurrences)
    (hscoped : ∀ e ∈ args, e.2.Scoped s.registry.varCount) :
    ∃ σ, r.1.type? name = some σ ∧
      σ.StandsFor name args (checkDecls ds { env := env₀ } s₀).1.env definition s := by
  obtain ⟨hs₀, henv₀⟩ := hstart.sound
  have henv : (checkDecls ds { env := env₀ } s₀).1.env.Sound _ :=
    (checkDecls_sound ds hs₀ henv₀ huses).2
  obtain ⟨S, hS⟩ := Stage.describes_start (G := False) hstart
  obtain ⟨S', -, hS'⟩ := hS.checkDecls ds { env := env₀ } fun h => h.elim
  rw [Decl.check] at hrun
  exact standsFor_of_declareType henv (fun e he => (hS'.declared.types e he).rowed
    (henv.types e he).faithful) hlabels hrun hclosed hscoped

/-- Points with a coordinate and whatever else they have, and pairs. -/
def pointsAndPairs : List Decl :=
  [.type {} "point" [] (.synonym (.record [("x", .name "int")] true)),
    .type {} "pair" ["a"] (.synonym (.tuple [.var "a", .var "a"]))]

/-- A record with a rest of its own, and a pair of points that have the same rest. -/
def recordAndPoints : TypeExpr :=
  .arrow (.record [("y", .var "b")] true) (.app "pair" [.name "point"])

/-- Two variables on both sides, in another order. -/
theorem pair_of_points_stands_for_definition :
    Start .empty {} ∧ (∀ d ∈ pointsAndPairs, d.UsesParams) ∧ ∃ r s₁,
      ((Decl.type {} "t" ["b"] (.synonym recordAndPoints)).check
        (checkDecls pointsAndPairs { env := .empty } {}).1.env).run
          (checkDecls pointsAndPairs { env := .empty } {}).2 = .ok r s₁ ∧
      ∃ σ, r.1.type? "t" = some σ ∧ σ.StandsFor "t" [("b", .flex 0)]
        (checkDecls pointsAndPairs { env := .empty } {}).1.env recordAndPoints
        { registry := Registry.addVar {} } := by
  have huses : ∀ d ∈ pointsAndPairs, d.UsesParams := by
    simp [pointsAndPairs, Decl.UsesParams, TypeExpr.labels, TypeExpr.labelsList]
  refine ⟨.empty, huses, _, _, rfl, ?_⟩
  exact @synonym_stands_for_definition _ _ _ _ .empty _ huses {} _ _ _ _ (nodup_singleton "b")
    rfl (by simp [occurrences])
    (by simp [Scoped, Mentions, occurrences, Registry.addVar, Registry.varCount])

end RowTyping
