import RowTyping.Proofs.Provenance
import RowTyping.Proofs.TypeSoundness

/-!
# Internal errors

Two errors are no fault of the program that is checked: that a variable was never
issued, and that a bound variable is given another type. Unification fails with
neither of them if its types and the bindings are over issued variables. The types
and environments that a program is checked with are over issued variables from the
start, so no program is reported for them.
-/

namespace RowTyping

open Check Vocabulary Registry Ty List

/-- The first variables, and all generalized variables and nominal types. -/
def Vocabulary.below (n : Nat) : Vocabulary where
  Has
    | .var (.flex v) => v < n
    | _ => True
  entersModules := False

theorem Vocabulary.covers_below {n : Nat} {t : Ty} (h : t.Scoped n) : (below n).Covers t := by
  induction t using induct_children with
  | step t ih =>
    have hchild : ∀ u ∈ t.children, (below n).Covers u :=
      fun u hu => ih u hu fun v hv => h v (hv.of_child hu)
    cases t with
    | var x =>
      cases x with
      | flex v => exact covers_var.mpr (h v (mentions_flex.mpr rfl))
      | gen g => exact covers_var.mpr trivial
    | con c args => exact covers_con.mpr ⟨by cases c <;> trivial, hchild⟩
    | record fs tail =>
      refine covers_record.mpr ⟨fun e he => ⟨trivial, ?_⟩, ?_⟩
      · exact hchild e.2 (mem_children_record.mpr (.inl ⟨e, he, rfl⟩))
      · exact hchild tail (mem_children_record.mpr (.inr rfl))
    | synonym id labels params target =>
      refine covers_synonym.mpr ⟨trivial, fun u hu => hchild u ?_, hchild target ?_⟩
      · exact mem_append_left _ hu
      · exact mem_append_right _ (mem_singleton_self target)
    | module name members => exact covers_module.mpr False.elim

/-- Types that cannot be made equal are all that unification fails for. -/
def TypeError.IsUnequal (e : TypeError) : Prop :=
  (∃ a b, e = .mismatch a b) ∨ ∃ v t, e = .cyclic v t

theorem unify_error {s s' : State} {a b : Ty} {e : TypeError} (hscope : s.registry.Scoped)
    (ha : a.Scoped s.registry.varCount) (hb : b.Scoped s.registry.varCount)
    (hrun : (unify a b).run s = .error e s') : e.IsUnequal := by
  let o : Origin := ⟨below s.registry.varCount, s.registry, TypeError.IsUnequal⟩
  have A : o.AllowsUnification :=
    ⟨fun a b => .inl ⟨a, b, rfl⟩, fun v t => .inr ⟨v, t, rfl⟩, fun _ hv => .inl hv⟩
  have hknown : below s.registry.varCount ≤ o.upTo s.registry := le_since _ _ _
  have hs : o.Stands s :=
    ⟨le_rfl, fun v t hv => (covers_below (hscope v t hv)).mono hknown⟩
  have htraces := A.traces_unify hs ((covers_below ha).mono hknown) ((covers_below hb).mono hknown)
  exact (htraces.2.2.2 e s' hrun).2

/-- Programs start with nothing, or with what was issued for the standard environment. -/
theorem Start.covers {o : Origin} (hstart : o.start = {}) {env : Env} {s : State}
    (h : Start env s) : o.Stands s ∧ o.Covers s.registry env := by
  obtain ⟨gens, ids, rfl, helementary⟩ := h.elementary
  let r : Registry := { nextGen := gens, nextType := ids }
  have hgens : ∀ n, o.start ≤ { nextGen := n } := by
    intro n
    induction n with
    | zero => exact hstart.le
    | succ n ih => exact ih.trans (le_addGen _)
  have hle : ∀ n, o.start ≤ { nextGen := gens, nextType := n } := by
    intro n
    induction n with
    | zero => exact hgens gens
    | succ n ih => exact ih.trans (le_addType _)
  have hgen : ∀ g < gens, o.HasGen r g :=
    fun g hg => .inr ⟨hstart ▸ Nat.zero_le g, Nat.not_le.mpr hg⟩
  have hid : ∀ id < ids, (o.upTo r).Has (.type id) :=
    fun id hid => .inr ⟨hstart ▸ Nat.zero_le id, Nat.not_le.mpr hid⟩
  have hcon : ∀ {c : Con}, (c.isElementary ids = true ∨ ∃ name, c = .ctor name) →
      c.Within (o.upTo r) := by
    intro c hc
    cases c <;> simp_all [Con.isElementary, Con.Within]
  refine ⟨⟨hle ids, fun v t hv => by simp [binding?] at hv⟩, fun e he => ?_, fun e he => ?_⟩
  · obtain ⟨hvars, -⟩ := helementary.value he
    exact ⟨trivial, fun g hg => hgen g (hvars g hg), helementary.value_induct he
      (fun g hg => covers_var.mpr (hgen g hg))
        fun c args hc _ hargs => covers_con.mpr ⟨hcon hc, hargs⟩⟩
  · obtain ⟨c, vars, heq, hc, -, -, hvars⟩ := helementary.type he
    refine ⟨trivial, ?_⟩
    rw [heq]
    exact ⟨fun g hg => hgen g (hvars g hg), covers_con.mpr ⟨hcon (.inl hc),
      forall_mem_map.mpr fun g hg => covers_var.mpr (hgen g (hvars g hg))⟩⟩

theorem checkProgram_errors {env : Env} {s : State} (hstart : Start env s) (ds : List Decl) :
    ∀ e ∈ (checkProgram env ds s).1.errors, e.error.isInternal = false := by
  -- nothing is known at the start, so every variable that comes up was issued
  let o : Origin := ⟨⟨fun _ => False, True⟩, {}, fun e => e.isInternal = false⟩
  have A : o.AllowsChecking := ⟨fun _ he => he, fun _ hv => hv.elim, trivial⟩
  obtain ⟨hs, henv⟩ := hstart.covers (o := o) rfl
  exact (A.reports_checkProgram ds hs.start_le hs.covers henv).1.allows

theorem internal_errors_unreachable :
    (∀ {s s' : State} {a b : Ty} {e : TypeError}, s.registry.Scoped →
      a.Scoped s.registry.varCount → b.Scoped s.registry.varCount →
      (unify a b).run s = .error e s' → (∃ a' b', e = .mismatch a' b') ∨ ∃ v t, e = .cyclic v t) ∧
    ∀ {env : Env} {s : State} {ds : List Decl}, Start env s →
      ∀ e ∈ (checkProgram env ds s).1.errors,
        (∀ v a b, e.error ≠ .bindingConflict v a b) ∧ ∀ v, e.error ≠ .unknownVariable v := by
  refine ⟨unify_error, fun hstart e he => ?_⟩
  have hexternal := checkProgram_errors hstart _ e he
  constructor
  · intro v a b heq
    rw [heq] at hexternal
    cases hexternal
  · intro v heq
    rw [heq] at hexternal
    cases hexternal

/-- A function applied to itself, and a name that is not bound. -/
def faultyProgram : List Decl :=
  [.value {} "omega" false none (.lam {} "x" none (.app {} (.var {} "x") (.var {} "x"))),
    .expr {} (.var {} "y")]

theorem faultyProgram_errors :
    let s : State := ⟨({} : Registry).addVar.addVar.setBinding 0 (.arrow (.flex 1) .int), #[]⟩
    s.registry.Scoped ∧
      (∃ e s', (unify (.flex 1) (.flex 0)).run s = .error e s' ∧
        ((∃ a b, e = .mismatch a b) ∨ ∃ v t, e = .cyclic v t)) ∧
      (checkProgram .empty faultyProgram {}).1.errors.length = 2 ∧
      ∀ e ∈ (checkProgram .empty faultyProgram {}).1.errors,
        (∀ v a b, e.error ≠ .bindingConflict v a b) ∧ ∀ v, e.error ≠ .unknownVariable v := by
  intro s
  have hcount : s.registry.varCount = 2 := by decide
  have hscope : s.registry.Scoped := Registry.forall_setBinding (by simp)
    (by simp [hcount, Ty.Scoped, Ty.Mentions, Ty.occurrences])
  have hflex : ∀ v, v < 2 → (Ty.flex v).Scoped s.registry.varCount := by
    intro v hv
    simpa [hcount, Ty.Scoped, Ty.Mentions, Ty.occurrences] using hv
  refine ⟨hscope, ?_, by decide +kernel, internal_errors_unreachable.2 .empty⟩
  cases hrun : (unify (.flex 1) (.flex 0)).run s with
  | ok u s' =>
    have hfails : (Check.result? (unify (.flex 1) (.flex 0)) s).isNone = true := by decide +kernel
    simp [Check.result?, hrun] at hfails
  | error e s' =>
    exact ⟨e, s', rfl, internal_errors_unreachable.1 hscope (hflex 1 (by decide))
      (hflex 0 (by decide)) hrun⟩

end RowTyping
