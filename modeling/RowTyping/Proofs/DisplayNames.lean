import RowTyping.Proofs.Oblivious

/-!
# Display names are never read

The names that variables are shown by stand in the cells of the registry, beside
the bindings. No operation of the checker looks at them: from a state without names
it takes the same steps as from the state with them, and the two end alike. So it
makes no difference whether names are assigned once, after all declarations of a
program, or also in between.
-/

namespace RowTyping

open Check Function List

/-! ## Registries without names -/

namespace Registry

/-- The registry as it would be if no variable had been named. -/
def unnamed (r : Registry) : Registry :=
  { r with cells := r.cells.map fun c => { c with name := none }, nextName := 0 }

variable (r : Registry)

theorem unnamed_setBinding (v : Nat) (t : Ty) :
    (r.setBinding v t).unnamed = r.unnamed.setBinding v t := by
  have hcells : (r.setBinding v t).unnamed.cells = (r.unnamed.setBinding v t).cells := by
    apply Array.ext_getElem?
    intro w
    simp only [unnamed, setBinding, Array.getElem?_map, Array.getElem?_modify]
    by_cases h : v = w
    · subst h
      cases r.cells[v]? <;> simp
    · simp [h]
  simpa [unnamed, setBinding] using hcells

/-- Naming the open variables only adds names. -/
@[simp] theorem unnamed_assignNames : r.assignNames.unnamed = r.unnamed := by
  have hbindings : r.assignNames.cells.toList.map Cell.binding =
      r.cells.toList.map Cell.binding := by
    simpa [assignNames] using nameCell_bindings r.cells.toList (#[], r.nextName)
  have hcells := congrArg (map fun b => (⟨b, none⟩ : Cell)) hbindings
  rw [map_map, map_map] at hcells
  have harrays : r.assignNames.unnamed.cells = r.unnamed.cells := by
    apply Array.toList_inj.mp
    simpa [unnamed, comp_def] using hcells
  simpa [unnamed, assignNames] using harrays

end Registry

/-- Names are taken away, and spans left as they are. -/
def unnaming : Disguise where
  registry := Registry.unnamed
  span := id
  bindings r := by simp [Registry.unnamed, Function.comp_def]
  nextGen _ := rfl
  nextType _ := rfl
  addVar r := by simp [Registry.unnamed, Registry.addVar]
  addGen _ := rfl
  addType _ := rfl
  setBinding := Registry.unnamed_setBinding

/-- The state as it would be if no variable had been named. -/
def unnamed (s : State) : State := unnaming.state s

/-! ## Programs -/

namespace State

/-- The states hold the same bindings, have issued the same identities and recorded the
same steps. Which variables have names, and how many names were given, is left open: a
name stays with its variable, also if that is bound later. -/
structure Agrees (s s' : State) : Prop where
  bindings : ∀ v, s.registry.binding? v = s'.registry.binding? v
  varCount : s.registry.varCount = s'.registry.varCount
  nextGen : s.registry.nextGen = s'.registry.nextGen
  nextType : s.registry.nextType = s'.registry.nextType
  log : s.log = s'.log

theorem Agrees.of_unnamed {s s' : State} (h : unnamed s = unnamed s') : s.Agrees s' := by
  obtain ⟨hregistry, hlog⟩ := State.mk.inj h
  refine ⟨fun v => ?_, ?_, (congrArg Registry.nextGen hregistry :),
    (congrArg Registry.nextType hregistry :), hlog⟩
  · rw [← unnaming.binding?, hregistry]
    exact unnaming.binding? _ v
  · rw [← unnaming.varCount, hregistry]
    exact unnaming.varCount _

/-- The state with names for all open variables. -/
def named (s : State) : State := { s with registry := s.registry.assignNames }

@[simp] theorem unnamed_named (s : State) : unnamed s.named = unnamed s := by
  exact congrArg (State.mk · s.log) s.registry.unnamed_assignNames

end State

/-- Without names, declarations are checked alike. -/
theorem checkDecls_unnamed (ds : List Decl) (report : Report) (s : State) :
    checkDecls ds report (unnamed s) =
      ((checkDecls ds report s).1, unnamed (checkDecls ds report s).2) := by
  have hds : ds.map (·.mapSpan id) = ds :=
    (map_congr_left fun d _ => d.mapSpan_eq_self fun _ _ => rfl).trans (map_id _)
  have hreport : ∀ report : Report, report.mapSpan id = report := fun report => by
    simp [Report.mapSpan, Located.mapSpan]
  have hmimics := checkDecls_mimics unnaming ds report s
  rwa [show unnaming.span = id from rfl, hds, hreport, hreport] at hmimics

/-- Names given beforehand change nothing about how declarations are checked. -/
theorem checkDecls_named (ds : List Decl) (report : Report) (s : State) :
    (checkDecls ds report s.named).1 = (checkDecls ds report s).1 ∧
      unnamed (checkDecls ds report s.named).2 = unnamed (checkDecls ds report s).2 := by
  have hnamed := checkDecls_unnamed ds report s.named
  rw [State.unnamed_named, checkDecls_unnamed] at hnamed
  exact Prod.mk.inj hnamed.symm

theorem checkProgram_eq (env : Env) (ds : List Decl) (s : State) :
    checkProgram env ds s = ((checkDecls ds { env } s).1, (checkDecls ds { env } s).2.named) := rfl

/-- The report on declarations that are checked after those of another report. -/
def Report.then (first second : Report) : Report :=
  ⟨second.env, first.declared ++ second.declared, first.errors ++ second.errors⟩

theorem checkDecls_report (ds : List Decl) (report : Report) (s : State) :
    checkDecls ds report s =
      (report.then (checkDecls ds { env := report.env } s).1,
        (checkDecls ds { env := report.env } s).2) := by
  induction ds generalizing report s with
  | nil => simp [checkDecls, Report.then]
  | cons d ds ih =>
    let start : Report := { env := report.env }
    cases hs : (d.check report.env).run s with
    | ok out s' =>
      obtain ⟨env', declared⟩ := out
      have hstart : (d.check start.env).run s = .ok (env', declared) s' := hs
      rw [checkDecls_ok hs, checkDecls_ok hstart, ih, ih ⟨env', [] ++ _, []⟩]
      simp [Report.then]
    | error e s' =>
      have hstart : (d.check start.env).run s = .error e s' := hs
      rw [checkDecls_error hs, checkDecls_error hstart, ih, ih ⟨report.env, [], [] ++ [e]⟩]
      simp [Report.then]

theorem checkDecls_append (ds₁ ds₂ : List Decl) (report : Report) (s : State) :
    checkDecls (ds₁ ++ ds₂) report s =
      checkDecls ds₂ (checkDecls ds₁ report s).1 (checkDecls ds₁ report s).2 := by
  induction ds₁ generalizing report s with
  | nil => rfl
  | cons d ds ih =>
    cases hs : (d.check report.env).run s with
    | ok out s' =>
      rw [cons_append, checkDecls_ok hs, checkDecls_ok hs, ih]
    | error e s' => rw [cons_append, checkDecls_error hs, checkDecls_error hs, ih]

/-- Checking declarations in two parts, the second one in the environment and the state
that the first one left, is the same as checking them at once: the reports follow each
other, and the states agree. The names that are given after the first part make no
difference to any report that follows. -/
theorem checkProgram_append (env : Env) (ds₁ ds₂ : List Decl) (s : State) :
    (∀ env' ds (s' : State),
      (checkProgram env' ds s'.named).1 = (checkProgram env' ds s').1 ∧
        (checkProgram env' ds s'.named).2.Agrees (checkProgram env' ds s').2) ∧
    (checkProgram env (ds₁ ++ ds₂) s).1 =
      (checkProgram env ds₁ s).1.then
        (checkProgram (checkProgram env ds₁ s).1.env ds₂ (checkProgram env ds₁ s).2).1 ∧
    (checkProgram env (ds₁ ++ ds₂) s).2.Agrees
      (checkProgram (checkProgram env ds₁ s).1.env ds₂ (checkProgram env ds₁ s).2).2 := by
  have hnamed : ∀ env' ds (s' : State),
      (checkProgram env' ds s'.named).1 = (checkProgram env' ds s').1 ∧
        unnamed (checkProgram env' ds s'.named).2 = unnamed (checkProgram env' ds s').2 := by
    intro env' ds s'
    obtain ⟨hreport, hstate⟩ := checkDecls_named ds { env := env' } s'
    exact ⟨hreport, by rw [checkProgram_eq, checkProgram_eq, State.unnamed_named,
      State.unnamed_named, hstate]⟩
  have hwhole : checkProgram env (ds₁ ++ ds₂) s =
      ((checkProgram env ds₁ s).1.then
        (checkProgram (checkProgram env ds₁ s).1.env ds₂ (checkDecls ds₁ { env } s).2).1,
        (checkProgram (checkProgram env ds₁ s).1.env ds₂ (checkDecls ds₁ { env } s).2).2) := by
    rw [checkProgram_eq, checkDecls_append, checkDecls_report]
    rfl
  refine ⟨fun env' ds s' => ⟨(hnamed env' ds s').1, .of_unnamed (hnamed env' ds s').2⟩, ?_, ?_⟩
  · rw [hwhole]
    exact congrArg (Report.then _) (hnamed _ ds₂ _).1.symm
  · rw [hwhole]
    exact .of_unnamed (hnamed _ ds₂ _).2.symm

/-- The names themselves are counted differently: a variable that is open after the
first part gets one there, though the second part binds it. -/
theorem checkProgram_append_names :
    let env := Env.empty.addValue "y" (.mono (.flex 0))
    let s : State := ⟨({} : Registry).addVar, #[]⟩
    let ds : List Decl := [.expr {} (.ifThenElse {} (.var {} "y") (.lit {} .int) (.lit {} .int))]
    (checkProgram env ([] ++ ds) s).2.registry.nextName = 0 ∧
      (checkProgram (checkProgram env [] s).1.env ds
        (checkProgram env [] s).2).2.registry.nextName = 1 := by
  decide +kernel

end RowTyping
