import RowTyping.Registry.Names
import RowTyping.Typing.Decl

/-!
# Programs

The declarations of a program are checked in order. One that fails is reported
and left out; the next sees the environment without it. At the end the
variables that stayed open get their names.
-/

namespace RowTyping

/-- The outcome of checking a program. -/
structure Report where
  env : Env
  /-- Values that were introduced, in order. -/
  declared : List (String × Scheme) := []
  errors : List Located := []

namespace Report

def isOk (r : Report) : Bool := r.errors.isEmpty

end Report

def State.emit (s : State) (e : Event) : State := { s with log := s.log.push e }

/-- Checks declarations on top of a report. -/
def checkDecls : List Decl → Report → State → Report × State
  | [], report, s => (report, s)
  | d :: ds, report, s =>
      match (d.check report.env).run s with
      | .ok (env, declared) s =>
          let s := declared.values.foldl (fun s v => s.emit (.valueDeclared v.1 v.2.body)) s
          checkDecls ds { report with env, declared := report.declared ++ declared.values } s
      | .error e s =>
          checkDecls ds { report with errors := report.errors ++ [e] } (s.emit (.rejected e.error))

/-- Checks a program. -/
def checkProgram (env : Env) (decls : List Decl) (s : State) : Report × State :=
  let (report, s) := checkDecls decls { env } s
  (report, { s with registry := s.registry.assignNames })

end RowTyping
