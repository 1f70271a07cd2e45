import RowTyping.Typing.Expr

/-!
# Declarations

A declaration extends an environment and tells what it introduced. A failing
declaration introduces nothing.
-/

namespace RowTyping

open Check

/-- The names a declaration introduces, in order. -/
structure Declared where
  values : List (String × Scheme) := []
  types : List (String × Scheme) := []

/-- The name under which the value of an expression is listed. It is no name
of the language. -/
def expressionName : String := "-"

/-- The argument type of a variant's case. -/
def caseArg (env : Env) (span : Span) (scope : Scope) :
    Option TypeExpr → Check Located (Option Ty)
  | none => return none
  | some e => do return some (← located span (e.denote env scope))

/-- The constructors of a variant. Each case is read where the type and the
cases before it are known. -/
def declareCases (span : Span) (scope : Scope) (gens : List Nat) (owner : Ty) :
    List (String × Option TypeExpr) → Env → Check Located (Env × List (String × Scheme))
  | [], env => return (env, [])
  | (name, arg) :: cases, env => do
      let arg ← caseArg env span scope arg
      let s : Scheme := ⟨gens, .ctor name owner arg⟩
      let (env, others) ← declareCases span scope gens owner cases (env.addValue name s)
      return (env, (name, s) :: others)

/-- A type declaration. A variant knows itself, a synonym does not. -/
def declareType (env : Env) (span : Span) (name : String) (params : List String)
    (definition : TypeDef) : Check Located (Env × Declared) := do
  let id ← freshType
  let numbered ← freshFor freshGen params
  let gens := numbered.map (·.2)
  let args := numbered.map fun e => (e.1, Ty.gen e.2)
  let scope := Scope.ofParams args
  let (env, declared) ←
    match definition with
    | .variant cases => do
        let owner := Ty.variant id args
        let s : Scheme := ⟨gens, owner⟩
        let (env, values) ← declareCases span scope gens owner cases (env.addType name s)
        pure (env, Declared.mk values [(name, s)])
    | .synonym target => do
        let t ← located span (target.denote env scope)
        let s : Scheme := ⟨gens, .synonymOf id args t⟩
        pure (env.addType name s, Declared.mk [] [(name, s)])
    | .abstract => do
        let s : Scheme := ⟨gens, .abstract id args⟩
        pure (env.addType name s, Declared.mk [] [(name, s)])
  emit (.typeDeclared name declared.values.length)
  return (env, declared)

/-- The members of a module with what a declaration adds to them. -/
def Declared.exportTo (declared : Declared) (members : Env) : Env :=
  let values := declared.values.filter (·.1 ≠ expressionName)
  let members := values.foldl (fun m v => m.addValue v.1 v.2) members
  declared.types.foldl (fun m t => m.addType t.1 t.2) members

namespace Decl

mutual

/-- The environment after a declaration, and what it introduced. -/
def check (env : Env) : Decl → Check Located (Env × Declared)
  | .value span name isRec ann body => do
      let s ← inferBinding env span name isRec ann fun env => body.inferHead env
      return (env.addValue name s, { values := [(name, s)] })
  | .type span name params definition => declareType env span name params definition
  | .module _ name decls => do
      let members ← checkMembers env .empty decls
      let s := Scheme.mono (.module name members)
      return (env.addValue name s, { values := [(name, s)] })
  | .expr _ body => do
      let t ← body.infer env
      let s ← generalizeIn env t
      return (env, { values := [(expressionName, s)] })

/-- The members of a module: each declaration sees those before it, the module
keeps what they introduce. -/
def checkMembers (env members : Env) : List Decl → Check Located Env
  | [] => return members
  | d :: ds => do
      let (env, declared) ← check env d
      checkMembers env (declared.exportTo members) ds

end

end Decl

end RowTyping
