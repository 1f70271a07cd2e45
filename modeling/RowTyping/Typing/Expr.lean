import RowTyping.Typing.Pattern
import RowTyping.Typing.TypeExpr

/-!
# Inference of expressions

Names are instantiated at every use, the parts of an expression are tied
together by unification, and a `let` quantifies its value over the variables
that its surroundings do not know.
-/

namespace RowTyping

open Check

/-- The type an annotation stands for. -/
def TypeExpr.annotated (env : Env) (span : Span) (e : TypeExpr) : Check Located Ty :=
  located span (e.denote env .fresh)

/-- The type of a parameter: as annotated, or any. -/
def paramType (env : Env) (span : Span) : Option TypeExpr → Check Located Ty
  | some e => e.annotated env span
  | none => freshVar

/-- The scheme of a bound name from the inference of its value. A recursive
value sees its own name without quantifiers. -/
def inferBinding (env : Env) (span : Span) (name : String) (isRec : Bool)
    (ann : Option TypeExpr) (value : Env → Check Located Ty) : Check Located Scheme := do
  let t ←
    if isRec then do
      let self ← freshVar
      let t ← value (env.addValue name (.mono self))
      unifyAt span t self
      pure t
    else value env
  match ann with
  | some e => do unifyAt span t (← e.annotated env span)
  | none => pure ()
  generalizeIn env t

/-- The scheme that an applied name stands for. -/
def Env.applied? (env : Env) : Expr → Option Scheme
  | .var _ name => env.value? name
  | .construct _ name none => env.value? name
  | _ => none

/-- A use of the constructor that an applied expression names, if it names
one. -/
def Env.callee (env : Env) (func : Expr) : Check Located (Option Ctor) :=
  match (env.applied? func).filter fun s => s.body.ctor?.isSome with
  | some s => do return (← instantiate s).ctor?
  | none => return none

/-- The type of a member of a module. -/
def inferPath (env : Env) (span : Span) (owner name : String) : Check Located Ty := do
  let t ← instantiate (← env.find span owner)
  match (← registry).resolve t with
  | .module _ members => do
      let t ← instantiate (← members.find span name)
      return t.asValue
  | _ => throw ⟨.notModule owner, span⟩

namespace Expr

mutual

/-- The type of an expression, as far as it is known at its head. -/
def inferHead (env : Env) : Expr → Check Located Ty
  | .lit _ b => return .base b
  | .var span name => do
      let t ← instantiate (← env.find span name)
      return t.asValue
  | .path span owner name => inferPath env span owner name
  | .lam span param ann body => do
      let t ← paramType env span ann
      let result ← inferHead (env.addValue param (.mono t)) body
      return .arrow t result
  | .app span func arg => do
      match ← env.callee func with
      | some c => c.apply span (some (inferHead env arg))
      | none => do
          let funcT ← inferHead env func
          let argT ← inferHead env arg
          let result ← freshVar
          unifyAt span (.arrow argT result) funcT
          return result
  | .letIn span name isRec ann value body => do
      let s ← inferBinding env span name isRec ann fun env => inferHead env value
      inferHead (env.addValue name s) body
  | .ifThenElse span cond thenE elseE => do
      let condT ← inferHead env cond
      unifyAt cond.span condT .bool
      let thenT ← inferHead env thenE
      let elseT ← inferHead env elseE
      unifyAt span elseT thenT
      return thenT
  | .tuple _ items => do return .tuple (← inferList env items)
  | .record span fields => do return .record (← inferFields env span fields []) .emptyRow
  | .field span whole label => do
      let recordT ← inferHead env whole
      let t ← freshVar
      let tail ← freshVar
      unifyAt span recordT (.record [(label, t)] tail)
      return t
  | .update span whole changes => do
      let recordT ← inferHead env whole
      let fields ← inferFields env span changes []
      let tail ← freshVar
      unifyAt span recordT (.record fields tail)
      return recordT
  | .construct span name none => do
      let c ← env.constructor span name
      c.apply span none
  | .construct span name (some arg) => do
      let c ← env.constructor span name
      c.apply span (some (inferHead env arg))
  | .cases span scrutinee arms => do
      let t ← inferHead env scrutinee
      let result ← freshVar
      inferArms env span t result arms
      return result
  | .annotate span inner ann => do
      let t ← inferHead env inner
      let annotated ← ann.annotated env span
      unifyAt span t annotated
      return annotated

def inferList (env : Env) : List Expr → Check Located (List Ty)
  | [] => return []
  | e :: es => do
      let t ← inferHead env e
      return t :: (← inferList env es)

/-- Infers fields on top of those inferred before. A label that is there
already is an error, found after its value is inferred. -/
def inferFields (env : Env) (span : Span) :
    List (String × Expr) → Table Ty → Check Located (Table Ty)
  | [], fields => return fields
  | (l, e) :: es, fields => do
      let t ← inferHead env e
      if (fields.lookup l).isSome then throw ⟨.duplicateField l, span⟩
      else inferFields env span es (Table.insert l t fields)

/-- Every arm matches the scrutinee and has the common result type. -/
def inferArms (env : Env) (span : Span) (scrutinee result : Ty) :
    List (Pattern × Expr) → Check Located Unit
  | [] => pure ()
  | (p, body) :: arms => do
      let bindings ← p.check env span scrutinee
      let t ← inferHead (env.addMonos bindings) body
      unifyAt body.span t result
      inferArms env span scrutinee result arms

end

/-- The type of an expression. -/
def infer (env : Env) (e : Expr) : Check Located Ty := do
  let t ← inferHead env e
  return (← registry).resolveDeep t

end Expr

end RowTyping
