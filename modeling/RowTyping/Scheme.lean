import RowTyping.Env
import RowTyping.Ty.Subst

/-!
# Generalization and instantiation

Generalizing a type replaces its open variables by new generalized ones, row
tails first; variables that the surroundings know stay. Instantiating a scheme
goes the other way. Rows that a type declaration left open carry generalized
tails that no scheme quantifies; every use opens them anew.
-/

namespace RowTyping

open Check

variable {ε : Type}

/-- Pairs every member of a list with a newly issued identity. -/
def freshFor {α β : Type} (fresh : Check ε α) : List β → Check ε (List (β × α))
  | [] => return []
  | b :: bs => do
      let a ← fresh
      return (b, a) :: (← freshFor fresh bs)

/-- Whether a variable is open and not among the `fixed` ones. -/
def TyVar.isFree (fixed : List Nat) : TyVar → Bool
  | .flex v => !fixed.contains v
  | .gen _ => false

def TyVar.isGen : TyVar → Bool
  | .flex _ => false
  | .gen _ => true

/-- The substitution that puts generalized variables in the place of others. -/
def Subst.ofGens (gens : List (TyVar × Nat)) : Subst :=
  .ofList (gens.map fun e => (e.1, .gen e.2))

/-- Quantifies a type over its open variables except the `fixed` ones. -/
def generalizeOver (fixed : List Nat) (t : Ty) : Check ε Scheme := do
  let t := (← registry).resolveDeep t
  let rows ← freshFor freshGen (t.openTails.filter (·.isFree fixed))
  let t := (Subst.ofGens rows).apply t
  let known := (← registry).resolveDeep t
  let rest ← freshFor freshGen (known.vars.filter (·.isFree fixed))
  let body := (Subst.ofGens rest).apply t
  let vars := rows.map (·.2) ++ rest.map (·.2)
  emit (.generalized body vars.length)
  return ⟨vars, body⟩

/-- Quantifies a type over all its open variables. -/
def generalize (t : Ty) : Check ε Scheme := generalizeOver [] t

/-- Quantifies a type over the open variables that the environment does not
know. -/
def generalizeIn (env : Env) (t : Ty) : Check ε Scheme := do
  generalizeOver (env.freeVars (← registry)) t

/-- The body of a scheme with new variables for its open rows and then for its
other quantifiers. -/
def instantiate (s : Scheme) : Check ε Ty := do
  let rows ← freshFor freshVar (s.body.openTails.filter (·.isGen))
  let others := (distinct (s.vars.map TyVar.gen)).filter fun x => !(rows.map (·.1)).contains x
  let rest ← freshFor freshVar others
  return (Subst.ofList (rows ++ rest)).apply s.body

/-- The body of a type name's scheme with arguments in the place of its
quantifiers. -/
def applyArgs (name : String) (s : Scheme) (args : List Ty) : Except TypeError Ty :=
  if s.vars.length = args.length then
    .ok ((Subst.ofList ((s.vars.map TyVar.gen).zip args)).apply s.body)
  else .error (.typeArity name s.vars.length args.length)

/-- A use of a type name in an annotation: its open rows get new variables. -/
def instantiateWith (name : String) (s : Scheme) (args : List Ty) : Check TypeError Ty := do
  let t ← fromExcept (applyArgs name s args)
  let rows ← freshFor freshVar (t.openTails.filter (·.isGen))
  return (Subst.ofList rows).apply t

/-- A use of a type name in a type declaration: its open rows get new
generalized tails. -/
def instantiateDeclared (name : String) (s : Scheme) (args : List Ty) :
    Check TypeError Ty := do
  let t ← fromExcept (applyArgs name s args)
  let rows ← freshFor freshGen (t.openTails.filter (·.isGen))
  return (Subst.ofGens rows).apply t

end RowTyping
