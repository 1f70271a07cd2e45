import RowTyping.Env

/-!
# The standard environment

Base types, options and lists, arithmetic, comparison and pairs. The
identities of its nominal types and generalized variables are issued like any
others.
-/

namespace RowTyping

open Check

/-- The type of an operator on two operands of one type. -/
def Ty.binary (t result : Ty) : Ty := .arrows [t, t] result

namespace Env

variable {ε : Type}

/-- Binds a constructor of a type with one parameter. -/
def addConstructor (env : Env) (g : Nat) (name : String) (owner : Ty) (arg : Option Ty) : Env :=
  env.addValue name ⟨[g], .ctor name owner arg⟩

/-- Binds several names to one scheme. -/
def addValues (env : Env) (names : List String) (s : Scheme) : Env :=
  names.foldl (fun env name => env.addValue name s) env

/-- The environment that only names the base types. -/
def baseTypes : Env :=
  [("int", Base.int), ("float", .float), ("bool", .bool), ("string", .string),
    ("char", .char), ("unit", .unit)].foldl
    (fun env b => env.addType b.1 (.mono (.base b.2))) .empty

/-- The environment that programs start from. -/
def standard : Check ε Env := do
  let a ← freshGen
  let option := Ty.variant (← freshType) [("a", .gen a)]
  let env := baseTypes.addType "option" ⟨[a], option⟩
  let env := env.addConstructor a "None" option none
  let env := env.addConstructor a "Some" option (some (.gen a))
  let b ← freshGen
  let list := Ty.variant (← freshType) [("a", .gen b)]
  let env := env.addType "list" ⟨[b], list⟩
  let env := env.addConstructor b "Nil" list none
  let env := env.addConstructor b "Cons" list (some (.tuple [.gen b, list]))
  let env := env.addValues ["+", "-", "*", "/"] (.mono (Ty.binary .int .int))
  let env := env.addValues ["+."] (.mono (Ty.binary .float .float))
  let env := env.addValues ["^"] (.mono (Ty.binary .string .string))
  let c ← freshGen
  let env := env.addValue "=" ⟨[c], Ty.binary (.gen c) .bool⟩
  let d ← freshGen
  let env := env.addValue "<" ⟨[d], Ty.binary (.gen d) .bool⟩
  let env := env.addValue "not" (.mono (.arrow .bool .bool))
  let x ← freshGen
  let y ← freshGen
  let pair := Ty.tuple [.gen x, .gen y]
  let env := env.addValue "fst" ⟨[x, y], .arrow pair (.gen x)⟩
  return env.addValue "snd" ⟨[x, y], .arrow pair (.gen y)⟩

end Env

end RowTyping
