import RowTyping.Ty.Vars

/-!
# Substitution

A substitution replaces variables where they literally stand, all at once, and
does not look at what it put in. Quantified variables of a scheme are bound
there, so a substitution passes them by.
-/

namespace RowTyping

namespace Ty

mutual

/-- The term with every variable replaced by its image. -/
def subst (f : TyVar → Ty) : Ty → Ty
  | .var x => f x
  | .con c args => .con c (substList f args)
  | .record fields tail => .record (substFields f fields) (subst f tail)
  | .synonym id labels params target =>
      .synonym id labels (substList f params) (subst f target)
  | .module name members => .module name members

def substList (f : TyVar → Ty) : List Ty → List Ty
  | [] => []
  | t :: ts => subst f t :: substList f ts

def substFields (f : TyVar → Ty) : List (String × Ty) → List (String × Ty)
  | [] => []
  | (l, t) :: fs => (l, subst f t) :: substFields f fs

end

@[simp] theorem substList_eq (f : TyVar → Ty) (ts : List Ty) :
    substList f ts = ts.map (subst f) := by
  induction ts with
  | nil => rfl
  | cons t ts ih => simp [substList, ih]

@[simp] theorem substFields_eq (f : TyVar → Ty) (fs : List (String × Ty)) :
    substFields f fs = fs.map (fun e => (e.1, subst f e.2)) := by
  induction fs with
  | nil => rfl
  | cons e fs ih => simp [substFields, ih]

end Ty

/-- A finite map from variables to types; of two entries for one variable the
first counts. -/
structure Subst where
  entries : List (TyVar × Ty)

namespace Subst

def empty : Subst := ⟨[]⟩

/-- The substitution of a list of entries; of two entries for one variable
the later wins. -/
def ofList (entries : List (TyVar × Ty)) : Subst := ⟨entries.reverse⟩

def single (x : TyVar) (t : Ty) : Subst := ⟨[(x, t)]⟩

def insert (s : Subst) (x : TyVar) (t : Ty) : Subst := ⟨(x, t) :: s.entries⟩

def get? (s : Subst) (x : TyVar) : Option Ty := s.entries.lookup x

/-- What the substitution puts in the place of a variable: the variable
itself when there is no entry. -/
def image (s : Subst) (x : TyVar) : Ty := (s.get? x).getD (.var x)

def apply (s : Subst) (t : Ty) : Ty := t.subst s.image

/-- The substitution without its entries for the given generalized
variables. -/
def without (s : Subst) (gs : List Nat) : Subst :=
  ⟨s.entries.filter fun e => !(gs.any fun g => e.1 = .gen g)⟩

/-- Substitution in a scheme: its quantified variables stay. -/
def applyScheme (s : Subst) (σ : Scheme) : Scheme :=
  ⟨σ.vars, (s.without σ.vars).apply σ.body⟩

end Subst

/-- The type with one variable replaced; a `source` that is no variable is
nowhere replaced. -/
def Ty.replace (t source target : Ty) : Ty :=
  match source with
  | .var x => (Subst.single x target).apply t
  | _ => t

end RowTyping
