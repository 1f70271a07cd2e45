import RowTyping.Ty.Vars

/-!
# The registry

The registry issues every identity of a checking run and remembers what has
been learnt about its variables. A `flex` variable is the index of a cell that
is bound at most once; generalized variables and nominal types only need a
counter.

The counters are numbers without a bound. An identity is handed out as a word of
32 bits, so what is said of identities holds of the words as long as the registry
is in range.
-/

namespace RowTyping

/-- What is known about one variable: the type it is bound to, and the name
under which it is shown to the reader. -/
structure Cell where
  binding : Option Ty := none
  name : Option String := none

structure Registry where
  cells : Array Cell := #[]
  nextGen : Nat := 0
  nextType : Nat := 0
  nextName : Nat := 0

namespace Registry

/-- Number of variables issued so far; also the next one to be issued. -/
def varCount (r : Registry) : Nat := r.cells.size

/-- The type a variable is directly bound to. -/
def binding? (r : Registry) (v : Nat) : Option Ty := r.cells[v]?.bind (·.binding)

/-- The name a variable is shown by. -/
def name? (r : Registry) (v : Nat) : Option String := r.cells[v]?.bind (·.name)

def addVar (r : Registry) : Registry := { r with cells := r.cells.push {} }

def addGen (r : Registry) : Registry := { r with nextGen := r.nextGen + 1 }

def addType (r : Registry) : Registry := { r with nextType := r.nextType + 1 }

/-- Writes a variable's binding. Callers see to it that there is none yet. -/
def setBinding (r : Registry) (v : Nat) (t : Ty) : Registry :=
  { r with cells := r.cells.modify v fun c => { c with binding := some t } }

/-- The word of 32 bits for the `n`-th identity of a sort. -/
def word (n : Nat) : Nat := n % UInt32.size

/-- No counter has run over the words of 32 bits. -/
structure InRange (r : Registry) : Prop where
  vars : r.varCount ≤ UInt32.size
  gens : r.nextGen < UInt32.size
  types : r.nextType < UInt32.size

/-! ## Small facts -/

theorem word_of_lt {n : Nat} (h : n < UInt32.size) : word n = n := Nat.mod_eq_of_lt h

@[simp] theorem varCount_addVar (r : Registry) : r.addVar.varCount = r.varCount + 1 := by
  simp [addVar, varCount]

@[simp] theorem varCount_setBinding (r : Registry) (v : Nat) (t : Ty) :
    (r.setBinding v t).varCount = r.varCount := by
  simp [setBinding, varCount]

@[simp] theorem binding?_addVar (r : Registry) (v : Nat) :
    r.addVar.binding? v = r.binding? v := by
  simp only [addVar, binding?, Array.getElem?_push]
  split
  · next h => subst h; simp
  · rfl

theorem binding?_setBinding (r : Registry) (v w : Nat) (t : Ty) :
    (r.setBinding v t).binding? w =
      if v = w ∧ v < r.varCount then some t else r.binding? w := by
  simp only [setBinding, binding?, varCount, Array.getElem?_modify]
  by_cases h : v = w
  · subst h
    by_cases hv : v < r.cells.size <;> simp [hv]
  · simp [h]

theorem lt_varCount_of_binding? {r : Registry} {v : Nat} {t : Ty}
    (h : r.binding? v = some t) : v < r.varCount := by
  obtain ⟨c, hc, -⟩ := Option.bind_eq_some_iff.mp h
  exact (Array.getElem?_eq_some_iff.mp hc).1

end Registry

end RowTyping
