import RowTyping.Ty.Basic

/-!
# Variables of a type

The variables of a term in the order in which they are first met, its open row
tails, and its height. All three read the term as written: bindings are the
registry's business, and the members of a module type are closed and not
entered.
-/

namespace RowTyping

/-- The members of a list, each at its first place. -/
def distinct {α : Type} [DecidableEq α] : List α → List α
  | [] => []
  | a :: as => a :: (distinct as).filter (· ≠ a)

@[simp] theorem mem_distinct {α : Type} [DecidableEq α] {a : α} {as : List α} :
    a ∈ distinct as ↔ a ∈ as := by
  induction as with
  | nil => simp [distinct]
  | cons b bs ih =>
    simp only [distinct, List.mem_cons, List.mem_filter, ih, decide_eq_true_eq]
    by_cases h : a = b <;> simp [h]

theorem nodup_distinct {α : Type} [DecidableEq α] (as : List α) : (distinct as).Nodup := by
  induction as with
  | nil => simp [distinct]
  | cons b bs ih =>
    rw [distinct, List.nodup_cons]
    exact ⟨by simp, ih.filter _⟩

namespace Ty

mutual

/-- Every variable of the term, from left to right, with repetition. -/
def occurrences : Ty → List TyVar
  | .var x => [x]
  | .con _ args => occurrencesList args
  | .record fields tail => occurrencesFields fields ++ tail.occurrences
  | .synonym _ _ params target => occurrencesList params ++ target.occurrences
  | .module _ _ => []

def occurrencesList : List Ty → List TyVar
  | [] => []
  | t :: ts => t.occurrences ++ occurrencesList ts

def occurrencesFields : List (String × Ty) → List TyVar
  | [] => []
  | (_, t) :: fs => t.occurrences ++ occurrencesFields fs

end

/-- The variables of the term in the order of their first occurrence. -/
def vars (t : Ty) : List TyVar := distinct t.occurrences

/-- The variable that the term is, if it is one. -/
def varSelf : Ty → List TyVar
  | .var x => [x]
  | _ => []

mutual

/-- Every variable that ends a record of the term, from left to right, with
repetition. A synonym shows the tails of its target only. -/
def tailOccurrences : Ty → List TyVar
  | .var _ => []
  | .con _ args => tailOccurrencesList args
  | .record fields tail =>
      tailOccurrencesFields fields ++ tail.varSelf ++ tail.tailOccurrences
  | .synonym _ _ _ target => target.tailOccurrences
  | .module _ _ => []

def tailOccurrencesList : List Ty → List TyVar
  | [] => []
  | t :: ts => t.tailOccurrences ++ tailOccurrencesList ts

def tailOccurrencesFields : List (String × Ty) → List TyVar
  | [] => []
  | (_, t) :: fs => t.tailOccurrences ++ tailOccurrencesFields fs

end

/-- The open row tails of the term in the order of their first occurrence. -/
def openTails (t : Ty) : List TyVar := distinct t.tailOccurrences

mutual

/-- Length of the longest path from the root of the term to a leaf. -/
def height : Ty → Nat
  | .var _ => 0
  | .con _ args => heightList args + 1
  | .record fields tail => max (heightFields fields) tail.height + 1
  | .synonym _ _ params target => max (heightList params) target.height + 1
  | .module _ _ => 0

def heightList : List Ty → Nat
  | [] => 0
  | t :: ts => max t.height (heightList ts)

def heightFields : List (String × Ty) → Nat
  | [] => 0
  | (_, t) :: fs => max t.height (heightFields fs)

end

/-! ## The list forms as list operations -/

@[simp] theorem occurrencesList_eq (ts : List Ty) :
    occurrencesList ts = ts.flatMap occurrences := by
  induction ts with
  | nil => rfl
  | cons t ts ih => simp [occurrencesList, ih]

@[simp] theorem occurrencesFields_eq (fs : List (String × Ty)) :
    occurrencesFields fs = fs.flatMap (·.2.occurrences) := by
  induction fs with
  | nil => rfl
  | cons f fs ih => simp [occurrencesFields, ih]

@[simp] theorem tailOccurrencesList_eq (ts : List Ty) :
    tailOccurrencesList ts = ts.flatMap tailOccurrences := by
  induction ts with
  | nil => rfl
  | cons t ts ih => simp [tailOccurrencesList, ih]

@[simp] theorem tailOccurrencesFields_eq (fs : List (String × Ty)) :
    tailOccurrencesFields fs = fs.flatMap (·.2.tailOccurrences) := by
  induction fs with
  | nil => rfl
  | cons f fs ih => simp [tailOccurrencesFields, ih]

theorem height_le_heightList {t : Ty} {ts : List Ty} (h : t ∈ ts) :
    t.height ≤ heightList ts := by
  induction ts with
  | nil => simp at h
  | cons u us ih =>
    rw [heightList]
    rcases List.mem_cons.mp h with rfl | h
    · omega
    · have := ih h
      omega

theorem height_le_heightFields {e : String × Ty} {fs : List (String × Ty)} (h : e ∈ fs) :
    e.2.height ≤ heightFields fs := by
  induction fs with
  | nil => simp at h
  | cons f fs ih =>
    rw [heightFields]
    rcases List.mem_cons.mp h with rfl | h
    · omega
    · have := ih h
      omega

end Ty

end RowTyping
