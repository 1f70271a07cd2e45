import RowTyping.Ty.Basic

/-!
# Structural equality

Types, schemes and environments are compared member by member, module members
included. Since tables are canonical, environments with the same entries are
equal.
-/

namespace RowTyping

mutual

def Ty.beq : Ty → Ty → Bool
  | .var x, .var y => x == y
  | .con c as, .con d bs => c == d && Ty.beqList as bs
  | .record fs t, .record gs u => Ty.beqFields fs gs && t.beq u
  | .synonym i ls ps t, .synonym j ms qs u => i == j && ls == ms && Ty.beqList ps qs && t.beq u
  | .module n e, .module m f => n == m && e.beq f
  | _, _ => false
termination_by structural x => x

def Ty.beqList : List Ty → List Ty → Bool
  | [], [] => true
  | t :: ts, u :: us => t.beq u && Ty.beqList ts us
  | _, _ => false
termination_by structural x => x

def Ty.beqFields : List (String × Ty) → List (String × Ty) → Bool
  | [], [] => true
  | (l, t) :: fs, (m, u) :: gs => l == m && t.beq u && Ty.beqFields fs gs
  | _, _ => false
termination_by structural x => x

def Scheme.beq : Scheme → Scheme → Bool
  | ⟨vs, t⟩, ⟨ws, u⟩ => vs == ws && t.beq u
termination_by structural x => x

def Scheme.beqTable : List (String × Scheme) → List (String × Scheme) → Bool
  | [], [] => true
  | (l, s) :: fs, (m, r) :: gs => l == m && s.beq r && Scheme.beqTable fs gs
  | _, _ => false
termination_by structural x => x

def Env.beq : Env → Env → Bool
  | ⟨vs, ts⟩, ⟨ws, us⟩ => Scheme.beqTable vs ws && Scheme.beqTable ts us
termination_by structural x => x

end

mutual

theorem Ty.beq_iff : ∀ t u : Ty, t.beq u = true ↔ t = u
  | .var x, u => by cases u <;> simp [Ty.beq]
  | .con c as, u => by cases u <;> simp [Ty.beq, Ty.beqList_iff as]
  | .record fs t, u => by cases u <;> simp [Ty.beq, Ty.beqFields_iff fs, Ty.beq_iff t]
  | .synonym i ls ps t, u => by
      cases u <;> simp [Ty.beq, Ty.beqList_iff ps, Ty.beq_iff t, and_assoc]
  | .module n e, u => by cases u <;> simp [Ty.beq, Env.beq_iff e]

theorem Ty.beqList_iff : ∀ ts us : List Ty, Ty.beqList ts us = true ↔ ts = us
  | [], us => by cases us <;> simp [Ty.beqList]
  | t :: ts, us => by cases us <;> simp [Ty.beqList, Ty.beq_iff t, Ty.beqList_iff ts]

theorem Ty.beqFields_iff : ∀ fs gs : List (String × Ty), Ty.beqFields fs gs = true ↔ fs = gs
  | [], gs => by cases gs <;> simp [Ty.beqFields]
  | (_, _) :: _, [] => by simp [Ty.beqFields]
  | (l, t) :: fs, (m, u) :: gs => by
      simp [Ty.beqFields, Ty.beq_iff t, Ty.beqFields_iff fs]

theorem Scheme.beq_iff : ∀ s r : Scheme, s.beq r = true ↔ s = r
  | ⟨vs, t⟩, ⟨ws, u⟩ => by simp [Scheme.beq, Ty.beq_iff t]

theorem Scheme.beqTable_iff :
    ∀ fs gs : List (String × Scheme), Scheme.beqTable fs gs = true ↔ fs = gs
  | [], gs => by cases gs <;> simp [Scheme.beqTable]
  | (_, _) :: _, [] => by simp [Scheme.beqTable]
  | (l, s) :: fs, (m, r) :: gs => by
      simp [Scheme.beqTable, Scheme.beq_iff s, Scheme.beqTable_iff fs]

theorem Env.beq_iff : ∀ e f : Env, e.beq f = true ↔ e = f
  | ⟨vs, ts⟩, ⟨ws, us⟩ => by simp [Env.beq, Scheme.beqTable_iff vs, Scheme.beqTable_iff ts]

end

instance : DecidableEq Ty := fun t u => decidable_of_iff _ (Ty.beq_iff t u)
instance : DecidableEq Scheme := fun s r => decidable_of_iff _ (Scheme.beq_iff s r)
instance : DecidableEq Env := fun e f => decidable_of_iff _ (Env.beq_iff e f)

end RowTyping
