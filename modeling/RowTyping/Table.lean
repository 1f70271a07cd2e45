/-!
# Name-sorted tables

A table is an association list whose keys increase strictly. `Table.insert`
keeps it so, which makes the list a canonical form: two tables with the same
entries are the same list. Record fields, environments and scopes are tables.
-/

namespace RowTyping

/-- Entries by name, in increasing code-point order of the names. -/
abbrev Table (α : Type) := List (String × α)

namespace Table

variable {α : Type}

/-- Sets the entry of `k`, replacing the one that is there. -/
def insert (k : String) (a : α) : Table α → Table α
  | [] => [(k, a)]
  | (k', b) :: t =>
      if k < k' then (k, a) :: (k', b) :: t
      else if k = k' then (k, a) :: t
      else (k', b) :: insert k a t

/-- Sets the entry of `k` unless it has one. -/
def insertNew (k : String) (a : α) (t : Table α) : Table α :=
  if (t.lookup k).isSome then t else insert k a t

/-- The table of a list of entries; of two entries for one name the later
wins. -/
def ofList (entries : List (String × α)) : Table α :=
  entries.foldl (fun t e => insert e.1 e.2 t) []

/-- Both tables' entries; where they share a name the first table's entry
stays. -/
def union (t u : Table α) : Table α :=
  u.foldl (fun acc e => insertNew e.1 e.2 acc) t

/-- Puts an entry in front of the first one whose name is not smaller. -/
def insertSorted (e : String × α) : List (String × α) → List (String × α)
  | [] => [e]
  | f :: fs => if f.1 < e.1 then f :: insertSorted e fs else e :: f :: fs

/-- The entries in the order of their names; entries of one name stay in the
order in which they were. -/
def sort (entries : List (String × α)) : List (String × α) :=
  entries.foldr insertSorted []

/-! ## What a lookup sees -/

theorem lookup_entry (k l : String) (a : α) (t : Table α) :
    List.lookup k ((l, a) :: t) = if k = l then some a else t.lookup k := by
  rw [List.lookup_cons]
  by_cases h : k = l
  · simp [h]
  · have hl : (k == l) = false := by simpa using h
    simp [h, hl]

theorem lookup_insert (k l : String) (a : α) (t : Table α) :
    (insert k a t).lookup l = if l = k then some a else t.lookup l := by
  induction t with
  | nil => simp [insert, lookup_entry]
  | cons e t ih =>
    obtain ⟨k', b⟩ := e
    simp only [insert]
    split
    · simp [lookup_entry]
    · split
      · next hk => by_cases hl : l = k <;> simp [lookup_entry, ← hk, hl]
      · next hk =>
        by_cases hl : l = k
        · subst hl
          simp [lookup_entry, hk, ih]
        · simp [lookup_entry, hl, ih]

theorem lookup_insertNew (k l : String) (a : α) (t : Table α) :
    (insertNew k a t).lookup l =
      (t.lookup l).or (if l = k then some a else none) := by
  unfold insertNew
  cases hk : t.lookup k with
  | some b => by_cases hl : l = k <;> simp [hk, hl]
  | none => by_cases hl : l = k <;> simp [hk, hl, lookup_insert]

end Table

end RowTyping
