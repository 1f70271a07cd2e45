import RowTyping.Proofs.Roles
import RowTyping.Proofs.Solutions

/-!
# Types with the same value meet

If an assignment solves the registry and gives two types the same value, then
unification of the two succeeds, and the assignment solves the registry that it
leaves, once the variables issued on the way have their terms. The only
variables that a run issues are the common rests of two open records: such a
rest gets what is left of one of the two rows without the fields that the other
one has.

Which types are admitted, and how a variable is given a term or bound, is left
to a `PointSystem`.
-/

namespace RowTyping

open List Finset Option

namespace Row

theorem names_lacking (mine theirs : Row) :
    Table.names (mine.lacking theirs) = theirs.fields.names \ mine.fields.names := by
  ext l
  rw [mem_sdiff, Table.mem_names_iff_lookup, Table.mem_names_iff_lookup,
    Table.mem_names_iff_lookup, lookup_lacking]
  cases mine.fields.lookup l <;> simp

/-- The labels of both rows behind those in front. -/
def allLabels (front : Finset String) (mine theirs : Row) : Finset String :=
  front ∪ (mine.fields.names ∪ theirs.fields.names)

variable {mine theirs : Row} {front : Finset String}

theorem allLabels_comm : allLabels front mine theirs = allLabels front theirs mine := by
  rw [allLabels, allLabels, union_comm mine.fields.names]

theorem front_lacking : front ∪ mine.fields.names ∪ Table.names (mine.lacking theirs) =
    allLabels front mine theirs := by
  rw [names_lacking, allLabels, union_assoc, union_sdiff_self_eq_union]

/-- A row that lacks nothing has all labels. -/
theorem front_full (h : mine.lacking theirs = []) :
    front ∪ mine.fields.names = allLabels front mine theirs := by
  rw [← front_lacking, h, Table.names_nil, union_empty]

end Row

namespace Row

/-- The fields of two rows, in front of what the rows go on with, make the same
row, and no label repeats. -/
structure Agree (f : Ty → Ty) (mine theirs x y : Row) : Prop where
  same : prepend (Table.mapValues f mine.fields) x = prepend (Table.mapValues f theirs.fields) y
  left : ∀ l, (mine.fields.lookup l).isSome → x.fields.lookup l = none
  right : ∀ l, (theirs.fields.lookup l).isSome → y.fields.lookup l = none

/-- The row without the fields of another one. -/
def without (row other : Row) : Row :=
  ⟨row.fields.restrict fun l => (other.fields.lookup l).isNone, row.tail⟩

theorem without_sorted {row : Row} (h : row.fields.Sorted) (other : Row) :
    (row.without other).fields.Sorted :=
  h.restrict fun l => (other.fields.lookup l).isNone

namespace Agree

variable {f : Ty → Ty} {mine theirs x y : Row}

theorem symm (h : Agree f mine theirs x y) : Agree f theirs mine y x :=
  ⟨h.same.symm, h.right, h.left⟩

theorem tail_eq (h : Agree f mine theirs x y) : x.tail = y.tail :=
  by simpa using congrArg Row.tail h.same

theorem lookup_eq (h : Agree f mine theirs x y) (l : String) :
    ((mine.fields.lookup l).map f).or (x.fields.lookup l) =
      ((theirs.fields.lookup l).map f).or (y.fields.lookup l) := by
  have := congrArg (fun row => row.fields.lookup l) h.same
  simpa using this

/-- Fields that both rows have are the same. -/
theorem shared (h : Agree f mine theirs x y) (hs : mine.fields.Sorted) {p : Ty × Ty}
    (hp : p ∈ mine.shared theirs) : f p.1 = f p.2 := by
  obtain ⟨l, hmine, htheirs⟩ := mem_shared hp
  have := h.lookup_eq l
  rw [hs.lookup_of_mem hmine, htheirs] at this
  simpa using this

/-- A field that a row lacks is in what the row goes on with. -/
theorem lookup_of_lacking (h : Agree f mine theirs x y) {l : String} {t : Ty}
    (hl : (mine.lacking theirs).lookup l = some t) : x.fields.lookup l = some (f t) := by
  rw [lookup_lacking] at hl
  split at hl
  · next hnone =>
    have := h.lookup_eq l
    rw [isNone_iff_eq_none.mp hnone, hl] at this
    simpa using this
  · cases hl

/-- What a row goes on with are the fields it lacks, in front of a rest that the
two rows have in common. -/
theorem rest_left (h : Agree f mine theirs x y) (hx : x.fields.Sorted) :
    x = prepend (Table.mapValues f (mine.lacking theirs)) (x.without theirs) := by
  refine eq_of_lookup hx (prepend_sorted _ _) (fun l => ?_) rfl
  rw [lookup_prepend, Table.lookup_mapValues, without, Table.lookup_restrict]
  cases hl : (mine.lacking theirs).lookup l with
  | some t => simpa using h.lookup_of_lacking hl
  | none =>
    rw [lookup_lacking] at hl
    cases htheirs : theirs.fields.lookup l with
    | none => simp
    | some u =>
      have hsome : (mine.fields.lookup l).isSome := by
        rw [htheirs] at hl
        cases hmine : mine.fields.lookup l with
        | some t => rfl
        | none => simp [hmine] at hl
      simp [h.left l hsome]

theorem without_eq (h : Agree f mine theirs x y) (hx : x.fields.Sorted) (hy : y.fields.Sorted) :
    x.without theirs = y.without mine := by
  refine eq_of_lookup (without_sorted hx _) (without_sorted hy _) (fun l => ?_) h.tail_eq
  rw [without, without, Table.lookup_restrict, Table.lookup_restrict]
  have hl := h.lookup_eq l
  cases hmine : mine.fields.lookup l with
  | some t =>
    have hx : x.fields.lookup l = none := h.left l (by simp [hmine])
    simp [hx]
  | none =>
    cases htheirs : theirs.fields.lookup l with
    | some u =>
      have hy : y.fields.lookup l = none := h.right l (by simp [htheirs])
      simp [hy]
    | none =>
      rw [hmine, htheirs] at hl
      simpa using hl

/-- The common rest has none of the fields of either row. -/
theorem without_apart (h : Agree f mine theirs x y) {l : String}
    (hl : (mine.fields.lookup l).isSome ∨ (theirs.fields.lookup l).isSome) :
    (x.without theirs).fields.lookup l = none := by
  rw [without, Table.lookup_restrict]
  split
  · next hnone =>
    rcases hl with hmine | htheirs
    · exact h.left l hmine
    · rw [isNone_iff_eq_none.mp hnone] at htheirs
      simp at htheirs
  · rfl

/-- A row that lacks nothing goes on with the common rest. -/
theorem eq_without (h : Agree f mine theirs x y) (hx : x.fields.Sorted)
    (hfull : mine.lacking theirs = []) : x = x.without theirs := by
  have := h.rest_left hx
  rwa [hfull, Table.mapValues, map_nil, prepend_nil (without_sorted hx _)] at this

end Agree

end Row

section

variable {θ : Nat → Ty} {a b t : Ty}

/-- What the value of a type can be, for a type that is neither an open variable
nor a synonym. -/
inductive Ty.HasForm (θ : Nat → Ty) : Ty → Ty → Prop where
  | gen (g : Nat) : HasForm θ (.gen g) (.gen g)
  | con {c : Con} (hc : c ≠ .emptyRow) (ts : List Ty) :
      HasForm θ (.con c ts) (.con c.plain (ts.map (value θ)))
  | row {t : Ty} (h : t.IsRowForm) (fs : List (String × Ty)) (tail : Ty) :
      HasForm θ t (.record fs tail)
  | module (name : String) (members : Env) :
      HasForm θ (.module name members) (.module name ⟨[], []⟩)

theorem Ty.hasForm (θ : Nat → Ty) (hvar : ∀ v, t ≠ .flex v)
    (hsynonym : ∀ id labels params target, t ≠ .synonym id labels params target) :
    HasForm θ t (t.value θ) := by
  cases t with
  | var x =>
    cases x with
    | flex v => exact absurd rfl (hvar v)
    | gen g => exact .gen g
  | con c ts =>
    by_cases hc : c = .emptyRow
    · subst hc
      exact .row (.inr ⟨ts, rfl⟩) _ _
    · rw [value_con hc]
      exact .con hc ts
  | record fs tail =>
    exact .row (.inl rfl) _ _
  | synonym id labels params target => exact absurd rfl (hsynonym id labels params target)
  | module name members =>
    exact .module name members

theorem Ty.meet_flex_left (v : Nat) (b : Ty) : (Ty.flex v).meet b ≠ .clash := by
  unfold meet
  split <;> simp_all
  split <;> simp

theorem Ty.meet_flex_right (a : Ty) (v : Nat) : a.meet (.flex v) ≠ .clash := by
  unfold meet
  split <;> simp_all
  split <;> simp

/-- Types whose values have the same form do not clash. -/
theorem Ty.not_clash_of_hasForm {x : Ty} (ha : HasForm θ a x) (hb : HasForm θ b x)
    (hcon : ∀ c d ts us, a = .con c ts → b = .con d us → c.agrees d = true ∧
      ts.length = us.length) :
    a.meet b ≠ .clash := by
  cases ha with
  | gen g =>
    cases hb with
    | gen => simp [Ty.meet]
  | con hc ts =>
    generalize hx : Ty.con _ _ = x at hb
    cases hb with
    | con hd us =>
      obtain ⟨hagree, hlen⟩ := hcon _ _ _ _ rfl rfl
      simp [Ty.meet, Con.meet, hagree, hlen]
    | gen | row | module => cases hx
  | row ha fs tail =>
    cases hb with
    | row hb =>
      rcases ha with ha | ⟨ts, rfl⟩
      · obtain ⟨fs, tail, rfl⟩ := Ty.eq_record_of_isRecord ha
        rcases hb with hb | ⟨us, rfl⟩
        · obtain ⟨gs, tail', rfl⟩ := Ty.eq_record_of_isRecord hb
          simp [Ty.meet]
        · simp [Ty.meet]
      · rcases hb with hb | ⟨us, rfl⟩
        · obtain ⟨gs, tail', rfl⟩ := Ty.eq_record_of_isRecord hb
          simp [Ty.meet]
        · obtain ⟨hagree, hlen⟩ := hcon _ _ _ _ rfl rfl
          simp [Ty.meet, Con.meet, hagree, hlen]
  | module name members =>
    cases hb with
    | module => simp [Ty.meet]

end

/-! ## Points of a run -/

/-- Points that a run comes to. At a point there is a registry, an assignment of
terms to its variables, and types fit the roles of what they are taken for. A
later point keeps roles and values; a variable can be issued for what is left of
a row, and a variable can be bound to a type that has its value. -/
structure PointSystem (ω : Type) [Preorder ω] where
  registry : ω → Registry
  assign : ω → Nat → Ty
  Fits : ω → Role → Ty → Prop
  fits_mono {p q : ω} {k : Role} {t : Ty} : p ≤ q → Fits p k t → Fits q k t
  value_mono {p q : ω} {k : Role} {t : Ty} :
    p ≤ q → Fits p k t → t.value (assign q) = t.value (assign p)
  open_of_resolve {p : ω} {v : Nat} {t : Ty} :
    (registry p).resolve t = .flex v → (registry p).binding? v = none
  fits_resolve {p : ω} {k : Role} {t : Ty} : Fits p k t → Fits p k ((registry p).resolve t)
  value_resolve {p : ω} {k : Role} {t : Ty} : Fits p k t →
    k.kind.Same (((registry p).resolve t).value (assign p)) (t.value (assign p))
  fits_row {p : ω} {front : Finset String} {t : Ty} :
    Fits p (.rest front) t → Fits p (.rest front) ((registry p).row t).toRecord
  value_row {p : ω} {front : Finset String} {t : Ty} : Fits p (.rest front) t →
    (t.value (assign p)).asRow = .prepend (Table.mapValues (Ty.value (assign p))
      ((registry p).row t).fields) (((registry p).row t).tail.value (assign p)).asRow
  issued {p : ω} {k : Role} {v : Nat} : Fits p k (.flex v) → v < (registry p).varCount
  kind_eq {p : ω} {k k' : Role} {v : Nat} :
    Fits p k (.flex v) → Fits p k' (.flex v) → k.kind = k'.kind
  con {p : ω} {k : Role} {c : Con} {ts : List Ty} : Fits p k (.con c ts) →
    c = .emptyRow ∧ ts = [] ∨ c ≠ .emptyRow ∧ k.kind = .type ∧ ∀ t ∈ ts, Fits p .type t
  record {p : ω} {k : Role} {fs : List (String × Ty)} {tail : Ty} : Fits p k (.record fs tail) →
    Table.Sorted fs ∧ (∀ e ∈ fs, Fits p .type e.2) ∧ Fits p (k.behind fs) tail ∧
      (Ty.record fs tail).ApartAt (assign p)
  synonym {p : ω} {k : Role} {id : Nat} {labels : List String} {params : List Ty} {target : Ty} :
    Fits p k (.synonym id labels params target) →
      k = .type ∧ Fits p .type target ∧ ∀ x, target ≠ .var x
  ends {p : ω} {front : Finset String} {t : Ty} :
    Fits p (.rest front) t → t.isRecord = false → (∃ x, t = .var x) ∨ t = .emptyRow
  asRest {p : ω} {k : Role} {t : Ty} : Fits p k t → t.IsRowForm → Fits p (.rest k.front) t
  fits_resolve_tail {p : ω} {front : Finset String} {fs : List (String × Ty)} {tail : Ty} :
    Fits p (.rest front) (.record fs tail) →
      Fits p (.rest front) (.record fs ((registry p).resolve tail))
  fits_lacking {p : ω} {front : Finset String} {mine theirs : Row} {rest : Ty} :
    Fits p (.rest front) theirs.toRecord →
    Fits p (.rest (Row.allLabels front mine theirs)) rest →
    (Ty.record (mine.lacking theirs) rest).ApartAt (assign p) →
      Fits p (.rest (front ∪ mine.fields.names)) (.record (mine.lacking theirs) rest)
  issue {p : ω} {front : Finset String} {v : Nat} {theirs : Row} : Fits p (.rest front) (.flex v) →
    theirs.fields.names ⊆ front ∪ ((Ty.flex v).value (assign p)).asRow.fields.names →
      ∃ q, p ≤ q ∧ registry q = (registry p).addVar ∧
        Fits q (.rest (front ∪ theirs.fields.names)) (.flex (registry p).varCount) ∧
        ((Ty.flex (registry p).varCount).value (assign q)).asRow =
          ((Ty.flex v).value (assign p)).asRow.without theirs
  bind {p : ω} {k : Role} {v : Nat} {t : Ty} : Fits p k (.flex v) → Fits p k t →
    k.kind.Same ((Ty.flex v).value (assign p)) (t.value (assign p)) →
    (registry p).binding? v = none → (registry p).occurs v t = false →
      ∃ q, p ≤ q ∧ registry q = (registry p).setBinding v t

namespace PointSystem

variable {ω : Type} [Preorder ω] {M : PointSystem ω} {p q : ω} {k : Role} {a b t u tail : Ty}
  {v : Nat} {front : Finset String} {fs gs : Table Ty}

/-- The value of a type at a point. -/
def value (M : PointSystem ω) (p : ω) (t : Ty) : Ty := t.value (M.assign p)

theorem value_synonym (id : Nat) (labels : List String) (params : List Ty) (target : Ty) :
    M.value p (.synonym id labels params target) = M.value p target :=
  Ty.value_synonym id labels params target

theorem resolve_resolve (t : Ty) :
    (M.registry p).resolve ((M.registry p).resolve t) = (M.registry p).resolve t := by
  by_cases h : ∃ v, (M.registry p).resolve t = .flex v
  · obtain ⟨v, hv⟩ := h
    rw [hv, Registry.resolve_none (M.open_of_resolve hv)]
  · exact Registry.resolve_of_not_flex fun v hv => h ⟨v, hv⟩

/-! ## Two types with the same value -/

/-- The two types have one role and, as what they are taken for, the same value. -/
structure Same (M : PointSystem ω) (p : ω) (k : Role) (a b : Ty) : Prop where
  left : M.Fits p k a
  right : M.Fits p k b
  same : k.kind.Same (M.value p a) (M.value p b)

namespace Same

theorem symm (h : M.Same p k a b) : M.Same p k b a := ⟨h.right, h.left, h.same.symm⟩

theorem mono (h : M.Same p k a b) (hle : p ≤ q) : M.Same q k a b := by
  refine ⟨M.fits_mono hle h.left, M.fits_mono hle h.right, ?_⟩
  rw [value, value, M.value_mono hle h.left, M.value_mono hle h.right]
  exact h.same

theorem resolve (h : M.Same p k a b) :
    M.Same p k ((M.registry p).resolve a) ((M.registry p).resolve b) :=
  ⟨M.fits_resolve h.left, M.fits_resolve h.right,
    (M.value_resolve h.left).trans (h.same.trans (M.value_resolve h.right).symm)⟩

/-- Type formers with the same value agree, and so do their children. -/
theorem con {c d : Con} {ts us : List Ty} (h : M.Same p k (.con c ts) (.con d us)) :
    c.agrees d = true ∧ ts.length = us.length ∧ ∀ e ∈ ts.zip us, M.Same p .type e.1 e.2 := by
  have hsame := h.same
  rcases M.con h.left with ⟨rfl, rfl⟩ | ⟨hc, hk, hts⟩
  · rcases M.con h.right with ⟨rfl, rfl⟩ | ⟨hd, hk, -⟩
    · simp [Con.agrees]
    · rw [hk, value, value, Ty.value_con hd] at hsame
      cases hsame
  · rcases M.con h.right with ⟨rfl, rfl⟩ | ⟨hd, -, hus⟩
    · rw [hk, value, value, Ty.value_con hc] at hsame
      cases hsame
    · rw [hk, value, value, Ty.value_con hc, Ty.value_con hd] at hsame
      obtain ⟨hplain, hargs⟩ := Ty.con.inj hsame
      refine ⟨Con.agrees_iff.mpr hplain, by simpa using congrArg length hargs, fun e he => ?_⟩
      obtain ⟨he₁, he₂⟩ := of_mem_zip he
      exact ⟨hts _ he₁, hus _ he₂, Ty.value_eq_of_mem_zip hargs he⟩

/-- Types with the same value as what they are taken for have the same value,
unless one of them is a variable. -/
theorem value_eq (h : M.Same p k a b)
    (hends : k.kind = .row → a.isRecord = false ∧ b.isRecord = false)
    (ha : ∀ v, a ≠ .flex v) (hb : ∀ v, b ≠ .flex v) : M.value p a = M.value p b := by
  obtain ⟨hleft, hright, hsame⟩ := h
  cases k with
  | type => exact hsame
  | rest front =>
    rcases M.ends hleft (hends rfl).1 with ⟨x | g, rfl⟩ | rfl
    · exact absurd rfl (ha x)
    · rcases M.ends hright (hends rfl).2 with ⟨y | g', rfl⟩ | rfl
      · exact absurd rfl (hb y)
      · exact congrArg Row.tail hsame
      · cases hsame
    · rcases M.ends hright (hends rfl).2 with ⟨y | g', rfl⟩ | rfl
      · exact absurd rfl (hb y)
      · cases hsame
      · rfl

/-- Types of one role with the same value do not clash. What a record goes on with
is resolved to its end here. -/
theorem not_clash (h : M.Same p k a b)
    (hends : k.kind = .row → a.isRecord = false ∧ b.isRecord = false) : a.meet b ≠ .clash := by
  by_cases ha : ∃ v, a = .flex v
  · obtain ⟨v, rfl⟩ := ha
    exact Ty.meet_flex_left v b
  by_cases hb : ∃ v, b = .flex v
  · obtain ⟨v, rfl⟩ := hb
    exact Ty.meet_flex_right a v
  replace ha : ∀ v, a ≠ .flex v := fun v hv => ha ⟨v, hv⟩
  replace hb : ∀ v, b ≠ .flex v := fun v hv => hb ⟨v, hv⟩
  intro hclash
  -- a synonym is expanded
  have hsyna : ∀ id labels params target, a ≠ .synonym id labels params target := by
    rintro id labels params target rfl
    rcases b with (v | g) | _ | _ | _ | _
    · exact hb v rfl
    all_goals simp [Ty.meet] at hclash
  have hsynb : ∀ id labels params target, b ≠ .synonym id labels params target := by
    rintro id labels params target rfl
    rcases a with (v | g) | _ | _ | _ | _
    · exact ha v rfl
    all_goals simp [Ty.meet] at hclash
  have hforma := Ty.hasForm (M.assign p) ha hsyna
  rw [show a.value (M.assign p) = b.value (M.assign p) from h.value_eq hends ha hb] at hforma
  refine Ty.not_clash_of_hasForm hforma (Ty.hasForm (M.assign p) hb hsynb) ?_ hclash
  rintro c d ts us rfl rfl
  exact ⟨h.con.1, h.con.2.1⟩

end Same

/-! ## The occurs check -/

/-- A record is at least as large as its parts, and larger if it has a field. -/
theorem size_le_record (h : M.Fits p k (.record fs tail)) {m : Nat}
    (hm : (∃ e ∈ fs, m ≤ Kind.type.size (M.value p e.2)) ∨ m ≤ Kind.row.size (M.value p tail)) :
    m ≤ Kind.row.size (M.value p (.record fs tail)) ∧
      (fs ≠ [] → m < Kind.row.size (M.value p (.record fs tail))) := by
  obtain ⟨hs, -, -, hapart⟩ := M.record h
  rcases hm with ⟨e, he, hm⟩ | hm
  · have hlt := hm.trans_lt (Ty.size_value_field hs hapart he)
    exact ⟨hlt.le, fun _ => hlt⟩
  · obtain ⟨hle, hlt⟩ := Ty.size_value_tail hs hapart
    exact ⟨hm.trans hle, fun hne => hm.trans_lt (hlt hne)⟩

/-- A variable that is found in a record is found in one of its parts. -/
theorem parts_of_occurs (h : M.Fits p k (.record fs tail)) {n m : Nat}
    (ih : ∀ {k : Role} {t : Ty}, M.Fits p k t → (M.registry p).occursN v n t = true →
      m ≤ k.kind.size (M.value p t))
    (hocc : (fs.any (fun e => (M.registry p).occursN v n e.2) ||
      (M.registry p).occursN v n tail) = true) :
    (∃ e ∈ fs, m ≤ Kind.type.size (M.value p e.2)) ∨ m ≤ Kind.row.size (M.value p tail) := by
  obtain ⟨-, hfields, htail, -⟩ := M.record h
  rcases (Bool.or_eq_true _ _).mp hocc with hocc | hocc
  · obtain ⟨e, he, hocc⟩ := any_eq_true.mp hocc
    exact .inl ⟨e, he, ih (hfields e he) hocc⟩
  · exact .inr (ih htail hocc)

/-- A variable is no larger than a type in which it is found. -/
theorem size_le_of_occurs {kv : Role} (hv : M.Fits p kv (.flex v)) {n : Nat}
    (ht : M.Fits p k t) (hocc : (M.registry p).occursN v n t = true) :
    kv.kind.size (M.value p (.flex v)) ≤ k.kind.size (M.value p t) := by
  induction n generalizing k t with
  | zero => cases hocc
  | succ n ih =>
    have hres := M.fits_resolve ht
    rw [← show k.kind.size (M.value p _) = k.kind.size (M.value p t) from
      (M.value_resolve ht).size_eq]
    rw [Registry.occursN] at hocc
    cases heq : (M.registry p).resolve t with
    | var x =>
      rw [heq] at hocc hres
      cases x with
      | gen g => simp at hocc
      | flex w =>
        obtain rfl : v = w := by simpa using hocc
        rw [M.kind_eq hv hres]
    | con c args =>
      rw [heq] at hocc hres
      obtain ⟨u, hu, hocc⟩ := any_eq_true.mp hocc
      rcases M.con hres with ⟨-, rfl⟩ | ⟨hc, hk, hargs⟩
      · simp at hu
      · rw [hk]
        exact (ih (hargs u hu) hocc).trans (Ty.size_value_arg hc hu).le
    | record fs tail =>
      -- a record is larger as a type than as a row, so the row is measured first
      rw [heq] at hocc hres
      have hrow := (size_le_record hres (parts_of_occurs hres ih hocc)).1
      cases k with
      | rest front => exact hrow
      | type => exact hrow.trans (Ty.row_size_lt fs tail).le
    | synonym id labels params target =>
      rw [heq] at hocc hres
      obtain ⟨rfl, htarget, -⟩ := M.synonym hres
      rw [value_synonym]
      exact ih htarget hocc
    | module name members =>
      rw [heq] at hocc
      simp at hocc

/-- A variable that stands for a type is smaller than a type in which it is found,
unless that is the variable itself. Solid synonyms do not hide it. -/
theorem size_lt_of_occurs (hv : M.Fits p .type (.flex v)) {n : Nat} (ht : M.Fits p .type t)
    (hne : ∀ x, t ≠ .var x) (hocc : (M.registry p).occursN v n t = true) :
    Kind.type.size (M.value p (.flex v)) < Kind.type.size (M.value p t) := by
  induction n generalizing t with
  | zero => cases hocc
  | succ n ih =>
    rw [Registry.occursN, Registry.resolve_of_not_flex fun w => hne _] at hocc
    cases t with
    | var x => exact absurd rfl (hne x)
    | con c args =>
      obtain ⟨u, hu, hocc⟩ := any_eq_true.mp hocc
      rcases M.con ht with ⟨-, rfl⟩ | ⟨hc, -, hargs⟩
      · simp at hu
      · exact (size_le_of_occurs hv (hargs u hu) hocc).trans_lt (Ty.size_value_arg hc hu)
    | record fs tail =>
      have hparts := parts_of_occurs ht (fun ht hocc => size_le_of_occurs hv ht hocc) hocc
      exact (size_le_record ht hparts).1.trans_lt (Ty.row_size_lt fs tail)
    | synonym id labels params target =>
      obtain ⟨-, htarget, hsolid⟩ := M.synonym ht
      rw [value_synonym]
      exact ih htarget hsolid hocc
    | module name members => simp at hocc

namespace Same

/-- A variable does not occur in another type with its value. -/
theorem not_occurs (h : M.Same p k (.flex v) t) (hne : t ≠ .flex v)
    (hres : (M.registry p).resolve t = t) (hend : k.kind = .row → t.isRecord = false) :
    (M.registry p).occurs v t = false := by
  have hvar : ∀ x, t = .var x → (M.registry p).occurs v t = false := by
    rintro x rfl
    rw [Registry.occurs, Registry.fuel, Registry.occursN, hres]
    cases x with
    | gen g => rfl
    | flex w => simpa using fun hvw => hne (by rw [hvw])
  cases k with
  | rest front =>
    rcases M.ends h.right (hend rfl) with ⟨x, hx⟩ | rfl
    · exact hvar x hx
    · rw [Registry.occurs, Registry.fuel, Registry.occursN, hres]
      rfl
  | type =>
    by_cases hx : ∃ x, t = .var x
    · obtain ⟨x, hx⟩ := hx
      exact hvar x hx
    · rw [Bool.eq_false_iff]
      intro hocc
      have hlt := size_lt_of_occurs h.left h.right (fun x hx' => hx ⟨x, hx'⟩) hocc
      rw [show M.value p (.flex v) = M.value p t from h.same] at hlt
      exact hlt.false

/-- The rest of a record does not occur behind further fields. -/
theorem not_occurs_record (h : M.Same p (.rest front) (.flex v) (.record fs tail))
    (hfs : fs ≠ []) : (M.registry p).occurs v (.record fs tail) = false := by
  rw [Bool.eq_false_iff]
  intro hocc
  rw [Registry.occurs, Registry.fuel, Registry.occursN, Registry.resolve_record] at hocc
  have hparts := parts_of_occurs h.right (fun ht hocc => size_le_of_occurs h.left ht hocc) hocc
  have hlt := (size_le_record h.right hparts).2 hfs
  rw [← show (Role.rest front).kind.size (M.value p (.flex v)) = Kind.row.size _ from
    h.same.size_eq] at hlt
  exact hlt.false

/-- A variable is solved by a type with its value. -/
theorem solved {r' : Registry} {out : Except TypeError Unit} (h : M.Same p k (.flex v) t)
    (hs : Solved (M.registry p) v t out r') (hopen : (M.registry p).binding? v = none)
    (hocc : (M.registry p).occurs v t = false) :
    out = .ok () ∧ ∃ q, p ≤ q ∧ M.registry q = r' := by
  cases hs with
  | cyclic hcyclic => rw [hcyclic] at hocc; cases hocc
  | unknown _ hge => exact absurd (M.issued h.left) (Nat.not_lt.mpr hge)
  | bind => exact ⟨rfl, M.bind h.left h.right h.same hopen hocc⟩

end Same

/-! ## Two rows -/

namespace Same

variable {mine theirs : Row}

/-- Rows have the same value as soon as what they are collected to does. -/
theorem rows (h : M.Same p (.rest front) a b) : M.Same p (.rest front)
    ((M.registry p).row a).toRecord ((M.registry p).row b).toRecord := by
  refine ⟨M.fits_row h.left, M.fits_row h.right, ?_⟩
  have hrow : ∀ {t : Ty}, M.Fits p (.rest front) t →
      (M.value p ((M.registry p).row t).toRecord).asRow = (M.value p t).asRow := by
    intro t ht
    rw [value, Row.toRecord, Ty.value_record]
    exact (M.value_row ht).symm
  exact (hrow h.left).trans (h.same.asRow.trans (hrow h.right).symm)

/-- Resolving the tails of two records changes nothing. -/
theorem resolve_tails (h : M.Same p (.rest front) (.record fs t) (.record gs u)) :
    M.Same p (.rest front) (.record fs ((M.registry p).resolve t))
      (.record gs ((M.registry p).resolve u)) := by
  have hresolve : ∀ {fs : Table Ty} {t : Ty}, M.Fits p (.rest front) (.record fs t) →
      M.value p (.record fs ((M.registry p).resolve t)) = M.value p (.record fs t) := by
    intro fs t ht
    rw [value, value, Ty.value_record, Ty.value_record, (M.value_resolve (M.record ht).2.2.1).asRow]
  refine ⟨M.fits_resolve_tail h.left, M.fits_resolve_tail h.right, ?_⟩
  rw [hresolve h.left, hresolve h.right]
  exact h.same

variable (h : M.Same p (.rest front) (.record mine.fields t) (.record theirs.fields u))
include h

theorem tail_left : M.Fits p (.rest (front ∪ mine.fields.names)) t := (M.record h.left).2.2.1

theorem sorted : mine.fields.Sorted ∧ theirs.fields.Sorted :=
  ⟨(M.record h.left).1, (M.record h.right).1⟩

/-- The fields of both rows, in front of what the rows go on with, are the same,
and no label repeats. -/
theorem agree : Row.Agree (Ty.value (M.assign p)) mine theirs (M.value p t).asRow
    (M.value p u).asRow where
  same := by
    have hsame := h.same.asRow
    rwa [value, value, Ty.value_record, Ty.value_record] at hsame
  left := (M.record h.left).2.2.2
  right := (M.record h.right).2.2.2

/-- Fields that both rows have meet. -/
theorem shared : ∀ e ∈ mine.shared theirs, M.Same p .type e.1 e.2 := by
  intro e he
  obtain ⟨l, hmine, htheirs⟩ := Row.mem_shared he
  exact ⟨(M.record h.left).2.1 _ hmine, (M.record h.right).2.1 _ (Table.mem_of_lookup htheirs),
    h.agree.shared h.sorted.1 he⟩

/-- The fields that a row lacks, in front of the common rest of the two, are what
the row goes on with. -/
theorem lacking {z : Ty} {all : Finset String} (hall : all = Row.allLabels front mine theirs)
    (hz : M.Fits p (.rest all) z)
    (hrest : (M.value p z).asRow = (M.value p t).asRow.without theirs) :
    M.Same p (.rest (front ∪ mine.fields.names)) t (.record (mine.lacking theirs) z) := by
  subst hall
  have hright : M.Fits p (.rest front) (Row.toRecord ⟨theirs.fields, u⟩) := h.right
  have hapart : (Ty.record (mine.lacking ⟨theirs.fields, u⟩) z).ApartAt (M.assign p) := by
    intro l hl
    rw [show (z.value (M.assign p)).asRow = _ from hrest]
    refine h.agree.without_apart (.inr ?_)
    rw [Row.lookup_lacking] at hl
    split at hl
    · exact hl
    · simp at hl
  have hlacking : M.Fits p (.rest (front ∪ mine.fields.names))
      (.record (mine.lacking ⟨theirs.fields, u⟩) z) := M.fits_lacking hright hz hapart
  refine ⟨h.tail_left, hlacking, ?_⟩
  show (M.value p t).asRow = ((Ty.record (mine.lacking theirs) z).value (M.assign p)).asRow
  rw [Ty.value_record]
  exact (h.agree.rest_left (Ty.asRow_value_sorted _ _)).trans (by rw [← hrest]; rfl)

/-- If the other row lacks nothing, it goes on with the common rest. -/
theorem rest_right (hfull : theirs.lacking mine = []) :
    M.Fits p (.rest (Row.allLabels front mine theirs)) u ∧
      (M.value p u).asRow = (M.value p t).asRow.without theirs := by
  have hx := Ty.asRow_value_sorted (M.assign p) t
  have hy := Ty.asRow_value_sorted (M.assign p) u
  refine ⟨?_, ?_⟩
  · rw [Row.allLabels_comm, ← Row.front_full hfull]
    exact h.symm.tail_left
  · exact (h.agree.symm.eq_without hy hfull).trans (h.agree.without_eq hx hy).symm

/-- A row that lacks fields goes on with them. -/
theorem lookup_tail (hne : mine.lacking theirs ≠ []) :
    ∃ l, (theirs.fields.lookup l).isSome ∧ ((M.value p t).asRow.fields.lookup l).isSome := by
  obtain ⟨e, he⟩ := exists_mem_of_ne_nil _ hne
  have hl := (Row.lacking_sorted h.sorted.2).lookup_of_mem he
  refine ⟨e.1, Table.isSome_lookup_of_mem (Row.mem_lacking he).1, ?_⟩
  rw [h.agree.lookup_of_lacking hl]
  rfl

/-- A row that lacks fields ends in an open variable. -/
theorem open_tail (hne : mine.lacking theirs ≠ []) (hrec : t.isRecord = false) :
    ∃ v, t = .flex v := by
  obtain ⟨l, -, hl⟩ := h.lookup_tail hne
  rcases M.ends h.tail_left hrec with ⟨x | g, rfl⟩ | rfl
  · exact ⟨x, rfl⟩
  · cases hl
  · cases hl

end Same

/-- A new variable is given the common rest of two rows. -/
theorem Same.common_rest {mine theirs : Row}
    (h : M.Same p (.rest front) (.record mine.fields (.flex v)) (.record theirs.fields u)) :
    ∃ q, p ≤ q ∧ M.registry q = (M.registry p).addVar ∧
      M.Fits q (.rest (Row.allLabels front mine theirs)) (.flex (M.registry p).varCount) ∧
      (M.value q (.flex (M.registry p).varCount)).asRow =
        (M.value q (.flex v)).asRow.without theirs := by
  have hgone : theirs.fields.names ⊆
      front ∪ mine.fields.names ∪ (M.value p (.flex v)).asRow.fields.names := by
    intro l hl
    rw [mem_union, mem_union]
    by_cases hmine : l ∈ mine.fields.names
    · exact .inl (.inr hmine)
    · -- a label that this row lacks is in what it goes on with
      have hlacks : l ∈ Table.names (mine.lacking theirs) := by
        rw [Row.names_lacking]
        exact mem_sdiff.mpr ⟨hl, hmine⟩
      obtain ⟨u, hu⟩ := isSome_iff_exists.mp (Table.mem_names_iff_lookup.mp hlacks)
      refine .inr (Table.mem_names_iff_lookup.mpr ?_)
      rw [h.agree.lookup_of_lacking hu]
      rfl
  obtain ⟨q, hle, hreg, hfits, hrest⟩ := M.issue h.tail_left hgone
  refine ⟨q, hle, hreg, by rwa [Row.allLabels, ← union_assoc], ?_⟩
  rwa [← M.value_mono hle h.tail_left] at hrest

/-! ## Unification -/

/-- The types of a task have the same values. What a record goes on with is
resolved to its end when two types are compared. -/
def Holds (M : PointSystem ω) (p : ω) : Task → Prop
  | .types a b => ∃ k, M.Same p k a b ∧ (k.kind = .row →
      ((M.registry p).resolve a).isRecord = false ∧ ((M.registry p).resolve b).isRecord = false)
  | .rows a b => ∃ front, M.Same p (.rest front) a b
  | .all pairs => ∀ e ∈ pairs, M.Same p .type e.1 e.2

namespace Holds

theorem of_types (h : M.Same p .type a b) : M.Holds p (.types a b) :=
  ⟨.type, h, by simp [Role.kind]⟩

theorem solve (h : M.Holds p (.types a b))
    (meet : ((M.registry p).resolve a).meet ((M.registry p).resolve b) = .solve v t) :
    ∃ k, M.Same p k (.flex v) t ∧ (M.registry p).binding? v = none ∧
      (M.registry p).occurs v t = false := by
  obtain ⟨k, hab, hends⟩ := h
  have hres := hab.resolve
  obtain ⟨hside, hne⟩ := (Meets.of_meet meet).solve_inv
  rcases hside with ⟨ha, rfl⟩ | ⟨hb, rfl⟩
  · rw [ha] at hres
    exact ⟨k, hres, M.open_of_resolve ha,
      hres.not_occurs hne (resolve_resolve b) fun hk => (hends hk).2⟩
  · rw [hb] at hres
    exact ⟨k, hres.symm, M.open_of_resolve hb,
      hres.symm.not_occurs hne (resolve_resolve a) fun hk => (hends hk).1⟩

theorem expand (h : M.Holds p (.types a b))
    (meet : ((M.registry p).resolve a).meet ((M.registry p).resolve b) = .expand t u) :
    M.Holds p (.types t u) := by
  obtain ⟨k, hab, -⟩ := h
  have hexpand : ∀ {i ls ps t u}, M.Same p k (.synonym i ls ps t) u → M.Holds p (.types t u) := by
    rintro i ls ps t u ⟨hleft, hright, hsame⟩
    obtain ⟨rfl, htarget, -⟩ := M.synonym hleft
    exact .of_types ⟨htarget, hright, hsame⟩
  obtain ⟨i, ls, ps, ⟨ha, hb⟩ | ⟨hb, ha⟩⟩ := (Meets.of_meet meet).expand_inv
  · exact hexpand (ha ▸ hb ▸ hab.resolve)
  · exact hexpand (ha ▸ hb ▸ hab.resolve.symm)

theorem children (h : M.Holds p (.types a b)) {pairs : List (Ty × Ty)} {ragged : Bool}
    (meet : ((M.registry p).resolve a).meet ((M.registry p).resolve b) =
      .children pairs ragged) : ragged = false ∧ M.Holds p (.all pairs) := by
  obtain ⟨k, hab, -⟩ := h
  have hres := hab.resolve
  obtain ⟨c, d, ts, us, ha, hb, rfl, -, hragged⟩ := (Meets.of_meet meet).children_inv
  rw [ha, hb] at hres
  exact ⟨hragged.mpr hres.con.2.1, hres.con.2.2⟩

theorem rows (h : M.Holds p (.types a b))
    (meet : ((M.registry p).resolve a).meet ((M.registry p).resolve b) = .rows) :
    M.Holds p (.rows ((M.registry p).resolve a) ((M.registry p).resolve b)) := by
  obtain ⟨k, hab, -⟩ := h
  obtain ⟨ha, hb, -⟩ := (Meets.of_meet meet).rows_inv
  have hres := hab.resolve
  exact ⟨k.front, M.asRest hres.left ha, M.asRest hres.right hb, hres.same.asRow⟩

theorem shared (h : M.Holds p (.rows a b)) :
    M.Holds p (.all (((M.registry p).row a).shared ((M.registry p).row b))) := by
  obtain ⟨front, hab⟩ := h
  exact hab.rows.shared

end Holds

/-- The rows of two types still have the same value when their shared fields have
met, with their tails as they are then. -/
theorem Same.after (h : M.Same p (.rest front) a b) (hle : p ≤ q) : M.Same q (.rest front)
    (.record ((M.registry p).row a).fields ((M.registry q).resolve ((M.registry p).row a).tail))
    (.record ((M.registry p).row b).fields ((M.registry q).resolve ((M.registry p).row b).tail)) :=
  (h.rows.mono hle).resolve_tails

end PointSystem

open PointSystem in
/-- A run on types with the same value succeeds and comes to a later point: the
assignment extends to the variables that the run issues. -/
theorem Unifies.finds {ω : Type} [Preorder ω] {M : PointSystem ω} {p : ω} {r r' : Registry}
    {task : Task} {out : Except TypeError Unit} (h : Unifies r task out r')
    (hr : M.registry p = r) (htask : M.Holds p task) :
    out = .ok () ∧ ∃ q, p ≤ q ∧ M.registry q = r' := by
  -- a part of the run may extend the assignment, so the next part starts from a later point
  induction h generalizing p with
  | same | nil => exact ⟨rfl, p, le_rfl, hr⟩
  | solve meet solved =>
    subst hr
    obtain ⟨k, hsame, hopen, hocc⟩ := htask.solve meet
    exact hsame.solved solved hopen hocc
  | expand meet _ ih =>
    subst hr
    exact ih rfl (htask.expand meet)
  | children meet _ _ ih =>
    subst hr
    exact ih rfl (htask.children meet).2
  | ragged meet =>
    subst hr
    cases (htask.children meet).1
  | rows meet _ ih =>
    subst hr
    exact ih rfl (htask.rows meet)
  | clash meet =>
    subst hr
    obtain ⟨k, hab, hends⟩ := htask
    exact absurd meet (hab.resolve.not_clash hends)
  | cons _ _ ih₁ ih₂ =>
    obtain ⟨hhead, hrest⟩ := forall_mem_cons.mp htask
    obtain ⟨-, p₁, hle₁, hr₁⟩ := ih₁ hr (.of_types hhead)
    obtain ⟨hout, p₂, hle₂, hr₂⟩ := ih₂ hr₁ fun e he => (hrest e he).mono hle₁
    exact ⟨hout, p₂, hle₁.trans hle₂, hr₂⟩
  | stop _ ih => cases (ih hr (.of_types (forall_mem_cons.mp htask).1)).1
  | fields _ ih =>
    subst hr
    cases (ih rfl htask.shared).1
  | again _ _ _ ih₁ ih₂ =>
    subst hr
    obtain ⟨-, p₁, hle₁, hr₁⟩ := ih₁ rfl htask.shared
    obtain ⟨front, hab⟩ := htask
    obtain ⟨hout, p₂, hle₂, hr₂⟩ := ih₂ hr₁ ⟨front, hab.mono hle₁⟩
    exact ⟨hout, p₂, hle₁.trans hle₂, hr₂⟩
  | tails _ left _ ih₁ ih₂ =>
    subst hr
    obtain ⟨-, p₁, hle₁, rfl⟩ := ih₁ rfl htask.shared
    obtain ⟨front, hab⟩ := htask
    have hrows := hab.after hle₁
    have hremains := Registry.remains left
    obtain ⟨rfl, rfl, hmine, htheirs⟩ := hremains.tails_inv
    obtain ⟨hfits, hrest⟩ := hrows.rest_right htheirs
    have hleft := hrows.tail_left
    rw [Row.front_full hmine] at hleft
    have hsame : M.Same p₁ _ _ _ :=
      ⟨hleft, hfits, (hrows.agree.eq_without (Ty.asRow_value_sorted _ _) hmine).trans hrest.symm⟩
    obtain ⟨hout, p₂, hle₂, hr₂⟩ := ih₂ rfl ⟨_, hsame, fun _ => by
      rw [resolve_resolve, resolve_resolve]
      exact hremains.tails_ends⟩
    exact ⟨hout, p₂, hle₁.trans hle₂, hr₂⟩
  | extend _ left solved ih =>
    subst hr
    obtain ⟨-, p₁, hle₁, rfl⟩ := ih rfl htask.shared
    obtain ⟨front, hab⟩ := htask
    have hrows := hab.after hle₁
    have hne := (Registry.remains left).extend_ne
    rcases (Registry.remains left).extend_inv with ⟨hv, rfl, rfl, hfull⟩ | ⟨hv, rfl, rfl, hfull⟩
    · rw [hv] at hrows
      obtain ⟨hfits, hrest⟩ := hrows.rest_right hfull
      have hsame := hrows.lacking rfl hfits hrest
      obtain ⟨hout, p₂, hle₂, hr₂⟩ :=
        hsame.solved solved (M.open_of_resolve hv) (hsame.not_occurs_record hne)
      exact ⟨hout, p₂, hle₁.trans hle₂, hr₂⟩
    · rw [hv] at hrows
      obtain ⟨hfits, hrest⟩ := hrows.symm.rest_right hfull
      have hsame := hrows.symm.lacking rfl hfits hrest
      obtain ⟨hout, p₂, hle₂, hr₂⟩ :=
        hsame.solved solved (M.open_of_resolve hv) (hsame.not_occurs_record hne)
      exact ⟨hout, p₂, hle₁.trans hle₂, hr₂⟩
  | split _ left mine theirs ih =>
    subst hr
    obtain ⟨-, p₁, hle₁, rfl⟩ := ih rfl htask.shared
    obtain ⟨front, hab⟩ := htask
    have hrows := hab.after hle₁
    obtain ⟨hv, hw, hvw, ⟨rfl, hfs⟩, rfl, hgs⟩ := (Registry.remains left).split_inv
    rw [hv, hw] at hrows
    -- the new variable stands for what both tails have and neither row has in front
    obtain ⟨p₂, hle₂, hr₂, hfits, hrest⟩ := hrows.common_rest
    have hrows₂ := hrows.mono hle₂
    have hmine := hrows₂.lacking rfl hfits hrest
    rw [← hr₂] at mine
    obtain ⟨-, p₃, hle₃, hr₃⟩ := hmine.solved mine
      (by rw [hr₂, Registry.binding?_addVar]; exact M.open_of_resolve hv)
      (hmine.not_occurs_record hfs)
    have hrest' := hrest.trans (hrows₂.agree.without_eq (Ty.asRow_value_sorted _ _)
      (Ty.asRow_value_sorted _ _))
    have htheirs := (hrows₂.symm.lacking (Row.allLabels_comm ..) hfits hrest').mono hle₃
    subst hr₃
    obtain ⟨hout, p₄, hle₄, hr₄⟩ := htheirs.solved theirs
      (mine.open_of_ne (by rw [hr₂, Registry.binding?_addVar]; exact M.open_of_resolve hw) hvw)
      (htheirs.not_occurs_record hgs)
    exact ⟨hout, p₄, hle₁.trans (hle₂.trans (hle₃.trans hle₄)), hr₄⟩
  | splitStop _ left mine ih =>
    subst hr
    obtain ⟨-, p₁, hle₁, rfl⟩ := ih rfl htask.shared
    obtain ⟨front, hab⟩ := htask
    have hrows := hab.after hle₁
    obtain ⟨hv, hw, -, ⟨rfl, hfs⟩, rfl, -⟩ := (Registry.remains left).split_inv
    rw [hv] at hrows
    obtain ⟨p₂, hle₂, hr₂, hfits, hrest⟩ := hrows.common_rest
    have hmine := (hrows.mono hle₂).lacking rfl hfits hrest
    rw [← hr₂] at mine
    cases (hmine.solved mine (by rw [hr₂, Registry.binding?_addVar]; exact M.open_of_resolve hv)
      (hmine.not_occurs_record hfs)).1
  | lacking _ left ih =>
    subst hr
    obtain ⟨-, p₁, hle₁, rfl⟩ := ih rfl htask.shared
    obtain ⟨front, hab⟩ := htask
    have hrows := hab.after hle₁
    -- a label that one side lacks is in its tail, so that tail is open, and it is not the tail of
    -- the other side
    obtain ⟨⟨hmine, htheirs⟩, ⟨hne, hfull⟩ | ⟨hne, hfull⟩ | ⟨hne, -, heq⟩⟩ :=
      (Registry.remains left).clash_inv
    · obtain ⟨v, hv⟩ := hrows.open_tail hne hmine
      exact absurd hv (hfull v)
    · obtain ⟨w, hw⟩ := hrows.symm.open_tail hne htheirs
      exact absurd hw (hfull w)
    · obtain ⟨l, hl, hl'⟩ := hrows.lookup_tail hne
      rw [heq, hrows.agree.right l hl] at hl'
      cases hl'

end RowTyping
