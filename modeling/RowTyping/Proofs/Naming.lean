import Mathlib.Data.List.Shortlex
import RowTyping.Proofs.Discipline
import RowTyping.Proofs.Programs

/-!
# Display names

The names of open variables are the words over the letters `a` to `z`, shorter words
first and words of one length in alphabetical order. Names are given in this order, by
every call that assigns them, to the variables that are open and have none; no other
call touches them. So however variables are issued, bound and named in turn, no two
share a name, and a variable that has one keeps it.
-/

namespace RowTyping

open Check Registry Function List Option

/-! ## Letters -/

theorem letters_stable {n m i : Nat} (hn : i < n) (hm : i < m) : letters n i = letters m i := by
  induction n generalizing m i with
  | zero => omega
  | succ n ih =>
    obtain ⟨m, rfl⟩ := Nat.exists_eq_add_one.mpr (Nat.zero_lt_of_lt hm)
    simp only [letters]
    split
    · rfl
    · rw [ih (m := m) (by omega) (by omega)]

/-- The letters of a name are those of an earlier one and one more. -/
theorem toList_letterName (i : Nat) :
    (letterName i).toList =
      if i < 26 then [letter i] else (letterName (i / 26 - 1)).toList ++ [letter (i % 26)] := by
  rw [letterName, letterName, String.toList_ofList, String.toList_ofList, letters]
  split
  · rfl
  · rw [letters_stable (m := i / 26 - 1 + 1) (by omega) (by omega)]

/-- The letter is one of those that names are made of. -/
def IsLetter (c : Char) : Prop := 'a' ≤ c ∧ c ≤ 'z'

theorem toNat_letter : ∀ {k : Nat}, k < 26 → (letter k).toNat = 97 + k := by decide

theorem isLetter_iff {c : Char} : IsLetter c ↔ ∃ k < 26, letter k = c := by
  have hle : ∀ {a b : Char}, a ≤ b ↔ a.toNat ≤ b.toNat := UInt32.le_iff_toNat_le
  rw [IsLetter, hle, hle, show 'a'.toNat = 97 from rfl, show 'z'.toNat = 122 from rfl]
  constructor
  · intro h
    refine ⟨c.toNat - 97, by omega, Char.toNat_inj.mp ?_⟩
    rw [toNat_letter (by omega)]
    omega
  · rintro ⟨k, hk, rfl⟩
    rw [toNat_letter hk]
    omega

theorem letter_lt {j k : Nat} (hjk : j < k) (hk : k < 26) : letter j < letter k := by
  refine UInt32.lt_iff_toNat_lt.mpr ?_
  change (letter j).toNat < (letter k).toNat
  rw [toNat_letter hk, toNat_letter (hjk.trans hk)]
  omega

theorem isLetter_of_mem_letterName (i : Nat) : ∀ c ∈ (letterName i).toList, IsLetter c := by
  induction i using Nat.strongRecOn with
  | ind i ih =>
    rw [toList_letterName]
    split
    · next h => exact forall_mem_singleton.mpr (isLetter_iff.mpr ⟨i, h, rfl⟩)
    · intro c hc
      rcases mem_append.mp hc with hc | hc
      · exact ih _ (by omega) c hc
      · rw [mem_singleton.mp hc]
        exact isLetter_iff.mpr ⟨i % 26, by omega, rfl⟩

theorem letterName_ne (i : Nat) : (letterName i).toList ≠ [] := by
  rw [toList_letterName]
  split <;> simp

/-- Every word of letters is a name: the index of a longer word comes from the index of
the word without its last letter. -/
theorem exists_letterName {w : List Char} (hne : w ≠ []) (hw : ∀ c ∈ w, IsLetter c) :
    ∃ i, (letterName i).toList = w := by
  induction w using reverseRecOn with
  | nil => exact absurd rfl hne
  | append_singleton u c ih =>
    obtain ⟨k, hk, rfl⟩ := isLetter_iff.mp (hw c (by simp))
    by_cases hu : u = []
    · exact ⟨k, by rw [toList_letterName, if_pos hk, hu, nil_append]⟩
    · obtain ⟨i, rfl⟩ := ih hu fun d hd => hw d (mem_append_left _ hd)
      refine ⟨26 * (i + 1) + k, ?_⟩
      rw [toList_letterName, if_neg (by omega), show (26 * (i + 1) + k) / 26 - 1 = i by omega,
        show (26 * (i + 1) + k) % 26 = k by omega]

/-- Words with one more letter are in the order of the shorter words. -/
theorem shortlex_append {u w : List Char} (h : u.Shortlex (· < ·) w) (c d : Char) :
    (u ++ [c]).Shortlex (· < ·) (w ++ [d]) := by
  rcases shortlex_def.mp h with hlt | hlex
  · exact .of_length_lt (by simpa using hlt)
  · clear h
    obtain ⟨hlen, hlex⟩ := hlex
    refine .of_lex (by simpa using hlen) ?_
    induction hlex with
    | nil => simp at hlen
    | rel hab => exact .rel hab
    | cons _ ih => exact .cons (ih (by simpa using hlen))

theorem shortlex_letterName {i j : Nat} (hij : i < j) :
    (letterName i).toList.Shortlex (· < ·) (letterName j).toList := by
  induction j using Nat.strongRecOn generalizing i with
  | ind j ih =>
    rw [toList_letterName i, toList_letterName j]
    split
    · split
      · next hj => exact (shortlex_singleton_iff _ _).mpr (letter_lt hij hj)
      · refine .of_length_lt ?_
        simpa using length_pos_of_ne_nil (letterName_ne _)
    · rw [if_neg (by omega)]
      rcases Nat.lt_or_eq_of_le (Nat.div_le_div_right hij.le : i / 26 ≤ j / 26) with hlt | heq
      · exact shortlex_append (ih _ (by omega) (by omega)) _ _
      · rw [heq]
        refine .append_left ((shortlex_singleton_iff _ _).mpr (letter_lt ?_ ?_)) _
        all_goals omega

theorem shortlex_letterName_iff {i j : Nat} :
    (letterName i).toList.Shortlex (· < ·) (letterName j).toList ↔ i < j := by
  refine ⟨fun h => ?_, shortlex_letterName⟩
  by_contra hle
  rcases Nat.lt_or_eq_of_le (not_lt.mp hle) with hlt | rfl
  · exact Std.Asymm.asymm _ _ h (shortlex_letterName hlt)
  · exact Std.Irrefl.irrefl _ h

theorem letterName_injective : Injective letterName := by
  intro i j h
  have hij := shortlex_letterName_iff (i := i) (j := j)
  have hji := shortlex_letterName_iff (i := j) (j := i)
  rw [h, shortlex_letterName_iff] at hij hji
  omega

/-! ## Assigning names -/

/-- The cell is open and has no name. -/
def Cell.Waits (c : Cell) : Bool := c.binding.isNone && c.name.isNone

/-- The places of the cells that wait for a name. -/
def waiting (cs : List Cell) : List Nat :=
  (List.range cs.length).filter fun v => cs[v]?.any Cell.Waits

theorem waiting_append_singleton (cs : List Cell) (c : Cell) :
    waiting (cs ++ [c]) = waiting cs ++ if c.Waits then [cs.length] else [] := by
  have hold : ∀ v ∈ range cs.length, (cs ++ [c])[v]?.any Cell.Waits = cs[v]?.any Cell.Waits := by
    intro v hv
    rw [getElem?_append_left (mem_range.mp hv)]
  rw [waiting, length_append, length_singleton, range_succ, filter_append,
    filter_congr hold, filter_singleton]
  simp [waiting]

namespace Registry

theorem nameCell_eq (acc : Array Cell × Nat) (c : Cell) :
    nameCell acc c =
      if c.Waits then (acc.1.push { c with name := some (letterName acc.2) }, acc.2 + 1)
      else (acc.1.push c, acc.2) := by
  rw [nameCell, Cell.Waits]
  cases c.binding <;> cases c.name <;> rfl

/-- The cells that wait for a name get the next ones in their order, and the others stay
as they are. -/
theorem foldl_nameCell (cs : List Cell) (n : Nat) {out : Array Cell × Nat}
    (hout : cs.foldl nameCell (#[], n) = out) :
    out.1.size = cs.length ∧ out.2 = n + (waiting cs).length ∧
      (waiting cs).map (fun v => out.1[v]?.bind Cell.name) =
        (range' n (waiting cs).length).map (some ∘ letterName) ∧
      ∀ v ∉ waiting cs, out.1[v]? = cs[v]? := by
  induction cs using reverseRecOn generalizing out with
  | nil => simp [← hout, waiting]
  | append_singleton cs c ih =>
    obtain ⟨hsize, hnext, hnames, hothers⟩ := ih rfl
    rw [foldl_append, foldl_cons, foldl_nil, nameCell_eq] at hout
    generalize cs.foldl nameCell (#[], n) = mid at *
    have hlast : ∀ v, (cs ++ [c])[v]? = if v = cs.length then some c else cs[v]? := by
      intro v
      simpa using (Array.getElem?_push : (cs.toArray.push c)[v]? = _)
    -- the new cell comes after those that wait already
    have hkept : ∀ c', (waiting cs).map (fun v => (mid.1.push c')[v]?.bind Cell.name) =
        (range' n (waiting cs).length).map (some ∘ letterName) := by
      intro c'
      rw [← hnames]
      refine map_congr_left fun v hv => ?_
      have hv' : v < cs.length := mem_range.mp (mem_of_mem_filter hv)
      rw [Array.getElem?_push, if_neg (by omega)]
    rw [waiting_append_singleton]
    cases hc : c.Waits <;> simp only [hc, if_true, if_false, Bool.false_eq_true] at hout ⊢ <;>
      subst hout
    · refine ⟨by simp [hsize], by simp [hnext], by simpa using hkept c, fun v hv => ?_⟩
      rw [hlast, Array.getElem?_push, hsize, hothers v (by simpa using hv)]
    · refine ⟨by simp [hsize], by simp [hnext, add_assoc], ?_, fun v hv => ?_⟩
      · rw [map_append, hkept, length_append, length_singleton, range'_concat]
        simp [← hsize, hnext]
      · obtain ⟨hv, hne⟩ : v ∉ waiting cs ∧ v ≠ cs.length := by simpa using hv
        rw [hlast, Array.getElem?_push, hsize, if_neg hne, if_neg hne, hothers v hv]

variable {r r' : Registry}

/-- The variables that wait for a name, in the order of their creation. -/
def unnamedVars (r : Registry) : List Nat := waiting r.cells.toList

theorem mem_unnamedVars {v : Nat} :
    v ∈ r.unnamedVars ↔ v < r.varCount ∧ r.binding? v = none ∧ r.name? v = none := by
  simp only [unnamedVars, waiting, mem_filter, mem_range, Array.length_toList, varCount,
    Array.getElem?_toList]
  refine and_congr_right fun hv => ?_
  simp [binding?, name?, Cell.Waits, hv]

/-- What the assignment of names does: the variables that wait get the next names, and
no other variable's name changes. -/
theorem assignNames_names (r : Registry) :
    r.assignNames.nextName = r.nextName + r.unnamedVars.length ∧
      r.unnamedVars.map r.assignNames.name? =
        (range' r.nextName r.unnamedVars.length).map (some ∘ letterName) ∧
      ∀ v ∉ r.unnamedVars, r.assignNames.name? v = r.name? v := by
  obtain ⟨-, hnext, hnames, hothers⟩ := foldl_nameCell r.cells.toList r.nextName rfl
  simp only [Array.foldl_toList] at hnext hnames hothers
  refine ⟨hnext, hnames, fun v hv => ?_⟩
  have hcell := hothers v hv
  rw [Array.getElem?_toList] at hcell
  exact congrArg (·.bind Cell.name) hcell

theorem name?_addVar (r : Registry) (v : Nat) : r.addVar.name? v = r.name? v := by
  simp only [addVar, name?, Array.getElem?_push]
  split
  · next h => subst h; simp
  · rfl

theorem name?_setBinding (r : Registry) (v w : Nat) (t : Ty) :
    (r.setBinding v t).name? w = r.name? w := by
  simp only [setBinding, name?, Array.getElem?_modify]
  split
  · cases r.cells[w]? <;> rfl
  · rfl

/-- No name has been given. -/
structure SameNames (r r' : Registry) : Prop where
  name? : ∀ v, r'.name? v = r.name? v
  nextName : r'.nextName = r.nextName

/-- Names are given by no step of a run. -/
theorem SameNames.discipline (r : Registry) :
    Discipline (inRegistry r.SameNames) (fun _ _ => True) fun _ => True :=
  .of_registry (fun r' h => ⟨fun v => (name?_addVar r' v).trans (h.name? v), h.nextName⟩)
    (fun r' v t h _ => ⟨fun w => (name?_setBinding r' v w t).trans (h.name? w), h.nextName⟩)
    (fun _ h => ⟨h.name?, h.nextName⟩) fun _ h => ⟨h.name?, h.nextName⟩

/-- The variables that have a name afterwards and had none before, in the order of their
creation. -/
def newlyNamed (r r' : Registry) : List Nat :=
  (List.range r'.varCount).filter fun v => (r.name? v).isNone && (r'.name? v).isSome

theorem SameNames.newlyNamed (h : r.SameNames r') : r.newlyNamed r' = [] := by
  refine filter_eq_nil_iff.mpr fun v _ => ?_
  rw [h.name? v]
  cases r.name? v <;> simp

theorem isSome_name?_assignNames {v : Nat} (hv : v ∈ r.unnamedVars) :
    (r.assignNames.name? v).isSome := by
  have hmem := mem_map_of_mem (f := r.assignNames.name?) hv
  rw [(assignNames_names r).2.1] at hmem
  obtain ⟨i, -, hi⟩ := mem_map.mp hmem
  rw [← hi]
  rfl

theorem isSome_name?_of_open {v : Nat} (hv : v < r.varCount) (hopen : r.binding? v = none) :
    (r.assignNames.name? v).isSome := by
  by_cases hwaits : v ∈ r.unnamedVars
  · exact isSome_name?_assignNames hwaits
  · rw [(assignNames_names r).2.2 v hwaits, isSome_iff_ne_none]
    exact fun hname => hwaits (mem_unnamedVars.mpr ⟨hv, hopen, hname⟩)

theorem newlyNamed_assignNames (r : Registry) : r.newlyNamed r.assignNames = r.unnamedVars := by
  rw [newlyNamed, varCount_assignNames, unnamedVars, waiting]
  refine filter_congr fun v hv => ?_
  have hwaits : r.cells.toList[v]?.any Cell.Waits = true ↔ v ∈ r.unnamedVars :=
    ⟨fun h => mem_filter.mpr ⟨by simpa [varCount] using hv, h⟩, fun h => (mem_filter.mp h).2⟩
  rw [Bool.eq_iff_iff, hwaits]
  by_cases hmem : v ∈ r.unnamedVars
  · simp [hmem, isSome_name?_assignNames hmem, (mem_unnamedVars.mp hmem).2.2]
  · rw [(assignNames_names r).2.2 v hmem]
    cases r.name? v <;> simp [hmem]

/-- The variables of the list are those with a name, in the order in which the names are
enumerated. -/
structure NamedInOrder (r : Registry) (vs : List Nat) : Prop where
  names : vs.map r.name? = (List.range r.nextName).map (some ∘ letterName)
  mem_iff : ∀ v, v ∈ vs ↔ (r.name? v).isSome

theorem NamedInOrder.unique {vs : List Nat} (h : r.NamedInOrder vs) {v w : Nat} {n : String}
    (hv : r.name? v = some n) (hw : r.name? w = some n) : v = w := by
  have hnodup : (vs.map r.name?).Nodup := by
    rw [h.names]
    exact nodup_range.map ((some_injective _).comp letterName_injective)
  exact inj_on_of_nodup_map hnodup ((h.mem_iff v).mpr (by simp [hv]))
    ((h.mem_iff w).mpr (by simp [hw])) (hv.trans hw.symm)

theorem NamedInOrder.assignNames {vs : List Nat} (h : r.NamedInOrder vs) :
    r.assignNames.NamedInOrder (vs ++ r.unnamedVars) := by
  obtain ⟨hnext, hnames, hothers⟩ := assignNames_names r
  have hold : ∀ v ∈ vs, r.assignNames.name? v = r.name? v := fun v hv => by
    refine hothers v fun hwaits => ?_
    simpa [(mem_unnamedVars.mp hwaits).2.2] using (h.mem_iff v).mp hv
  refine ⟨?_, fun v => ?_⟩
  · rw [map_append, map_congr_left hold, h.names, hnames, hnext, ← map_append,
      range_eq_range', range_eq_range', ← range'_append_1, Nat.zero_add]
  · rw [mem_append, h.mem_iff]
    by_cases hv : v ∈ r.unnamedVars
    · simp [hv, isSome_name?_assignNames hv]
    · simp [hv, hothers v hv]

end Registry

/-! ## Sequences of calls -/

/-- A call on a registry that may issue, bind or name variables. -/
inductive Call where
  | freshVar
  | unify (a b : Ty)
  | assignNames

/-- The state after a call, whether it succeeds or fails. -/
def Call.run : Call → State → State
  | .freshVar, s => after (Check.freshVar : Check TypeError Ty) s
  | .unify a b, s => after (RowTyping.unify a b) s
  | .assignNames, s => { s with registry := s.registry.assignNames }

/-- The state after calls one after the other. -/
def runCalls (calls : List Call) (s : State) : State := calls.foldl (fun s call => call.run s) s

/-- The variables that calls give names to, call by call. -/
def namedBy : List Call → State → List Nat
  | [], _ => []
  | call :: calls, s =>
      s.registry.newlyNamed (call.run s).registry ++ namedBy calls (call.run s)

namespace Call

variable {s : State} {vs : List Nat}

/-- A call gives no name, or it is the call that gives them. -/
theorem run_cases (call : Call) (s : State) :
    s.registry.SameNames (call.run s).registry ∨
      (call.run s).registry = s.registry.assignNames := by
  cases call with
  | freshVar => exact .inl ⟨name?_addVar s.registry, rfl⟩
  | unify a b =>
    exact .inl ((SameNames.discipline s.registry).keeps_unify trivial trivial s
      ⟨fun _ => rfl, rfl⟩ (Nat.zero_le _)).1
  | assignNames => exact .inr rfl

theorem namedInOrder_run (call : Call) (h : s.registry.NamedInOrder vs) :
    (call.run s).registry.NamedInOrder (vs ++ s.registry.newlyNamed (call.run s).registry) := by
  rcases call.run_cases s with hsame | hnames
  · rw [hsame.newlyNamed, append_nil]
    exact ⟨by rw [hsame.nextName, ← h.names, funext hsame.name?], fun v => by
      rw [h.mem_iff, hsame.name?]⟩
  · rw [hnames, newlyNamed_assignNames]
    exact h.assignNames

theorem name?_run (call : Call) {v : Nat} {n : String} (h : s.registry.name? v = some n) :
    (call.run s).registry.name? v = some n := by
  rcases call.run_cases s with hsame | hnames
  · rw [hsame.name?, h]
  · rw [hnames, (assignNames_names _).2.2 v, h]
    intro hwaits
    simp [(mem_unnamedVars.mp hwaits).2.2] at h

end Call

theorem namedInOrder_runCalls (calls : List Call) {s : State} {vs : List Nat}
    (h : s.registry.NamedInOrder vs) :
    (runCalls calls s).registry.NamedInOrder (vs ++ namedBy calls s) := by
  induction calls generalizing s vs with
  | nil => simpa [runCalls, namedBy] using h
  | cons call calls ih =>
    rw [namedBy, ← append_assoc]
    exact ih (call.namedInOrder_run h)

theorem name?_runCalls (calls : List Call) {s : State} {v : Nat} {n : String}
    (h : s.registry.name? v = some n) : (runCalls calls s).registry.name? v = some n := by
  induction calls generalizing s with
  | nil => exact h
  | cons call calls ih => exact ih (call.name?_run h)

/-- Names enumerate the non-empty words of letters, each once, the shorter ones first and
those of one length in alphabetical order. After any calls on a new registry, no two
variables share a name; names stay, whatever calls follow; after an assignment of names
every open variable has one; and the names that were given are the first so many of the
enumeration, in the order of the calls and, for one call, of the creation of the
variables. -/
theorem display_names_last :
    (Function.Injective letterName ∧
      (∀ w : String, (∃ i, letterName i = w) ↔ w ≠ "" ∧ ∀ c ∈ w.toList, 'a' ≤ c ∧ c ≤ 'z') ∧
      ∀ i j, (letterName i).toList.Shortlex (· < ·) (letterName j).toList ↔ i < j) ∧
    ∀ calls : List Call,
      (∀ v w n, (runCalls calls {}).registry.name? v = some n →
        (runCalls calls {}).registry.name? w = some n → v = w) ∧
      (∀ later v n, (runCalls calls {}).registry.name? v = some n →
        (runCalls (calls ++ later) {}).registry.name? v = some n) ∧
      (∀ v < (runCalls (calls ++ [.assignNames]) {}).registry.varCount,
        (runCalls (calls ++ [.assignNames]) {}).registry.binding? v = none →
          ((runCalls (calls ++ [.assignNames]) {}).registry.name? v).isSome) ∧
      ∃ n, (namedBy calls {}).map (runCalls calls {}).registry.name? =
          (List.range n).map (some ∘ letterName) ∧
        ∀ v, v ∈ namedBy calls {} ↔ ((runCalls calls {}).registry.name? v).isSome := by
  refine ⟨⟨letterName_injective, fun w => ?_, fun i j => shortlex_letterName_iff⟩, fun calls => ?_⟩
  · constructor
    · rintro ⟨i, rfl⟩
      exact ⟨fun h => letterName_ne i (by simp [h]), isLetter_of_mem_letterName i⟩
    · rintro ⟨hne, hw⟩
      obtain ⟨i, hi⟩ := exists_letterName (by simpa using hne) hw
      exact ⟨i, String.toList_inj.mp hi⟩
  · have hstart : ({} : State).registry.NamedInOrder [] := ⟨rfl, fun v => by simp [Registry.name?]⟩
    have hnamed : (runCalls calls {}).registry.NamedInOrder (namedBy calls {}) :=
      namedInOrder_runCalls calls hstart
    have happend : ∀ later, runCalls (calls ++ later) {} = runCalls later (runCalls calls {}) :=
      fun later => List.foldl_append
    refine ⟨fun v w n => hnamed.unique, fun later v n hv => ?_, fun v hv hopen => ?_,
      _, hnamed.names, hnamed.mem_iff⟩
    · rw [happend]
      exact name?_runCalls later hv
    · rw [happend] at hv hopen ⊢
      exact Registry.isSome_name?_of_open (by simpa [runCalls, Call.run] using hv)
        (by simpa [runCalls, Call.run] using hopen)

end RowTyping
