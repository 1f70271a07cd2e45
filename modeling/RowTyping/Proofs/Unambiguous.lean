import RowTyping.Proofs.FreshInstances
import RowTyping.Proofs.Naming
import RowTyping.Text.Printer

/-!
# Texts of types are unambiguous

Two types with one text differ in nothing that a reader could see: a text can be read
back, letter by letter and without looking ahead. What it does not tell are the numbers
of generalized variables, the labels of parameters and whether a nominal type is a
variant or abstract.
-/

namespace RowTyping

open Table Ty TyVar List

/-! ## Words -/

/-- The letters of identifiers. -/
def IsWordLetter (x : Char) : Prop := x.isAlphanum ∨ x = '_' ∨ x = '\''

instance (x : Char) : Decidable (IsWordLetter x) := by unfold IsWordLetter; infer_instance

-- letters are checked one by one, not all there are
instance decidableLetters (w : List Char) (p : Char → Prop) [DecidablePred p] :
    Decidable (∀ x ∈ w, p x) :=
  decidableBAll p w

def IsIdentifier (w : String) : Prop := w ≠ "" ∧ ∀ x ∈ w.toList, IsWordLetter x

instance (w : String) : Decidable (IsIdentifier w) := by unfold IsIdentifier; infer_instance

theorem isWordLetter_of_mem_toDigits {n : Nat} : ∀ x ∈ Nat.toDigits 10 n, IsWordLetter x :=
  fun _ hx => .inl (Bool.or_eq_true_iff.mpr
    (.inr (Nat.isDigit_of_mem_toDigits (by decide) (by decide) hx)))

theorem toList_genName (i : Nat) :
    (genName i).toList = letter (i % 26) :: if i < 26 then [] else Nat.toDigits 10 (i / 26) := by
  rw [genName]
  split
  · next h => simp [Nat.mod_eq_of_lt h]
  · simp

/-! ## Types that are written down -/

/-- The head as a text shows it: without the labels of parameters, and with abstract
types like variants. -/
def Con.forget : Con → Con
  | .variant id _ => .variant id []
  | .abstract id _ => .variant id []
  | c => c

namespace Ty

mutual

/-- The type with its heads as a text shows them. -/
def forget : Ty → Ty
  | .var x => .var x
  | .con c args => .con c.forget (forgetList args)
  | .record fields tail => .record (forgetFields fields) tail.forget
  | .synonym id labels params target => .synonym id labels (forgetList params) target.forget
  | .module name members => .module name members

def forgetList : List Ty → List Ty
  | [] => []
  | t :: ts => t.forget :: forgetList ts

def forgetFields : List (String × Ty) → List (String × Ty)
  | [] => []
  | (l, t) :: fs => (l, t.forget) :: forgetFields fs

end

@[simp] theorem forgetList_eq (ts : List Ty) : forgetList ts = ts.map forget := by
  induction ts with
  | nil => rfl
  | cons t ts ih => simp [forgetList, ih]

@[simp] theorem forgetFields_eq (fs : Table Ty) :
    forgetFields fs = fs.map fun e => (e.1, e.2.forget) := by
  induction fs with
  | nil => rfl
  | cons f fs ih => simp [forgetFields, ih]

theorem occurrences_forget (t : Ty) : t.forget.occurrences = t.occurrences := by
  induction t with
  | con c args ih =>
    simp only [forget, occurrences, occurrencesList_eq, forgetList_eq, flatMap_map]
    exact flatMap_congr ih
  | record fs tail ihf iht =>
    simp only [forget, occurrences, occurrencesFields_eq, forgetFields_eq, flatMap_map, iht]
    rw [flatMap_congr ihf]
  | synonym id labels params target ihp iht =>
    simp only [forget, occurrences, occurrencesList_eq, forgetList_eq, flatMap_map, iht]
    rw [flatMap_congr ihp]
  | _ => rfl

/-- The variables whose numbers a text does not tell. -/
def gens (t : Ty) : Set Nat := {g | .gen g ∈ t.occurrences}

end Ty

/-- A generalized variable under another number. -/
def TyVar.renumber (ρ : Nat → Nat) : TyVar → Ty
  | .flex n => .flex n
  | .gen g => .gen (ρ g)

namespace Ty

theorem subst_renumber (f g : Nat → Nat) (t : Ty) :
    (t.subst (renumber f)).subst (renumber g) = t.subst (renumber (g ∘ f)) := by
  rw [subst_subst]
  exact subst_congr fun x _ => by cases x <;> rfl

theorem gens_renumber (f : Nat → Nat) (t : Ty) : (t.subst (renumber f)).gens = f '' t.gens := by
  ext i
  simp only [gens, occurrences_subst, Set.mem_ofPred_eq, mem_flatMap, Set.mem_image]
  constructor
  · rintro ⟨_ | g, hg, hi⟩
    · simp [renumber, occurrences] at hi
    · exact ⟨g, hg, by simpa [renumber, occurrences, eq_comm] using hi⟩
  · rintro ⟨g, hg, rfl⟩
    exact ⟨.gen g, hg, by simp [renumber, occurrences]⟩

/-- Types that agree after each was numbered without confusion are the same up to the
numbers. -/
theorem exists_renumber {f g : Nat → Nat} {t u : Ty} (hf : t.gens.InjOn f) (hg : u.gens.InjOn g)
    (h : t.subst (renumber f) = u.subst (renumber g)) :
    ∃ ρ, Set.BijOn ρ t.gens u.gens ∧ u = t.subst (renumber ρ) := by
  have himage : f '' t.gens = g '' u.gens := by rw [← gens_renumber, h, gens_renumber]
  have hinv := hg.bijOn_image.invOn_invFunOn
  refine ⟨Function.invFunOn g u.gens ∘ f, ?_, ?_⟩
  · exact (hg.bijOn_image.symm hinv.symm).comp (himage ▸ hf.bijOn_image)
  · rw [← subst_renumber, h, subst_renumber]
    refine (subst_var u).symm.trans (subst_congr fun x hx => ?_)
    cases x with
    | flex n => rfl
    | gen i => exact congrArg gen (hinv.1 hx).symm

/-- The types that are built without synonyms and modules: a tuple has at least two
components, a nominal type shows a number, and a record ends in the empty row or a
variable. -/
inductive Printable : Ty → Prop
  | var (x : TyVar) : Printable (.var x)
  | base (b : Base) : Printable (.base b)
  | arrow {a r : Ty} (ha : Printable a) (hr : Printable r) : Printable (.arrow a r)
  | tuple {ts : List Ty} (hlen : 2 ≤ ts.length) (h : ∀ t ∈ ts, Printable t) :
      Printable (.con .tuple ts)
  | nominal {c : Con} {id : Nat} {ts : List Ty} (hc : c.forget = .variant id [])
      (h : ∀ t ∈ ts, Printable t) : Printable (.con c ts)
  | record {fs : List (String × Ty)} (hs : Sorted fs) (hl : ∀ e ∈ fs, IsIdentifier e.1)
      (h : ∀ e ∈ fs, Printable e.2) (rest : Option TyVar) :
      Printable (.record fs (rest.elim .emptyRow .var))

end Ty

/-! ## Reading a text -/

/-- The word of a piece, when generalized variables are known by numbers. -/
def Piece.word (ν : Nat → Nat) : Piece → List Char
  | .text w => w.toList
  | .var (.flex v) => '\'' :: '_' :: 't' :: Nat.toDigits 10 v
  | .var (.gen g) => '\'' :: (genName (ν g)).toList
  | .nominal id => '#' :: Nat.toDigits 10 id

/-- What was read last: a word, the number behind some arguments, or types in brackets. -/
inductive Latest where
  | word (w : List Char)
  | number (args : List Ty) (ds : List Char)
  | bracket (ts : List Ty)

/-- The variable or base type of a word. -/
def leaf : List Char → Ty
  | '\'' :: x :: w =>
      if x = '_' then .flex (Nat.ofDigitChars 10 w.tail 0)
      else .gen (26 * Nat.ofDigitChars 10 w 0 + (x.toNat - 97))
  | w => .base ((([.int, .float, .bool, .string, .char] : List Base).find?
      (·.text.toList = w)).getD .unit)

namespace Latest

/-- The types that stand here. -/
def types : Latest → List Ty
  | .word [] => []
  | .word w => [leaf w]
  | .number args ds => [.con (.variant (Nat.ofDigitChars 10 ds 0) []) args]
  | .bracket ts => ts

def push (xs : List Char) : Latest → Latest
  | .word w => .word (w ++ xs)
  | .number args ds => .number args (ds ++ xs)
  | .bracket ts => .bracket ts

end Latest

/-- What was read since the last open bracket: the finished entries, and of the next one
the label, the arguments of a function, the factors of a tuple, and what was read last. -/
structure Layer where
  entries : List (String × Ty) := []
  label : String := ""
  args : List Ty := []
  factors : List Ty := []
  latest : Latest := .word []

namespace Layer

/-- The factors read so far, as one type if there is one. -/
def product (F : Layer) : List Ty :=
  if F.factors = [] then F.latest.types else [.con .tuple (F.factors ++ F.latest.types)]

/-- All entries, with the one that ends here. -/
def all (F : Layer) : List (String × Ty) :=
  F.entries ++ F.product.map fun t => (F.label, arrows F.args t)

/-- The record of the entries in braces. -/
def record (F : Layer) : Ty :=
  .record (F.all.filter (·.1 ≠ ".")) ((F.all.lookup ".").getD .emptyRow)

theorem record_eq (F : Layer) (fs : Table Ty) (rest : Option Ty)
    (h : F.all = fs ++ rest.toList.map (".", ·)) (hfs : ∀ e ∈ fs, e.1 ≠ ".") :
    F.record = .record fs (rest.getD .emptyRow) := by
  rw [record, h, filter_append, lookup_append,
    filter_eq_self.mpr fun e he => decide_eq_true (hfs e he),
    lookup_eq_none_iff.mpr fun e he => bne_iff_ne.mpr (hfs e he).symm]
  cases rest <;> simp

end Layer

/-- One letter after the other, with the layers of the open brackets below the first. -/
def step : List Layer → Char → List Layer
  | [], _ => []
  | F :: S, x =>
    match x, S with
    | ' ', S | '>', S => F :: S
    | '-', S => { F with args := F.args ++ F.product, factors := [], latest := .word [] } :: S
    | '*', S => { F with factors := F.factors ++ F.latest.types, latest := .word [] } :: S
    | '#', S => { F with latest := .number F.latest.types [] } :: S
    | ',', S => { entries := F.all } :: S
    | '.', S => { F with label := "." } :: S
    | ':', S =>
      match F.latest with
      | .word w => { F with label := String.ofList w, latest := .word [] } :: S
      | _ => F :: S
    | '(', S | '\x7b', S => {} :: F :: S
    | ')', G :: S => { G with latest := .bracket (F.all.map (·.2)) } :: S
    | '\x7d', G :: S => { G with latest := .bracket [F.record] } :: S
    | x, S => { F with latest := F.latest.push [x] } :: S

theorem step_word {F : Layer} {S : List Layer} {x : Char} (hx : IsWordLetter x) :
    step (F :: S) x = { F with latest := F.latest.push [x] } :: S := by
  have hnot : ∀ c ∈ " >-*#,.:(\x7b)\x7d".toList, ¬IsWordLetter c := by decide
  simp only [step]
  split <;> first | rfl | exact absurd hx (hnot _ (by decide))

/-- Reading a text. -/
def scan (S : List Layer) (xs : List Char) : List Layer := xs.foldl step S

/-- Reading the words of pieces. -/
def read (ν : Nat → Nat) (S : List Layer) (ps : List Piece) : List Layer :=
  scan S (ps.flatMap (·.word ν))

/-- The layer after a type was read in its place. -/
structure Layer.Reads (F : Layer) (p : Prec) (t : Ty) (F' : Layer) : Prop where
  entries : F'.entries = F.entries
  label : F'.label = F.label
  arrow : p = .arrow → F'.product.map (arrows F'.args) = [arrows F.args t]
  tuple : p = .tuple → F'.args = F.args ∧ F'.product = [t]
  atom : p = .atom → F' = { F with latest := F'.latest } ∧ F'.latest.types = [t]

/-- The type as its text shows it. -/
abbrev Ty.shownAs (ν : Nat → Nat) (t : Ty) : Ty := t.forget.subst (renumber ν)

/-- The text of the type is read in every place. -/
def Ty.Readable (ν : Nat → Nat) (t : Ty) : Prop :=
  ∀ (p : Prec) (F : Layer) (S : List Layer), F.latest = .word [] → (p ≠ .atom → F.factors = []) →
    ∃ F', read ν (F :: S) (t.form.pieces p) = F' :: S ∧ F.Reads p (t.shownAs ν) F'

section Layers

variable {ν : Nat → Nat} {F F' : Layer} {S : List Layer} {p : Prec} {ps : List Piece} {x : Piece}
  {t a r : Ty} {ts : List Ty}

theorem scan_append {xs ys : List Char} : scan S (xs ++ ys) = scan (scan S xs) ys :=
  foldl_append

theorem scan_word {w : List Char} (hw : ∀ x ∈ w, IsWordLetter x) :
    scan (F :: S) w = { F with latest := F.latest.push w } :: S := by
  induction w generalizing F with
  | nil => cases hF : F.latest <;> simp [scan, Latest.push, ← hF]
  | cons x w ih =>
    obtain ⟨hx, hw⟩ := forall_mem_cons.mp hw
    rw [scan, foldl_cons, step_word hx]
    refine (ih hw).trans ?_
    cases F.latest <;> simp [Latest.push]

theorem read_cons : read ν S (x :: ps) = read ν (scan S (x.word ν)) ps := scan_append

theorem read_append {qs : List Piece} : read ν S (ps ++ qs) = read ν (read ν S ps) qs := by
  rw [read, flatMap_append, scan_append]
  rfl

theorem Layer.reads_latest {l : Latest} (hl : l.types = [t]) (hF : p ≠ .atom → F.factors = []) :
    F.Reads p t { F with latest := l } := by
  refine ⟨rfl, rfl, ?_, ?_, ?_⟩ <;> rintro rfl <;> simp_all [Layer.product]

theorem Layer.Reads.all_eq (h : F.Reads .arrow t F') (hF : F.args = []) :
    F'.all = F.entries ++ [(F.label, t)] := by
  have hmap := congrArg (List.map (F.label, ·)) (h.arrow rfl)
  rw [map_map, hF] at hmap
  rw [Layer.all, h.entries, h.label]
  exact congrArg _ hmap

/-- The pieces are read as one more entry. -/
def EntryRead (ν : Nat → Nat) (S : List Layer) (ps : List Piece) (e : String × Ty) : Prop :=
  ∀ done, ∃ F, read ν ({ entries := done } :: S) ps = F :: S ∧ F.all = done ++ [e]

theorem entryRead_of_label (label : List Piece) {l : String} (h : t.Readable ν)
    (hlabel : ∀ done,
      read ν ({ entries := done } :: S) label = { entries := done, label := l } :: S) :
    EntryRead ν S (label ++ t.form.pieces .arrow) (l, t.shownAs ν) := by
  intro done
  obtain ⟨F, hF, hreads⟩ := h .arrow { entries := done, label := l } S rfl fun _ => rfl
  exact ⟨F, by rw [read_append, hlabel, hF], hreads.all_eq rfl⟩

theorem read_parens (hp : p ≠ .atom → F.factors = [])
    (h : ∃ G, read ν ({} :: F :: S) ps = G :: F :: S ∧ ({} : Layer).Reads .arrow t G) :
    ∃ F', read ν (F :: S) (Form.parens true ps) = F' :: S ∧ F.Reads p t F' := by
  obtain ⟨G, hG, hreads⟩ := h
  refine ⟨{ F with latest := .bracket (G.all.map (·.2)) }, ?_,
    Layer.reads_latest (by simp [Latest.types, hreads.all_eq rfl]) hp⟩
  change read ν ({} :: F :: S) (ps ++ _) = _
  rw [read_append, hG]
  rfl

/-- Entries are read one after the other. -/
theorem read_listed {items : List (List Piece)} {es : Table Ty}
    (h : Forall₂ (EntryRead ν S) items es) (done : Table Ty) :
    ∃ F, read ν ({ entries := done } :: S) (Form.separated ", " items) = F :: S ∧
      F.all = done ++ es := by
  induction h generalizing done with
  | nil => exact ⟨_, rfl, rfl⟩
  | @cons ps e items es hhead htail ih =>
    obtain ⟨F, hF, hall⟩ := hhead done
    cases htail with
    | nil => exact ⟨F, by simpa [Form.separated] using hF, hall⟩
    | cons =>
      obtain ⟨F', hF', hall'⟩ := ih F.all
      refine ⟨F', ?_, by simp [hall', hall]⟩
      rw [Form.separated, intercalate_cons_cons, read_append, read_append, hF]
      exact hF'

/-- Factors are read one after the other. -/
theorem read_factors (h : ∀ t ∈ ts, t.Readable ν) (hne : ts ≠ []) (hF : F.latest = .word []) :
    ∃ F', read ν (F :: S) (Form.separated " * " (ts.map (·.form.pieces .atom))) = F' :: S ∧
      F' = { F with factors := F'.factors, latest := F'.latest } ∧
      F'.latest.types.length = 1 ∧
      F'.factors ++ F'.latest.types = F.factors ++ ts.map (·.shownAs ν) := by
  induction ts generalizing F with
  | nil => exact absurd rfl hne
  | cons t ts ih =>
    obtain ⟨ht, hts⟩ := forall_mem_cons.mp h
    obtain ⟨F₁, hF₁, hreads⟩ := ht .atom F S hF fun h => absurd rfl h
    obtain ⟨heq, htypes⟩ := hreads.atom rfl
    have hfactors := congrArg Layer.factors heq
    cases ts with
    | nil =>
      exact ⟨F₁, by simpa [Form.separated] using hF₁, by rw [hfactors, ← heq], by simp [htypes],
        by simp [hfactors, htypes]⟩
    | cons u us =>
      obtain ⟨F', hF', heq', hone, hall⟩ := ih hts (by simp)
        (F := { F₁ with factors := F₁.factors ++ F₁.latest.types, latest := .word [] }) rfl
      refine ⟨F', ?_, by rw [heq', heq], hone, by simp [hall, hfactors, htypes]⟩
      rw [map_cons, map_cons, Form.separated, intercalate_cons_cons, read_append, read_append, hF₁]
      exact hF'

namespace Ty

theorem readable_word (hform : ∀ p, t.form.pieces p = [x])
    (hw : ∀ y ∈ x.word ν, IsWordLetter y) (hne : x.word ν ≠ [])
    (hleaf : leaf (x.word ν) = t.shownAs ν) : t.Readable ν := by
  intro p F S hF hp
  rw [hform, read_cons, scan_word hw]
  refine ⟨_, rfl, Layer.reads_latest ?_ hp⟩
  rw [hF, ← hleaf]
  cases hword : x.word ν with
  | nil => exact absurd hword hne
  | cons y w => rfl

theorem readable_var (x : TyVar) : (var x).Readable ν := by
  cases x with
  | flex v =>
    refine readable_word (fun _ => rfl) ?_ (by simp [Piece.word])
      (by simp [Piece.word, leaf, shownAs, forget, subst, renumber])
    simp only [Piece.word, forall_mem_cons]
    exact ⟨by decide, by decide, by decide, isWordLetter_of_mem_toDigits⟩
  | gen g =>
    have hletter : ∀ k < 26, IsWordLetter (letter k) ∧ letter k ≠ '_' := by decide
    have hmod := Nat.mod_lt (ν g) (show 26 > 0 by decide)
    refine readable_word (fun _ => rfl) ?_ (by simp [Piece.word]) ?_
    · simp only [Piece.word, toList_genName, forall_mem_cons]
      refine ⟨by decide, (hletter _ hmod).1, ?_⟩
      split
      · simp
      · exact isWordLetter_of_mem_toDigits
    · rw [Piece.word, toList_genName, leaf, if_neg (hletter _ hmod).2, toNat_letter hmod]
      refine congrArg gen ?_
      split
      · rw [Nat.ofDigitChars_nil]
        omega
      · rw [Nat.ofDigitChars_ten_toDigits]
        omega

theorem readable_base (b : Base) : (base b).Readable ν := by
  refine readable_word (fun _ => rfl) ?_ ?_ ?_
  all_goals cases b <;> first | rfl | (simp only [Piece.word]; decide)

theorem readable_arrow (ha : a.Readable ν) (hr : r.Readable ν) : (arrow a r).Readable ν := by
  have hbody : ∀ {F : Layer} (S), F.latest = .word [] → F.factors = [] → ∃ F',
      read ν (F :: S) (a.form.pieces .tuple ++ .text " -> " :: r.form.pieces .arrow) = F' :: S ∧
        F.Reads .arrow ((arrow a r).shownAs ν) F' := by
    intro F S hF hfactors
    obtain ⟨F₁, hF₁, hreads⟩ := ha .tuple F S hF fun _ => hfactors
    obtain ⟨hargs, hproduct⟩ := hreads.tuple rfl
    obtain ⟨F₂, hF₂, hreads₂⟩ := hr .arrow { F₁ with
      args := F₁.args ++ F₁.product, factors := [], latest := .word [] } S rfl fun _ => rfl
    refine ⟨F₂, by rw [read_append, hF₁]; exact hF₂,
      hreads₂.entries.trans hreads.entries, hreads₂.label.trans hreads.label, ?_, by simp, by simp⟩
    rw [hreads₂.arrow rfl, hargs, hproduct]
    simp [arrows, shownAs, forget, subst, Con.forget]
  intro p F S hF hp
  cases p with
  | arrow => exact hbody S hF (hp (by simp))
  | tuple | atom => exact read_parens hp (hbody (F :: S) rfl rfl)

theorem readable_tuple (hlen : 2 ≤ ts.length) (h : ∀ t ∈ ts, t.Readable ν) :
    (con .tuple ts).Readable ν := by
  have hbody : ∀ {p : Prec} {F : Layer} (S), F.latest = .word [] → F.factors = [] → p ≠ .atom →
      ∃ F', read ν (F :: S) (Form.separated " * " (ts.map (·.form.pieces .atom))) = F' :: S ∧
        F.Reads p ((con .tuple ts).shownAs ν) F' := by
    intro p F S hF hfactors hp
    obtain ⟨F', hF', heq, hone, hall⟩ := read_factors h (by rintro rfl; simp at hlen) hF
    have hargs := congrArg Layer.args heq
    have hproduct : F'.product = [(con .tuple ts).shownAs ν] := by
      have hlength := congrArg List.length hall
      rw [Layer.product, if_neg, hall, hfactors]
      · simp [shownAs, forget, subst, Con.forget, Function.comp_def]
      · intro hnil
        simp [hnil, hfactors, hone] at hlength
        omega
    exact ⟨F', hF', by rw [heq], by rw [heq], fun _ => by simp [hproduct, hargs],
      fun _ => ⟨hargs, hproduct⟩, fun h => absurd h hp⟩
  intro p F S hF hp
  rw [form, formList_eq, Con.form, Form.tuple, map_map]
  cases p with
  | arrow | tuple => exact hbody S hF (hp (by simp)) (by simp)
  | atom => exact read_parens hp (hbody (F :: S) rfl rfl (by simp))

theorem readable_nominal {c : Con} {id : Nat} (hc : c.forget = .variant id [])
    (h : ∀ t ∈ ts, t.Readable ν) : (con c ts).Readable ν := by
  intro p F S hF hp
  have hform : (con c ts).form = .nominal id (ts.map form) := by
    rw [form]
    cases c <;> simp_all [Con.forget, Con.form]
  suffices hfront : ∃ l : Latest, read ν (F :: S) ((con c ts).form.pieces p) =
      read ν ({ F with latest := l } :: S) [.nominal id] ∧ l.types = ts.map (·.shownAs ν) by
    obtain ⟨l, hl, htypes⟩ := hfront
    refine ⟨{ F with latest := .number l.types (Nat.toDigits 10 id) }, hl.trans ?_,
      Layer.reads_latest ?_ hp⟩
    · rw [read_cons]
      exact scan_word isWordLetter_of_mem_toDigits
    · rw [htypes]
      simp [Latest.types, shownAs, forget, subst, hc, Function.comp_def]
  rw [hform]
  rcases ts with _ | ⟨t, _ | ⟨u, ts⟩⟩
  · exact ⟨F.latest, rfl, by rw [hF]; rfl⟩
  · obtain ⟨F₁, hF₁, hreads⟩ := h t mem_cons_self .atom F S hF fun h => absurd rfl h
    obtain ⟨heq, htypes⟩ := hreads.atom rfl
    refine ⟨F₁.latest, ?_, htypes⟩
    rw [← heq]
    exact read_append.trans (by rw [hF₁]; rfl)
  · have hitems : Forall₂ (EntryRead ν (F :: S))
        (((t :: u :: ts).map form).map (·.pieces .arrow))
        ((t :: u :: ts).map fun t => ("", t.shownAs ν)) := by
      simp only [forall₂_map_left_iff, forall₂_map_right_iff, forall₂_same]
      exact fun t ht => entryRead_of_label [] (h t ht) fun _ => rfl
    obtain ⟨G, hG, hall⟩ := read_listed hitems []
    refine ⟨.bracket (G.all.map (·.2)), ?_, by simp [Latest.types, hall]⟩
    change read ν ({} :: F :: S) ((Form.separated ", " (((t :: u :: ts).map form).map
      (·.pieces .arrow)) ++ [_]) ++ [_, _]) = _
    rw [read_append, read_append, hG]
    rfl

theorem pieces_record {fs : Table Ty} (hs : Sorted fs) (rest : Option TyVar) :
    (record fs (rest.elim .emptyRow .var)).form.pieces p =
      .text "\x7b" :: Form.separated ", "
        (fs.map (fun e => .text (e.1 ++ ": ") :: e.2.form.pieces .arrow) ++
          rest.toList.map fun x => [.text "..", .var x]) ++ [.text "\x7d"] := by
  have hsort : ∀ {gs : List (String × List Piece)}, Sorted gs → sort gs = gs := fun {gs} h => by
    induction h with
    | nil => rfl
    | @cons e gs he _ ih =>
      change insertSorted e (sort gs) = _
      rw [ih]
      cases gs with
      | nil => rfl
      | cons f gs => exact if_neg (not_lt.mpr (he f mem_cons_self).le)
  have hsorted : Sorted (fs.map fun e => (e.1, e.2.form.pieces .arrow)) := pairwise_map.mpr hs
  cases rest <;> simp [form, Con.form, Form.row, Form.ofPieces, hsort hsorted, Function.comp_def]

theorem readable_record {fs : Table Ty} (hs : Sorted fs)
    (hl : ∀ e ∈ fs, IsIdentifier e.1) (h : ∀ e ∈ fs, e.2.Readable ν) (rest : Option TyVar) :
    (record fs (rest.elim .emptyRow .var)).Readable ν := by
  intro p F S hF hp
  have hfields : Forall₂ (EntryRead ν (F :: S))
      (fs.map fun e => .text (e.1 ++ ": ") :: e.2.form.pieces .arrow)
      (fs.map fun e => (e.1, e.2.shownAs ν)) := by
    rw [forall₂_map_left_iff, forall₂_map_right_iff, forall₂_same]
    refine fun e he => entryRead_of_label [.text (e.1 ++ ": ")] (h e he) fun done => ?_
    rw [read_cons, Piece.word, String.toList_append, scan_append, scan_word (hl e he).2]
    simp [read, scan, step, Latest.push]
  have hrest : Forall₂ (EntryRead ν (F :: S)) (rest.toList.map fun x => [.text "..", .var x])
      (rest.toList.map fun x => (".", x.renumber ν)) := by
    rw [forall₂_map_left_iff, forall₂_map_right_iff, forall₂_same]
    exact fun x _ => entryRead_of_label [.text ".."] (readable_var x) fun _ => rfl
  obtain ⟨G, hG, hall⟩ := read_listed (rel_append hfields hrest) []
  refine ⟨{ F with latest := .bracket [G.record] }, ?_, Layer.reads_latest ?_ hp⟩
  · rw [pieces_record hs]
    change read ν ({} :: F :: S) (_ ++ [_]) = _
    rw [read_append, hG]
    rfl
  · rw [G.record_eq (fs.map fun e => (e.1, e.2.shownAs ν)) (rest.map (·.renumber ν))
      (by cases rest <;> simp [hall])
      (forall_mem_map.mpr fun e he h => absurd (h ▸ hl e he) (by decide))]
    cases rest <;> simp [Latest.types, shownAs, forget, subst, Con.forget, Function.comp_def]

/-- A printed type is read back. -/
theorem Printable.readable (ht : t.Printable) : t.Readable ν := by
  induction ht with
  | var x => exact readable_var x
  | base b => exact readable_base b
  | arrow _ _ iha ihr => exact readable_arrow iha ihr
  | tuple hlen _ ih => exact readable_tuple hlen ih
  | nominal hc _ ih => exact readable_nominal hc ih
  | record hs hl _ rest ih => exact readable_record hs hl ih rest

end Ty

end Layers

/-! ## Types with one text -/

/-- The variables of a list by their places, all others by numbers of their own. -/
def numbering (gs : List Nat) (g : Nat) : Nat := if g ∈ gs then gs.idxOf g else gs.length + g

theorem numbering_injective (gs : List Nat) : Function.Injective (numbering gs) := by
  intro g g' h
  have hlt : ∀ {g}, g ∈ gs → gs.idxOf g < gs.length := idxOf_lt_length_iff.mpr
  by_cases hg : g ∈ gs <;> by_cases hg' : g' ∈ gs <;>
    simp only [numbering, hg, hg', if_true, if_false] at h
  · exact (idxOf_inj hg).mp h
  · have := hlt hg
    omega
  · have := hlt hg'
    omega
  · omega

/-- A text depends on the numbers of the variables that it names. -/
theorem toList_text (t : Ty) :
    t.text.toList = t.pieces.flatMap (·.word (numbering (distinct (Printer.gens t.pieces)))) := by
  have hwords : ∀ x ∈ t.pieces,
      (Printer.word { named := distinct (Printer.gens t.pieces) } x).toList =
        x.word (numbering (distinct (Printer.gens t.pieces))) := by
    intro x hx
    match x with
    | .text w => rfl
    | .var (.flex v) => simp [Printer.word, Piece.word]
    | .var (.gen g) =>
      have hg : g ∈ Printer.gens t.pieces := mem_filterMap.mpr ⟨_, hx, rfl⟩
      simp [Printer.word, Piece.word, numbering, hg]
    | .nominal id => simp [Printer.word, Piece.word, Env.typeName?, Env.empty]
  rw [← flatMap_congr hwords]
  simp [text, Printer.type, Printer.name, flatMap_def, Function.comp_def]

/-- Types with one text differ in the numbers of generalized variables, in the labels of
parameters and in variants that are abstract types on the other side, in nothing else. -/
theorem text_unambiguous {t u : Ty} (ht : t.Printable) (hu : u.Printable) (h : t.text = u.text) :
    ∃ ρ, Set.BijOn ρ t.gens u.gens ∧ u.forget = t.forget.subst (renumber ρ) := by
  obtain ⟨F, hF, hreads⟩ := ht.readable .arrow {} [] rfl fun _ => rfl
  obtain ⟨G, hG, hreads'⟩ := hu.readable .arrow {} [] rfl fun _ => rfl
  rw [read, ← pieces, ← toList_text, h] at hF
  rw [read, ← pieces, ← toList_text, hF] at hG
  have hall := hreads.all_eq rfl
  rw [(List.cons.inj hG).1, hreads'.all_eq rfl] at hall
  have hgens : ∀ t : Ty, t.forget.gens = t.gens := fun t => by simp only [gens, occurrences_forget]
  rw [← hgens t, ← hgens u]
  exact exists_renumber (numbering_injective _).injOn (numbering_injective _).injOn
    (by simpa using hall.symm)

/-- A function from records with a nominal field. -/
def recordToFlex (a b : Nat) (c : Con) : Ty :=
  .arrow (.record [("x", .gen a), ("y", .con c [.gen b])] (.gen a)) (.flex 7)

theorem recordToFlex_unambiguous :
    (recordToFlex 4 9 (.variant 3 ["k"])).text = (recordToFlex 9 4 (.abstract 3 ["v"])).text ∧
      ∃ ρ, Set.BijOn ρ (recordToFlex 4 9 (.variant 3 ["k"])).gens
          (recordToFlex 9 4 (.abstract 3 ["v"])).gens ∧
        (recordToFlex 9 4 (.abstract 3 ["v"])).forget =
          (recordToFlex 4 9 (.variant 3 ["k"])).forget.subst (renumber ρ) := by
  have hprintable : ∀ a b c, c.forget = .variant 3 [] → (recordToFlex a b c).Printable := by
    intro a b c hc
    refine .arrow (.record (pairwise_pair.mpr (show "x" < "y" by decide)) ?_ ?_
      (some (.gen a))) (.var _)
    · simp only [forall_mem_cons]
      decide
    · simpa using ⟨.var _, .nominal hc (by simpa using .var _)⟩
  have htext : (recordToFlex 4 9 (.variant 3 ["k"])).text =
      (recordToFlex 9 4 (.abstract 3 ["v"])).text := by
    decide +kernel
  exact ⟨htext, text_unambiguous (hprintable _ _ _ rfl) (hprintable _ _ _ rfl) htext⟩

end RowTyping
