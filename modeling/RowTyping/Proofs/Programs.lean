import RowTyping.Proofs.Written
import RowTyping.Standard
import RowTyping.Typing.Program

/-!
# Programs tie no cycle

Checking a program whose synonyms use their parameters keeps the state sound
from declaration to declaration, so the bindings never have a cycle. Each
operation of the checker keeps sound states sound and yields faithful types.
-/

namespace RowTyping

variable {s : State}

open Check Registry Table Ty Env List Option Scheme

variable {n : Nat} {env : Env}

/-! ## Declarations -/

namespace Decl

mutual

/-- Every synonym that is declared, also in modules, has distinct parameters and
uses all of them. -/
def UsesParams : Decl → Prop
  | .type _ _ params (.synonym target) => params.Nodup ∧ ∀ l ∈ params, l ∈ target.labels
  | .module _ _ decls => UsesParamsList decls
  | _ => True

def UsesParamsList : List Decl → Prop
  | [] => True
  | d :: ds => UsesParams d ∧ UsesParamsList ds

end

end Decl

theorem Scheme.Generative.declares {σ : Scheme} (h : σ.Generative) (n : Nat) : σ.Declares n := by
  obtain ⟨c, gens, hnodup, rfl⟩ := h
  have htails : (con c (gens.map gen)).tailOccurrences = [] := by
    simp [tailOccurrences]
  refine ⟨.con (forall_mem_map.mpr fun _ _ => .var _), hnodup, fun g hg => ?_, ?_, ?_⟩
  · exact .arg (mem_map_of_mem hg) (.self _)
  · simp [htails]
  · simp [htails]

section

variable {k : Nat}

/-- The type of a synonym whose target was read and shows all parameters. -/
theorem Scheme.declares_synonym {id : Nat} {numbered : List (String × Nat)} {target : TypeExpr}
    {t : Ty} {m : Nat} (hlabels : (numbered.map (·.1)).Nodup)
    (huses : ∀ l ∈ numbered.map (·.1), l ∈ target.labels)
    (hgens : (numbered.map (·.2)).Nodup) (hbounds : ∀ g ∈ numbered.map (·.2), g < k)
    (ht : Reads (ofList (numbered.map fun e => (e.1, gen e.2))) k m target.labels (· = t)) :
    Declares m ⟨numbered.map (·.2), .synonymOf id (numbered.map fun e => (e.1, gen e.2)) t⟩ := by
  -- a label that is used stands for the number of its parameter, as labels do not repeat
  have hshows : ∀ e ∈ numbered, t.Shows (.gen e.2) := by
    intro e he
    obtain ⟨g, hg, u, rfl, hu⟩ :=
      ht.shows e.1 (huses e.1 (List.mem_map_of_mem he))
    have hlookup : (ofList (numbered.map fun e => (e.1, gen e.2))).lookup e.1 =
        some (.gen e.2) := by
      refine lookup_ofList (e := (e.1, gen e.2)) ?_ (List.mem_map_of_mem he)
      simpa [Function.comp_def] using hlabels
    rw [hg] at hlookup
    cases hlookup
    exact hu
  have htails := ht.tails t rfl
  refine ⟨.synonym ?_ (ht.faithful t rfl) ?_, hgens, ?_, fun g hg htail => ?_,
    fun g hg => (htails g hg).2⟩
  · simp only [List.map_map, List.forall_mem_map]
    exact fun _ _ => .var _
  · simp only [List.map_map, List.forall_mem_map]
    exact hshows
  · simp only [List.forall_mem_map]
    exact fun e he => .target (hshows e he)
  · have := (htails g htail).1
    have := hbounds g hg
    omega

theorem keeps_declareType (henv : env.Sound n) (span : Span) (name : String)
    (params : List String) {definition : TypeDef}
    (hdef : ∀ target, definition = .synonym target →
      params.Nodup ∧ ∀ l ∈ params, l ∈ target.labels) :
    Keeps checking n (declareType env span name params definition) fun m r =>
      r.1.Sound m ∧ ∀ v ∈ r.2.values, v.2.body.Faithful := by
  have D := State.Sound.discipline
  cases definition with
  | synonym target =>
    obtain ⟨hdistinct, huses⟩ := hdef target rfl
    refine D.keeps_freshType.bind fun id n' hn' _ => (D.keeps_freshGens params).bind
      fun numbered m hm ⟨hlabels, hgens, hbounds⟩ => ?_
    subst hlabels
    have hparams : (ofList (numbered.map fun e => (e.1, gen e.2))).GensIn n m := by
      intro e he
      obtain ⟨d, hd, rfl⟩ := mem_map.mp (mem_ofList he)
      obtain ⟨hlo, hhi⟩ := hbounds d.2 (mem_map_of_mem hd)
      exact ⟨d.2, rfl, hn'.trans hlo, hhi⟩
    refine (keeps_located (TypeExpr.keeps_denote henv hparams le_rfl target) span).bind
      fun t j hj ht => (D.keeps_emit (by simp)).bind fun _ i hi _ => keeps_pure fun i' hi' => ?_
    have hs : Scheme.Declares j ⟨numbered.map (·.2), .synonymOf id _ t⟩ :=
      declares_synonym hdistinct huses hgens (fun g hg => (hbounds g hg).2) ht
    exact ⟨((henv.mono (by omega)).addType name hs).mono (hi.trans hi'), by simp⟩
  | variant | abstract =>
    refine (D.keeps_declareType (by simp) henv.obeys.types span name params).imp
      fun m r hm ⟨hintro, hnew⟩ => ⟨⟨?_, fun e he => ?_⟩, hintro.values⟩
    · exact (hintro.obeys henv.values henv.obeys.types).1
    · exact (hnew (by simp) e he).elim (fun h => (henv.types e h).mono hm) fun h => h.declares m

end

namespace Declared

variable {Q : Ty → Prop} {declared : Declared} {members : Env}

theorem values_foldl_addType (ts : List (String × Scheme)) (m : Env) :
    (ts.foldl (fun m t => m.addType t.1 t.2) m).values = m.values := by
  induction ts generalizing m with
  | nil => rfl
  | cons t ts ih => exact ih _

theorem types_foldl_addValue (vs : List (String × Scheme)) (m : Env) :
    (vs.foldl (fun m v => m.addValue v.1 v.2) m).types = m.types := by
  induction vs generalizing m with
  | nil => rfl
  | cons v vs ih => exact ih _

theorem exportTo_values (h : ∀ v ∈ declared.values, Q v.2.body)
    (hmembers : ∀ e ∈ members.values, Q e.2.body) :
    ∀ e ∈ (declared.exportTo members).values, Q e.2.body := by
  have hvalues : ∀ (vs : List (String × Scheme)) (m : Env), (∀ v ∈ vs, Q v.2.body) →
      (∀ e ∈ m.values, Q e.2.body) →
        ∀ e ∈ (vs.foldl (fun m v => m.addValue v.1 v.2) m).values, Q e.2.body := by
    intro vs
    induction vs with
    | nil => exact fun _ _ hm => hm
    | cons v vs ih =>
      intro m hvs hm
      obtain ⟨hv, hvs⟩ := forall_mem_cons.mp hvs
      refine ih _ hvs fun e he => ?_
      rcases mem_insert he with rfl | he
      · exact hv
      · exact hm e he
  unfold exportTo
  rw [values_foldl_addType]
  exact hvalues _ _ (fun v hv => h v (mem_filter.mp hv).1) hmembers

theorem exportTo_types (h : ∀ t ∈ declared.types, Q t.2.body)
    (hmembers : ∀ e ∈ members.types, Q e.2.body) :
    ∀ e ∈ (declared.exportTo members).types, Q e.2.body := by
  have htypes : ∀ (ts : List (String × Scheme)) (m : Env), (∀ t ∈ ts, Q t.2.body) →
      (∀ e ∈ m.types, Q e.2.body) →
        ∀ e ∈ (ts.foldl (fun m t => m.addType t.1 t.2) m).types, Q e.2.body := by
    intro ts
    induction ts with
    | nil => exact fun _ _ hm => hm
    | cons t ts ih =>
      intro m hts hm
      obtain ⟨ht, hts⟩ := forall_mem_cons.mp hts
      refine ih _ hts fun e he => ?_
      rcases mem_insert he with rfl | he
      · exact ht
      · exact hm e he
  refine htypes _ _ h ?_
  rwa [types_foldl_addValue]

end Declared

namespace Decl

mutual

/-- A declaration. -/
theorem keeps_check : ∀ (d : Decl) {env : Env} {n : Nat}, env.Sound n → d.UsesParams →
    Keeps checking n (d.check env) fun m r => r.1.Sound m ∧ ∀ v ∈ r.2.values, v.2.body.Faithful
  | .value span name isRec ann body, env, n, henv, _ => by
    rw [check]
    have D := State.Sound.discipline
    refine (D.keeps_inferBinding henv.obeys span name isRec ann fun env m h =>
      D.keeps_inferHead body m h).bind fun s m hm hs => keeps_pure fun m' hm' => ?_
    exact ⟨(henv.mono (hm.trans hm')).addValue name hs, by simpa using hs⟩
  | .type span name params definition, env, n, henv, huses => by
    rw [check]
    refine keeps_declareType henv span name params fun target heq => ?_
    subst heq
    exact huses
  | .module span name decls, env, n, henv, huses => by
    rw [check]
    refine (keeps_checkMembers decls henv (by simp [empty]) huses).bind
      fun members m hm hmembers => keeps_pure fun m' hm' => ?_
    have hmodule : (Ty.module name members).Faithful := .module hmembers
    exact ⟨(henv.mono (hm.trans hm')).addValue name hmodule, forall_mem_singleton.mpr hmodule⟩
  | .expr span body, env, n, henv, _ => by
    rw [check]
    have D := State.Sound.discipline
    refine (D.keeps_infer henv.obeys body).bind fun t m hm ht =>
      (D.keeps_generalizeIn env ht).bind fun s m' hm' hs => keeps_pure fun m'' hm'' => ?_
    exact ⟨henv.mono (by omega), by simpa using hs⟩

theorem keeps_checkMembers : ∀ (ds : List Decl) {env members : Env} {n : Nat}, env.Sound n →
    (∀ e ∈ members.values, e.2.body.Faithful) → UsesParamsList ds →
      Keeps checking n (checkMembers env members ds) fun _ members =>
        ∀ e ∈ members.values, e.2.body.Faithful
  | [], env, members, n, henv, hmembers, _ => by
    rw [checkMembers]
    exact keeps_pure fun _ _ => hmembers
  | d :: ds, env, members, n, henv, hmembers, huses => by
    rw [checkMembers]
    refine (keeps_check d henv huses.1).bind fun ⟨env', declared⟩ m hm ⟨henv', hdeclared⟩ => ?_
    exact keeps_checkMembers ds henv' (Declared.exportTo_values hdeclared hmembers) huses.2

end

end Decl

/-! ## Programs -/

theorem State.Sound.emitValues (h : s.Sound) (vs : List (String × Scheme)) :
    (vs.foldl (fun s v => s.emit (.valueDeclared v.1 v.2.body)) s).Sound ∧
      (vs.foldl (fun s v => s.emit (.valueDeclared v.1 v.2.body)) s).registry = s.registry := by
  induction vs generalizing s with
  | nil => exact ⟨h, rfl⟩
  | cons v vs ih => exact ih (h.push (by simp))

/-- The state after the values that a declaration introduced are recorded. -/
def State.record (s : State) (values : List (String × Scheme)) : State :=
  values.foldl (fun s v => s.emit (.valueDeclared v.1 v.2.body)) s

@[simp] theorem State.registry_record (s : State) (values : List (String × Scheme)) :
    (s.record values).registry = s.registry := by
  induction values generalizing s with
  | nil => rfl
  | cons v values ih => exact ih (s.emit _)

section

variable {d : Decl} {ds : List Decl} {env' : Env} {declared : Declared} {s₁ : State}
  {e : Located} {report : Report}

theorem checkDecls_ok (hrun : (d.check report.env).run s = .ok (env', declared) s₁) :
    checkDecls (d :: ds) report s =
      checkDecls ds ⟨env', report.declared ++ declared.values, report.errors⟩
        (s₁.record declared.values) := by
  rw [checkDecls, hrun]
  rfl

theorem checkDecls_error (hrun : (d.check report.env).run s = .error e s₁) :
    checkDecls (d :: ds) report s =
      checkDecls ds { report with errors := report.errors ++ [e] }
        (s₁.emit (.rejected e.error)) := by
  rw [checkDecls, hrun]

end

/-- Checking declarations one after the other, those that fail included. -/
theorem checkDecls_sound (ds : List Decl) {report : Report} (hs : s.Sound)
    (henv : report.env.Sound s.registry.nextGen) (huses : ∀ d ∈ ds, d.UsesParams) :
    (checkDecls ds report s).2.Sound ∧
      (checkDecls ds report s).1.env.Sound (checkDecls ds report s).2.registry.nextGen := by
  induction ds generalizing report s with
  | nil => exact ⟨hs, henv⟩
  | cons d ds ih =>
    obtain ⟨hd, hds⟩ := forall_mem_cons.mp huses
    obtain ⟨hsound, hle, hyield⟩ := d.keeps_check henv hd s hs le_rfl
    rw [checkDecls]
    cases hrun : (d.check report.env).run s with
    | ok r s' =>
      rw [after_ok hrun] at hsound
      obtain ⟨henv', -⟩ := hyield r s' hrun
      obtain ⟨hs'', hreg⟩ := hsound.emitValues r.2.values
      exact ih hs'' (hreg ▸ henv') hds
    | error e s' =>
      -- a declaration that fails leaves its bindings, and the environment as it was
      rw [after_error hrun] at hsound hle
      exact ih (hsound.push (by simp)) (henv.mono hle) hds

theorem Registry.nameCell_bindings (cs : List Cell) (acc : Array Cell × Nat) :
    (cs.foldl nameCell acc).1.toList.map Cell.binding =
      acc.1.toList.map Cell.binding ++ cs.map Cell.binding := by
  induction cs generalizing acc with
  | nil => simp
  | cons c cs ih =>
    have hpush : (nameCell acc c).1.toList.map Cell.binding =
        acc.1.toList.map Cell.binding ++ [c.binding] := by
      unfold nameCell
      split <;> simp
    rw [foldl_cons, ih, hpush, append_assoc, map_cons, singleton_append]

/-- Names do not touch the bindings. -/
@[simp] theorem Registry.varCount_assignNames (r : Registry) :
    r.assignNames.varCount = r.varCount := by
  have hcells := congrArg length (nameCell_bindings r.cells.toList (#[], r.nextName))
  simpa [assignNames, varCount] using hcells

@[simp] theorem Registry.binding?_assignNames (r : Registry) (v : Nat) :
    r.assignNames.binding? v = r.binding? v := by
  have hcells : r.assignNames.cells.toList.map Cell.binding = r.cells.toList.map Cell.binding := by
    simpa [assignNames] using nameCell_bindings r.cells.toList (#[], r.nextName)
  have hcell := congrArg (fun bs => bs[v]?.bind id) hcells
  simpa [binding?, bind_map] using hcell

theorem State.Sound.assignNames (h : s.Sound) :
    State.Sound { s with registry := s.registry.assignNames } where
  registry :=
    { acyclic := h.registry.acyclic.of_binding? (by simp)
      faithful := fun v t hv => h.registry.faithful v t (by simpa using hv) }
  recorded v t := by simpa using h.recorded v t

/-- What a program starts from: nothing, or the standard environment. -/
inductive Start : Env → State → Prop where
  | empty : Start .empty {}
  | standard {env : Env} {s : State} (h : (Env.standard : Check TypeError Env).run {} = .ok env s) :
      Start env s

/-! ## The standard environment -/

/-- The head forms types of values, and was issued below the bound if it has an
identity. -/
def Con.isElementary (ids : Nat) : Con → Bool
  | .base _ | .arrow | .tuple => true
  | .variant id _ | .abstract id _ => id < ids
  | .emptyRow | .ctor _ => false

namespace Ty

mutual

/-- The type is made from such heads and from the given generalized variables. -/
def isElementary (ids : Nat) (gens : List Nat) : Ty → Bool
  | .gen g => gens.contains g
  | .con c args =>
    c.isElementary ids && (c != .tuple || 2 ≤ args.length) && areElementary ids gens args
  | _ => false

def areElementary (ids : Nat) (gens : List Nat) : List Ty → Bool
  | [] => true
  | t :: ts => isElementary ids gens t && areElementary ids gens ts

end

variable {ids : Nat} {gens : List Nat} {P : Ty → Prop} {t : Ty}

theorem areElementary_iff {ts : List Ty} :
    areElementary ids gens ts = true ↔ ∀ t ∈ ts, t.isElementary ids gens = true := by
  induction ts with
  | nil => simp [areElementary]
  | cons t ts ih => simp [areElementary, ih]

theorem elementary_induct (hgen : ∀ g ∈ gens, P (.gen g))
    (hcon : ∀ c args, c.isElementary ids = true → (c = .tuple → 2 ≤ args.length) →
      (∀ t ∈ args, P t) → P (.con c args)) (h : t.isElementary ids gens = true) : P t := by
  induction t with
  | var x =>
    cases x with
    | flex v => simp [isElementary] at h
    | gen g => exact hgen g (by simpa [isElementary] using h)
  | con c args ih =>
    simp only [isElementary, Bool.and_eq_true, areElementary_iff] at h
    obtain ⟨⟨hc, htuple⟩, hargs⟩ := h
    refine hcon c args hc (fun heq => ?_) fun t ht => ih t ht (hargs t ht)
    simpa [heq] using htuple
  | _ => simp [isElementary] at h

end Ty

namespace Scheme

/-- A value of an elementary type, or a constructor of a variant with the quantifiers
for parameters. -/
def isValue (gens ids : Nat) (σ : Scheme) : Bool :=
  σ.vars.all (· < gens) && Ty.areElementary ids σ.vars σ.body.parts &&
    [1, 2].contains σ.body.parts.length &&
    match σ.body.ctor? with
    | none => true
    | some ⟨_, .con (.variant _ _) args, _⟩ => args == σ.vars.map Ty.gen
    | some _ => false

/-- A nominal type with the quantifiers for parameters. -/
def isNominal (gens ids : Nat) (σ : Scheme) : Bool :=
  σ.vars.all (· < gens) && decide σ.vars.Nodup &&
    match σ.body with
    | .con c args => c.isElementary ids && c != .tuple && args == σ.vars.map Ty.gen
    | _ => false

end Scheme

/-- The environment has values of elementary types, constructors and nominal types,
over so many generalized variables and identities. -/
structure Env.Elementary (gens ids : Nat) (env : Env) : Prop where
  sorted : Table.Sorted env.values
  values : ∀ e ∈ env.values, e.2.isValue gens ids = true
  types : ∀ e ∈ env.types, e.2.isNominal gens ids = true

namespace Env.Elementary

variable {gens ids : Nat} {e : String × Scheme} (h : env.Elementary gens ids)
include h

theorem value (he : e ∈ env.values) :
    (∀ g ∈ e.2.vars, g < gens) ∧
      (e.2.body.IsBody fun t => t.isElementary ids e.2.vars = true) ∧
      ∀ c, e.2.body.ctor? = some c →
        ∃ id labels, c.owner = .con (.variant id labels) (e.2.vars.map gen) := by
  have hvalue := h.values e he
  simp only [isValue, Bool.and_eq_true, areElementary_iff] at hvalue
  obtain ⟨⟨⟨hvars, hparts⟩, hsize⟩, hctor⟩ := hvalue
  refine ⟨by simpa using hvars, ⟨⟨?_, ?_⟩, hparts⟩, fun c hc => ?_⟩
  · rintro hnil
    simp [hnil] at hsize
  · have : e.2.body.parts.length = 1 ∨ e.2.body.parts.length = 2 := by simpa using hsize
    omega
  · rw [hc] at hctor
    split at hctor
    · next heq => cases heq
    · next id labels args _ heq =>
      cases heq
      exact ⟨id, labels, by rw [eq_of_beq hctor]⟩
    · cases hctor

/-- A property that all type formers keep, those of constructors too. -/
theorem value_induct {P : Ty → Prop} (he : e ∈ env.values) (hgen : ∀ g < gens, P (.gen g))
    (hcon : ∀ c args, (c.isElementary ids = true ∨ ∃ name, c = .ctor name) →
      (c = .tuple → 2 ≤ args.length) → (∀ t ∈ args, P t) → P (.con c args)) : P e.2.body := by
  obtain ⟨hvars, hbody, -⟩ := h.value he
  have hparts : ∀ u ∈ e.2.body.parts, P u := fun u hu =>
    elementary_induct (fun g hg => hgen g (hvars g hg)) (fun c args hc => hcon c args (.inl hc))
      (hbody.parts u hu)
  generalize e.2.body = t at hparts ⊢
  unfold parts at hparts
  split at hparts
  · exact hcon _ _ (.inr ⟨_, rfl⟩) (by simp) hparts
  · exact hparts _ (mem_singleton_self _)

theorem type (he : e ∈ env.types) :
    ∃ c vars, e.2 = ⟨vars, .con c (vars.map gen)⟩ ∧ c.isElementary ids = true ∧ c ≠ .tuple ∧
      vars.Nodup ∧ ∀ g ∈ vars, g < gens := by
  have htype := h.types e he
  obtain ⟨name, vars, body⟩ := e
  simp only [isNominal, Bool.and_eq_true] at htype
  obtain ⟨⟨hvars, hnodup⟩, hbody⟩ := htype
  split at hbody
  · next c args =>
    simp only [Bool.and_eq_true, bne_iff_ne, beq_iff_eq] at hbody
    obtain ⟨⟨hc, htuple⟩, rfl⟩ := hbody
    exact ⟨c, vars, rfl, hc, htuple, by simpa using hnodup, by simpa using hvars⟩
  · cases hbody

theorem generative (he : e ∈ env.types) : e.2.Generative := by
  obtain ⟨c, vars, heq, -, -, hnodup, -⟩ := h.type he
  exact ⟨c, vars, hnodup, heq⟩

end Env.Elementary

/-- At the start nothing is bound, and all that was issued is what the environment is
made from. -/
theorem Start.elementary (h : Start env s) : ∃ gens ids,
    s = ⟨{ nextGen := gens, nextType := ids }, #[]⟩ ∧ env.Elementary gens ids := by
  cases h with
  | empty => exact ⟨0, 0, rfl, .nil, by simp [Env.empty], by simp [Env.empty]⟩
  | standard hrun =>
    have henv : ∀ env ∈ (Env.standard : Check TypeError Env).result? {},
        (env.values.Pairwise (·.1 < ·.1) ∧ ∀ e ∈ env.values, e.2.isValue 6 2 = true) ∧
          ∀ e ∈ env.types, e.2.isNominal 6 2 = true := by decide +kernel
    obtain ⟨⟨hsorted, hvalues⟩, htypes⟩ := henv env (by rw [result?, hrun]; rfl)
    refine ⟨6, 2, ?_, hsorted, hvalues, htypes⟩
    rw [← after_ok hrun]
    rfl

theorem Start.sound (h : Start env s) : s.Sound ∧ env.Sound s.registry.nextGen := by
  obtain ⟨gens, ids, rfl, helementary⟩ := h.elementary
  refine ⟨⟨⟨acyclic_of_scoped fun v t hv => ?_, fun v t hv => ?_⟩, fun v t => ?_⟩,
    fun e he => ?_, fun e he => ?_⟩
  · simp [binding?] at hv
  · simp [binding?] at hv
  · simp [binding?]
  · exact helementary.value_induct he (fun _ _ => .var _) fun _ _ _ _ => .con
  · exact (helementary.generative he).declares gens

example : ∃ env s, Start env s ∧ s.registry.nextGen = 6 := ⟨_, _, .standard rfl, rfl⟩

/-- The registry has only bindings that the log records. At every moment of a
run its registry is such a one, for the log of the whole run. -/
def Registry.RecordedIn (log : Array Event) (r : Registry) : Prop :=
  ∀ v t, r.binding? v = some t → .bind v t ∈ log

/-- If the synonyms of a program use their parameters, checking the program never
ties a cycle, and at every moment reading through the bindings ends. -/
theorem checkProgram_acyclic {s : State} (hstart : Start env s) {ds : List Decl}
    (huses : ∀ d ∈ ds, d.UsesParams) :
    (∀ v t, (checkProgram env ds s).2.registry.binding? v = some t ↔
      .bind v t ∈ (checkProgram env ds s).2.log) ∧
    ∀ r : Registry, r.RecordedIn (checkProgram env ds s).2.log → r.Acyclic ∧ r.ReadingEnds := by
  obtain ⟨hs, henv⟩ := hstart.sound
  have hsound : (checkProgram env ds s).2.Sound := (checkDecls_sound ds hs henv huses).1.assignNames
  refine ⟨hsound.recorded, fun r hr => ?_⟩
  have hacyclic : r.Acyclic :=
    hsound.registry.acyclic.of_binding? fun v t hv => (hsound.recorded v t).mpr (hr v t hv)
  exact ⟨hacyclic, hacyclic.readingEnds⟩

/-- A synonym with one parameter, and the identity at the type of a function from
the synonym to its argument. The pair has a second member that fails, so that
the types of the first are not read. -/
def identityAtSynonym (target : TypeExpr) : List Decl :=
  [.type {} "s" ["a"] (.synonym target),
    .expr {} (.tuple {}
      [.annotate {} (.lam {} "y" none (.var {} "y")) (.arrow (.app "s" [.var "a"]) (.var "a")),
        .var {} "missing"])]

/-- Where the synonym uses its parameter, the argument is not bound to the
synonym. -/
theorem identityAtSynonym_acyclic :
    let ds := identityAtSynonym (.arrow (.var "a") (.name "int"))
    let s := (checkProgram .empty ds {}).2
    Start .empty {} ∧ (∀ d ∈ ds, d.UsesParams) ∧
      s.registry.binding? 0 = some (.synonym 0 ["a"] [.flex 1] (.arrow (.flex 1) .int)) ∧
      s.registry.Acyclic ∧ s.registry.ReadingEnds := by
  intro ds s
  have huses : ∀ d ∈ ds, d.UsesParams := by
    simp [ds, identityAtSynonym, Decl.UsesParams, TypeExpr.labels]
  obtain ⟨hrecorded, hreads⟩ := checkProgram_acyclic .empty huses
  exact ⟨.empty, huses, by decide +kernel, hreads _ fun v t => (hrecorded v t).mp⟩

/-- Where it does not, the occurs check reads the target only, and the argument
is bound to the synonym it is the argument of. -/
theorem identityAtSynonym_cyclic :
    ¬ (checkProgram .empty (identityAtSynonym (.name "int")) {}).2.registry.Acyclic := by
  have hbinding : (checkProgram .empty (identityAtSynonym (.name "int")) {}).2.registry.binding? 1 =
      some (.synonym 0 ["a"] [.flex 1] .int) := by decide +kernel
  have hmentions : (Ty.synonym 0 ["a"] [.flex 1] .int).Mentions 1 :=
    (Ty.mentions_flex.mpr rfl).of_child (by simp [Ty.children])
  exact fun h => h 1 (.single ⟨_, hbinding, hmentions⟩)

end RowTyping
