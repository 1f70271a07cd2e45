import RowTyping.Proofs.Generalization

/-!
# What written types stand for

A reader goes from spot to spot: a stage and a scope in which labels are only
added. What it reads fits the stage, shows only what the scope lets it see, and
in an annotation means, under every assignment that solves the stage, what the
type system says that the written type means.
-/

namespace RowTyping

open Check Row Table Env List Option Ty

namespace Table

variable {α β : Type}

theorem ofList_concat (es : List (String × α)) (l : String) (a : α) :
    ofList (es ++ [(l, a)]) = insert l a (ofList es) := by
  rw [ofList, foldl_append]
  rfl

theorem sorted_ofList (es : List (String × α)) : (ofList es).Sorted := by
  induction es using reverseRecOn with
  | nil => exact .nil
  | append_singleton es e ih =>
    rw [ofList_concat]
    exact ih.insert _ _

theorem mapValues_ofList (f : α → β) (es : List (String × α)) :
    (ofList es).mapValues f = ofList (es.map fun e => (e.1, f e.2)) := by
  induction es using reverseRecOn with
  | nil => rfl
  | append_singleton es e ih =>
    rw [map_append, map_singleton, ofList_concat, ofList_concat, mapValues_insert, ih]

/-- An entry under a new name. -/
theorem nodup_concat {es : List (String × α)} (h : (es.map (·.1)).Nodup) {l : String}
    (hl : ¬ ((ofList es).lookup l).isSome) (a : α) : ((es ++ [(l, a)]).map (·.1)).Nodup := by
  rw [map_append, nodup_append]
  refine ⟨h, nodup_singleton _, ?_⟩
  rintro m hm _ hl' rfl
  cases mem_singleton.mp hl'
  obtain ⟨e, he, rfl⟩ := mem_map.mp hm
  rw [lookup_ofList h he] at hl
  exact hl rfl

/-- A name that comes behind the entries is new to their table. -/
theorem not_isSome_lookup_ofList {es : List (String × α)} {l : String} {ls : List String}
    (h : (es.map (·.1) ++ l :: ls).Nodup) : ¬ ((ofList es).lookup l).isSome := by
  intro hsome
  obtain ⟨a, ha⟩ := isSome_iff_exists.mp hsome
  have hmem := mem_map_of_mem (f := (·.1)) (mem_ofList (mem_of_lookup ha))
  exact disjoint_of_nodup_append h hmem mem_cons_self

end Table

/-- Names with the values of their types. -/
def valuesOf (θ : Nat → Ty) (bs : List (String × Ty)) : List (String × Ty) :=
  bs.map fun b => (b.1, b.2.value θ)

theorem valuesOf_append (θ : Nat → Ty) (bs cs : Table Ty) :
    valuesOf θ (bs ++ cs) = valuesOf θ bs ++ valuesOf θ cs :=
  map_append

@[simp] theorem map_fst_valuesOf (θ : Nat → Ty) (bs : Table Ty) :
    (valuesOf θ bs).map (·.1) = bs.map (·.1) :=
  map_map

theorem mapValues_ofList_value (θ : Nat → Ty) (bs : Table Ty) :
    mapValues (value θ) (ofList bs) = ofList (valuesOf θ bs) :=
  mapValues_ofList _ _

namespace Ty

variable (θ : Nat → Ty)

theorem value_base (b : Base) : (base b).value θ = .base b := value_con (by simp) []

theorem value_arrow (a r : Ty) : (arrow a r).value θ = .arrow (a.value θ) (r.value θ) :=
  value_con (by simp) [a, r]

theorem value_tuple (ts : List Ty) : (tuple ts).value θ = .tuple (ts.map (value θ)) := by
  unfold tuple
  split
  · exact value_base θ .unit
  · rfl
  · next hnil hone =>
    rw [value_con (by simp)]
    cases ts with
    | nil => exact absurd rfl hnil
    | cons t ts =>
      cases ts with
      | nil => exact absurd rfl (hone t)
      | cons u ts => rfl

/-- Records of the fields in a list. -/
theorem value_ofList (es : Table Ty) :
    (record (ofList es) .emptyRow).value θ = .record (ofList (valuesOf θ es)) .emptyRow := by
  rw [value_record, value_emptyRow, asRow, mapValues_ofList_value, prepend_end (sorted_ofList _)]
  rfl

theorem value_ofList_tail (es : Table Ty) (tail : Ty) :
    (record (ofList es) tail).value θ =
      (record (ofList (valuesOf θ es)) (tail.subst (fill θ))).norm := by
  rw [value_record, norm_record, ← mapValues_ofList_value, mapValues_mapValues]
  refine congrArg (fun fs => (prepend fs _).toRecord) (mapValues_congr fun e _ => ?_)
  exact (norm_norm _).symm

end Ty

namespace TypeExpr

/-- The written type is just a label. -/
def IsLabel : TypeExpr → Prop
  | .var _ => True
  | .tuple [e] => IsLabel e
  | _ => False

end TypeExpr

/-- The generalized variables that the labels of a scope stand for. -/
def Scope.gens : Scope → List Nat
  | .flexible _ => []
  | .fixed params => params.filterMap fun e =>
      match e.2 with
      | .gen g => some g
      | _ => none

/-- Labels are only added. -/
def Scope.Le : Scope → Scope → Prop
  | .flexible labels, .flexible labels' =>
      ∀ l t, labels.lookup l = some t → labels'.lookup l = some t
  | .fixed params, .fixed params' => params = params'
  | _, _ => False

namespace Stage

variable {G : Prop} {S S' : Stage G} {t : Ty} {σ : Scheme} {scope scope' : Scope} {x : TyVar}
  {k : Role}

/-- The variables that a type read in the scope may show. -/
def Sees (S : Stage G) : Scope → TyVar → Role → Prop
  | .flexible _ => S.role.HasFlex
  | .fixed params => S.role.HasGen (Scope.fixed params).gens

/-- The labels of the scope stand for types that may be seen. -/
def FitsScope (S : Stage G) : Scope → Prop
  | .flexible labels => ∀ e ∈ labels, S.Fits .type e.2
  | .fixed params => ∀ e ∈ params, ∃ g, e.2 = .gen g ∧ S.role.Has (.gen g) .type

theorem Sees.mono (h : S.Sees scope x k) (hle : S ≤ S') (hscope : scope.Le scope') :
    S'.Sees scope' x k := by
  cases scope <;> cases scope' <;> try exact absurd hscope id
  · exact ⟨hle.role h.1, h.2⟩
  · cases hscope
    exact ⟨hle.role h.1, h.2⟩

theorem FitsScope.mono (h : S.FitsScope scope) (hle : S ≤ S') : S'.FitsScope scope := by
  cases scope with
  | flexible labels => exact fun e he => (h e he).mono hle
  | fixed params =>
    intro e he
    obtain ⟨g, heq, hg⟩ := h e he
    exact ⟨g, heq, hle.role hg⟩

/-- The type fits and shows only what the scope lets it see. -/
def FitsIn (S : Stage G) (scope : Scope) (t : Ty) : Prop :=
  t.Fits G S.role.Has (S.Sees scope) .type

theorem FitsIn.mono (h : S.FitsIn scope t) (hle : S ≤ S') (hscope : scope.Le scope') :
    S'.FitsIn scope' t :=
  Ty.Fits.mono h (fun _ _ hx => hx.mono hle hscope) (fun _ _ => hle.role) id

end Stage

theorem Scope.Le.refl : (scope : Scope) → scope.Le scope
  | .flexible _ => fun _ _ => id
  | .fixed _ => rfl

theorem Scope.Le.trans {a b c : Scope} (h : a.Le b) (h' : b.Le c) : a.Le c := by
  cases a <;> cases b <;> cases c <;> simp_all [Scope.Le]

/-- Where a reader is: a stage, and a scope that fits it. -/
structure Spot (G : Prop) where
  stage : Stage G
  scope : Scope
  fits : stage.FitsScope scope

theorem forall_mem_of_forall₂ {α β : Type} {R : α → β → Prop} {P : β → Prop} {as : List α}
    {bs : List β} (h : Forall₂ R as bs) (hP : ∀ a b, R a b → P b) : ∀ b ∈ bs, P b := by
  induction h with
  | nil => simp
  | cons hab _ ih => exact forall_mem_cons.mpr ⟨hP _ _ hab, ih⟩

namespace Spot

variable {G : Prop} {p q : Spot G}

instance : Preorder (Spot G) where
  le p q := p.stage ≤ q.stage ∧ p.scope.Le q.scope
  le_refl p := ⟨le_rfl, .refl _⟩
  le_trans _ _ _ h h' := ⟨h.1.trans h'.1, h.2.trans h'.2⟩

/-- The state has the registry and the scope of the spot. -/
def At (p : Spot G) (s : ReadState) : Prop := p.stage.At s.state ∧ s.scope = p.scope

/-- The labels stand for the values of their types. -/
def Names (p : Spot G) (θ : Nat → Ty) (ρ : String → Ty) : Prop :=
  ∃ labels, p.scope = .flexible labels ∧ ∀ l t, labels.lookup l = some t → ρ l = t.value θ

theorem Names.mono {θ : Nat → Ty} {ρ : String → Ty} (h : q.Names θ ρ) (hle : p ≤ q) :
    p.Names θ ρ := by
  obtain ⟨labels, heq, hlabels⟩ := h
  have hscope := hle.2
  rw [heq] at hscope
  cases hp : p.scope with
  | flexible labels' =>
    rw [hp] at hscope
    exact ⟨labels', hp, fun l t hl => hlabels l t (hscope l t hl)⟩
  | fixed params =>
    rw [hp] at hscope
    exact absurd hscope id

/-- The type is what the written type stands for. -/
structure Denotes (p : Spot G) (env : Env) (e : TypeExpr) (t : Ty) : Prop where
  fits : p.stage.FitsIn p.scope t
  solid : ∀ x, t = .var x → e.IsLabel
  means : ∀ {κ θ ρ Γ}, p.stage.Solves κ θ → p.Names θ ρ → Γ.types = env.types →
    e.Means κ Γ ρ (t.value θ)

theorem Denotes.mono {env : Env} {e : TypeExpr} {t : Ty} (h : p.Denotes env e t) (hle : p ≤ q) :
    q.Denotes env e t where
  fits := h.fits.mono hle.1 hle.2
  solid := h.solid
  means hθ hρ hΓ := h.means (hθ.mono hle.1) (hρ.mono hle) hΓ

/-! ## Operations -/

variable {α : Type} {Q : Stage G → α → Prop}

theorem leads_lift {x : Check TypeError α} (hx : Leads Stage.At p.stage x Q) :
    Leads At p (Read.lift x) fun q a => q.scope = p.scope ∧ Q q.stage a := by
  rintro s ⟨hs, hscope⟩
  obtain ⟨S, hle, hat, hyield⟩ := hx s.state hs
  rw [Read.after_lift]
  refine ⟨⟨S, p.scope, p.fits.mono hle⟩, ⟨hle, .refl _⟩, ⟨hat, hscope⟩, fun a s' hrun => ?_⟩
  obtain ⟨st, hx, rfl⟩ := Read.run_lift_inv hrun
  exact ⟨rfl, hyield a st hx⟩

theorem leads_get_bind {f : ReadState → Read α} {R : Spot G → α → Prop}
    (h : ∀ s, s.scope = p.scope → Leads At p (f s) R) : Leads At p (get >>= f) R :=
  fun s hs => h s hs.2 s hs

theorem leads_isFixed_bind {f : Bool → Read α} {R : Spot G → α → Prop}
    (h : Leads At p (f p.scope.isFixed) R) : Leads At p (Read.isFixed >>= f) R := by
  refine leads_get_bind fun s hs => ?_
  rwa [hs]

/-- The scope of a label that was not met before. -/
theorem leads_newLabel {labels : Table Ty} (hp : p.scope = .flexible labels) {l : String} {v : Nat}
    (hv : p.stage.role.Has (.flex v) .type) (hl : labels.lookup l = none) :
    Leads At p (modify fun s => { s with scope := .flexible (insert l (.flex v) labels) } :
      Read Unit) fun q _ => q.stage = p.stage ∧
        q.scope = .flexible (insert l (.flex v) labels) := by
  rintro s ⟨hs, hscope⟩
  have hfits : p.stage.FitsScope (.flexible (insert l (.flex v) labels)) := by
    intro e he
    rcases mem_insert he with rfl | he
    · exact Stage.fits_flex.mpr hv
    · exact (show p.stage.FitsScope (.flexible labels) from hp ▸ p.fits) e he
  refine ⟨⟨p.stage, _, hfits⟩, ⟨le_rfl, ?_⟩, ⟨hs, rfl⟩, fun _ _ _ => ⟨rfl, rfl⟩⟩
  rw [hp]
  intro m t hm
  rw [lookup_insert, if_neg]
  · exact hm
  · rintro rfl
    cases hl.symm.trans hm

theorem leads_label (p : Spot G) (env : Env) (l : String) :
    Leads At p (Read.label l) fun q t => q.Denotes env (.var l) t := by
  refine leads_get_bind fun s hs => ?_
  have hfits := p.fits
  rw [hs]
  cases hp : p.scope with
  | flexible labels =>
    rw [hp] at hfits
    have hvar : ∀ {q : Spot G} {labels : Table Ty} {t : Ty}, q.scope = .flexible labels →
        labels.lookup l = some t → q.stage.Fits .type t → q.Denotes env (.var l) t := by
      intro q labels t hq hl ht
      refine ⟨?_, fun _ _ => trivial, fun _ hρ _ => ?_⟩
      · rw [hq]
        exact ht
      · obtain ⟨labels', heq, hlabels⟩ := hρ
        cases hq.symm.trans heq
        rw [← hlabels l t hl]
        exact .var l
    dsimp only
    cases hl : labels.lookup l with
    | some t => exact leads_pure (hvar hp hl (hfits _ (mem_of_lookup hl)))
    | none =>
      refine (leads_lift (Stage.leads_freshVar .type)).bind fun q t hle ht => ?_
      obtain ⟨hq, v, rfl, hv, -⟩ := ht
      refine (leads_newLabel (hq.trans hp) hv hl).bind fun q' _ hle' hq' => leads_pure ?_
      refine hvar hq'.2 (by simp [lookup_insert]) ?_
      rw [hq'.1]
      exact Stage.fits_flex.mpr hv
  | fixed params =>
    rw [hp] at hfits
    dsimp only
    cases hl : params.lookup l with
    | none => exact leads_throw _
    | some t =>
      obtain ⟨g, rfl, hg⟩ := hfits _ (mem_of_lookup hl)
      refine leads_pure ⟨?_, fun _ _ => trivial, ?_⟩
      · rw [hp]
        refine .var ⟨hg, g, rfl, fun _ => ?_⟩
        exact mem_filterMap.mpr ⟨_, mem_of_lookup hl, rfl⟩
      · rintro κ θ ρ Γ - ⟨labels, heq, -⟩
        cases hp.symm.trans heq

end Spot

/-- What a type name stands for with arguments. -/
inductive NameMeans (κ : Nat → Role) (Γ : Env) (n : String) : List Ty → Ty → Prop where
  | declared {σ : Scheme} {ss : List Ty} {s : Ty} (hn : Γ.type? n = some σ)
      (hs : σ.Applied κ ss s) : NameMeans κ Γ n ss s
  | base {b : Base} (hn : Γ.type? n = none) (hb : Base.ofName? n = some b) :
      NameMeans κ Γ n [] (.base b)

namespace TypeExpr

variable {κ : Nat → Role} {Γ : Env} {ρ : String → Ty} {n : String} {s : Ty}

theorem Means.ofName (h : NameMeans κ Γ n [] s) : Means κ Γ ρ (.name n) s := by
  cases h with
  | declared hn hs => exact .name hn hs
  | base hn hb => exact .base hn hb

theorem Means.ofApp {args : List TypeExpr} {ss : List Ty} (h : NameMeans κ Γ n ss s)
    (hargs : MeansList κ Γ ρ args ss) : Means κ Γ ρ (.app n args) s := by
  cases h with
  | declared hn hs => exact .app hn hargs hs
  | base hn hb =>
    cases hargs
    exact .appBase hn hb

theorem MeansList.of_forall₂ {es : List TypeExpr} {ss : List Ty}
    (h : Forall₂ (Means κ Γ ρ) es ss) : MeansList κ Γ ρ es ss := by
  induction h with
  | nil => exact .nil
  | cons h _ ih => exact .cons h ih

theorem MeansFields.of_forall₂ {es : List (String × TypeExpr)} {ss : Table Ty}
    (h : Forall₂ (fun e s => e.1 = s.1 ∧ Means κ Γ ρ e.2 s.2) es ss) :
    MeansFields κ Γ ρ es ss := by
  induction h with
  | nil => exact .nil
  | @cons e s _ _ h _ ih =>
    obtain ⟨l', s⟩ := s
    obtain ⟨rfl, h⟩ := h
    exact .cons h ih

end TypeExpr

namespace Stage

variable {G : Prop} {S S' : Stage G} {env : Env}

theorem leads_applyName (htypes : ∀ e ∈ env.types, S.FitsType e.2) {scope : Scope} {args : List Ty}
    (hargs : ∀ a ∈ args, S.FitsIn scope a) (n : String) :
    Leads At S (applyName env scope.isFixed n args) fun S' t => S'.FitsIn scope t ∧
      (∀ x, t ≠ .var x) ∧ ∀ κ θ Γ, scope.isFixed = false → S'.Solves κ θ → Γ.types = env.types →
        NameMeans κ Γ n (args.map (value θ)) (t.value θ) := by
  unfold applyName
  cases hn : env.type? n with
  | some σ =>
    have hσ : S.FitsType σ := htypes _ (mem_of_lookup hn)
    cases scope with
    | flexible labels =>
      refine (leads_instantiateWith hσ hargs n).imp fun S' t _ ht => ?_
      obtain ⟨hfits, hsolid, happlied⟩ := ht
      refine ⟨hfits, hsolid, fun κ θ Γ _ hθ hΓ => .declared ?_ (happlied κ θ hθ)⟩
      rwa [type?, hΓ]
    | fixed params =>
      refine (leads_instantiateDeclared hσ hargs n).imp fun S' t _ ht => ?_
      exact ⟨ht.1, ht.2, fun _ _ _ h => by cases h⟩
  | none =>
    cases hb : Base.ofName? n with
    | none => exact leads_throw _
    | some b =>
      dsimp only
      split
      · next hempty =>
        obtain rfl := isEmpty_iff.mp hempty
        refine leads_pure ⟨.con (by simp [Con.IsFormer]) (by simp) (by simp), by simp, ?_⟩
        intro κ θ Γ _ _ hΓ
        refine .base ?_ hb
        rwa [type?, hΓ]
      · exact leads_throw _

end Stage

namespace TypeExpr

open Spot

variable {G : Prop} {env : Env}

mutual

theorem leads_read : ∀ (e : TypeExpr) {p : Spot G}, (∀ d ∈ env.types, p.stage.FitsType d.2) →
    Leads At p (e.read env) fun q t => q.Denotes env e t
  | .name n, p, htypes => by
    rw [read]
    refine leads_isFixed_bind ((leads_lift (Stage.leads_applyName htypes (by simp) n)).imp
      fun q t _ ht => ?_)
    obtain ⟨hscope, hfits, hsolid, hmeans⟩ := ht
    refine ⟨hscope ▸ hfits, fun x hx => absurd hx (hsolid x), fun hθ hρ hΓ => .ofName ?_⟩
    obtain ⟨labels, hq, -⟩ := hρ
    exact hmeans _ _ _ (by rw [← hscope, hq]; rfl) hθ hΓ
  | .var l, p, htypes => by
    rw [read]
    exact leads_label p env l
  | .app n args, p, htypes => by
    rw [read]
    refine (leads_readList args htypes).bind fun q ts hle hts => leads_isFixed_bind
      ((leads_lift (Stage.leads_applyName (fun d hd => (htypes d hd).mono hle.1)
        (forall_mem_of_forall₂ hts fun _ _ h => h.fits) n)).imp fun q' t hle' ht => ?_)
    obtain ⟨hscope, hfits, hsolid, hmeans⟩ := ht
    refine ⟨hscope ▸ hfits, fun x hx => absurd hx (hsolid x), fun {κ θ ρ Γ} hθ hρ hΓ => ?_⟩
    obtain ⟨labels, hq, -⟩ := id hρ
    refine .ofApp (hmeans κ θ Γ (by rw [← hscope, hq]; rfl) hθ hΓ) (.of_forall₂ ?_)
    rw [forall₂_map_right_iff]
    exact hts.imp fun _ _ h => (h.mono hle').means hθ hρ hΓ
  | .arrow a r, p, htypes => by
    rw [read]
    refine (leads_read a htypes).bind fun q ta hle hta =>
      (leads_read r fun d hd => (htypes d hd).mono hle.1).bind fun q' tr hle' htr => leads_pure ?_
    have hta := hta.mono hle'
    refine ⟨.arrow hta.fits htr.fits, by simp, fun hθ hρ hΓ => ?_⟩
    rw [Ty.value_arrow]
    exact .arrow (hta.means hθ hρ hΓ) (htr.means hθ hρ hΓ)
  | .tuple items, p, htypes => by
    rw [read]
    refine (leads_readList items htypes).bind fun q ts hle hts => leads_pure ⟨?_, ?_, ?_⟩
    · exact .tuple (forall_mem_of_forall₂ hts fun _ _ h => h.fits)
    · intro x hx
      unfold Ty.tuple at hx
      split at hx
      · simp at hx
      · cases hts with
        | cons h hnil =>
          cases hnil
          exact h.solid x hx
      · simp at hx
    · intro κ θ ρ Γ hθ hρ hΓ
      rw [Ty.value_tuple]
      refine .tuple (.of_forall₂ ?_)
      rw [forall₂_map_right_iff]
      exact hts.imp fun _ _ h => h.means hθ hρ hΓ
  | .record fields isOpen, p, htypes => by
    rw [read]
    refine (leads_readFields fields [] htypes (by simp)).bind fun q row hle hrow => ?_
    obtain ⟨entries, hrow, hnodup, hentries⟩ := hrow
    rw [nil_append] at hrow hnodup
    subst hrow
    have hfields : ∀ {q' : Spot G}, q ≤ q' → ∀ e ∈ Table.ofList entries,
        q'.stage.FitsIn q'.scope e.2 := fun hle' e he =>
      (forall_mem_of_forall₂ hentries fun _ _ h => h.2.fits.mono hle'.1 hle'.2) e
        (Table.mem_ofList he)
    have hmeans : ∀ {q' : Spot G} {κ θ ρ Γ}, q ≤ q' → q'.stage.Solves κ θ → q'.Names θ ρ →
        Γ.types = env.types →
        MeansFields κ Γ ρ fields (valuesOf θ entries) := by
      intro q' κ θ ρ Γ hle' hθ hρ hΓ
      refine .of_forall₂ ?_
      rw [valuesOf, forall₂_map_right_iff]
      exact hentries.imp fun _ _ h => ⟨h.1, (h.2.mono hle').means hθ hρ hΓ⟩
    have hlabels : ∀ θ, ((valuesOf θ entries).map (·.1)).Nodup := by
      intro θ
      rwa [map_fst_valuesOf]
    cases isOpen with
    | true =>
      refine leads_isFixed_bind ?_
      cases hscope : q.scope with
      | fixed params =>
        refine (leads_lift (Stage.leads_freshGen (Role.type.behind (Table.ofList entries)))).bind
          fun q' g hle' hg => leads_pure ⟨?_, by simp, ?_⟩
        · refine .record (Table.sorted_ofList _) (by simp [Role.front]) (hfields hle') (.var ?_)
          rw [hg.1, hscope]
          exact ⟨hg.2.1, g, rfl, fun htype => by cases htype⟩
        · rintro κ θ ρ Γ - ⟨labels, hflex, -⟩
          cases hscope.symm.trans (hg.1.symm.trans hflex)
      | flexible labels =>
        refine (leads_lift (Stage.leads_freshVar (Role.type.behind (Table.ofList entries)))).bind
          fun q' t hle' ht => ?_
        obtain ⟨hq', v, rfl, hv, -⟩ := ht
        refine leads_pure ⟨?_, by simp, fun {κ θ ρ Γ} hθ hρ hΓ => ?_⟩
        · refine .record (Table.sorted_ofList _) (by simp [Role.front]) (hfields hle') (.var ?_)
          rw [hq', hscope]
          exact ⟨hv, v, rfl⟩
        · rw [Ty.value_ofList_tail]
          refine .openRecord (hmeans hle' hθ hρ hΓ) (hlabels θ) ?_
          rw [← mapValues_ofList_value, Role.behind_mapValues]
          exact hθ.rowed v _ hv
    | false =>
      refine leads_pure ⟨.closedRecord (Table.sorted_ofList _) (hfields le_rfl), by simp,
        fun {κ θ ρ Γ} hθ hρ hΓ => ?_⟩
      rw [Ty.value_ofList]
      exact .record (hmeans le_rfl hθ hρ hΓ) (hlabels θ)

theorem leads_readList : ∀ (es : List TypeExpr) {p : Spot G},
    (∀ d ∈ env.types, p.stage.FitsType d.2) →
      Leads At p (readList env es) fun q ts => Forall₂ (q.Denotes env) es ts
  | [], p, htypes => by
    rw [readList]
    exact leads_pure .nil
  | e :: es, p, htypes => by
    rw [readList]
    refine (leads_read e htypes).bind fun q t hle ht =>
      (leads_readList es fun d hd => (htypes d hd).mono hle.1).bind fun q' ts hle' hts =>
      leads_pure (.cons (ht.mono hle') hts)

theorem leads_readFields : ∀ (es : List (String × TypeExpr)) (done : Table Ty)
    {p : Spot G}, (∀ d ∈ env.types, p.stage.FitsType d.2) →
      (done.map (·.1)).Nodup →
      Leads At p (readFields env es (.ofList done)) fun q fields => ∃ entries,
        fields = .ofList (done ++ entries) ∧ ((done ++ entries).map (·.1)).Nodup ∧
        Forall₂ (fun e t => e.1 = t.1 ∧ q.Denotes env e.2 t.2) es entries
  | [], done, p, htypes, hdone => by
    rw [readFields]
    exact leads_pure ⟨[], by simp, by simpa using hdone, .nil⟩
  | (l, e) :: es, done, p, htypes, hdone => by
    rw [readFields]
    refine (leads_read e htypes).bind fun q t hle ht => ?_
    split
    · exact leads_throw _
    · next hnew =>
      rw [← ofList_concat]
      refine (leads_readFields es _ (fun d hd => (htypes d hd).mono hle.1)
        (nodup_concat hdone hnew t)).imp fun q' fields hle' hfields => ?_
      obtain ⟨entries, hfields, hnodup, hentries⟩ := hfields
      refine ⟨(l, t) :: entries, ?_, ?_, .cons ⟨rfl, ht.mono hle'⟩ hentries⟩
      · rw [hfields, append_assoc, singleton_append]
      · rwa [append_assoc, singleton_append] at hnodup

end

variable {S : Stage G}

/-- A scope of its own is given to a reader. -/
theorem leads_denote (htypes : ∀ d ∈ env.types, S.FitsType d.2) {scope : Scope}
    (hscope : S.FitsScope scope) (e : TypeExpr) :
    Leads Stage.At S (e.denote env scope) fun S' t =>
      ∃ q : Spot G, q.stage = S' ∧ scope.Le q.scope ∧ q.Denotes env e t := by
  intro s hs
  obtain ⟨q, hle, hat, hyield⟩ := leads_read e (p := ⟨S, scope, hscope⟩) htypes ⟨s, scope⟩ ⟨hs, rfl⟩
  rw [after_denote]
  refine ⟨q.stage, hle.1, hat.1, fun t s' hrun => ?_⟩
  obtain ⟨st, hread, rfl⟩ := run_denote_inv hrun
  exact ⟨q, rfl, hle.2, hyield t st hread⟩

/-- An annotation stands for a type that it asks for. -/
theorem leads_annotated (htypes : ∀ d ∈ env.types, S.FitsType d.2) (span : Span) (e : TypeExpr) :
    Leads Stage.At S (e.annotated env span) fun S' t => S'.Fits .type t ∧
      ∀ κ θ Γ, S'.Solves κ θ → Γ.types = env.types → e.Annotates κ Γ (t.value θ) := by
  have hfresh : S.FitsScope .fresh := by simp [Stage.FitsScope, Scope.fresh]
  refine Stage.leads_located ((leads_denote htypes hfresh e).imp fun S' t hle ht => ?_) span
  obtain ⟨q, rfl, hscope, ht⟩ := ht
  have hfits := ht.fits
  have hlabels := q.fits
  cases hq : q.scope with
  | fixed params =>
    rw [hq] at hscope
    exact absurd hscope id
  | flexible labels =>
    rw [hq] at hfits hlabels
    refine ⟨hfits, fun κ θ Γ hθ hΓ => ?_⟩
    refine ⟨fun l => ((labels.lookup l).getD .int).value θ, fun l => ?_,
      ht.means hθ ⟨labels, hq, fun l u hl => by simp [hl]⟩ hΓ⟩
    · dsimp only
      cases hl : labels.lookup l with
      | none => exact hθ.rowed.isMono (.base .int)
      | some u => exact hθ.rowed.isMono (hlabels _ (mem_of_lookup hl))

end TypeExpr

end RowTyping
