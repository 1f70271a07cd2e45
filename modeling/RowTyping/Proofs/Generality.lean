import RowTyping.Proofs.Covering

/-!
# Types of the same generality

A type is an instance of another one if it comes from that by putting types in the
place of its variables, and rows in the place of those that records go on with. Two
types that are instances of each other are the same but for the names of their
variables and for synonyms.
-/

namespace RowTyping

open Row Table Ty Finset Function List Option

namespace Ty

variable {G G₁ G₂ : Prop} {H H₁ H₂ V V₁ V₂ : TyVar → Role → Prop} {k : Role} {t : Ty}
  {f g : TyVar → Ty} {x : TyVar}

/-! ## Substitutions that agree -/

theorem norm_subst_record (f : TyVar → Ty) (fs : Table Ty) (tail : Ty) :
    ((record fs tail).subst f).norm = (prepend
      (mapValues (fun u => (u.subst f).norm) fs) (tail.subst f).norm.asRow).toRecord := by
  rw [subst, norm_record]
  simp [mapValues, comp_def]

/-- Substitutions that give a type the same value give its variables the same
values. -/
theorem Fits.same_of_subst (h : t.Fits G H V k) (hf : (t.subst f).Fits G₁ H₁ V₁ k)
    (hg : (t.subst g).Fits G₂ H₂ V₂ k) (hsame : k.kind.Same (t.subst f).norm (t.subst g).norm)
    (hx : x ∈ t.shown) : ∃ k', V x k' ∧ k'.kind.Same (f x).norm (g x).norm := by
  induction h with
  | @var _ k y hy =>
    cases mem_shown_var.mp hx
    exact ⟨k, hy, hsame⟩
  | con hc _ _ ih =>
    obtain ⟨u, hu, hx⟩ := mem_shown_con.mp hx
    rw [Ty.subst, substList_eq] at hf
    rw [Ty.subst, substList_eq] at hg
    rw [Ty.subst, Ty.subst, substList_eq, substList_eq] at hsame
    rw [norm_con hc.1, norm_con hc.1, List.map_map, List.map_map] at hsame
    cases hf with
    | con _ _ hargsf =>
      cases hg with
      | con _ _ hargsg =>
        exact ih u hu (hargsf _ (mem_map_of_mem hu)) (hargsg _ (mem_map_of_mem hu))
          (map_inj_left.mp (con.inj hsame).2 u hu) hx
  | emptyRow => simp at hx
  | @record V k fs tail hs _ _ _ ihf iht =>
    have hrows := hsame.asRow
    rw [norm_subst_record, norm_subst_record, asRow_toRecord, asRow_toRecord] at hrows
    rw [Ty.subst, substFields_eq] at hf
    rw [Ty.subst, substFields_eq] at hg
    cases hf with
    | record _ _ hfieldsf htailf =>
      cases hg with
      | record _ _ hfieldsg htailg =>
        have hlookup : ∀ l, (prepend _ _).fields.lookup l = (prepend _ _).fields.lookup l :=
          fun l => congrArg (fun row => row.fields.lookup l) hrows
        simp only [lookup_prepend, lookup_mapValues] at hlookup
        rcases mem_shown_record.mp hx with ⟨e, he, hx⟩ | hx
        · have hl := hlookup e.1
          rw [hs.lookup_of_mem he] at hl
          exact ihf e he (hfieldsf (e.1, e.2.subst f) (mem_map_of_mem he))
            (hfieldsg (e.1, e.2.subst g) (mem_map_of_mem he)) (some.inj hl) hx
        · have hbehindf := Role.behind_mapValues _ _ _ ▸ htailf
          have hbehindg := Role.behind_mapValues _ _ _ ▸ htailg
          refine iht hbehindf hbehindg ?_ hx
          have htails := congrArg Row.tail hrows
          refine eq_of_lookup (asRow_norm_sorted _) (asRow_norm_sorted _) (fun l => ?_) htails
          by_cases hl : l ∈ names fs
          · have hfront : l ∈ k.front ∪ names fs := mem_union_right _ hl
            rw [hbehindf.lookup_front hfront, hbehindg.lookup_front hfront]
          · have hnone : fs.lookup l = none := by
              rwa [mem_names_iff_lookup, not_isSome_iff_eq_none] at hl
            simpa [hnone] using hlookup l
  | synonym _ _ _ _ iht =>
    cases hf with
    | synonym _ htargetf =>
      cases hg with
      | synonym _ htargetg => exact iht htargetf htargetg hsame (mem_shown_synonym.mp hx)
  | module => exact absurd hx mem_shown_module

/-- Substitutions that give the variables of a type the same values give the type the
same value. -/
theorem Fits.same_subst (h : t.Fits G H V k)
    (hsame : ∀ x ∈ t.shown, ∀ k', V x k' → k'.kind.Same (f x).norm (g x).norm) :
    k.kind.Same (t.subst f).norm (t.subst g).norm := by
  induction h with
  | @var _ k x hx => exact hsame x (by simp) k hx
  | con hc _ _ ih =>
    rw [Ty.subst, Ty.subst, substList_eq, substList_eq, norm_con hc.1, norm_con hc.1, List.map_map,
      List.map_map]
    refine congrArg _ (map_congr_left fun u hu => ?_)
    exact ih u hu fun x hx => hsame x (mem_shown_con.mpr ⟨u, hu, hx⟩)
  | emptyRow => exact .refl _ _
  | @record _ k fs tail _ _ _ _ ihf iht =>
    have hfields : mapValues (fun u => (u.subst f).norm) fs =
        mapValues (fun u => (u.subst g).norm) fs :=
      mapValues_congr fun e he => ihf e he fun x hx =>
        hsame x (mem_shown_record.mpr (.inl ⟨e, he, hx⟩))
    have htail : (tail.subst f).norm.asRow = (tail.subst g).norm.asRow :=
      iht fun x hx => hsame x (mem_shown_record.mpr (.inr hx))
    rw [norm_subst_record, norm_subst_record, hfields, htail]
    exact .refl _ _
  | synonym _ _ _ _ iht => exact iht fun x hx => hsame x (mem_shown_synonym.mpr hx)
  | module => exact .refl _ _

/-- What becomes a variable is one. -/
theorem Fits.exists_var (h : t.Fits G H V k) (hsame : k.kind.Same (t.subst f).norm (.var x)) :
    ∃ y ∈ t.shown, V y k ∧ k.kind.Same t.norm (.var y) ∧ k.kind.Same (f y).norm (.var x) := by
  induction h with
  | @var _ k y hy => exact ⟨y, by simp, hy, .refl _ _, hsame⟩
  | con hc =>
    rw [Ty.subst, norm_con hc.1] at hsame
    cases hsame
  | emptyRow front =>
    have hrow := hsame.asRow
    cases hrow
  | @record _ k fs tail _ _ _ _ _ iht =>
    rw [norm_subst_record] at hsame
    cases k with
    | type => cases hsame
    | rest front =>
      have hrow := hsame.asRow
      rw [asRow_toRecord] at hrow
      cases fs with
      | cons e fs =>
        obtain ⟨l, u⟩ := e
        have hlookup := congrArg (fun row => row.fields.lookup l) hrow
        rw [lookup_prepend, lookup_mapValues, lookup_cons_self] at hlookup
        cases hlookup
      | nil =>
        have hprepend := prepend_nil (asRow_norm_sorted (tail.subst f))
        obtain ⟨y, hy, hV, hvar, hfy⟩ := iht (hprepend.symm.trans hrow)
        rw [Role.behind_nil] at hV
        refine ⟨y, mem_shown_record.mpr (.inr hy), hV, ?_, hfy⟩
        show (Ty.record [] tail).norm.asRow = _
        exact (prepend_nil (asRow_norm_sorted tail)).trans hvar
  | synonym _ _ _ _ iht =>
    obtain ⟨y, hy, hrest⟩ := iht hsame
    exact ⟨y, mem_shown_synonym.mpr hy, hrest⟩
  | module => cases hsame

/-! ## Instances -/

variable {κ κ' role role' : Nat → Role} {θ : Nat → Ty} {u : Ty}

theorem Rowed.subst_norm (h : t.Rowed role k)
    (hθ : ∀ v, .flex v ∈ t.shown → (θ v).Rowed κ (role v)) :
    (t.norm.subst (fill θ)).Rowed κ k := by
  have hnorm : t.norm.Fits False (fun _ _ => False) (Role.Of role) k := Fits.norm h
  refine Fits.subst hnorm.restrict (fun x k hx => ?_) (fun _ _ hx => hx.elim) fun _ _ hx => hx.elim
  obtain ⟨⟨v, rfl, rfl⟩, hv⟩ := hx
  exact hθ v (mem_shown_of_norm hv)

/-- A variable that a type shows has one role. -/
theorem Rowed.role_eq (h : t.Rowed role k) (h' : t.Rowed role' k) {v : Nat}
    (hv : .flex v ∈ t.shown) : role v = role' v := by
  rw [← subst_var t] at h'
  obtain ⟨k', ⟨w, hw, rfl⟩, hk'⟩ := Fits.of_subst h h' hv
  cases hw
  obtain ⟨w, hw, heq⟩ := Fits.var_iff.mp hk'
  cases hw
  exact heq.symm

/-- The type comes from the other one by putting types in the place of its variables,
and rows that repeat no label in the place of those that records go on with.
Synonyms are looked through. -/
def InstanceOf (κ : Nat → Role) (t u : Ty) : Prop :=
  ∃ (role : Nat → Role) (θ : Nat → Ty), u.Rowed role .type ∧
    (∀ v, .flex v ∈ u.shown → (θ v).Rowed κ (role v)) ∧ t.norm = (u.subst (fill θ)).norm

theorem InstanceOf.of_norm (h : t.norm.InstanceOf κ u) : t.InstanceOf κ u := by
  obtain ⟨role, θ, hu, hθ, heq⟩ := h
  rw [norm_norm] at heq
  exact ⟨role, θ, hu, hθ, heq⟩

/-- If a type is an instance of its own instance, then variables stand for its
variables on the way there and back. -/
theorem exists_var_of_instances {η : Nat → Ty} (hu : u.Rowed role .type)
    (hθ : ∀ v, .flex v ∈ u.shown → (θ v).Rowed κ (role v)) (ht : t.norm = (u.subst (fill θ)).norm)
    (ht' : t.Rowed role' .type) (hη : ∀ w, .flex w ∈ t.shown → (η w).Rowed κ' (role' w))
    (hu' : u.norm = (t.subst (fill η)).norm) {v : Nat} (hv : .flex v ∈ u.shown) :
    ∃ w, (role v).kind.Same (θ v).norm (.flex w) ∧ (role v).kind.Same (η w).norm (.flex v) := by
  have hthere : (u.norm.subst (fill θ)).Rowed κ .type := hu.subst_norm hθ
  have hnorm : (u.norm.subst (fill θ)).norm = t.norm := (norm_subst _ _).trans ht.symm
  have hrole : ∀ v w, .flex v ∈ u.shown → .flex w ∈ (θ v).shown → (η w).Rowed κ' (κ w) := by
    intro v w hv hw
    have hw' : .flex w ∈ t.norm.shown := by
      rw [← hnorm]
      exact hthere.mem_shown_norm (mem_shown_subst.mpr ⟨.flex v, hu.mem_shown_norm hv, hw⟩)
    have hκ : t.norm.Rowed κ .type := by
      rw [← hnorm]
      exact Fits.norm hthere
    rw [hκ.role_eq (Fits.norm ht') hw']
    exact hη w (mem_shown_of_norm hw')
  let f : TyVar → Ty := fun x => (fill θ x).norm.subst (fill η)
  have hfits : u.norm.Fits False (fun _ _ => False) (Role.Of role) .type := Fits.norm hu
  have hback : (u.norm.subst f).Rowed κ' .type := by
    refine Fits.subst hfits.restrict (fun x k hx => ?_) (fun _ _ hx => hx.elim)
      fun _ _ hx => hx.elim
    obtain ⟨⟨v, rfl, rfl⟩, hv⟩ := hx
    have hv := mem_shown_of_norm hv
    exact (hθ v hv).subst_norm fun w => hrole v w hv
  have heq : (u.norm.subst f).norm = (u.norm.subst .var).norm := by
    calc (u.norm.subst f).norm
        = (u.norm.subst fun x => (fill θ x).subst (fill η)).norm :=
          norm_subst_congr fun x _ => norm_subst (fill η) (fill θ x)
      _ = ((u.norm.subst (fill θ)).subst (fill η)).norm := by rw [subst_subst]
      _ = (t.subst (fill η)).norm := by rw [← norm_subst, hnorm, norm_subst]
      _ = (u.norm.subst .var).norm := by rw [subst_var, norm_norm, hu']
  obtain ⟨k, ⟨w, hw, rfl⟩, hsame⟩ := Fits.same_of_subst hfits hback
    (by rw [subst_var]; exact hfits) heq (hu.mem_shown_norm hv)
  cases hw
  have hθv : (θ v).norm.Fits False (fun _ _ => False) (Role.Of κ) (role v) := Fits.norm (hθ v hv)
  obtain ⟨y, -, ⟨w, rfl, -⟩, hthere, hback⟩ := hθv.exists_var hsame
  rw [norm_norm] at hthere
  exact ⟨w, hthere, hback⟩

/-- The types are the same but for synonyms and for the names of their variables. -/
def Renames (t u : Ty) : Prop :=
  ∃ ρ : Nat → Nat, (∀ v w, .flex v ∈ u.shown → .flex w ∈ u.shown → ρ v = ρ w → v = w) ∧
    t.norm = (u.subst (fill fun v => .flex (ρ v))).norm

/-- Types that are instances of each other are the same but for the names of their
variables. -/
theorem InstanceOf.renames (h : t.InstanceOf κ u) (h' : u.InstanceOf κ' t) : t.Renames u := by
  obtain ⟨role, θ, hu, hθ, ht⟩ := h
  obtain ⟨role', η, ht', hη, hu'⟩ := h'
  have hvar : ∀ v, ∃ w, .flex v ∈ u.shown →
      (role v).kind.Same (θ v).norm (.flex w) ∧ (role v).kind.Same (η w).norm (.flex v) := by
    intro v
    by_cases hv : .flex v ∈ u.shown
    · obtain ⟨w, hw⟩ := exists_var_of_instances hu hθ ht ht' hη hu' hv
      exact ⟨w, fun _ => hw⟩
    · exact ⟨v, fun h => absurd h hv⟩
  choose ρ hρ using hvar
  refine ⟨ρ, fun v w hv hw heq => ?_, ht.trans ?_⟩
  · have hvw := (hρ v hv).2.asRow.symm
    rw [heq] at hvw
    cases hvw.trans (hρ w hw).2.asRow
    rfl
  · refine Fits.same_subst hu fun x hx k' hk' => ?_
    obtain ⟨v, rfl, rfl⟩ := hk'
    exact (hρ v hx).1

end Ty

end RowTyping
