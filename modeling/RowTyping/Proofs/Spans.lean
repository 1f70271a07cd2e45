import RowTyping.Proofs.DisplayNames

/-!
# Spans are only carried along

Expressions and declarations carry spans, and every error is reported against one of
them. No decision is made by a span: where all spans of a program are replaced, the
same things happen, and only the spans of the errors are replaced.

It follows that an error points into the declaration that failed. For a replacement
that leaves the spans of the declaration as they are changes nothing at all, so it
leaves the span of the error as it is, too.
-/

namespace RowTyping

open Check

/-- Spans are replaced, and registries left as they are. -/
def Disguise.ofSpan (f : Span → Span) : Disguise where
  registry := id
  span := f
  bindings _ := rfl
  nextGen _ := rfl
  nextType _ := rfl
  addVar _ := rfl
  addGen _ := rfl
  addType _ := rfl
  setBinding _ _ _ := rfl

/-- A declaration that fails is reported against one of its own spans. -/
theorem Decl.span_mem_spans {d : Decl} {env : Env} {s s' : State} {e : Located}
    (h : (d.check env).run s = .error e s') : e.span ∈ d.spans := by
  by_contra hout
  let moved : Span → Span := fun s => if s ∈ d.spans then s else ⟨s.start + 1, s.stop⟩
  have hself : d.mapSpan moved = d := d.mapSpan_eq_self fun s hs => if_pos hs
  have hmoved : (d.check env).run s = .error (e.mapSpan moved) s' := by
    have hrun := d.check_mimics (.ofSpan moved) env s
    rwa [h, show d.mapSpan (Disguise.ofSpan moved).span = d from hself] at hrun
  rw [h] at hmoved
  have hspan : e.span = moved e.span := congrArg Located.span (EStateM.Result.error.inj hmoved).1
  have hstart := congrArg Span.start hspan
  simp [moved, hout] at hstart

/-! ## Programs -/

theorem checkDecls_mapSpan (f : Span → Span) (ds : List Decl) (report : Report) (s : State) :
    checkDecls (ds.map (·.mapSpan f)) (report.mapSpan f) s =
      ((checkDecls ds report s).1.mapSpan f, (checkDecls ds report s).2) :=
  checkDecls_mimics (.ofSpan f) ds report s

/-- Every error on a report is that of a declaration, checked where those before it left
off. -/
theorem exists_failing (ds : List Decl) (report : Report) (s : State) {k : Nat} {e : Located}
    (h : (checkDecls ds report s).1.errors[report.errors.length + k]? = some e) :
    ∃ before d after s', ds = before ++ d :: after ∧
      (checkDecls before report s).1.errors.length = report.errors.length + k ∧
      (d.check (checkDecls before report s).1.env).run (checkDecls before report s).2 =
        .error e s' := by
  induction ds generalizing report s k with
  | nil => simp [checkDecls] at h
  | cons d ds ih =>
    cases hs : (d.check report.env).run s with
    | ok out s₁ =>
      rw [checkDecls_ok hs] at h
      obtain ⟨before, d', after, s', rfl, hcount, hrun⟩ := ih _ _ h
      refine ⟨d :: before, d', after, s', rfl, ?_, ?_⟩
      · rw [checkDecls_ok hs]
        exact hcount
      · rw [checkDecls_ok hs]
        exact hrun
    | error e₁ s₁ =>
      rw [checkDecls_error hs] at h
      cases k with
      | zero =>
        have he : e₁ = e := by
          rw [checkDecls_report] at h
          simpa [Report.then] using h
        exact ⟨[], d, ds, s₁, rfl, rfl, he ▸ hs⟩
      | succ k =>
        have hindex : (report.errors ++ [e₁]).length + k = report.errors.length + (k + 1) := by
          simp
          omega
        rw [← hindex] at h
        obtain ⟨before, d', after, s', rfl, hcount, hrun⟩ := ih _ _ h
        refine ⟨d :: before, d', after, s', rfl, ?_, ?_⟩
        · rw [checkDecls_error hs, ← hindex]
          exact hcount
        · rw [checkDecls_error hs]
          exact hrun

/-- Spans decide nothing. A program with other spans has the same report but for the
spans of the errors, which are replaced in the same way, and leaves the same state. Every
error is that of a declaration, and points to this declaration, to one that is nested in
it or to an expression inside it. -/
theorem checkProgram_mapSpan (f : Span → Span) (env : Env) (ds : List Decl) (s : State) :
    checkProgram env (ds.map (·.mapSpan f)) s =
      ((checkProgram env ds s).1.mapSpan f, (checkProgram env ds s).2) ∧
    ∀ k e, (checkProgram env ds s).1.errors[k]? = some e →
      ∃ before d after s', ds = before ++ d :: after ∧
        (checkDecls before { env } s).1.errors.length = k ∧
        (d.check (checkDecls before { env } s).1.env).run (checkDecls before { env } s).2 =
          .error e s' ∧
        e.span ∈ d.spans := by
  rw [checkProgram_eq, checkProgram_eq]
  constructor
  · have hdecls : checkDecls (ds.map (·.mapSpan f)) { env } s =
        ((checkDecls ds { env } s).1.mapSpan f, (checkDecls ds { env } s).2) :=
      checkDecls_mapSpan f ds { env } s
    rw [hdecls]
  · intro k e h
    obtain ⟨before, d, after, s', hds, hcount, hrun⟩ := exists_failing ds { env } s
      (by simpa using h)
    exact ⟨before, d, after, s', hds, by simpa using hcount, hrun, Decl.span_mem_spans hrun⟩

end RowTyping
