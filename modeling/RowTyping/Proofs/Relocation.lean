import RowTyping.Typing.Program

/-!
# Replacing spans

Expressions and declarations carry the spans that errors are reported against. They can
be replaced all over a tree.
-/

namespace RowTyping

namespace Expr

mutual

/-- The expression with every span replaced. -/
def mapSpan (f : Span → Span) : Expr → Expr
  | .lit s b => .lit (f s) b
  | .var s x => .var (f s) x
  | .path s m x => .path (f s) m x
  | .lam s x ann body => .lam (f s) x ann (body.mapSpan f)
  | .app s func arg => .app (f s) (func.mapSpan f) (arg.mapSpan f)
  | .letIn s x isRec ann value body =>
      .letIn (f s) x isRec ann (value.mapSpan f) (body.mapSpan f)
  | .ifThenElse s cond thenE elseE =>
      .ifThenElse (f s) (cond.mapSpan f) (thenE.mapSpan f) (elseE.mapSpan f)
  | .tuple s items => .tuple (f s) (mapSpanList f items)
  | .record s fields => .record (f s) (mapSpanFields f fields)
  | .field s whole label => .field (f s) (whole.mapSpan f) label
  | .update s whole changes => .update (f s) (whole.mapSpan f) (mapSpanFields f changes)
  | .construct s c none => .construct (f s) c none
  | .construct s c (some arg) => .construct (f s) c (some (arg.mapSpan f))
  | .cases s scrutinee arms => .cases (f s) (scrutinee.mapSpan f) (mapSpanArms f arms)
  | .annotate s inner ann => .annotate (f s) (inner.mapSpan f) ann

def mapSpanList (f : Span → Span) : List Expr → List Expr
  | [] => []
  | e :: es => e.mapSpan f :: mapSpanList f es

def mapSpanFields (f : Span → Span) : List (String × Expr) → List (String × Expr)
  | [] => []
  | (l, e) :: es => (l, e.mapSpan f) :: mapSpanFields f es

def mapSpanArms (f : Span → Span) : List (Pattern × Expr) → List (Pattern × Expr)
  | [] => []
  | (p, e) :: es => (p, e.mapSpan f) :: mapSpanArms f es

end

mutual

/-- The spans of an expression and of all expressions inside it. -/
def spans : Expr → List Span
  | .lit s _ => [s]
  | .var s _ => [s]
  | .path s _ _ => [s]
  | .lam s _ _ body => s :: body.spans
  | .app s func arg => s :: func.spans ++ arg.spans
  | .letIn s _ _ _ value body => s :: value.spans ++ body.spans
  | .ifThenElse s cond thenE elseE => s :: cond.spans ++ thenE.spans ++ elseE.spans
  | .tuple s items => s :: spansList items
  | .record s fields => s :: spansFields fields
  | .field s whole _ => s :: whole.spans
  | .update s whole changes => s :: whole.spans ++ spansFields changes
  | .construct s _ none => [s]
  | .construct s _ (some arg) => s :: arg.spans
  | .cases s scrutinee arms => s :: scrutinee.spans ++ spansArms arms
  | .annotate s inner _ => s :: inner.spans

def spansList : List Expr → List Span
  | [] => []
  | e :: es => e.spans ++ spansList es

def spansFields : List (String × Expr) → List Span
  | [] => []
  | (_, e) :: es => e.spans ++ spansFields es

def spansArms : List (Pattern × Expr) → List Span
  | [] => []
  | (_, e) :: es => e.spans ++ spansArms es

end

end Expr

namespace Decl

mutual

/-- The declaration with every span replaced. -/
def mapSpan (f : Span → Span) : Decl → Decl
  | .value s x isRec ann body => .value (f s) x isRec ann (body.mapSpan f)
  | .type s name params definition => .type (f s) name params definition
  | .module s name ds => .module (f s) name (mapSpanList f ds)
  | .expr s body => .expr (f s) (body.mapSpan f)

def mapSpanList (f : Span → Span) : List Decl → List Decl
  | [] => []
  | d :: ds => d.mapSpan f :: mapSpanList f ds

end

mutual

/-- The spans of a declaration, of all declarations nested in it and of all expressions
inside it. -/
def spans : Decl → List Span
  | .value s _ _ _ body => s :: body.spans
  | .type s _ _ _ => [s]
  | .module s _ ds => s :: spansList ds
  | .expr s body => s :: body.spans

def spansList : List Decl → List Span
  | [] => []
  | d :: ds => d.spans ++ spansList ds

end

end Decl

/-- The error reported against another span. -/
def Located.mapSpan (f : Span → Span) (e : Located) : Located := { e with span := f e.span }

/-- The report with the spans of its errors replaced. -/
def Report.mapSpan (f : Span → Span) (report : Report) : Report :=
  { report with errors := report.errors.map (·.mapSpan f) }

namespace Expr

variable {f : Span → Span}

@[simp] theorem span_mapSpan (e : Expr) : (e.mapSpan f).span = f e.span := by
  cases e with
  | construct s c arg => cases arg <;> rfl
  | _ => rfl

/-- Which scheme is applied is seen from the form of an expression. -/
@[simp] theorem callee_mapSpan (env : Env) (e : Expr) :
    env.callee (e.mapSpan f) = env.callee e := by
  have happlied : env.applied? (e.mapSpan f) = env.applied? e := by
    cases e with
    | construct s c arg => cases arg <;> rfl
    | _ => rfl
  unfold Env.callee
  rw [happlied]

mutual

/-- Only the spans of an expression matter. -/
theorem mapSpan_eq_self : ∀ e : Expr, (∀ s ∈ e.spans, f s = s) → e.mapSpan f = e
  | .lit _ b, h | .var _ b, h | .path _ b _, h => by simp_all [spans, mapSpan]
  | .lam _ x ann body, h => by simp_all [spans, mapSpan, mapSpan_eq_self body]
  | .app _ func arg, h => by simp_all [spans, mapSpan, mapSpan_eq_self func, mapSpan_eq_self arg]
  | .letIn _ x isRec ann value body, h => by
    simp_all [spans, mapSpan, mapSpan_eq_self value, mapSpan_eq_self body]
  | .ifThenElse _ cond thenE elseE, h => by
    simp_all [spans, mapSpan, mapSpan_eq_self cond, mapSpan_eq_self thenE, mapSpan_eq_self elseE]
  | .tuple _ items, h => by simp_all [spans, mapSpan, mapSpanList_eq_self items]
  | .record _ fields, h => by simp_all [spans, mapSpan, mapSpanFields_eq_self fields]
  | .field _ whole label, h => by simp_all [spans, mapSpan, mapSpan_eq_self whole]
  | .update _ whole changes, h => by
    simp_all [spans, mapSpan, mapSpan_eq_self whole, mapSpanFields_eq_self changes]
  | .construct _ c none, h => by simp_all [spans, mapSpan]
  | .construct _ c (some arg), h => by simp_all [spans, mapSpan, mapSpan_eq_self arg]
  | .cases _ scrutinee arms, h => by
    simp_all [spans, mapSpan, mapSpan_eq_self scrutinee, mapSpanArms_eq_self arms]
  | .annotate _ inner ann, h => by simp_all [spans, mapSpan, mapSpan_eq_self inner]

theorem mapSpanList_eq_self : ∀ es : List Expr, (∀ s ∈ spansList es, f s = s) →
    mapSpanList f es = es
  | [], _ => rfl
  | e :: es, h => by simp_all [spansList, mapSpanList, mapSpan_eq_self e, mapSpanList_eq_self es]

theorem mapSpanFields_eq_self : ∀ es : List (String × Expr), (∀ s ∈ spansFields es, f s = s) →
    mapSpanFields f es = es
  | [], _ => rfl
  | (l, e) :: es, h => by
    simp_all [spansFields, mapSpanFields, mapSpan_eq_self e, mapSpanFields_eq_self es]

theorem mapSpanArms_eq_self : ∀ es : List (Pattern × Expr), (∀ s ∈ spansArms es, f s = s) →
    mapSpanArms f es = es
  | [], _ => rfl
  | (p, e) :: es, h => by
    simp_all [spansArms, mapSpanArms, mapSpan_eq_self e, mapSpanArms_eq_self es]

end

end Expr

namespace Decl

variable {f : Span → Span}

mutual

theorem mapSpan_eq_self : ∀ d : Decl, (∀ s ∈ d.spans, f s = s) → d.mapSpan f = d
  | .value _ x isRec ann body, h => by simp_all [spans, mapSpan, Expr.mapSpan_eq_self]
  | .type _ name params definition, h => by simp_all [spans, mapSpan]
  | .module _ name ds, h => by simp_all [spans, mapSpan, mapSpanList_eq_self ds]
  | .expr _ body, h => by simp_all [spans, mapSpan, Expr.mapSpan_eq_self]

theorem mapSpanList_eq_self : ∀ ds : List Decl, (∀ s ∈ spansList ds, f s = s) →
    mapSpanList f ds = ds
  | [], _ => rfl
  | d :: ds, h => by simp_all [spansList, mapSpanList, mapSpan_eq_self d, mapSpanList_eq_self ds]

end

end Decl

end RowTyping
