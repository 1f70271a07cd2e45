import RowTyping.Span
import RowTyping.Ty.Basic

/-!
# Programs as trees

Written types, patterns, expressions and declarations. Expressions and
declarations carry the span of source text that errors are reported against.
Literals are known by their base type; their value plays no part in typing.
-/

namespace RowTyping

/-- A type as it is written. -/
inductive TypeExpr where
  | name (n : String)
  | var (label : String)
  | app (n : String) (args : List TypeExpr)
  | arrow (a r : TypeExpr)
  | tuple (items : List TypeExpr)
  | record (fields : List (String × TypeExpr)) (isOpen : Bool)

inductive Pattern where
  | wild
  | var (name : String)
  | lit (b : Base)
  | tuple (items : List Pattern)
  | construct (name : String) (arg : Option Pattern)
  | record (fields : List (String × Pattern)) (isOpen : Bool)

inductive Expr where
  | lit (span : Span) (b : Base)
  | var (span : Span) (name : String)
  /-- A member of a module. -/
  | path (span : Span) (owner name : String)
  | lam (span : Span) (param : String) (ann : Option TypeExpr) (body : Expr)
  | app (span : Span) (func arg : Expr)
  | letIn (span : Span) (name : String) (isRec : Bool) (ann : Option TypeExpr)
      (value body : Expr)
  | ifThenElse (span : Span) (cond thenE elseE : Expr)
  | tuple (span : Span) (items : List Expr)
  | record (span : Span) (fields : List (String × Expr))
  | field (span : Span) (record : Expr) (label : String)
  | update (span : Span) (record : Expr) (fields : List (String × Expr))
  | construct (span : Span) (name : String) (arg : Option Expr)
  | cases (span : Span) (scrutinee : Expr) (arms : List (Pattern × Expr))
  | annotate (span : Span) (inner : Expr) (ann : TypeExpr)

namespace Expr

def span : Expr → Span
  | .lit s _ | .var s _ | .path s _ _ | .lam s _ _ _ | .app s _ _ | .letIn s _ _ _ _ _
  | .ifThenElse s _ _ _ | .tuple s _ | .record s _ | .field s _ _ | .update s _ _
  | .construct s _ _ | .cases s _ _ | .annotate s _ _ => s

/-- The expression reported against another span. -/
def withSpan (s : Span) : Expr → Expr
  | .lit _ b => .lit s b
  | .var _ n => .var s n
  | .path _ m n => .path s m n
  | .lam _ x a b => .lam s x a b
  | .app _ f a => .app s f a
  | .letIn _ n r a v b => .letIn s n r a v b
  | .ifThenElse _ c t e => .ifThenElse s c t e
  | .tuple _ es => .tuple s es
  | .record _ fs => .record s fs
  | .field _ r l => .field s r l
  | .update _ r fs => .update s r fs
  | .construct _ n a => .construct s n a
  | .cases _ e arms => .cases s e arms
  | .annotate _ e t => .annotate s e t

/-- Application to several arguments in turn, reported against one span. -/
def call (s : Span) (func : Expr) (args : List Expr) : Expr :=
  (args.foldl (fun f a => .app {} f a) func).withSpan s

end Expr

/-- The right-hand side of a type declaration. -/
inductive TypeDef where
  | variant (cases : List (String × Option TypeExpr))
  | synonym (target : TypeExpr)
  | abstract

inductive Decl where
  | value (span : Span) (name : String) (isRec : Bool) (ann : Option TypeExpr)
      (body : Expr)
  | type (span : Span) (name : String) (params : List String) (definition : TypeDef)
  | module (span : Span) (name : String) (decls : List Decl)
  | expr (span : Span) (body : Expr)

def Decl.span : Decl → Span
  | .value s _ _ _ _ | .type s _ _ _ | .module s _ _ | .expr s _ => s

end RowTyping
