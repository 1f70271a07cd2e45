import RowTyping.Proofs.Roles
import RowTyping.Typing.Expr

/-!
# The declarative type system

`HasType κ Γ e s` says that the expression `e` has the type `s` in the context
`Γ`, by rules that guess types and never solve anything. Types are compared in
normal form, so synonyms are looked through and a record is a finite map from
labels. Type variables are the `flex` variables, and `κ` gives the role of each:
a type, or the rest of a record behind certain labels. Generalized variables only
stand in schemes, and an instance of a scheme puts types or rows in the place of
all of them; those of a row that a declaration left open are no exception.

Functions and recursive values bind their names to one type. A `let` quantifies
over variables that its context does not know.
-/

namespace RowTyping

/-- The role that `κ` gives to a type variable. -/
def Role.Of (κ : Nat → Role) (x : TyVar) (k : Role) : Prop := ∃ v, x = .flex v ∧ κ v = k

namespace Ty

/-- Every part of the type has its role, with the roles `κ` of the type
variables. There are no generalized variables. -/
def Rowed (κ : Nat → Role) (k : Role) (t : Ty) : Prop :=
  t.Fits False (fun _ _ => True) (Role.Of κ) k

/-- A type of the system. -/
structure IsMono (κ : Nat → Role) (t : Ty) : Prop where
  normal : t.norm = t
  rowed : t.Rowed κ .type

/-- The substitution of generalized variables. -/
def fillGens (f : Nat → Ty) : TyVar → Ty
  | .flex v => .flex v
  | .gen g => f g

/-- The substitution that quantifies over variables. -/
def closing (close : Nat → Option Nat) : TyVar → Ty :=
  fill fun v => (close v).elim (.flex v) .gen

/-- How many components a value of the type has. -/
def width : Ty → Arity
  | .con .tuple items => .count items.length
  | .var _ => .any
  | _ => .count 1

/-- How many components an argument of the type is declared to have. -/
def components (t : Ty) : Arity := t.norm.width

end Ty

namespace Scheme

/-- The type is an instance of the scheme. -/
def Instance (κ : Nat → Role) (σ : Scheme) (s : Ty) : Prop :=
  ∃ f : Nat → Ty, (σ.body.norm.IsBody fun u => (u.subst (Ty.fillGens f)).Rowed κ .type) ∧
    s = (σ.body.norm.subst (Ty.fillGens f)).norm

/-- The type is what the scheme of a type name gives for arguments. -/
def Applied (κ : Nat → Role) (σ : Scheme) (args : List Ty) (s : Ty) : Prop :=
  ∃ f : Nat → Ty, σ.vars.map f = args ∧
    (σ.body.norm.subst (Ty.fillGens f)).Rowed κ .type ∧
    s = (σ.body.norm.subst (Ty.fillGens f)).norm

end Scheme

/-- The variable is free in the scheme of a value. -/
def Env.Knows (Γ : Env) (v : Nat) : Prop := ∃ e ∈ Γ.values, .flex v ∈ e.2.body.shown

/-- The scheme quantifies the type over variables that the context does not know,
each under a name of its own. -/
def Generalizes (Γ : Env) (s : Ty) (σ : Scheme) : Prop :=
  ∃ close : Nat → Option Nat,
    (∀ v g, close v = some g → ¬ Γ.Knows v ∧ g ∈ σ.vars) ∧
    (∀ v w g, close v = some g → close w = some g → v = w) ∧
    σ.body = s.subst (Ty.closing close)

namespace TypeExpr

mutual

/-- What a written type stands for, given types for its labels. A row that is
left open goes on with any row. -/
inductive Means (κ : Nat → Role) (env : Env) (ρ : String → Ty) : TypeExpr → Ty → Prop where
  | name {n : String} {σ : Scheme} {s : Ty} (hn : env.type? n = some σ)
      (hs : σ.Applied κ [] s) : Means κ env ρ (.name n) s
  | base {n : String} {b : Base} (hn : env.type? n = none) (hb : Base.ofName? n = some b) :
      Means κ env ρ (.name n) (.base b)
  | var (l : String) : Means κ env ρ (.var l) (ρ l)
  | app {n : String} {args : List TypeExpr} {σ : Scheme} {ss : List Ty} {s : Ty}
      (hn : env.type? n = some σ) (hargs : MeansList κ env ρ args ss)
      (hs : σ.Applied κ ss s) : Means κ env ρ (.app n args) s
  | appBase {n : String} {b : Base} (hn : env.type? n = none) (hb : Base.ofName? n = some b) :
      Means κ env ρ (.app n []) (.base b)
  | arrow {a r : TypeExpr} {s u : Ty} (ha : Means κ env ρ a s) (hr : Means κ env ρ r u) :
      Means κ env ρ (.arrow a r) (.arrow s u)
  | tuple {items : List TypeExpr} {ss : List Ty} (h : MeansList κ env ρ items ss) :
      Means κ env ρ (.tuple items) (.tuple ss)
  | record {fields : List (String × TypeExpr)} {entries : List (String × Ty)}
      (h : MeansFields κ env ρ fields entries) (hnodup : (entries.map (·.1)).Nodup) :
      Means κ env ρ (.record fields false) (.record (Table.ofList entries) .emptyRow)
  | openRecord {fields : List (String × TypeExpr)} {entries : List (String × Ty)} {row : Ty}
      (h : MeansFields κ env ρ fields entries) (hnodup : (entries.map (·.1)).Nodup)
      (hrow : row.Rowed κ (Role.type.behind (Table.ofList entries))) :
      Means κ env ρ (.record fields true) (Ty.record (Table.ofList entries) row).norm

inductive MeansList (κ : Nat → Role) (env : Env) (ρ : String → Ty) :
    List TypeExpr → List Ty → Prop where
  | nil : MeansList κ env ρ [] []
  | cons {e : TypeExpr} {es : List TypeExpr} {s : Ty} {ss : List Ty} (h : Means κ env ρ e s)
      (hs : MeansList κ env ρ es ss) : MeansList κ env ρ (e :: es) (s :: ss)

inductive MeansFields (κ : Nat → Role) (env : Env) (ρ : String → Ty) :
    List (String × TypeExpr) → List (String × Ty) → Prop where
  | nil : MeansFields κ env ρ [] []
  | cons {l : String} {e : TypeExpr} {es : List (String × TypeExpr)} {s : Ty}
      {ss : List (String × Ty)} (h : Means κ env ρ e s) (hs : MeansFields κ env ρ es ss) :
      MeansFields κ env ρ ((l, e) :: es) ((l, s) :: ss)

end

/-- The type is what an annotation asks for, with some types for its labels. -/
def Annotates (κ : Nat → Role) (env : Env) (e : TypeExpr) (s : Ty) : Prop :=
  ∃ ρ : String → Ty, (∀ l, (ρ l).IsMono κ) ∧ e.Means κ env ρ s

end TypeExpr

namespace Pattern

mutual

/-- The pattern matches values of the type and binds names to types. A
constructor's argument has to have as many components as were declared. -/
inductive Matches (κ : Nat → Role) (Γ : Env) : Pattern → Ty → List (String × Ty) → Prop where
  | wild (s : Ty) : Matches κ Γ .wild s []
  | var (x : String) (s : Ty) : Matches κ Γ (.var x) s [(x, s)]
  | lit (b : Base) : Matches κ Γ (.lit b) (.base b) []
  | tuple {ps : List Pattern} {ss : List Ty} {bs : List (String × Ty)}
      (h : MatchesList κ Γ ps ss bs) : Matches κ Γ (.tuple ps) (.tuple ss) bs
  | constant {c name : String} {σ : Scheme} {owner : Ty} (hc : Γ.value? c = some σ)
      (hs : σ.Instance κ (.ctor name owner none)) : Matches κ Γ (.construct c none) owner []
  | construct {c name : String} {p : Pattern} {σ : Scheme} {ctor : Ctor} {declared owner s : Ty}
      {bs : List (String × Ty)} (hc : Γ.value? c = some σ) (hctor : σ.body.norm.ctor? = some ctor)
      (harg : ctor.arg = some declared)
      (harity : declared.components.agrees (.ofPattern (some p)) = true)
      (hs : σ.Instance κ (.ctor name owner (some s))) (hp : Matches κ Γ p s bs) :
      Matches κ Γ (.construct c (some p)) owner bs
  | record {fields : List (String × Pattern)} {entries bs : List (String × Ty)}
      (h : MatchesFields κ Γ fields entries bs) (hnodup : (entries.map (·.1)).Nodup) :
      Matches κ Γ (.record fields false) (.record (Table.ofList entries) .emptyRow) bs
  | openRecord {fields : List (String × Pattern)} {entries bs : List (String × Ty)} {row : Ty}
      (h : MatchesFields κ Γ fields entries bs) (hnodup : (entries.map (·.1)).Nodup)
      (hrow : row.Rowed κ (Role.type.behind (Table.ofList entries))) :
      Matches κ Γ (.record fields true) (Ty.record (Table.ofList entries) row).norm bs

inductive MatchesList (κ : Nat → Role) (Γ : Env) :
    List Pattern → List Ty → List (String × Ty) → Prop where
  | nil : MatchesList κ Γ [] [] []
  | cons {p : Pattern} {ps : List Pattern} {s : Ty} {ss : List Ty} {bs cs : List (String × Ty)}
      (h : Matches κ Γ p s bs) (hs : MatchesList κ Γ ps ss cs) :
      MatchesList κ Γ (p :: ps) (s :: ss) (bs ++ cs)

inductive MatchesFields (κ : Nat → Role) (Γ : Env) :
    List (String × Pattern) → List (String × Ty) → List (String × Ty) → Prop where
  | nil : MatchesFields κ Γ [] [] []
  | cons {l : String} {p : Pattern} {ps : List (String × Pattern)} {s : Ty}
      {ss bs cs : List (String × Ty)} (h : Matches κ Γ p s bs)
      (hs : MatchesFields κ Γ ps ss cs) :
      MatchesFields κ Γ ((l, p) :: ps) ((l, s) :: ss) (bs ++ cs)

end

end Pattern

mutual

/-- The expression has the type in the context. -/
inductive HasType (κ : Nat → Role) : Env → Expr → Ty → Prop where
  | lit {Γ : Env} {span : Span} (b : Base) : HasType κ Γ (.lit span b) (.base b)
  | var {Γ : Env} {span : Span} {x : String} {σ : Scheme} {s : Ty} (hx : Γ.value? x = some σ)
      (hs : σ.Instance κ s) : HasType κ Γ (.var span x) s.asValue
  | path {Γ members : Env} {span : Span} {m x name : String} {vars : List Nat} {σ : Scheme} {s : Ty}
      (hm : Γ.value? m = some ⟨vars, .module name members⟩) (hx : members.value? x = some σ)
      (hs : σ.Instance κ s) : HasType κ Γ (.path span m x) s.asValue
  | lam {Γ : Env} {span : Span} {x : String} {ann : Option TypeExpr} {body : Expr} {s r : Ty}
      (hs : s.IsMono κ) (hann : ∀ e ∈ ann, e.Annotates κ Γ s)
      (hbody : HasType κ (Γ.addValue x (.mono s)) body r) :
      HasType κ Γ (.lam span x ann body) (.arrow s r)
  | app {Γ : Env} {span : Span} {func arg : Expr} {s r : Ty} (hfunc : HasType κ Γ func (.arrow s r))
      (harg : HasType κ Γ arg s) : HasType κ Γ (.app span func arg) r
  | applyConstructor {Γ : Env} {span span' : Span} {c name : String} {arg : Expr} {σ : Scheme}
      {owner s : Ty} (hc : Γ.value? c = some σ) (hs : σ.Instance κ (.ctor name owner (some s)))
      (harg : HasType κ Γ arg s) : HasType κ Γ (.app span (.construct span' c none) arg) owner
  | letIn {Γ : Env} {span : Span} {x : String} {isRec : Bool} {ann : Option TypeExpr}
      {value body : Expr} {σ : Scheme} {s r : Ty} (hs : s.IsMono κ)
      (hvalue : HasType κ (if isRec then Γ.addValue x (.mono s) else Γ) value s)
      (hann : ∀ e ∈ ann, e.Annotates κ Γ s) (hσ : Generalizes Γ s σ)
      (hbody : HasType κ (Γ.addValue x σ) body r) :
      HasType κ Γ (.letIn span x isRec ann value body) r
  | ifThenElse {Γ : Env} {span : Span} {cond thenE elseE : Expr} {s : Ty}
      (hcond : HasType κ Γ cond .bool) (hthen : HasType κ Γ thenE s)
      (helse : HasType κ Γ elseE s) : HasType κ Γ (.ifThenElse span cond thenE elseE) s
  | tuple {Γ : Env} {span : Span} {items : List Expr} {ss : List Ty} (h : HasTypes κ Γ items ss) :
      HasType κ Γ (.tuple span items) (.tuple ss)
  | record {Γ : Env} {span : Span} {fields : List (String × Expr)} {entries : List (String × Ty)}
      (h : HasFields κ Γ fields entries) (hnodup : (entries.map (·.1)).Nodup) :
      HasType κ Γ (.record span fields) (.record (Table.ofList entries) .emptyRow)
  | field {Γ : Env} {span : Span} {whole : Expr} {label : String} {fs : Table Ty} {tail s : Ty}
      (h : HasType κ Γ whole (.record fs tail)) (hs : fs.lookup label = some s) :
      HasType κ Γ (.field span whole label) s
  | update {Γ : Env} {span : Span} {whole : Expr} {changes : List (String × Expr)} {fs : Table Ty}
      {tail : Ty} {entries : List (String × Ty)} (h : HasType κ Γ whole (.record fs tail))
      (hchanges : HasFields κ Γ changes entries) (hnodup : (entries.map (·.1)).Nodup)
      (hfs : ∀ e ∈ entries, fs.lookup e.1 = some e.2) :
      HasType κ Γ (.update span whole changes) (.record fs tail)
  | constant {Γ : Env} {span : Span} {c name : String} {σ : Scheme} {owner : Ty}
      (hc : Γ.value? c = some σ) (hs : σ.Instance κ (.ctor name owner none)) :
      HasType κ Γ (.construct span c none) owner
  | construct {Γ : Env} {span : Span} {c name : String} {arg : Expr} {σ : Scheme} {owner s : Ty}
      (hc : Γ.value? c = some σ) (hs : σ.Instance κ (.ctor name owner (some s)))
      (harg : HasType κ Γ arg s) : HasType κ Γ (.construct span c (some arg)) owner
  | cases {Γ : Env} {span : Span} {scrutinee : Expr} {arms : List (Pattern × Expr)} {s r : Ty}
      (h : HasType κ Γ scrutinee s) (hr : r.IsMono κ) (harms : HasArms κ Γ s r arms) :
      HasType κ Γ (.cases span scrutinee arms) r
  | annotate {Γ : Env} {span : Span} {inner : Expr} {ann : TypeExpr} {s : Ty}
      (h : HasType κ Γ inner s) (hann : ann.Annotates κ Γ s) :
      HasType κ Γ (.annotate span inner ann) s

inductive HasTypes (κ : Nat → Role) : Env → List Expr → List Ty → Prop where
  | nil {Γ : Env} : HasTypes κ Γ [] []
  | cons {Γ : Env} {e : Expr} {es : List Expr} {s : Ty} {ss : List Ty} (h : HasType κ Γ e s)
      (hs : HasTypes κ Γ es ss) : HasTypes κ Γ (e :: es) (s :: ss)

inductive HasFields (κ : Nat → Role) : Env → List (String × Expr) → List (String × Ty) → Prop where
  | nil {Γ : Env} : HasFields κ Γ [] []
  | cons {Γ : Env} {l : String} {e : Expr} {es : List (String × Expr)} {s : Ty}
      {ss : List (String × Ty)} (h : HasType κ Γ e s) (hs : HasFields κ Γ es ss) :
      HasFields κ Γ ((l, e) :: es) ((l, s) :: ss)

/-- Every arm matches values of one type and yields the other. -/
inductive HasArms (κ : Nat → Role) : Env → Ty → Ty → List (Pattern × Expr) → Prop where
  | nil {Γ : Env} {s r : Ty} : HasArms κ Γ s r []
  | cons {Γ : Env} {p : Pattern} {body : Expr} {arms : List (Pattern × Expr)} {s r : Ty}
      {bs : List (String × Ty)} (hp : p.Matches κ Γ s bs)
      (hbody : HasType κ (Γ.addMonos bs) body r) (hs : HasArms κ Γ s r arms) :
      HasArms κ Γ s r ((p, body) :: arms)

end

/-! ## Empty arguments -/

namespace Pattern

mutual

/-- The pattern in which a constructor with an empty tuple for its argument has none. -/
def tidy : Pattern → Pattern
  | .wild => .wild
  | .var x => .var x
  | .lit b => .lit b
  | .tuple ps => .tuple (tidyList ps)
  | .construct c none => .construct c none
  | .construct c (some (.tuple [])) => .construct c none
  | .construct c (some p) => .construct c (some p.tidy)
  | .record ps isOpen => .record (tidyFields ps) isOpen

def tidyList : List Pattern → List Pattern
  | [] => []
  | p :: ps => p.tidy :: tidyList ps

def tidyFields : List (String × Pattern) → List (String × Pattern)
  | [] => []
  | (l, p) :: ps => (l, p.tidy) :: tidyFields ps

end

end Pattern

namespace Expr

mutual

/-- The expression with tidy patterns. -/
def tidy : Expr → Expr
  | .lit span b => .lit span b
  | .var span x => .var span x
  | .path span m x => .path span m x
  | .lam span x ann body => .lam span x ann body.tidy
  | .app span func arg => .app span func.tidy arg.tidy
  | .letIn span x isRec ann value body => .letIn span x isRec ann value.tidy body.tidy
  | .ifThenElse span cond thenE elseE => .ifThenElse span cond.tidy thenE.tidy elseE.tidy
  | .tuple span items => .tuple span (tidyList items)
  | .record span fields => .record span (tidyFields fields)
  | .field span whole label => .field span whole.tidy label
  | .update span whole changes => .update span whole.tidy (tidyFields changes)
  | .construct span c none => .construct span c none
  | .construct span c (some arg) => .construct span c (some arg.tidy)
  | .cases span scrutinee arms => .cases span scrutinee.tidy (tidyArms arms)
  | .annotate span inner ann => .annotate span inner.tidy ann

def tidyList : List Expr → List Expr
  | [] => []
  | e :: es => e.tidy :: tidyList es

def tidyFields : List (String × Expr) → List (String × Expr)
  | [] => []
  | (l, e) :: es => (l, e.tidy) :: tidyFields es

def tidyArms : List (Pattern × Expr) → List (Pattern × Expr)
  | [] => []
  | (p, body) :: arms => (p.tidy, body.tidy) :: tidyArms arms

end

end Expr

end RowTyping
