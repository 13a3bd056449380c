import LanguageService.Modifier

namespace LanguageService.Surface

structure Span where
  start : Nat
  stop : Nat
  deriving DecidableEq, Repr

def Span.to (s t : Span) : Span := ⟨s.start, max t.stop s.start⟩

structure Name where
  text : String
  span : Span
  deriving DecidableEq, Repr

inductive TypeExpr where
  | name (span : Span) (name : Name)
  | tuple (span : Span) (elements : List TypeExpr)
  deriving Repr

def TypeExpr.span : TypeExpr → Span
  | name s _ => s
  | tuple s _ => s

inductive Literal where
  | int (text : String)
  | float (text : String)
  | string (text : String)
  | bool (b : Bool)
  deriving DecidableEq, Repr

inductive Expr where
  | literal (span : Span) (value : Literal)
  | name (span : Span) (domain : Option Expr) (name : Name)
  | call (span : Span) (callee : Expr) (args : List (Option Name × Expr))
  | subscript (span : Span) (callee : Expr) (args : List (Option Name × Expr))
  | binary (span : Span) (lhs : Expr) (op : Name) (rhs : Expr)
  | tuple (span : Span) (elements : List Expr)
  deriving Repr

abbrev Arg := Option Name × Expr

namespace Expr

def span : Expr → Span
  | literal s _ => s
  | name s _ _ => s
  | call s _ _ => s
  | subscript s _ _ => s
  | binary s _ _ _ => s
  | tuple s _ => s

def withSpan (s : Span) : Expr → Expr
  | literal _ v => literal s v
  | name _ d n => name s d n
  | call _ c as => call s c as
  | subscript _ c as => subscript s c as
  | binary _ l o r => binary s l o r
  | tuple _ es => tuple s es

@[simp]
theorem span_withSpan (s : Span) (e : Expr) : (e.withSpan s).span = s := by
  cases e <;> rfl

end Expr

inductive Pattern where
  | name (span : Span) (name : Name)
  | tuple (span : Span) (elements : List Pattern)
  | wildcard (span : Span)
  deriving Repr

def Pattern.span : Pattern → Span
  | name s _ => s
  | tuple s _ => s
  | wildcard s => s

structure Binding where
  introducer : Introducer
  introducerSpan : Span
  pattern : Pattern
  ascription : Option TypeExpr
  initializer : Option Expr
  deriving Repr

inductive Stmt where
  | brace (span : Span) (stmts : List Stmt)
  | ret (span keyword : Span) (value : Option Expr)
  | loop (span keyword : Span) (condition : Expr) (body : Stmt)
  | cond (span keyword : Span) (condition : Expr) (success : Stmt)
      (failure : Option (Span × Stmt))
  | assign (span : Span) (lhs rhs : Expr)
  | expr (span : Span) (e : Expr)
  | binding (span : Span) (b : Binding)
  deriving Repr

def Stmt.span : Stmt → Span
  | brace s _ => s
  | ret s _ _ => s
  | loop s _ _ _ => s
  | cond s _ _ _ _ => s
  | assign s _ _ => s
  | expr s _ => s
  | binding s _ => s

structure Param where
  name : Name
  ascription : Option TypeExpr
  deriving Repr

structure Variant where
  span : Span
  effect : Effect
  effectSpan : Span
  body : Stmt
  deriving Repr

inductive Body where
  | block (b : Stmt)
  | bundle (variants : List Variant)
  deriving Repr

inductive Decl where
  | space (span keyword : Span) (name : Name) (members : List Decl)
  | product (span keyword : Span) (name : Name) (generics : List Name) (members : List Decl)
  | associated (span keyword : Span) (name : Name)
  | extension (span keyword : Span) (subject : TypeExpr) (members : List Decl)
  | conformance (span keyword : Span) (subject : TypeExpr) (traits : List TypeExpr)
      (members : List Decl)
  | trait (span keyword : Span) (name : Name) (members : List Decl)
  | typeAlias (span keyword : Span) (name : Name) (aliased : TypeExpr)
  | operator (span keyword : Span) (fixity : Fixity) (fixitySpan : Span) (name : Name)
  | function (span keyword : Span) (name : Name) (generics : List Name) (params : List Param)
      (output : Option TypeExpr) (body : Option Body)
  | init (span keyword : Span) (params : List Param) (body : Option Stmt)
  | subscript (span keyword : Span) (name : Option Name) (params : List Param)
      (output : TypeExpr) (body : Option Stmt)
  | binding (span : Span) (b : Binding)
  deriving Repr

end LanguageService.Surface
