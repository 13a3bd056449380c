import LanguageService.Proofs.Printing
import LanguageService.Proofs.Spelling

/-!
The tokens that spell a piece of syntax. Every token has its place, and the only ones that a
piece may have or do without are a semicolon after a statement, declaration or requirement, a
comma after the last of a list, and parentheses around an expression. Every span delimits the
tokens of its piece.
-/
namespace LanguageService.Surface

open Spelling

def keywordAt (k : Keyword) (s : Span) : Spelling := spanning s (word (.keyword k))

namespace Name

def spelled (x : Name) : Spelling := spanning x.span (word (.ident x.text))

def spelledOperator (x : Name) : Spelling := spanning x.span (word (.op x.text))

def spelledValue (x : Name) : Spelling :=
  spanning x.span fun _ ts =>
    ts = [.ident x.text] ∨ x.text = "self" ∧ ts = [.keyword .kwSelf]

def spelledFunction (x : Name) : Spelling :=
  spanning x.span fun _ ts => ts = [.ident x.text] ∨ ts = [.op x.text]

end Name

mutual

def TypeExpr.spelled : TypeExpr → Spelling
  | .name s x => spanning s x.spelled
  | .tuple s es => spanning s (listedTrailing (TypeExpr.spellings es)).inParens

def TypeExpr.spellings : List TypeExpr → List Spelling
  | [] => []
  | e :: es => e.spelled :: TypeExpr.spellings es

end

theorem TypeExpr.spellings_eq_map (es : List TypeExpr) :
    TypeExpr.spellings es = es.map TypeExpr.spelled := by
  induction es with
  | nil => rfl
  | cons e es ih => rw [TypeExpr.spellings, ih, List.map_cons]

mutual

def Pattern.spelled : Pattern → Spelling
  | .name s x => spanning s x.spelled
  | .tuple s es => spanning s (listedTrailing (Pattern.spellings es)).inParens
  | .wildcard s => spanning s (word (.keyword .kwUnderscore))

def Pattern.spellings : List Pattern → List Spelling
  | [] => []
  | p :: ps => p.spelled :: Pattern.spellings ps

end

theorem Pattern.spellings_eq_map (ps : List Pattern) :
    Pattern.spellings ps = ps.map Pattern.spelled := by
  induction ps with
  | nil => rfl
  | cons p ps ih => rw [Pattern.spellings, ih, List.map_cons]

def labelSpelled (x : Name) : Spelling := x.spelled ++ word (.punct .colon)

def memberSpelled (x : Name) : Spelling := word (.punct .dot) ++ x.spelled

/-- An expression whose tokens, parentheses around it apart, are given by `core`. If it holds
together more loosely than `k`, there are parentheses around it. -/
def Expr.operand (e : Expr) (core : Spelling) (k : Nat) : Spelling :=
  spanning e.span (if e.looseness ≤ k then enclosed core else Spelling.parenthesized core)

mutual

/-- The tokens of an expression, parentheses around it apart. Operands on the left hold together
at least as tightly as the operator, and operands on the right more tightly. -/
def Expr.core : Expr → Spelling
  | .literal _ v => word v.print
  | .name _ none x => x.spelledValue
  | .name _ (some d) x => d.operand d.core 0 ++ memberSpelled x
  | .call _ c as => c.operand c.core 0 ++ (listedTrailing (Expr.argSpellings as)).inParens
  | .subscript _ c as => c.operand c.core 0 ++ (listedTrailing (Expr.argSpellings as)).inBrackets
  | .binary _ l op r =>
      given (level op.text < precedence.length)
        (l.operand l.core (level op.text + 1) ++
          (op.spelledOperator ++ r.operand r.core (level op.text)))
  | .tuple _ es => given (es.length ≠ 1) (listedTrailing (Expr.spellings es)).inParens

def Expr.argSpellings : List (Option Name × Expr) → List Spelling
  | [] => []
  | (label, e) :: as =>
      (optional labelSpelled label ++ spanning e.span (enclosed e.core)) :: Expr.argSpellings as

def Expr.spellings : List Expr → List Spelling
  | [] => []
  | e :: es => spanning e.span (enclosed e.core) :: Expr.spellings es

end

def Expr.spelled (e : Expr) : Spelling := spanning e.span (enclosed e.core)

def Arg.spelled (a : Arg) : Spelling := optional labelSpelled a.1 ++ a.2.spelled

theorem Expr.argSpellings_eq_map (as : List Arg) :
    Expr.argSpellings as = as.map Arg.spelled := by
  induction as with
  | nil => rfl
  | cons a as ih => rw [Expr.argSpellings, ih, List.map_cons, Arg.spelled, Expr.spelled]

theorem Expr.spellings_eq_map (es : List Expr) : Expr.spellings es = es.map Expr.spelled := by
  induction es with
  | nil => rfl
  | cons e es ih => rw [Expr.spellings, ih, List.map_cons, Expr.spelled]

def ascriptionSpelled (t : TypeExpr) : Spelling := word (.punct .colon) ++ t.spelled

def assignedSpelled (e : Expr) : Spelling := word (.punct .assign) ++ e.spelled

def Binding.spelled (b : Binding) : Spelling :=
  spanning b.introducerSpan (word (Introducer.print b.introducer)) ++ b.pattern.spelled ++
    optional ascriptionSpelled b.ascription ++ optional assignedSpelled b.initializer

mutual

def Stmt.spelled : Stmt → Spelling
  | .brace s ss => spanning s (items (Stmt.spellings ss)).inBraces
  | .ret s k v => spanning s (keywordAt .kwReturn k ++ optional Expr.spelled v)
  | .loop s k e b => spanning s (keywordAt .kwWhile k ++ e.spelled ++ b.spelled)
  | .cond s k e yes none => spanning s (keywordAt .kwIf k ++ e.spelled ++ yes.spelled)
  | .cond s k e yes (some (other, no)) =>
      spanning s (keywordAt .kwIf k ++ e.spelled ++ yes.spelled ++
        (keywordAt .kwElse other ++ no.spelled))
  | .assign s l r => spanning s (l.spelled ++ assignedSpelled r)
  | .expr s e => spanning s e.spelled
  | .binding s b => spanning s b.spelled

def Stmt.spellings : List Stmt → List Spelling
  | [] => []
  | s :: ss => s.spelled :: Stmt.spellings ss

end

theorem Stmt.spellings_eq_map (ss : List Stmt) : Stmt.spellings ss = ss.map Stmt.spelled := by
  induction ss with
  | nil => rfl
  | cons s ss ih => rw [Stmt.spellings, ih, List.map_cons]

def genericsSpelled (gs : List Name) : Spelling :=
  if gs.isEmpty then nothing
  else word (.op "<") ++ listed (gs.map Name.spelled) ++ word (.op ">")

def Param.spelled (p : Param) : Spelling :=
  p.name.spelled ++ optional ascriptionSpelled p.ascription

def paramsSpelled (ps : List Param) : Spelling := (listedTrailing (ps.map Param.spelled)).inParens

def Variant.spelled (v : Variant) : Spelling :=
  spanning v.span (spanning v.effectSpan (word (Effect.print v.effect)) ++ v.body.spelled)

def Body.spelled : Body → Spelling
  | .block b => b.spelled
  | .bundle vs => (all (vs.map Variant.spelled)).inBraces

def outputSpelled (t : TypeExpr) : Spelling := word (.punct .arrow) ++ t.spelled

mutual

def Decl.spelled : Decl → Spelling
  | .space s k x ms =>
      spanning s (keywordAt .kwNamespace k ++ x.spelled ++ (items (Decl.spellings ms)).inBraces)
  | .product s k x gs ms =>
      spanning s (keywordAt .kwType k ++ x.spelled ++ genericsSpelled gs ++
        (items (Decl.spellings ms)).inBraces)
  | .associated s k x => spanning s (keywordAt .kwType k ++ x.spelled)
  | .extension s k t ms =>
      spanning s (keywordAt .kwExtension k ++ t.spelled ++ (items (Decl.spellings ms)).inBraces)
  | .conformance s k t ts ms =>
      spanning s (keywordAt .kwConformance k ++ t.spelled ++ Spelling.word (.punct .colon) ++
        listed (ts.map TypeExpr.spelled) ++ (items (Decl.spellings ms)).inBraces)
  | .trait s k x ms =>
      spanning s (keywordAt .kwTrait k ++ x.spelled ++ (items (Decl.spellings ms)).inBraces)
  | .typeAlias s k x t =>
      spanning s (keywordAt .kwTypealias k ++ x.spelled ++ Spelling.word (.punct .assign) ++
        t.spelled)
  | .operator s k f fs x =>
      spanning s (keywordAt .kwOperator k ++ spanning fs (Spelling.word (Fixity.print f)) ++
        x.spelledOperator)
  | .function s k x gs ps t b =>
      spanning s (keywordAt .kwFun k ++ x.spelledFunction ++ genericsSpelled gs ++
        paramsSpelled ps ++ optional outputSpelled t ++ optional Body.spelled b)
  | .init s k ps b =>
      spanning s (keywordAt .kwInit k ++ paramsSpelled ps ++ optional Stmt.spelled b)
  | .subscript s k x ps t b =>
      spanning s (keywordAt .kwSubscript k ++ optional Name.spelled x ++ paramsSpelled ps ++
        ascriptionSpelled t ++ optional Stmt.spelled b)
  | .binding s b => spanning s b.spelled

def Decl.spellings : List Decl → List Spelling
  | [] => []
  | d :: ds => d.spelled :: Decl.spellings ds

end

theorem Decl.spellings_eq_map (ds : List Decl) : Decl.spellings ds = ds.map Decl.spelled := by
  induction ds with
  | nil => rfl
  | cons d ds ih => rw [Decl.spellings, ih, List.map_cons]

def fileSpelled (ds : List Decl) : Spelling := items (ds.map Decl.spelled)

end LanguageService.Surface
