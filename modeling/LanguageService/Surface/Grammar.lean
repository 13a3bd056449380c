import LanguageService.Surface.Parser

/-!
The grammar, from type expressions to files. A construct nests only behind a token of its
own, so the tokens left bound the nesting.
-/
namespace LanguageService.Surface

open Surface.Parser

def keyword (k : Keyword) : Parser Span :=
  token fun t s => if t = .keyword k then some s else none

def punct (p : Punct) : Parser Unit :=
  token fun t _ => if t = .punct p then some () else none

def comma : Parser Unit := punct .comma

def ident : Parser Name :=
  token fun t s => match t with
    | .ident x => some ⟨x, s⟩
    | _ => none

def selfName : Parser Name :=
  token fun t s => if t = .keyword .kwSelf then some ⟨"self", s⟩ else none

def operatorIn (ops : List String) : Parser Name :=
  token fun t s => match t with
    | .op x => if ops.contains x then some ⟨x, s⟩ else none
    | _ => none

def anyOperator : Parser Name :=
  token fun t s => match t with
    | .op x => some ⟨x, s⟩
    | _ => none

def introducer : Parser (Introducer × Span) :=
  token fun t s => match t with
    | .keyword .kwLet => some (.byLet, s)
    | .keyword .kwVar => some (.byVar, s)
    | .keyword .kwInout => some (.byInout, s)
    | .keyword .kwSink => some (.bySink, s)
    | _ => none

def effect : Parser (Effect × Span) :=
  token fun t s => match t with
    | .keyword .kwLet => some (.onLet, s)
    | .keyword .kwInout => some (.onInout, s)
    | .keyword .kwSet => some (.onSet, s)
    | .keyword .kwSink => some (.onSink, s)
    | _ => none

def literal : Parser Literal :=
  token fun t _ => match t with
    | .int x => some (.int x)
    | .float x => some (.float x)
    | .string x => some (.string x)
    | .keyword .kwTrue => some (.bool true)
    | .keyword .kwFalse => some (.bool false)
    | _ => none

/-- A word that says where an operator stands. Any other identifier is to blame at once,
whatever was refused before. -/
def fixity : Parser (Fixity × Span) := fun c r =>
  match ident c r with
  | (some (x, c'), r') =>
      match Fixity.ofWord x.text with
      | some f => (some ((f, x.span), c'), r')
      | none => (none, ⟨c.pos, x.span⟩)
  | (none, r') => (none, r')

def parens {α : Type} (p : Parser α) : Parser α := between (punct .lparen) (punct .rparen) p

def brackets {α : Type} (p : Parser α) : Parser α := between (punct .lbracket) (punct .rbracket) p

def braces {α : Type} (p : Parser α) : Parser α := between (punct .lbrace) (punct .rbrace) p

def terminated {α : Type} (p : Parser α) : Parser α := do
  let a ← p
  let _ ← optional (punct .semi)
  return a

def typeExprIn (inner : Parser TypeExpr) : Parser TypeExpr :=
  spanned (choice [
    do let x ← ident; return fun s => .name s x,
    do let es ← parens (separatedTrailing inner comma); return fun s => .tuple s es])

def typeExprAt : Nat → Parser TypeExpr
  | 0 => fail
  | n + 1 => fun c r => typeExprIn (typeExprAt n) c r

def typeExpr : Parser TypeExpr := fun c r => typeExprAt (c.rest.length + 1) c r

def precedence : List (List String) :=
  [["*", "/", "%"], ["+", "-"], ["==", "!=", "<", "<=", ">", ">="], ["&&"], ["||"]]

def binaryLevel (operand : Parser Expr) (ops : List String) : Parser Expr := do
  let first ← operand
  let rest ← many (do
    let op ← operatorIn ops
    let rhs ← operand
    return (op, rhs))
  return rest.foldl (fun lhs (op, rhs) => .binary (lhs.span.to rhs.span) lhs op rhs) first

def parenthesized (es : List Expr) (s : Span) : Expr :=
  match es with
  | [e] => e.withSpan s
  | es => .tuple s es

def atomIn (inner : Parser Expr) : Parser Expr :=
  spanned (choice [
    do let v ← literal; return fun s => .literal s v,
    do let x ← orElse ident selfName; return fun s => .name s none x,
    do let es ← parens (separatedTrailing inner comma); return parenthesized es])

def argIn (inner : Parser Expr) : Parser Arg := do
  let label ← optional (do
    let x ← ident
    punct .colon
    return x)
  return (label, ← inner)

inductive Trailer where
  | call (args : List Arg)
  | subscript (args : List Arg)
  | member (name : Name)

def trailerIn (inner : Parser Expr) : Parser (Trailer × Span) :=
  spanned (choice [
    do let as ← parens (separatedTrailing (argIn inner) comma); return fun s => (.call as, s),
    do let as ← brackets (separatedTrailing (argIn inner) comma)
       return fun s => (.subscript as, s),
    do punct .dot
       let x ← ident
       return fun s => (.member x, s)])

def Trailer.apply (operand : Expr) (t : Trailer) (s : Span) : Expr :=
  let whole := operand.span.to s
  match t with
  | call as => .call whole operand as
  | subscript as => .subscript whole operand as
  | member x => .name whole (some operand) x

def operandIn (inner : Parser Expr) : Parser Expr := do
  let atom ← atomIn inner
  let trailers ← many (trailerIn inner)
  return trailers.foldl (fun e (t, s) => t.apply e s) atom

def exprIn (inner : Parser Expr) : Parser Expr :=
  precedence.foldl binaryLevel (operandIn inner)

def exprAt : Nat → Parser Expr
  | 0 => fail
  | n + 1 => fun c r => exprIn (exprAt n) c r

def expr : Parser Expr := fun c r => exprAt (c.rest.length + 1) c r

def patternIn (inner : Parser Pattern) : Parser Pattern :=
  spanned (choice [
    do let x ← ident; return fun s => .name s x,
    do let _ ← keyword .kwUnderscore; return .wildcard,
    do let es ← parens (separatedTrailing inner comma); return fun s => .tuple s es])

def patternAt : Nat → Parser Pattern
  | 0 => fail
  | n + 1 => fun c r => patternIn (patternAt n) c r

def pattern : Parser Pattern := fun c r => patternAt (c.rest.length + 1) c r

def ascription : Parser TypeExpr := do
  punct .colon
  typeExpr

def assigned : Parser Expr := do
  punct .assign
  expr

def binding : Parser Binding := do
  let (i, s) ← introducer
  let p ← pattern
  let t ← optional ascription
  let e ← optional assigned
  return ⟨i, s, p, t, e⟩

def blockOf (stmt : Parser Stmt) : Parser Stmt :=
  spanned (do let ss ← braces (many (terminated stmt)); return fun s => .brace s ss)

def conditionalIn (block : Parser Stmt) (inner : Parser Stmt) : Parser Stmt :=
  spanned (do
    let k ← keyword .kwIf
    let e ← expr
    let success ← block
    let failure ← optional (do
      let k ← keyword .kwElse
      return (k, ← orElse block inner))
    return fun s => .cond s k e success failure)

def conditionalAt (block : Parser Stmt) : Nat → Parser Stmt
  | 0 => fail
  | n + 1 => fun c r => conditionalIn block (conditionalAt block n) c r

def simpleStmt (block : Parser Stmt) : Parser Stmt :=
  spanned (choice [
    do let k ← keyword .kwReturn
       let v ← optional expr
       return fun s => .ret s k v,
    do let k ← keyword .kwWhile
       let e ← expr
       let b ← block
       return fun s => .loop s k e b,
    do let b ← binding; return fun s => .binding s b,
    do let lhs ← expr
       match ← optional assigned with
       | some rhs => return fun s => .assign s lhs rhs
       | none => return fun s => .expr s lhs])

def stmtIn (inner : Parser Stmt) : Parser Stmt :=
  let block := blockOf inner
  choice [
    block,
    fun c r => conditionalAt block (c.rest.length + 1) c r,
    simpleStmt block]

def stmtAt : Nat → Parser Stmt
  | 0 => fail
  | n + 1 => fun c r => stmtIn (stmtAt n) c r

def stmt : Parser Stmt := fun c r => stmtAt (c.rest.length + 1) c r

def block : Parser Stmt := blockOf stmt

def generics : Parser (List Name) := do
  let xs ← optional (do
    let _ ← operatorIn ["<"]
    let xs ← separated1 ident comma
    let _ ← operatorIn [">"]
    return xs)
  return xs.getD []

def param : Parser Param := do
  let x ← ident
  let t ← optional ascription
  return ⟨x, t⟩

def params : Parser (List Param) := parens (separatedTrailing param comma)

def variant : Parser Variant :=
  spanned (do
    let (e, es) ← effect
    let b ← block
    return fun s => ⟨s, e, es, b⟩)

def funBody : Parser Body :=
  orElse
    (do return .bundle (← braces (many1 variant)))
    (do return .block (← block))

def function : Parser (Span → Decl) := do
  let k ← keyword .kwFun
  let x ← orElse ident anyOperator
  let gs ← generics
  let ps ← params
  let t ← optional (do punct .arrow; typeExpr)
  let b ← optional funBody
  return fun s => .function s k x gs ps t b

def initializer : Parser (Span → Decl) := do
  let k ← keyword .kwInit
  let ps ← params
  let b ← optional block
  return fun s => .init s k ps b

def subscript : Parser (Span → Decl) := do
  let k ← keyword .kwSubscript
  let x ← optional ident
  let ps ← params
  let t ← ascription
  let b ← optional block
  return fun s => .subscript s k x ps t b

def associatedType : Parser (Span → Decl) := do
  let k ← keyword .kwType
  let x ← ident
  return fun s => .associated s k x

def requirement : Parser Decl :=
  spanned (choice [associatedType, function, initializer, subscript])

def typealias : Parser (Span → Decl) := do
  let k ← keyword .kwTypealias
  let x ← ident
  punct .assign
  let t ← typeExpr
  return fun s => .typeAlias s k x t

def operator : Parser (Span → Decl) := do
  let k ← keyword .kwOperator
  let (f, fs) ← fixity
  let x ← anyOperator
  return fun s => .operator s k f fs x

def space (members : Parser (List Decl)) : Parser (Span → Decl) := do
  let k ← keyword .kwNamespace
  let x ← ident
  let ms ← members
  return fun s => .space s k x ms

def product (members : Parser (List Decl)) : Parser (Span → Decl) := do
  let k ← keyword .kwType
  let x ← ident
  let gs ← generics
  let ms ← members
  return fun s => .product s k x gs ms

def extension (members : Parser (List Decl)) : Parser (Span → Decl) := do
  let k ← keyword .kwExtension
  let t ← typeExpr
  let ms ← members
  return fun s => .extension s k t ms

def conformance (members : Parser (List Decl)) : Parser (Span → Decl) := do
  let k ← keyword .kwConformance
  let t ← typeExpr
  punct .colon
  let ts ← separated1 typeExpr comma
  let ms ← members
  return fun s => .conformance s k t ts ms

def trait : Parser (Span → Decl) := do
  let k ← keyword .kwTrait
  let x ← ident
  let ms ← braces (many (terminated requirement))
  return fun s => .trait s k x ms

def declIn (inner : Parser Decl) : Parser Decl :=
  let members := braces (many (terminated inner))
  spanned (choice [
    space members,
    product members,
    extension members,
    conformance members,
    trait,
    typealias,
    operator,
    function,
    initializer,
    subscript,
    do let b ← binding; return fun s => .binding s b])

def declAt : Nat → Parser Decl
  | 0 => fail
  | n + 1 => fun c r => declIn (declAt n) c r

def decl : Parser Decl := fun c r => declAt (c.rest.length + 1) c r

def file : Parser (List Decl) := do
  let ds ← many (terminated decl)
  finished
  return ds

/-- The declarations of a file, or the span of the token to blame. -/
@[irreducible]
def parse (tokens : List Token) : Except Span (List Decl) :=
  match file ⟨tokens, 0⟩ .start with
  | (some (ds, _), _) => .ok ds
  | (none, r) => .error r.span

end LanguageService.Surface
