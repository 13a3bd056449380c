import LanguageService.Surface
import LanguageService.Token
import LanguageService.Tree

/-!
From what a file says to the nodes of a tree. Children are added before their parent, in the
order in which the parent lists them.
-/
namespace LanguageService

/-- A file and its tokens, which give a span of tokens its place in the text. -/
structure Layout where
  file : File
  lexemes : Array Lexeme

namespace Layout

def stop (l : Layout) : Nat := (l.lexemes.back?.map (·.stop)).getD 0

/-- The bytes from the start of a span's first token to the end of its last. A span of no
tokens is an empty place before its token, and tokens past the end are at the end. -/
def byteSpan (l : Layout) (s : Surface.Span) : Nat × Nat :=
  let start := (l.lexemes[s.start]?.map (·.start)).getD l.stop
  let stop := if s.start < s.stop then (l.lexemes[s.stop - 1]?.map (·.stop)).getD l.stop else start
  (start, max stop start)

def site (l : Layout) (s : Surface.Span) : Site :=
  let (start, stop) := l.byteSpan s
  ⟨l.file, start, stop⟩

def name (l : Layout) (x : Surface.Name) : Name := ⟨x.text, l.site x.span⟩

end Layout

abbrev Lowering := StateM Tree

namespace Lowering

def insert (kind : Kind) (site : Site) : Lowering NodeId := fun t => t.insert kind site

mutual

def typeExpr (l : Layout) : Surface.TypeExpr → Lowering NodeId
  | .name s x => insert (.nameType (l.name x)) (l.site s)
  | .tuple s es => do
      let es ← typeExprs l es
      insert (.tupleType es) (l.site s)

def typeExprs (l : Layout) : List Surface.TypeExpr → Lowering (List NodeId)
  | [] => pure []
  | t :: ts => do
      let i ← typeExpr l t
      let is ← typeExprs l ts
      return i :: is

end

def typeExpr? (l : Layout) : Option Surface.TypeExpr → Lowering (Option NodeId)
  | none => pure none
  | some t => do return some (← typeExpr l t)

mutual

def expr (l : Layout) : Surface.Expr → Lowering NodeId
  | .literal s (.int x) => insert (.int x) (l.site s)
  | .literal s (.float x) => insert (.float x) (l.site s)
  | .literal s (.string x) => insert (.string x) (l.site s)
  | .literal s (.bool b) => insert (.bool b) (l.site s)
  | .name s none x => insert (.name none (l.name x)) (l.site s)
  | .name s (some d) x => do
      let d ← expr l d
      insert (.name (some d) (l.name x)) (l.site s)
  | .call s c as => do
      let c ← expr l c
      let as ← args l as
      insert (.call c as) (l.site s)
  | .subscript s c as => do
      let c ← expr l c
      let as ← args l as
      insert (.subscriptCall c as) (l.site s)
  | .binary s lhs op rhs => do
      let lhs ← expr l lhs
      let rhs ← expr l rhs
      insert (.binary lhs (l.name op) rhs) (l.site s)
  | .tuple s es => do
      let es ← exprs l es
      insert (.tuple es) (l.site s)

def args (l : Layout) : List (Option Surface.Name × Surface.Expr) →
    Lowering (List (Option Name × NodeId))
  | [] => pure []
  | (label, e) :: as => do
      let i ← expr l e
      let is ← args l as
      return (label.map l.name, i) :: is

def exprs (l : Layout) : List Surface.Expr → Lowering (List NodeId)
  | [] => pure []
  | e :: es => do
      let i ← expr l e
      let is ← exprs l es
      return i :: is

end

def expr? (l : Layout) : Option Surface.Expr → Lowering (Option NodeId)
  | none => pure none
  | some e => do return some (← expr l e)

mutual

def pattern (l : Layout) : Surface.Pattern → Lowering NodeId
  | .name s x => do
      let v ← insert (.var (l.name x)) (l.site x.span)
      insert (.namePattern v) (l.site s)
  | .tuple s es => do
      let es ← patterns l es
      insert (.tuplePattern es) (l.site s)
  | .wildcard s => insert .wildcard (l.site s)

def patterns (l : Layout) : List Surface.Pattern → Lowering (List NodeId)
  | [] => pure []
  | p :: ps => do
      let i ← pattern l p
      let is ← patterns l ps
      return i :: is

end

/-- The pattern of a binding reaches from its introducer to its type, or to its names. -/
def binding (l : Layout) (site : Site) (b : Surface.Binding) : Lowering NodeId := do
  let reach := (b.ascription.map (·.span)).getD b.pattern.span
  let names ← pattern l b.pattern
  let type ← typeExpr? l b.ascription
  let p ← insert (.bindingPattern (l.site b.introducerSpan) b.introducer names type)
    (l.site (b.introducerSpan.to reach))
  let value ← expr? l b.initializer
  insert (.binding p value) site

mutual

def stmt (l : Layout) : Surface.Stmt → Lowering NodeId
  | .brace s ss => do
      let ss ← stmts l ss
      insert (.brace ss) (l.site s)
  | .ret s k v => do
      let v ← expr? l v
      insert (.ret (l.site k) v) (l.site s)
  | .loop s k e b => do
      let e ← expr l e
      let b ← stmt l b
      insert (.loop (l.site k) e b) (l.site s)
  | .cond s k e yes none => do
      let e ← expr l e
      let yes ← stmt l yes
      insert (.cond (l.site k) e yes none none) (l.site s)
  | .cond s k e yes (some (other, no)) => do
      let e ← expr l e
      let yes ← stmt l yes
      let no ← stmt l no
      insert (.cond (l.site k) e yes (some (l.site other)) (some no)) (l.site s)
  | .assign s lhs rhs => do
      let lhs ← expr l lhs
      let rhs ← expr l rhs
      insert (.assign lhs rhs) (l.site s)
  | .expr s e => do
      let e ← expr l e
      insert (.expr e) (l.site s)
  | .binding s b => do
      let d ← binding l (l.site s) b
      insert (.decl d) (l.site s)

def stmts (l : Layout) : List Surface.Stmt → Lowering (List NodeId)
  | [] => pure []
  | s :: ss => do
      let i ← stmt l s
      let is ← stmts l ss
      return i :: is

end

def stmt? (l : Layout) : Option Surface.Stmt → Lowering (Option NodeId)
  | none => pure none
  | some s => do return some (← stmt l s)

def generics (l : Layout) : List Surface.Name → Lowering (List NodeId)
  | [] => pure []
  | x :: xs => do
      let i ← insert (.generic (l.name x)) (l.site x.span)
      let is ← generics l xs
      return i :: is

def param (l : Layout) (p : Surface.Param) : Lowering NodeId := do
  let type ← typeExpr? l p.ascription
  let span := match p.ascription with
    | some t => p.name.span.to t.span
    | none => p.name.span
  insert (.parameter (l.name p.name) type) (l.site span)

def params (l : Layout) : List Surface.Param → Lowering (List NodeId)
  | [] => pure []
  | p :: ps => do
      let i ← param l p
      let is ← params l ps
      return i :: is

def variants (l : Layout) : List Surface.Variant → Lowering (List NodeId)
  | [] => pure []
  | v :: vs => do
      let b ← stmt l v.body
      let i ← insert (.variant (l.site v.effectSpan) v.effect b) (l.site v.span)
      let is ← variants l vs
      return i :: is

mutual

def patternNames : Surface.Pattern → List String
  | .name _ x => [x.text]
  | .tuple _ es => patternsNames es
  | .wildcard _ => []

def patternsNames : List Surface.Pattern → List String
  | [] => []
  | p :: ps => patternNames p ++ patternsNames ps

end

def storedNames : List Surface.Decl → List String
  | [] => []
  | .binding _ b :: ds => patternNames b.pattern ++ storedNames ds
  | _ :: ds => storedNames ds

def declaresInit : List Surface.Decl → Bool
  | [] => false
  | .init _ _ _ _ :: _ => true
  | _ :: ds => declaresInit ds

def memberwiseParams : List String → Lowering (List NodeId)
  | [] => pure []
  | x :: xs => do
      let i ← insert (.parameter ⟨x, .synthesized⟩ none) .synthesized
      let is ← memberwiseParams xs
      return i :: is

/-- A product type that declares no initializer is given one with a parameter for each of its
stored variables. -/
def memberwise (members : List Surface.Decl) : Lowering (Option NodeId) :=
  if declaresInit members then pure none
  else do
    let ps ← memberwiseParams (storedNames members)
    return some (← insert (.init .synthesized ps none true) .synthesized)

mutual

def decl (l : Layout) : Surface.Decl → Lowering NodeId
  | .space s k x ms => do
      let is ← decls l ms
      insert (.space (l.site k) (l.name x) is) (l.site s)
  | .product s k x gs ms => do
      let gs ← generics l gs
      let is ← decls l ms
      let m ← memberwise ms
      insert (.product (l.site k) (l.name x) gs is m) (l.site s)
  | .associated s k x => insert (.associated (l.site k) (l.name x)) (l.site s)
  | .extension s k t ms => do
      let t ← typeExpr l t
      let is ← decls l ms
      insert (.extension (l.site k) t is) (l.site s)
  | .conformance s k t ts ms => do
      let t ← typeExpr l t
      let ts ← typeExprs l ts
      let is ← decls l ms
      insert (.conformance (l.site k) t ts is) (l.site s)
  | .trait s k x ms => do
      let is ← decls l ms
      insert (.trait (l.site k) (l.name x) is) (l.site s)
  | .typeAlias s k x t => do
      let t ← typeExpr l t
      insert (.typeAlias (l.site k) (l.name x) t) (l.site s)
  | .operator s k f fs x => insert (.operator (l.site k) f (l.site fs) (l.name x)) (l.site s)
  | .function s k x gs ps t (some (.bundle vs)) => do
      let gs ← generics l gs
      let ps ← params l ps
      let t ← typeExpr? l t
      let vs ← variants l vs
      insert (.method (l.site k) (l.name x) gs ps t vs) (l.site s)
  | .function s k x gs ps t (some (.block b)) => do
      let gs ← generics l gs
      let ps ← params l ps
      let t ← typeExpr? l t
      let b ← stmt l b
      insert (.function (l.site k) (l.name x) gs ps t (some b)) (l.site s)
  | .function s k x gs ps t none => do
      let gs ← generics l gs
      let ps ← params l ps
      let t ← typeExpr? l t
      insert (.function (l.site k) (l.name x) gs ps t none) (l.site s)
  | .init s k ps b => do
      let ps ← params l ps
      let b ← stmt? l b
      insert (.init (l.site k) ps b false) (l.site s)
  | .subscript s k x ps t b => do
      let ps ← params l ps
      let t ← typeExpr l t
      let b ← stmt? l b
      insert (.subscript (l.site k) (x.map l.name) ps t b) (l.site s)
  | .binding s b => binding l (l.site s) b

def decls (l : Layout) : List Surface.Decl → Lowering (List NodeId)
  | [] => pure []
  | d :: ds => do
      let i ← decl l d
      let is ← decls l ds
      return i :: is

end

def unit (l : Layout) (ds : List Surface.Decl) : Lowering NodeId := do
  let is ← decls l ds
  insert (.unit is) (.whole l.file)

end Lowering

end LanguageService
