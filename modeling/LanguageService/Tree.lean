import LanguageService.Modifier
import LanguageService.Source

/-!
Programs as numbered nodes. A node names its children by number. A tree may be laid over a
base, whose nodes keep their numbers and never change.
-/
namespace LanguageService

abbrev NodeId := Nat

structure Name where
  text : String
  site : Site
  deriving BEq, Repr

inductive Kind where
  | module (name : String) (units : List NodeId)
  | unit (decls : List NodeId)
  | space (introducer : Site) (name : Name) (members : List NodeId)
  | product (introducer : Site) (name : Name) (generics members : List NodeId)
      (memberwise : Option NodeId)
  | extension (introducer : Site) (subject : NodeId) (members : List NodeId)
  | conformance (introducer : Site) (subject : NodeId) (traits members : List NodeId)
  | trait (introducer : Site) (name : Name) (members : List NodeId)
  | associated (introducer : Site) (name : Name)
  | typeAlias (introducer : Site) (name : Name) (aliased : NodeId)
  | operator (introducer : Site) (fixity : Fixity) (fixitySite : Site) (name : Name)
  | function (introducer : Site) (name : Name) (generics parameters : List NodeId)
      (output body : Option NodeId)
  | method (introducer : Site) (name : Name) (generics parameters : List NodeId)
      (output : Option NodeId) (variants : List NodeId)
  | variant (introducer : Site) (effect : Effect) (body : NodeId)
  | init (introducer : Site) (parameters : List NodeId) (body : Option NodeId)
      (memberwise : Bool)
  | subscript (introducer : Site) (name : Option Name) (parameters : List NodeId)
      (output : NodeId) (body : Option NodeId)
  | binding (pattern : NodeId) (initializer : Option NodeId)
  | var (name : Name)
  | parameter (name : Name) (ascription : Option NodeId)
  | generic (name : Name)
  | int (text : String)
  | float (text : String)
  | string (text : String)
  | bool (value : Bool)
  | name (domain : Option NodeId) (name : Name)
  | call (callee : NodeId) (args : List (Option Name × NodeId))
  | subscriptCall (callee : NodeId) (args : List (Option Name × NodeId))
  | binary (lhs : NodeId) (op : Name) (rhs : NodeId)
  | tuple (elements : List NodeId)
  | nameType (name : Name)
  | tupleType (elements : List NodeId)
  | brace (stmts : List NodeId)
  | ret (introducer : Site) (value : Option NodeId)
  | expr (e : NodeId)
  | assign (lhs rhs : NodeId)
  | loop (introducer : Site) (condition body : NodeId)
  | cond (introducer : Site) (condition success : NodeId) (elseIntroducer : Option Site)
      (failure : Option NodeId)
  | decl (d : NodeId)
  | bindingPattern (introducer : Site) (how : Introducer) (subpattern : NodeId)
      (ascription : Option NodeId)
  | namePattern (var : NodeId)
  | tuplePattern (elements : List NodeId)
  | wildcard
  deriving Repr

namespace Kind

def children : Kind → List NodeId
  | module _ units => units
  | unit decls => decls
  | space _ _ members => members
  | product _ _ generics members memberwise => generics ++ members ++ memberwise.toList
  | extension _ subject members => subject :: members
  | conformance _ subject traits members => subject :: traits ++ members
  | trait _ _ members => members
  | associated _ _ => []
  | typeAlias _ _ aliased => [aliased]
  | operator _ _ _ _ => []
  | function _ _ generics parameters output body =>
      generics ++ parameters ++ output.toList ++ body.toList
  | method _ _ generics parameters output variants =>
      generics ++ parameters ++ output.toList ++ variants
  | variant _ _ body => [body]
  | init _ parameters body _ => parameters ++ body.toList
  | subscript _ _ parameters output body => parameters ++ output :: body.toList
  | binding pattern initializer => pattern :: initializer.toList
  | var _ => []
  | parameter _ ascription => ascription.toList
  | generic _ => []
  | int _ => []
  | float _ => []
  | string _ => []
  | bool _ => []
  | name domain _ => domain.toList
  | call callee args => callee :: args.map (·.2)
  | subscriptCall callee args => callee :: args.map (·.2)
  | binary lhs _ rhs => [lhs, rhs]
  | tuple elements => elements
  | nameType _ => []
  | tupleType elements => elements
  | brace stmts => stmts
  | ret _ value => value.toList
  | expr e => [e]
  | assign lhs rhs => [lhs, rhs]
  | loop _ condition body => [condition, body]
  | cond _ condition success _ failure => condition :: success :: failure.toList
  | decl d => [d]
  | bindingPattern _ _ subpattern ascription => subpattern :: ascription.toList
  | namePattern v => [v]
  | tuplePattern elements => elements
  | wildcard => []

def isDeclaration : Kind → Bool
  | space _ _ _ => true
  | product _ _ _ _ _ => true
  | extension _ _ _ => true
  | conformance _ _ _ _ => true
  | trait _ _ _ => true
  | associated _ _ => true
  | typeAlias _ _ _ => true
  | operator _ _ _ _ => true
  | function _ _ _ _ _ _ => true
  | method _ _ _ _ _ _ => true
  | variant _ _ _ => true
  | init _ _ _ _ => true
  | subscript _ _ _ _ _ => true
  | binding _ _ => true
  | var _ => true
  | parameter _ _ => true
  | generic _ => true
  | _ => false

def declares : Kind → Option Name
  | space _ x _ => some x
  | product _ x _ _ _ => some x
  | trait _ x _ => some x
  | associated _ x => some x
  | typeAlias _ x _ => some x
  | operator _ _ _ x => some x
  | function _ x _ _ _ _ => some x
  | method _ x _ _ _ _ => some x
  | subscript _ x _ _ _ => x
  | var x => some x
  | parameter x _ => some x
  | generic x => some x
  | _ => none

def word : Kind → String
  | module _ _ => "module"
  | unit _ => "translation unit"
  | space _ _ _ => "namespace"
  | product _ _ _ _ _ => "product type"
  | extension _ _ _ => "extension"
  | conformance _ _ _ _ => "conformance"
  | trait _ _ _ => "trait"
  | associated _ _ => "associated type"
  | typeAlias _ _ _ => "type alias"
  | operator _ _ _ _ => "operator"
  | function _ _ _ _ _ _ => "function"
  | method _ _ _ _ _ _ => "method"
  | variant _ _ _ => "method implementation"
  | init _ _ _ _ => "initializer"
  | subscript _ _ _ _ _ => "subscript"
  | binding _ _ => "binding"
  | var _ => "variable"
  | parameter _ _ => "parameter"
  | generic _ => "generic parameter"
  | int _ => "integer literal"
  | float _ => "float literal"
  | string _ => "string literal"
  | bool _ => "boolean literal"
  | name _ _ => "name"
  | call _ _ => "call"
  | subscriptCall _ _ => "subscript call"
  | binary _ _ _ => "infix expression"
  | tuple _ => "tuple"
  | nameType _ => "type name"
  | tupleType _ => "tuple type"
  | brace _ => "brace statement"
  | ret _ _ => "return statement"
  | expr _ => "expression statement"
  | assign _ _ => "assignment"
  | loop _ _ _ => "while loop"
  | cond _ _ _ _ _ => "conditional"
  | decl _ => "declaration statement"
  | bindingPattern _ _ _ _ => "binding pattern"
  | namePattern _ => "name pattern"
  | tuplePattern _ => "tuple pattern"
  | wildcard => "wildcard"

end Kind

structure Node where
  kind : Kind
  site : Site
  deriving Repr

inductive Tree where
  | root (nodes : Array Node) (modules : List NodeId)
  | layer (base : Tree) (nodes : Array Node) (modules : List NodeId)

namespace Tree

def empty : Tree := root #[] []

def modules : Tree → List NodeId
  | root _ ms => ms
  | layer _ _ ms => ms

/-- A fresh layer over `base`. It starts with the modules of the base. -/
def extending (base : Tree) : Tree := layer base #[] base.modules

def size : Tree → Nat
  | root ns _ => ns.size
  | layer base ns _ => base.size + ns.size

def get? : Tree → NodeId → Option Node
  | root ns _, i => ns[i]?
  | layer base ns _, i => if i < base.size then base.get? i else ns[i - base.size]?

def inheritedSize : Tree → Nat
  | root _ _ => 0
  | layer base _ _ => base.size

def isInherited (t : Tree) (i : NodeId) : Bool := i < t.inheritedSize

def insert (t : Tree) (kind : Kind) (site : Site) : NodeId × Tree :=
  match t with
  | root ns ms => (ns.size, root (ns.push ⟨kind, site⟩) ms)
  | layer base ns ms => (base.size + ns.size, layer base (ns.push ⟨kind, site⟩) ms)

theorem fst_insert (t : Tree) (kind : Kind) (site : Site) :
    (t.insert kind site).1 = t.size := by
  cases t <;> rfl

theorem size_insert (t : Tree) (kind : Kind) (site : Site) :
    (t.insert kind site).2.size = t.size + 1 := by
  cases t <;> simp [insert, size, Nat.add_assoc]

def addModule (t : Tree) (m : NodeId) : Tree :=
  match t with
  | root ns ms => root ns (ms ++ [m])
  | layer base ns ms => layer base ns (ms ++ [m])

/-- The kind of a node; a number that names no node is taken for a wildcard. -/
def kind (t : Tree) (i : NodeId) : Kind := ((t.get? i).map (·.kind)).getD .wildcard

def site (t : Tree) (i : NodeId) : Site := ((t.get? i).map (·.site)).getD .synthesized

def children (t : Tree) (i : NodeId) : List NodeId := (t.kind i).children

def unitsOf (t : Tree) (m : NodeId) : List NodeId :=
  match t.kind m with
  | .module _ units => units
  | _ => []

def units (t : Tree) : List NodeId := t.modules.flatMap t.unitsOf

end Tree

end LanguageService
