import LanguageService.Token.Lexer
import LanguageService.Tree.Walk

/-!
What the words of a document are, as far as its tree tells, and how that is sent: each mark
relative to the one before it.
-/
namespace LanguageService

inductive MarkKind where
  | space
  | type
  | typeParameter
  | parameter
  | var
  | property
  | function
  | method
  | keyword
  | modifier
  | comment
  | string
  | number
  | operator
  | label
  deriving DecidableEq, Repr

namespace MarkKind

def all : List MarkKind :=
  [space, type, typeParameter, parameter, var, property, function, method, keyword, modifier,
   comment, string, number, operator, label]

def index (k : MarkKind) : Nat := all.idxOf k

def word : MarkKind → String
  | space => "namespace"
  | type => "type"
  | typeParameter => "typeParameter"
  | parameter => "parameter"
  | var => "variable"
  | property => "property"
  | function => "function"
  | method => "method"
  | keyword => "keyword"
  | modifier => "modifier"
  | comment => "comment"
  | string => "string"
  | number => "number"
  | operator => "operator"
  | label => "label"

end MarkKind

structure Mark where
  site : Site
  kind : MarkKind
  modifiers : Nat

namespace Mark

def declaration : Nat := 1

def readonly : Nat := 2

def modifierWords : List String := ["declaration", "readonly"]

end Mark

inductive Role where
  | value
  | callee
  deriving DecidableEq, Repr

structure Surroundings where
  inType : Bool
  readonly : Bool
  role : Role

namespace Highlight

def plain (kind : MarkKind) (site : Site) : Mark := ⟨site, kind, 0⟩

def declared (kind : MarkKind) (x : Name) : Mark := ⟨x.site, kind, Mark.declaration⟩

def nameKind (role : Role) (domain : Option NodeId) (x : String) : MarkKind :=
  match domain, role with
  | none, .value => if x = "self" then .keyword else .var
  | none, .callee => if x = "self" then .keyword else .function
  | some _, .value => .property
  | some _, .callee => .method

/-- The marks of a node and all below it, in the order of the text; `fuel` bounds the depth. -/
def marksAt (t : Tree) : Nat → Surroundings → NodeId → List Mark
  | 0, _, _ => []
  | fuel + 1, s, i =>
      let plainly : Surroundings := { s with role := .value }
      let node (i : NodeId) := marksAt t fuel plainly i
      let nodes (is : List NodeId) := is.flatMap (marksAt t fuel plainly)
      let within (inType : Bool) (is : List NodeId) :=
        is.flatMap (marksAt t fuel { plainly with inType := inType })
      let site := t.site i
      match t.kind i with
      | .module _ us => nodes us
      | .unit ds => within false ds
      | .space k x ms => plain .keyword k :: declared .space x :: within false ms
      | .product k x gs ms _ =>
          plain .keyword k :: declared .type x :: nodes gs ++ within true ms
      | .extension k subject ms => plain .keyword k :: node subject ++ within true ms
      | .conformance k subject ts ms =>
          plain .keyword k :: node subject ++ nodes ts ++ within true ms
      | .trait k x ms => plain .keyword k :: declared .type x :: within true ms
      | .associated k x => [plain .keyword k, declared .typeParameter x]
      | .typeAlias k x aliased => plain .keyword k :: declared .type x :: node aliased
      | .operator k _ f x => [plain .keyword k, plain .modifier f, declared .operator x]
      | .function k x gs ps o b =>
          plain .keyword k :: declared (if s.inType then .method else .function) x ::
            within false (gs ++ ps ++ o.toList ++ b.toList)
      | .method k x gs ps o vs =>
          plain .keyword k :: declared .method x :: within false (gs ++ ps ++ o.toList ++ vs)
      | .variant k _ b => plain .modifier k :: node b
      | .init k ps b _ => plain .keyword k :: within false (ps ++ b.toList)
      | .subscript k x ps o b =>
          plain .keyword k :: x.toList.map (declared .method) ++
            within false (ps ++ o :: b.toList)
      | .binding p e => node p ++ nodes e.toList
      | .bindingPattern k how p a =>
          plain .keyword k ::
            marksAt t fuel { plainly with readonly := how == .byLet } p ++ nodes a.toList
      | .namePattern v => node v
      | .tuplePattern es => nodes es
      | .var x =>
          [⟨x.site, if s.inType then .property else .var,
            Mark.declaration + if s.readonly then Mark.readonly else 0⟩]
      | .parameter x a => declared .parameter x :: nodes a.toList
      | .generic x => [declared .typeParameter x]
      | .int _ => [plain .number site]
      | .float _ => [plain .number site]
      | .string _ => [plain .string site]
      | .bool _ => [plain .keyword site]
      | .name d x => nodes d.toList ++ [plain (nameKind s.role d x.text) x.site]
      | .call c as =>
          marksAt t fuel { plainly with role := .callee } c ++
            as.flatMap fun (l, v) => l.toList.map (fun x => plain .label x.site) ++ node v
      | .subscriptCall c as =>
          node c ++ as.flatMap fun (l, v) => l.toList.map (fun x => plain .label x.site) ++ node v
      | .binary l op r => node l ++ plain .operator op.site :: node r
      | .tuple es => nodes es
      | .nameType x => [plain (if x.text = "Self" then .keyword else .type) x.site]
      | .tupleType es => nodes es
      | .brace ss => within false ss
      | .ret k v => plain .keyword k :: nodes v.toList
      | .expr e => node e
      | .assign l r => node l ++ node r
      | .loop k c b => plain .keyword k :: node c ++ node b
      | .cond k c yes other no =>
          plain .keyword k :: node c ++ node yes ++ other.toList.map (plain .keyword) ++
            nodes no.toList
      | .decl d => node d
      | .wildcard => []

def comments (f : File) : List Mark :=
  (Lexer.comments f.text.toList).map fun l => ⟨⟨f, l.start, l.stop⟩, .comment, 0⟩

/-- Of marks next to each other that start at one place, the first. -/
def dropRepeated : List Mark → List Mark
  | [] => []
  | m :: ms =>
      m :: dropFrom m.site.start ms
where
  dropFrom (start : Nat) : List Mark → List Mark
    | [] => []
    | m :: ms =>
        if m.site.start = start then dropFrom start ms else m :: dropFrom m.site.start ms

/-- The marks of the document at `uri` in the order of the text. -/
def marks (t : Tree) (uri : String) : List Mark :=
  match t.unitOf? uri with
  | none => []
  | some u =>
      let f := (t.site u).file
      let found := marksAt t (t.size + 1) ⟨false, false, .value⟩ u ++ comments f
      let visible := found.filter fun m => m.site.file == f && !m.site.isEmpty
      dropRepeated (visible.mergeSort fun a b => a.site.start ≤ b.site.start)

/-- A mark as it is sent. The column counts from the mark before if that is on the same line. -/
structure Delta where
  line : Nat
  start : Nat
  length : Nat
  kind : Nat
  modifiers : Nat
  deriving DecidableEq, Repr

def encodeFrom (before : Text.LineColumn) : List Mark → List Delta
  | [] => []
  | m :: ms =>
      let start := m.site.startPosition
      let stop := m.site.stopPosition
      if start.line ≠ stop.line then encodeFrom before ms
      else
        let line := start.line - before.line
        let column := if line = 0 then start.column - before.column else start.column
        ⟨line, column, stop.column - start.column, m.kind.index, m.modifiers⟩ ::
          encodeFrom start ms

def encode (ms : List Mark) : List Delta := encodeFrom .origin ms

end Highlight

end LanguageService
