import LanguageService.Tree.Walk

namespace LanguageService

inductive SymbolKind where
  | space
  | typeAlias
  | method
  | field
  | constructor
  | interface
  | function
  | var
  | struct
  | operator
  | typeParameter
  deriving DecidableEq, Repr

inductive Symbol where
  | mk (name : String) (detail : Option String) (kind : SymbolKind) (range selection : Site)
      (children : List Symbol)

namespace Symbol

def name : Symbol → String
  | mk x _ _ _ _ _ => x

def range : Symbol → Site
  | mk _ _ _ r _ _ => r

def selection : Symbol → Site
  | mk _ _ _ _ s _ => s

def children : Symbol → List Symbol
  | mk _ _ _ _ _ cs => cs

/-- A symbol whose selection is not inside its range is not shown. -/
def shown (s : Symbol) : List Symbol :=
  if s.range.contains s.selection then [s] else []

end Symbol

namespace Tree

def varName? (t : Tree) (i : NodeId) : Option Name :=
  match t.kind i with
  | .var x => some x
  | _ => none

def conformanceTitle (t : Tree) (subject : NodeId) (traits : List NodeId) : String :=
  (t.site subject).text ++ ": " ++ ", ".intercalate (traits.map fun i => (t.site i).text)

/-- The symbols of a declaration. Members of types are listed below them, and what is inside
bodies is not listed. -/
def symbolsAt (t : Tree) : Nat → Bool → NodeId → List Symbol
  | 0, _, _ => []
  | fuel + 1, inType, d =>
      let site := t.site d
      let below (inType : Bool) (ms : List NodeId) := ms.flatMap (t.symbolsAt fuel inType)
      let leaf (x : Name) (detail : Option String) (kind : SymbolKind) :=
        (Symbol.mk x.text detail kind site x.site []).shown
      if site.isSynthesized then []
      else
        match t.kind d with
        | .space _ x ms => (Symbol.mk x.text none .space site x.site (below false ms)).shown
        | .product _ x _ ms _ => (Symbol.mk x.text none .struct site x.site (below true ms)).shown
        | .extension _ subject ms =>
            let s := t.site subject
            (Symbol.mk s.text (some "extension") .space site s (below true ms)).shown
        | .conformance _ subject traits ms =>
            (Symbol.mk (t.conformanceTitle subject traits) (some "conformance") .space site
              (t.site subject) (below true ms)).shown
        | .trait _ x ms => (Symbol.mk x.text none .interface site x.site (below true ms)).shown
        | .associated _ x => leaf x none .typeParameter
        | .typeAlias _ x aliased => leaf x (some (t.site aliased).text) .typeAlias
        | .operator _ _ fixitySite x => leaf x (some fixitySite.text) .operator
        | .function _ x _ _ _ _ => leaf x none (if inType then .method else .function)
        | .method _ x _ _ _ _ => leaf x none .method
        | .init introducer _ _ _ =>
            (Symbol.mk "init" none .constructor site introducer []).shown
        | .subscript _ (some x) _ _ _ => leaf x (some "subscript") .method
        | .subscript introducer none _ _ _ =>
            (Symbol.mk "subscript" none .method site introducer []).shown
        | .binding pattern _ =>
            ((t.preorder pattern).filterMap t.varName?).flatMap fun x =>
              leaf x none (if inType then .field else .var)
        | _ => []

def outline (t : Tree) (uri : String) : List Symbol :=
  match t.unitOf? uri with
  | some u =>
      match t.kind u with
      | .unit decls => decls.flatMap (t.symbolsAt (t.size + 1) false)
      | _ => []
  | none => []

end Tree

end LanguageService
