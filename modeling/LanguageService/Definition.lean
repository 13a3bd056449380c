import LanguageService.Enclosing
import LanguageService.Program

namespace LanguageService

structure Definition where
  range : Site
  selection : Site

namespace Tree

/-- Where a declaration is, and the part of it that stands for the whole. -/
def definitionOf (t : Tree) (d : NodeId) : Definition :=
  let selection := match t.kind d with
    | .init introducer _ _ _ => introducer
    | .variant introducer _ _ => introducer
    | .extension _ subject _ => t.site subject
    | .conformance _ subject _ _ => t.site subject
    | k =>
        match k.declares with
        | some x => x.site
        | none => t.site d
  ⟨t.site d, selection⟩

def hasMemberwise (t : Tree) (init d : NodeId) : Bool :=
  match t.kind d with
  | .product _ _ _ _ memberwise => memberwise == some init
  | _ => false

def memberwiseOwner? (t : Tree) (init : NodeId) : Option NodeId :=
  t.modules.findSome? fun m => (t.preorder m).find? (t.hasMemberwise init)

/-- An initializer that is nowhere in the text is found at the type it makes. -/
def initializerDefinition (t : Tree) (init : NodeId) : Definition :=
  if (t.site init).isSynthesized then
    match t.memberwiseOwner? init with
    | some owner => t.definitionOf owner
    | none => t.definitionOf init
  else t.definitionOf init

end Tree

namespace Program

def referred (p : Program) (node : NodeId) : Option Definition :=
  match p.references.get? node with
  | some (.direct d) => some (p.tree.definitionOf d)
  | some (.member d) => some (p.tree.definitionOf d)
  | some (.constructor i) => some (p.tree.initializerDefinition i)
  | some (.builtin _) => none
  | none => none

/-- A declaration speaks of itself, a name of what it refers to, and a call of its callee. -/
def definitionAt (p : Program) : Nat → NodeId → Option Definition
  | 0, _ => none
  | fuel + 1, node =>
      let k := p.tree.kind node
      if k.isDeclaration then some (p.tree.definitionOf node)
      else
        match k with
        | .call callee _ => p.definitionAt fuel callee
        | .subscriptCall callee _ => p.definitionAt fuel callee
        | .name _ _ => p.referred node
        | .nameType _ => p.referred node
        | .binary _ _ _ => p.referred node
        | _ => none

def definition? (p : Program) (f : File) (offset : Nat) : Option Definition :=
  (p.tree.enclosing? f offset).bind (p.definitionAt (p.tree.size + 1))

end Program

end LanguageService
