import LanguageService.Tree.Walk

namespace LanguageService.Tree

/-- Nothing below a node of another file, or below one that starts later, covers the place. -/
def mayEnclose (t : Tree) (f : File) (offset : Nat) (i : NodeId) : Bool :=
  let s := t.site i
  s.isSynthesized || (s.file == f && s.start ≤ offset)

def encloses (t : Tree) (f : File) (offset : Nat) (i : NodeId) : Bool :=
  let s := t.site i
  !s.isSynthesized && s.covers f offset

def smaller (t : Tree) (best : Option NodeId) (i : NodeId) : Option NodeId :=
  match best with
  | none => some i
  | some b => if (t.site i).size ≤ (t.site b).size then some i else some b

def enclosingIn (t : Tree) (f : File) (offset : Nat) (root : NodeId) : Option NodeId :=
  ((t.visit (t.mayEnclose f offset) root).filter (t.encloses f offset)).foldl t.smaller none

/-- The smallest node that covers a place, in the first module that has one. -/
def enclosing? (t : Tree) (f : File) (offset : Nat) : Option NodeId :=
  t.modules.findSome? (t.enclosingIn f offset)

end LanguageService.Tree
