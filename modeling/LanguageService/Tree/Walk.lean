import LanguageService.Tree

namespace LanguageService.Tree

/-- The nodes from `i` on in pre-order; what `enter` refuses has no children. `fuel` bounds the
depth. -/
def visitAt (t : Tree) (enter : NodeId → Bool) : Nat → NodeId → List NodeId
  | 0, _ => []
  | fuel + 1, i =>
      i :: if enter i then (t.children i).flatMap (t.visitAt enter fuel) else []

def visit (t : Tree) (enter : NodeId → Bool) (i : NodeId) : List NodeId :=
  t.visitAt enter (t.size + 1) i

def preorder (t : Tree) (i : NodeId) : List NodeId := t.visit (fun _ => true) i

def isModule (t : Tree) (i : NodeId) : Bool :=
  match t.kind i with
  | .module _ _ => true
  | _ => false

def isUnitOf (t : Tree) (uri : String) (i : NodeId) : Bool :=
  match t.kind i with
  | .unit _ => (t.site i).file.uri == uri
  | _ => false

def unitOf? (t : Tree) (uri : String) : Option NodeId :=
  t.modules.findSome? fun m => (t.visit t.isModule m).find? (t.isUnitOf uri)

/-- The file of the document at `uri`, which is empty if no module has it. -/
def fileOf (t : Tree) (uri : String) : File :=
  match t.unitOf? uri with
  | some u => (t.site u).file
  | none => .document uri ""

/-- The place of a line and column in the document at `uri`. -/
def position? (t : Tree) (uri : String) (p : Text.LineColumn) : Option (File × Nat) :=
  (t.unitOf? uri).bind fun u =>
    let f := (t.site u).file
    (f.offset p).map fun o => (f, o)

end LanguageService.Tree
