import LanguageService.Check
import LanguageService.Library

namespace LanguageService

/-- Why there is no tree or program of a document: it is faulty, or its library is. -/
inductive Failure where
  | diagnostics (ds : DiagnosticSet)
  | internal (reason : String)

/-- A document and the library it stands on as one tree. `waited` tells that the library was
not there yet when the document was parsed. -/
structure Parsed where
  uri : DocumentUri
  tree : Tree
  isLibrary : Bool
  waited : Bool

structure Analysis where
  parsed : Parsed
  program : Program

namespace Library

def build (d : Disk) (root : Path) : Except Failure Tree :=
  match parse d root with
  | .ok t => .ok t
  | .error e => .error (.internal ("failed to build library " ++ root.display ++ ": " ++ e.message))

end Library

namespace DocumentUri

/-- The library that a document stands on: the one it lies in, else the default. -/
def libraryRoot (u : DocumentUri) (d : Disk) (default : Option Path) : Option Path :=
  (u.path?.bind (Library.rootAbove d)).or default

/-- A document below the root of its library is a part of it. -/
def isBelow (u : DocumentUri) (root : Option Path) : Bool :=
  match u.path?, root with
  | some p, some r => p.startsWith r
  | _, _ => false

end DocumentUri

namespace Parsed

def ofText (u : DocumentUri) (text : String) (library : Tree) (waited : Bool) :
    Except Failure Parsed :=
  match Tree.parseModule library u.moduleName [.document u.text text] with
  | .ok t => .ok ⟨u, t, false, waited⟩
  | .error ds => .error (.diagnostics ds)

/-- A document that is part of its library has been parsed with it. -/
def ofLibrary (u : DocumentUri) (library : Tree) (waited : Bool) : Parsed :=
  ⟨u, library, true, waited⟩

def check (p : Parsed) : Except Failure Analysis :=
  match typeCheck p.tree with
  | .ok program => .ok ⟨p, program⟩
  | .error ds => .error (.diagnostics ds)

end Parsed

end LanguageService
