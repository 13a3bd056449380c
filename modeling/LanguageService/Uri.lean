import LanguageService.Disk
import LanguageService.ServiceError
import LanguageService.Uri.Url

/-!
The names by which documents are known. Every spelling of a document's URI is brought to one,
so that documents can be compared by it.
-/
namespace LanguageService

def Path.uri? (p : Path) : Option String :=
  let ps := p.parts
  if ps.absolute then
    some ("file://" ++
      if ps.names.isEmpty then "/"
      else String.ofList (ps.names.flatMap fun n => '/' :: Uri.encodeName n))
  else none

structure DocumentUri where
  text : String
  deriving DecidableEq, Repr

namespace DocumentUri

/-- The URI of a path, which is brought to its canonical form if it leads somewhere. -/
def ofPath (d : Disk) (p : Path) : Except ServiceError DocumentUri :=
  let p := d.canonicalize p
  match p.uri? with
  | some u => .ok ⟨u⟩
  | none => .error (.invalidUri p.display)

/-- A slash at the end names the same document, but for the second of two. -/
def dropSlash (cs : List Char) : List Char :=
  match cs.reverse with
  | '/' :: '/' :: _ => cs
  | '/' :: rest => rest.reverse
  | _ => cs

def parse (d : Disk) (text : String) : Except ServiceError DocumentUri :=
  match Uri.Url.parse? text with
  | none => .error (.invalidUri text)
  | some u =>
      if u.scheme = "file" then
        match u.filePath? with
        | some p => ofPath d p
        | none => .error (.invalidUri text)
      else if u.isPlain && u.path.isEmpty then .error (.invalidUri text)
      else .ok ⟨String.ofList (dropSlash u.toString.toList)⟩

def path? (u : DocumentUri) : Option Path := (Uri.Url.parse? u.text).bind (·.filePath?)

/-- The name of the module that a document makes: its file's name, or `document`. -/
def moduleName (u : DocumentUri) : String :=
  ((u.path?.bind Path.stem?).bind Utf8.decode?).getD "document"

def protocol (u : DocumentUri) : Except ServiceError String :=
  if Uri.isReference u.text then .ok u.text else .error (.invalidUri u.text)

end DocumentUri

end LanguageService
