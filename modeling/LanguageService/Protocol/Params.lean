import LanguageService.Document
import LanguageService.Json.Decode
import LanguageService.Uri.Reference

namespace LanguageService.Protocol

open Json.Decoder

/-- A URI in its protocol form, which is not yet known to name a document. -/
def uri : Json.Decoder String
  | .str s => if Uri.isReference s then some s else none
  | _ => none

def position (j : Json) : Option Text.LineColumn := do
  match ← j.fields ["line", "character"] with
  | [line, character] => return ⟨← required unsigned32 line, ← required unsigned32 character⟩
  | _ => none

def range (j : Json) : Option (Text.LineColumn × Text.LineColumn) := do
  match ← j.fields ["start", "end"] with
  | [start, stop] => return (← required position start, ← required position stop)
  | _ => none

def change (j : Json) : Option Change := do
  match ← j.fields ["range", "rangeLength", "text"] with
  | [r, length, text] =>
      let r ← optional range r
      let _ ← optional unsigned32 length
      return ⟨r, ← required str text⟩
  | _ => none

def documentName (j : Json) : Option String := do
  match ← j.fields ["uri"] with
  | [u] => required uri u
  | _ => none

/-- A client may name the progress of a request by a number or a text. -/
def token : Json.Decoder Unit
  | .int n => (signed32 (.int n)).map fun _ => ()
  | .str _ => some ()
  | _ => none

def tokens (j : Json) : Option Unit := do
  let _ ← optional token (j.get? "workDoneToken")
  let _ ← optional token (j.get? "partialResultToken")

structure Place where
  uri : String
  position : Text.LineColumn
  deriving DecidableEq, Repr

def place (j : Json) : Option Place := do
  match ← j.namedFields ["textDocument", "position"] with
  | [doc, pos] =>
      let u ← required documentName doc
      let p ← required position pos
      tokens j
      return ⟨u, p⟩
  | _ => none

def document (j : Json) : Option String := do
  match ← j.namedFields ["textDocument"] with
  | [doc] =>
      let u ← required documentName doc
      tokens j
      return u
  | _ => none

def diagnostic (j : Json) : Option String := do
  let u ← document j
  let _ ← optional str (j.get? "identifier")
  let _ ← optional str (j.get? "previousResultId")
  return u

structure Opening where
  uri : String
  version : Int
  text : String
  deriving DecidableEq, Repr

def openedDocument (j : Json) : Option Opening := do
  match ← j.fields ["uri", "languageId", "version", "text"] with
  | [u, language, version, text] =>
      let u ← required uri u
      let _ ← required str language
      return ⟨u, ← required signed32 version, ← required str text⟩
  | _ => none

def opening (j : Json) : Option Opening := do
  match ← j.fields ["textDocument"] with
  | [doc] => required openedDocument doc
  | _ => none

structure Editing where
  uri : String
  version : Int
  changes : List Change

def editedDocument (j : Json) : Option (String × Int) := do
  match ← j.fields ["uri", "version"] with
  | [u, version] => return (← required uri u, ← required signed32 version)
  | _ => none

def editing (j : Json) : Option Editing := do
  match ← j.fields ["textDocument", "contentChanges"] with
  | [doc, changes] =>
      let (u, version) ← required editedDocument doc
      return ⟨u, version, ← required (list change) changes⟩
  | _ => none

def closing (j : Json) : Option String := do
  match ← j.fields ["textDocument"] with
  | [doc] => required documentName doc
  | _ => none

structure Saving where
  uri : String
  text : Option String
  deriving DecidableEq, Repr

def saving (j : Json) : Option Saving := do
  match ← j.fields ["textDocument", "text"] with
  | [doc, text] => return ⟨← required documentName doc, ← optional str text⟩
  | _ => none

structure Folder where
  uri : String
  name : String
  deriving DecidableEq, Repr

def folder (j : Json) : Option Folder := do
  match ← j.fields ["uri", "name"] with
  | [u, name] => return ⟨← required uri u, ← required str name⟩
  | _ => none

structure FolderChange where
  added : List Folder
  removed : List Folder
  deriving DecidableEq, Repr

def folderChange (j : Json) : Option FolderChange := do
  match ← j.fields ["added", "removed"] with
  | [added, removed] => return ⟨← required (list folder) added, ← required (list folder) removed⟩
  | _ => none

def foldersChanged (j : Json) : Option FolderChange := do
  match ← j.fields ["event"] with
  | [event] => required folderChange event
  | _ => none

end LanguageService.Protocol
