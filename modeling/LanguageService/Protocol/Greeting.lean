import LanguageService.Protocol.Abilities
import LanguageService.Protocol.Params

namespace LanguageService.Protocol

open Json.Decoder

structure Greeting where
  options : Json
  folders : List Folder

def clientName (j : Json) : Option Unit := do
  match ← j.fields ["name", "version"] with
  | [name, version] =>
      let _ ← required str name
      let _ ← optional str version
  | _ => none

def traceLevel : Json.Decoder Unit := Abilities.oneOf ["off", "messages", "verbose"]

def greeting (j : Json) : Option Greeting := do
  match ← j.namedFields ["capabilities", "workspaceFolders", "initializationOptions"] with
  | [able, folders, options] =>
      required Abilities.client able
      let folders ← optional (list folder) folders
      let _ ← optional unsigned32 (j.get? "processId")
      let _ ← optional str (j.get? "rootPath")
      let _ ← optional uri (j.get? "rootUri")
      let _ ← optional traceLevel (j.get? "trace")
      let _ ← optional clientName (j.get? "clientInfo")
      let _ ← optional str (j.get? "locale")
      let _ ← optional token (j.get? "workDoneToken")
      return ⟨options.getD .null, folders.getD []⟩
  | _ => none

end LanguageService.Protocol
