import LanguageService.Protocol.Greeting
import LanguageService.Session

/-!
The server from the first message to the last. It waits for a greeting, then for the client to
confirm it, and is in session from then on.
-/
namespace LanguageService

inductive Message where
  | request (id : Json) (method : String) (params : Json)
  | notification (method : String) (params : Json)
  | response (id : Json)

/-- The number and text by which a client is told of a failure. -/
structure Fault where
  code : Int
  message : String
  deriving DecidableEq, Repr

namespace Fault

def ofError (e : ServiceError) : Fault := ⟨e.code, e.message⟩

def beforeGreeting : Fault := ⟨-32002, "<not initialized>"⟩

end Fault

structure Reply where
  id : Json
  outcome : Except Fault Json

namespace Reply

def ofOutcome (id : Json) (r : Except ServiceError Json) : Reply := ⟨id, r.mapError Fault.ofError⟩

def toJson (r : Reply) : Json :=
  match r.outcome with
  | .ok result => .obj [("id", r.id), ("result", result)]
  | .error f =>
      .obj [("id", r.id), ("error", .obj [("code", .int f.code), ("message", .str f.message)])]

end Reply

/-- How far a server has come. One that has ended did so well or not. -/
inductive Phase where
  | waiting
  | greeted (s : Session)
  | running (s : Session)
  | ended (well : Bool)

/-- A server, what it knows of the program, and the log levels that clients set. -/
structure Server where
  home : Home
  phase : Phase
  logLevels : List String

namespace Server

def programName : String := "orca-lsp"

def version : String := "0.4.0"

def startIn (home : Home) : Server := ⟨home, .waiting, []⟩

def start (libraryPath : Option Path) : Server := startIn ⟨libraryPath, none⟩

def capabilities : Json :=
  .obj [
    ("textDocumentSync", .obj [("openClose", true), ("change", .nat 1),
      ("save", .obj [("includeText", true)])]),
    ("definitionProvider", true),
    ("documentSymbolProvider", true),
    ("semanticTokensProvider", .obj [("legend", Highlight.legend), ("full", true)]),
    ("diagnosticProvider", .obj [("identifier", "orca"), ("interFileDependencies", true),
      ("workspaceDiagnostics", false)]),
    ("workspace", .obj [("workspaceFolders",
      .obj [("supported", true), ("changeNotifications", true)])])]

def welcome : Json :=
  .obj [("capabilities", capabilities),
    ("serverInfo", .obj [("name", programName), ("version", version)])]

def greet (s : Server) (d : Disk) (id params : Json) : List Reply × Server :=
  match Protocol.greeting params with
  | none => ([], { s with phase := .ended false })
  | some g =>
      let config := (Config.ofOptions g.options).inside s.home
      let session := (Session.start d config).setFolders g.folders
      ([⟨id, .ok welcome⟩],
        ⟨s.home, .greeted session, s.logLevels ++ config.logLevel.toList⟩)

def receiveWaiting (s : Server) (d : Disk) : Message → List Reply × Server
  | .request id method params =>
      if method = "initialize" then s.greet d id params
      else ([⟨id, .error .beforeGreeting⟩], s)
  | .notification method _ =>
      if method = "exit" then ([], { s with phase := .ended false }) else ([], s)
  | .response _ => ([], { s with phase := .ended false })

def receiveGreeted (s : Server) (session : Session) : Message → List Reply × Server
  | .notification method _ =>
      if method = "initialized" then ([], { s with phase := .running session })
      else ([], { s with phase := .ended false })
  | _ => ([], { s with phase := .ended false })

def receiveRunning (s : Server) (d : Disk) (session : Session) : Message → List Reply × Server
  | .request id method params =>
      let (outcome, session) := session.request d method params
      ([.ofOutcome id outcome], { s with phase := .running session })
  | .notification method params =>
      match session.notify d method params with
      | (.goOn, session) => ([], { s with phase := .running session })
      | (.exit, _) => ([], { s with phase := .ended true })
  | .response _ => ([], s)

def receive (s : Server) (d : Disk) (m : Message) : List Reply × Server :=
  match s.phase with
  | .waiting => s.receiveWaiting d m
  | .greeted session => s.receiveGreeted session m
  | .running session => s.receiveRunning d session m
  | .ended _ => ([], s)

def hasEnded (s : Server) : Bool :=
  match s.phase with
  | .ended _ => true
  | _ => false

def endsWell (s : Server) : Bool :=
  match s.phase with
  | .waiting => false
  | .greeted _ => false
  | .running _ => true
  | .ended well => well

def exitCode (s : Server) : Nat := if s.endsWell then 0 else 1

end Server

end LanguageService
