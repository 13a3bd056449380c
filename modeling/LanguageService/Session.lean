import LanguageService.Cache
import LanguageService.Config
import LanguageService.Protocol.Answer
import LanguageService.Protocol.Params

namespace LanguageService

inductive Request where
  | shutdown
  | definition (p : Protocol.Place)
  | symbols (uri : String)
  | highlights (uri : String)
  | diagnostics (uri : String)
  deriving DecidableEq, Repr

namespace Request

def orMalformed {α : Type} : Option α → Except ServiceError α
  | some a => .ok a
  | none => .error (.invalidParams "<malformed>")

def decode (method : String) (params : Json) : Except ServiceError Request :=
  match method with
  | "shutdown" => .ok shutdown
  | "textDocument/definition" => definition <$> orMalformed (Protocol.place params)
  | "textDocument/documentSymbol" => symbols <$> orMalformed (Protocol.document params)
  | "textDocument/semanticTokens/full" => highlights <$> orMalformed (Protocol.document params)
  | "textDocument/diagnostic" => diagnostics <$> orMalformed (Protocol.diagnostic params)
  | m => .error (.methodNotFound m)

end Request

inductive Notification where
  | opened (o : Protocol.Opening)
  | edited (e : Protocol.Editing)
  | closed (uri : String)
  | saved (s : Protocol.Saving)
  | foldersChanged (c : Protocol.FolderChange)
  | exit
  | ignored

namespace Notification

def decode (method : String) (params : Json) : Notification :=
  match method with
  | "textDocument/didOpen" => ((Protocol.opening params).map opened).getD ignored
  | "textDocument/didChange" => ((Protocol.editing params).map edited).getD ignored
  | "textDocument/didClose" => ((Protocol.closing params).map closed).getD ignored
  | "textDocument/didSave" => ((Protocol.saving params).map saved).getD ignored
  | "workspace/didChangeWorkspaceFolders" =>
      ((Protocol.foldersChanged params).map foldersChanged).getD ignored
  | "exit" => exit
  | _ => ignored

end Notification

namespace Cache

/-- A document that is not open is opened from the disk when it is asked for. -/
def reach {α : Type} (c : Cache) (d : Disk) (u : DocumentUri)
    (get : Cache → Except ServiceError α) : Except ServiceError α :=
  if (c.entry? u).isSome then get c
  else
    match c.openFromDisk d u with
    | .error e => .error e
    | .ok c => get c

def parsedDocument (c : Cache) (d : Disk) (u : DocumentUri) :
    Except ServiceError (Except Failure Parsed × Cache) :=
  (c.reach d u (·.parseHandle d u)).map fun (h, c) => c.awaitParse d c.libraries h

def analyzedDocument (c : Cache) (d : Disk) (u : DocumentUri) :
    Except ServiceError (Except Failure Analysis × Cache) :=
  (c.reach d u (·.analysisHandle d u)).map fun (h, c) => c.awaitAnalysis d c.libraries h

def save (c : Cache) (u : DocumentUri) (text : String) : Cache :=
  match c.document? u with
  | none => c.openText u text 0
  | some doc => c.openText u text doc.version

end Cache

structure Session where
  config : Config
  cache : Cache
  folders : List Protocol.Folder
  shuttingDown : Bool

namespace Session

def start (d : Disk) (config : Config) : Session :=
  ⟨config, .empty (config.libraryRoot d), [], false⟩

def setFolders (s : Session) (folders : List Protocol.Folder) : Session :=
  { s with folders := folders }

def addFolder (folders : List Protocol.Folder) (f : Protocol.Folder) : List Protocol.Folder :=
  if folders.any (·.uri == f.uri) then folders else folders ++ [f]

/-- Folders are known by their URIs. Some are taken away first, and new ones added then. -/
def changeFolders (s : Session) (c : Protocol.FolderChange) : Session :=
  let kept := s.folders.filter fun f => !c.removed.any (·.uri == f.uri)
  { s with folders := c.added.foldl addFolder kept }

/-- An answer from a result. Faults of the document leave it without an answer. -/
def answerOf {α : Type} (r : Except Failure α) (answer : α → Json) : Except ServiceError Json :=
  match r with
  | .ok a => .ok (answer a)
  | .error (.diagnostics _) => .ok .null
  | .error (.internal reason) => .error (.internal reason)

def reportOf (r : Except Failure Analysis) (u : DocumentUri) : Except ServiceError Json :=
  match r with
  | .ok _ => .ok (DiagnosticSet.empty.report u.text)
  | .error (.diagnostics ds) => .ok (ds.report u.text)
  | .error (.internal reason) => .error (.internal reason)

def ask {α : Type} (s : Session) (d : Disk) (uri : String)
    (get : DocumentUri → Except ServiceError (α × Cache))
    (answer : DocumentUri → α → Except ServiceError Json) : Except ServiceError Json × Session :=
  match DocumentUri.parse d uri with
  | .error e => (.error e, s)
  | .ok u =>
      match get u with
      | .error e => (.error e, s)
      | .ok (a, c) => (answer u a, { s with cache := c })

def answer (s : Session) (d : Disk) : Request → Except ServiceError Json × Session
  | .shutdown => (.ok .null, { s with shuttingDown := true })
  | .definition p =>
      s.ask d p.uri (s.cache.analyzedDocument d) fun u r =>
        answerOf r fun a => a.program.definitionAnswer u.text p.position
  | .symbols uri =>
      s.ask d uri (s.cache.parsedDocument d) fun u r =>
        answerOf r fun p => p.tree.symbolsAnswer u.text
  | .highlights uri =>
      s.ask d uri (s.cache.parsedDocument d) fun u r =>
        answerOf r fun p => Highlight.answer p.tree u.text
  | .diagnostics uri =>
      s.ask d uri (s.cache.analyzedDocument d) fun u r => reportOf r u

def request (s : Session) (d : Disk) (method : String) (params : Json) :
    Except ServiceError Json × Session :=
  if s.shuttingDown then (.error .shuttingDown, s)
  else
    match Request.decode method params with
    | .error e => (.error e, s)
    | .ok r => s.answer d r

inductive Flow where
  | goOn
  | exit
  deriving DecidableEq, Repr

/-- Changes a document if it has a URI. What fails changes nothing. -/
def update (s : Session) (d : Disk) (uri : String)
    (change : DocumentUri → Except ServiceError Cache) : Session :=
  match DocumentUri.parse d uri with
  | .error _ => s
  | .ok u =>
      match change u with
      | .error _ => s
      | .ok c => { s with cache := c }

def apply (s : Session) (d : Disk) : Notification → Session
  | .opened o => s.update d o.uri fun u => .ok (s.cache.openText u o.text o.version)
  | .edited e =>
      s.update d e.uri fun u => s.cache.reach d u fun c => c.change u e.changes e.version
  | .closed uri => s.update d uri fun u => .ok (s.cache.close u)
  | .saved v =>
      match v.text with
      | none => s
      | some text => s.update d v.uri fun u => .ok (s.cache.save u text)
  | .foldersChanged c => s.changeFolders c
  | .exit => s
  | .ignored => s

def notify (s : Session) (d : Disk) (method : String) (params : Json) : Flow × Session :=
  match Notification.decode method params with
  | .exit => (.exit, s)
  | n => (.goOn, s.apply d n)

end Session

end LanguageService
