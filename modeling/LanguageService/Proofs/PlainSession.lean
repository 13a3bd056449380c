import LanguageService.Session
import Mathlib.Logic.Function.Basic

/-!
A session that remembers only what the client told it. The root of a library, the library, the
tree and the program of a document are found out again for every request.
-/
namespace LanguageService

structure PlainSession where
  config : Config
  documents : DocumentUri → Option Document
  folders : List Protocol.Folder
  shuttingDown : Bool

namespace Library

def under (d : Disk) : Option Path → Except Failure Tree
  | none => .ok .empty
  | some root => build d root

end Library

namespace Parsed

def afresh (d : Disk) (default : Option Path) (u : DocumentUri) (text : String) :
    Except Failure Parsed :=
  let root := u.libraryRoot d default
  match Library.under d root with
  | .error e => .error e
  | .ok library =>
      if u.isBelow root then .ok (.ofLibrary u library false)
      else ofText u text library false

end Parsed

namespace Analysis

def afresh (d : Disk) (default : Option Path) (u : DocumentUri) (text : String) :
    Except Failure Analysis :=
  match Parsed.afresh d default u text with
  | .error e => .error e
  | .ok p => p.check

end Analysis

namespace PlainSession

def start (config : Config) (folders : List Protocol.Folder) : PlainSession :=
  ⟨config, fun _ => none, folders, false⟩

def put (s : PlainSession) (u : DocumentUri) (doc : Option Document) : PlainSession :=
  { s with documents := Function.update s.documents u doc }

/-- The document of a URI. One that is not open is opened with the text it has on the disk. -/
def reach (s : PlainSession) (d : Disk) (u : DocumentUri) :
    Except ServiceError (Document × PlainSession) :=
  match s.documents u with
  | some doc => .ok (doc, s)
  | none =>
      match u.path? with
      | none => .error (.invalidParams (u.text ++ " is not a file"))
      | some p =>
          match d.readText p with
          | .error e => .error (.invalidParams ("cannot read " ++ p.display ++ ": " ++ e.message))
          | .ok text => .ok (⟨text, 0⟩, s.put u (some ⟨text, 0⟩))

def ask (s : PlainSession) (d : Disk) (uri : String)
    (answer : DocumentUri → String → Except ServiceError Json) :
    Except ServiceError Json × PlainSession :=
  match DocumentUri.parse d uri with
  | .error e => (.error e, s)
  | .ok u =>
      match s.reach d u with
      | .error e => (.error e, s)
      | .ok (doc, s) => (answer u doc.text, s)

def answer (s : PlainSession) (d : Disk) : Request → Except ServiceError Json × PlainSession
  | .shutdown => (.ok .null, { s with shuttingDown := true })
  | .definition p =>
      s.ask d p.uri fun u text =>
        Session.answerOf (Analysis.afresh d (s.config.libraryRoot d) u text) fun a =>
          a.program.definitionAnswer u.text p.position
  | .symbols uri =>
      s.ask d uri fun u text =>
        Session.answerOf (Parsed.afresh d (s.config.libraryRoot d) u text) fun p =>
          p.tree.symbolsAnswer u.text
  | .highlights uri =>
      s.ask d uri fun u text =>
        Session.answerOf (Parsed.afresh d (s.config.libraryRoot d) u text) fun p =>
          Highlight.answer p.tree u.text
  | .diagnostics uri =>
      s.ask d uri fun u text =>
        Session.reportOf (Analysis.afresh d (s.config.libraryRoot d) u text) u

def request (s : PlainSession) (d : Disk) (method : String) (params : Json) :
    Except ServiceError Json × PlainSession :=
  if s.shuttingDown then (.error .shuttingDown, s)
  else
    match Request.decode method params with
    | .error e => (.error e, s)
    | .ok r => s.answer d r

def update (s : PlainSession) (d : Disk) (uri : String)
    (change : DocumentUri → Except ServiceError PlainSession) : PlainSession :=
  match DocumentUri.parse d uri with
  | .error _ => s
  | .ok u =>
      match change u with
      | .error _ => s
      | .ok s => s

def apply (s : PlainSession) (d : Disk) : Notification → PlainSession
  | .opened o => s.update d o.uri fun u => .ok (s.put u (some ⟨o.text, o.version⟩))
  | .edited e =>
      s.update d e.uri fun u =>
        (s.reach d u).map fun (doc, s) => s.put u (some (doc.change e.changes e.version))
  | .closed uri => s.update d uri fun u => .ok (s.put u none)
  | .saved v =>
      match v.text with
      | none => s
      | some text =>
          s.update d v.uri fun u =>
            .ok (s.put u (some ⟨text, ((s.documents u).map (·.version)).getD 0⟩))
  | .foldersChanged c =>
      let kept := s.folders.filter fun f => !c.removed.any (·.uri == f.uri)
      { s with folders := c.added.foldl Session.addFolder kept }
  | .exit => s
  | .ignored => s

def notify (s : PlainSession) (d : Disk) (method : String) (params : Json) :
    Session.Flow × PlainSession :=
  match Notification.decode method params with
  | .exit => (.exit, s)
  | n => (.goOn, s.apply d n)

end PlainSession

inductive Event where
  | request (method : String) (params : Json)
  | notification (method : String) (params : Json)

inductive Response where
  | answer (r : Except ServiceError Json)
  | flow (f : Session.Flow)

def Session.handle (d : Disk) (s : Session) : Event → Response × Session
  | .request method params => (s.request d method params).map .answer id
  | .notification method params => (s.notify d method params).map .flow id

def PlainSession.handle (d : Disk) (s : PlainSession) : Event → Response × PlainSession
  | .request method params => (s.request d method params).map .answer id
  | .notification method params => (s.notify d method params).map .flow id

def responses {σ : Type} (handle : σ → Event → Response × σ) : σ → List Event → List Response
  | _, [] => []
  | s, e :: es =>
      let (r, s) := handle s e
      r :: responses handle s es

theorem responses_eq {σ τ : Type} {handle : σ → Event → Response × σ}
    {handle' : τ → Event → Response × τ} {R : σ → τ → Prop}
    (hstep : ∀ s t e, R s t → (handle s e).1 = (handle' t e).1 ∧ R (handle s e).2 (handle' t e).2)
    {s : σ} {t : τ} (h : R s t) (es : List Event) :
    responses handle s es = responses handle' t es := by
  induction es generalizing s t with
  | nil => rfl
  | cons e es ih =>
      obtain ⟨hresponse, hnext⟩ := hstep s t e h
      simp only [responses]
      rw [hresponse, ih hnext]

end LanguageService
