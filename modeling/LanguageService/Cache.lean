import LanguageService.Analysis
import LanguageService.Document

/-!
Open documents, and what has been found out about them. A handle stands for work on one state
of one document. The work is done when its result is first asked for, and only then.
-/
namespace LanguageService

structure ParseHandle where
  id : Nat
  uri : DocumentUri
  text : String
  root : Option Path
  deriving DecidableEq, Repr

structure AnalysisHandle where
  id : Nat
  parse : ParseHandle
  deriving DecidableEq, Repr

structure OpenDocument where
  document : Document
  parse : Option ParseHandle
  analysis : Option AnalysisHandle
  deriving DecidableEq, Repr

namespace OpenDocument

def fresh (d : Document) : OpenDocument := ⟨d, none, none⟩

end OpenDocument

structure Effort where
  libraries : Nat
  parses : Nat
  checks : Nat
  deriving DecidableEq, Repr

abbrev LibraryTable := List (Path.Parts × Except Failure Tree)

namespace LibraryTable

def get? (ls : LibraryTable) (root : Path) : Option (Except Failure Tree) :=
  (ls.find? fun l => l.1 == root.parts).map (·.2)

end LibraryTable

structure Cache where
  default : Option Path
  documents : List (DocumentUri × OpenDocument)
  next : Nat
  libraries : LibraryTable
  parsed : List (Nat × Except Failure Parsed)
  analyses : List (Nat × Except Failure Analysis)
  effort : Effort

namespace Cache

def empty (default : Option Path) : Cache := ⟨default, [], 1, [], [], [], ⟨0, 0, 0⟩⟩

def entry? (c : Cache) (u : DocumentUri) : Option OpenDocument :=
  (c.documents.find? fun e => e.1 == u).map (·.2)

def document? (c : Cache) (u : DocumentUri) : Option Document := (c.entry? u).map (·.document)

def put (c : Cache) (u : DocumentUri) (e : OpenDocument) : Cache :=
  { c with documents := (u, e) :: c.documents.filter (·.1 != u) }

def openText (c : Cache) (u : DocumentUri) (text : String) (version : Int) : Cache :=
  c.put u (.fresh ⟨text, version⟩)

/-- Opens a document with the text it has on the disk. One that is open stays as it is. -/
def openFromDisk (c : Cache) (d : Disk) (u : DocumentUri) : Except ServiceError Cache :=
  match u.path? with
  | none => .error (.invalidParams (u.text ++ " is not a file"))
  | some p =>
      match d.readText p with
      | .error e => .error (.invalidParams ("cannot read " ++ p.display ++ ": " ++ e.message))
      | .ok text => .ok (if (c.entry? u).isSome then c else c.openText u text 0)

/-- What was found out about a document does not hold after a change. -/
def change (c : Cache) (u : DocumentUri) (changes : List Change) (version : Int) :
    Except ServiceError Cache :=
  match c.entry? u with
  | none => .error (.documentNotFound u.text)
  | some e => .ok (c.put u (.fresh (e.document.change changes version)))

def close (c : Cache) (u : DocumentUri) : Cache :=
  { c with documents := c.documents.filter (·.1 != u) }

def libraryRoot (c : Cache) (d : Disk) (u : DocumentUri) : Option Path :=
  u.libraryRoot d c.default

/-- The handle on the parse of a document, which is made if there is none. -/
def parseHandleOf (c : Cache) (d : Disk) (u : DocumentUri) (e : OpenDocument) :
    ParseHandle × Cache :=
  match e.parse with
  | some h => (h, c)
  | none =>
      let h : ParseHandle := ⟨c.next, u, e.document.text, c.libraryRoot d u⟩
      (h, { c.put u { e with parse := some h } with next := c.next + 1 })

def parseHandle (c : Cache) (d : Disk) (u : DocumentUri) :
    Except ServiceError (ParseHandle × Cache) :=
  match c.entry? u with
  | none => .error (.documentNotFound u.text)
  | some e => .ok (c.parseHandleOf d u e)

/-- The handle on the analysis of a document. It shares the parse with the parse handle. -/
def analysisHandle (c : Cache) (d : Disk) (u : DocumentUri) :
    Except ServiceError (AnalysisHandle × Cache) :=
  match c.entry? u with
  | none => .error (.documentNotFound u.text)
  | some e =>
      match e.analysis with
      | some h => .ok (h, c)
      | none =>
          let (p, c) := c.parseHandleOf d u e
          let h : AnalysisHandle := ⟨c.next, p⟩
          .ok (h, { c.put u ⟨e.document, some p, some h⟩ with next := c.next + 1 })

def parsed? (c : Cache) (h : ParseHandle) : Option (Except Failure Parsed) :=
  (c.parsed.find? fun r => r.1 == h.id).map (·.2)

def analysis? (c : Cache) (h : AnalysisHandle) : Option (Except Failure Analysis) :=
  (c.analyses.find? fun r => r.1 == h.id).map (·.2)

/-- The library at a root. It is built once, and a failure is kept too. -/
def library (c : Cache) (d : Disk) (root : Path) : Except Failure Tree × Cache :=
  match c.libraries.get? root with
  | some r => (r, c)
  | none =>
      let r := Library.build d root
      (r, { c with
        libraries := (root.parts, r) :: c.libraries
        effort := { c.effort with libraries := c.effort.libraries + 1 } })

/-- The library under a document, and whether it is none of those in `known`. -/
def libraryUnder (c : Cache) (d : Disk) (known : LibraryTable) :
    Option Path → Except Failure (Tree × Bool) × Cache
  | none => (.ok (.empty, false), c)
  | some root =>
      let (r, c) := c.library d root
      (r.map fun t => (t, (known.get? root).isNone), c)

/-- Parses a document. The libraries in `known` are those that were built before. -/
def parse (c : Cache) (d : Disk) (known : LibraryTable) (u : DocumentUri) (text : String)
    (root : Option Path) : Except Failure Parsed × Cache :=
  match c.libraryUnder d known root with
  | (.error e, c) => (.error e, c)
  | (.ok (library, waited), c) =>
      if u.isBelow root then (.ok (.ofLibrary u library waited), c)
      else
        (Parsed.ofText u text library waited,
          { c with effort := { c.effort with parses := c.effort.parses + 1 } })

def check (c : Cache) (p : Parsed) : Except Failure Analysis × Cache :=
  (p.check, { c with effort := { c.effort with checks := c.effort.checks + 1 } })

def awaitParse (c : Cache) (d : Disk) (known : LibraryTable) (h : ParseHandle) :
    Except Failure Parsed × Cache :=
  match c.parsed? h with
  | some r => (r, c)
  | none =>
      let (r, c) := c.parse d known h.uri h.text h.root
      (r, { c with parsed := (h.id, r) :: c.parsed })

def awaitAnalysis (c : Cache) (d : Disk) (known : LibraryTable) (h : AnalysisHandle) :
    Except Failure Analysis × Cache :=
  match c.analysis? h with
  | some r => (r, c)
  | none =>
      let (p, c) := c.awaitParse d known h.parse
      let (r, c) := match p with
        | .ok p => c.check p
        | .error e => (.error e, c)
      (r, { c with analyses := (h.id, r) :: c.analyses })

def analyze (c : Cache) (d : Disk) (u : DocumentUri) (text : String) (root : Option Path) :
    Except Failure Analysis × Cache :=
  match c.parse d c.libraries u text root with
  | (.ok p, c) => c.check p
  | (.error e, c) => (.error e, c)

end Cache

end LanguageService
