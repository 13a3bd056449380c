import LanguageService.Source

namespace LanguageService

inductive Severity where
  | error
  | warning
  | note
  deriving DecidableEq, Repr

def Severity.word : Severity → String
  | error => "error"
  | warning => "warning"
  | note => "note"

structure RelatedNote where
  site : Site
  message : String
  deriving BEq, Repr

structure Diagnostic where
  severity : Severity
  code : String
  site : Site
  message : String
  notes : List RelatedNote
  deriving BEq, Repr

namespace Diagnostic

def error (code : String) (site : Site) (message : String) : Diagnostic :=
  ⟨.error, code, site, message, []⟩

def withNote (d : Diagnostic) (site : Site) (message : String) : Diagnostic :=
  { d with notes := d.notes ++ [⟨site, message⟩] }

def isError (d : Diagnostic) : Bool := d.severity == .error

def display (d : Diagnostic) : String :=
  d.site.display ++ ": " ++ d.severity.word ++ "[" ++ d.code ++ "]: " ++ d.message

end Diagnostic

structure DiagnosticSet where
  elements : List Diagnostic
  deriving BEq, Repr

namespace DiagnosticSet

def empty : DiagnosticSet := ⟨[]⟩

def contains (s : DiagnosticSet) (d : Diagnostic) : Bool := s.elements.any (· == d)

/-- Adds a diagnostic at the end unless an equal one is there. -/
def insert (s : DiagnosticSet) (d : Diagnostic) : DiagnosticSet :=
  if s.contains d then s else ⟨s.elements ++ [d]⟩

def extend (s : DiagnosticSet) (ds : List Diagnostic) : DiagnosticSet :=
  ds.foldl insert s

def ofList (ds : List Diagnostic) : DiagnosticSet := empty.extend ds

def size (s : DiagnosticSet) : Nat := s.elements.length

def isEmpty (s : DiagnosticSet) : Bool := s.elements.isEmpty

def containsError (s : DiagnosticSet) : Bool := s.elements.any (·.isError)

/-- A set fails what it was gathered for exactly when it holds an error. -/
def toResult (s : DiagnosticSet) : Except DiagnosticSet Unit :=
  if s.containsError then .error s else .ok ()

def display (s : DiagnosticSet) : String :=
  "\n".intercalate (s.elements.map (·.display))

end DiagnosticSet

end LanguageService
