import LanguageService.Text

namespace LanguageService

/-- A document, or the file in which the compiler places what it adds itself. -/
inductive File where
  | document (uri text : String)
  | synthesized
  deriving Repr, Inhabited

namespace File

def uri : File → String
  | document u _ => u
  | synthesized => "synthesized://orca"

def text : File → String
  | document _ t => t
  | synthesized => ""

def isSynthesized : File → Bool
  | document _ _ => false
  | synthesized => true

instance : BEq File where
  beq f g := f.isSynthesized == g.isSynthesized && f.uri == g.uri

def lineColumn (f : File) (offset : Nat) : Text.LineColumn :=
  Text.lineColumn f.text.toList offset

def offset (f : File) (p : Text.LineColumn) : Option Nat :=
  Text.offset f.text.toList p

end File

structure Site where
  file : File
  start : Nat
  stop : Nat
  deriving BEq, Repr, Inhabited

namespace Site

def synthesized : Site := ⟨.synthesized, 0, 0⟩

def whole (f : File) : Site := ⟨f, 0, f.text.utf8ByteSize⟩

def isSynthesized (s : Site) : Bool := s.file.isSynthesized

def size (s : Site) : Nat := s.stop - s.start

def isEmpty (s : Site) : Bool := s.start == s.stop

def covers (s : Site) (f : File) (offset : Nat) : Bool :=
  s.file == f && s.start ≤ offset && offset < s.stop

def contains (s t : Site) : Bool :=
  s.file == t.file && s.start ≤ t.start && t.stop ≤ s.stop

def extendedTo (s t : Site) : Site :=
  ⟨s.file, s.start, max t.stop s.start⟩

def text (s : Site) : String :=
  ((Text.slice s.start s.stop s.file.text.toList).map String.ofList).getD ""

def startPosition (s : Site) : Text.LineColumn := s.file.lineColumn s.start

def stopPosition (s : Site) : Text.LineColumn := s.file.lineColumn s.stop

def brackets (s : Site) : String :=
  s.file.uri ++ "[" ++ toString s.start ++ ".." ++ toString s.stop ++ "]"

/-- The place as people read it, with lines and columns counted from one. -/
def display (s : Site) : String :=
  let p := s.startPosition
  s.file.uri ++ ":" ++ toString (p.line + 1) ++ ":" ++ toString (p.column + 1)

end Site

end LanguageService
