import LanguageService.Text

/-!
Open documents and their edits. For edits lines end at every kind of line break, and a line
has its break as its last character.
-/
namespace LanguageService

namespace Text

def lineBreaks : List Char :=
  ['\n', '\x0b', '\x0c', '\r', '\u0085', '\u2028', '\u2029']

/-- A carriage return before a line feed leaves it to the line feed to end the line. -/
def endsLine (c : Char) (next : Option Char) : Bool :=
  lineBreaks.contains c && !(c == '\r' && next == some '\n')

/-- The place of the start of line `n`, counted in characters from `start`, and the text from
there. -/
def skipBreaks : Nat → Nat → List Char → Option (Nat × List Char)
  | 0, start, cs => some (start, cs)
  | _ + 1, _, [] => none
  | n + 1, start, c :: cs =>
      if endsLine c cs.head? then skipBreaks n (start + 1) cs
      else skipBreaks (n + 1) (start + 1) cs

def brokenLine : List Char → List Char
  | [] => []
  | c :: cs => if endsLine c cs.head? then [c] else c :: brokenLine cs

def charsWithin : Nat → List Char → Nat
  | _, [] => 0
  | n, c :: cs => if charUnits c ≤ n then charsWithin (n - charUnits c) cs + 1 else 0

/-- The place of a line and column, counted in characters. Past the last line it is the end of
the text, and past the end of a line it is the start of the next. -/
def charIndex (cs : List Char) (p : LineColumn) : Nat :=
  match skipBreaks p.line 0 cs with
  | none => cs.length
  | some (start, rest) => start + charsWithin p.column (brokenLine rest)

/-- Puts `new` in the place of the characters from `start` to `stop`. -/
def splice (cs : List Char) (start stop : Nat) (new : List Char) : List Char :=
  cs.take start ++ new ++ cs.drop (max start stop)

end Text

/-- A change puts a text in the place of a range, or of everything. -/
structure Change where
  range : Option (Text.LineColumn × Text.LineColumn)
  text : String

structure Document where
  text : String
  version : Int
  deriving DecidableEq, Repr

namespace Change

def apply (c : Change) (text : String) : String :=
  match c.range with
  | none => c.text
  | some (start, stop) =>
      let cs := text.toList
      String.ofList
        (Text.splice cs (Text.charIndex cs start) (Text.charIndex cs stop) c.text.toList)

end Change

namespace Document

/-- Changes are made one after another, and the version is taken as it is told. -/
def change (d : Document) (changes : List Change) (version : Int) : Document :=
  ⟨changes.foldl (fun text c => c.apply text) d.text, version⟩

end Document

end LanguageService
