import LanguageService.Uri.Percent
import LanguageService.Uri.Reference
import LanguageService.Uri.Scheme

namespace LanguageService.Uri

def isDrive : List Char → Bool
  | [c, d] => isLetter c && (d == ':' || d == '|')
  | _ => false

/-- Whether a segment is a drive, perhaps with a backslash after it. -/
def startsAsDrive (segment : List Char) : Bool :=
  isDrive (segment.take 2) && (segment.length == 2 || segment[2]? == some '\\')

def isDot (segment : List Char) : Bool :=
  segment == ['.'] || segment == ['%', '2', 'e'] || segment == ['%', '2', 'E']

def isDoubleDot (segment : List Char) : Bool :=
  ["..", "%2e%2e", "%2e%2E", "%2E%2e", "%2E%2E", "%2e.", "%2E.", ".%2e", ".%2E"].any
    fun s => segment == s.toList

/-- The segments of a path as far as it is read, from the last on, and whether the first of them
was found to be a drive. -/
structure Trail where
  segments : List (List Char)
  onDrive : Bool

namespace Trail

def start : Trail := ⟨[], false⟩

def push (t : Trail) (segment : List Char) : Trail := { t with segments := segment :: t.segments }

def leave (t : Trail) : Trail :=
  match t.segments with
  | [] => t
  | s :: ss => if startsAsDrive s then t else { t with segments := ss }

/-- A drive that a tab or a line end divides from what follows it. -/
def brokenDrive? (segment : List Char) : Option (List Char × List Char) :=
  let (drive, rest) := cut ['\t', '\n', '\r'] segment
  match drive with
  | [c, ':'] => if isLetter c && !(shown rest).isEmpty then some (drive, shown rest) else none
  | [c] =>
      match cut ['\t', '\n', '\r'] (rest.dropWhile isIgnored) with
      | ([':'], rest) =>
          if isLetter c && !(shown rest).isEmpty then some ([c, ':'], shown rest) else none
      | _ => none
  | _ => none

/-- Adds a segment. Dots are followed, and a path that ends in them ends in a slash. A drive at
the start of a file's path is written with a colon. -/
def add (k : SchemeKind) (t : Trail) (raw : List Char) (more : Bool) : Trail :=
  let segment := encode pathSet (shown raw)
  let atStart := k = .file ∧ t.segments.isEmpty
  match if atStart then brokenDrive? (raw.dropWhile isIgnored) else none with
  | some (drive, rest) => (t.push drive).push (encode pathSet rest)
  | none =>
      if isDoubleDot segment then
        if more then t.leave else t.leave.push []
      else if isDot segment then
        if more then t else t.push []
      else if atStart ∧ isDrive segment then ⟨[segment.take 1 ++ [':']], true⟩
      else t.push segment

def addAll (k : SchemeKind) (t : Trail) : List (List Char) → Trail
  | [] => t
  | [raw] => t.add k raw false
  | raw :: rest => addAll k (t.add k raw true) rest

end Trail

def splitSegments (k : SchemeKind) : List Char → List (List Char)
  | [] => [[]]
  | c :: cs =>
      match splitSegments k cs with
      | [] => [[c]]
      | w :: ws => if isSlash k c then [] :: w :: ws else (c :: w) :: ws

def dropEmpty : List (List Char) → List (List Char)
  | [] :: s :: ss => dropEmpty (s :: ss)
  | ss => ss

structure Rooted where
  text : String
  onDrive : Bool

/-- The path that follows a slash. That of a file starts with no empty segments. -/
def rooted (k : SchemeKind) (cs : List Char) : Rooted :=
  let t := Trail.start.addAll k (splitSegments k cs)
  let ss := t.segments.reverse
  ⟨String.ofList ((if k = .file then dropEmpty ss else ss).flatMap ('/' :: ·)), t.onDrive⟩

def withoutSlash (k : SchemeKind) : List Char → List Char
  | [] => []
  | c :: cs => if isSlash k c then cs else c :: cs

end LanguageService.Uri
