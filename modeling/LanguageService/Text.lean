/-!
Texts as lists of characters, measured in UTF-8 bytes and in UTF-16 units, and the
line and column of a byte offset. Lines end at a line feed.
-/
namespace LanguageService.Text

def bytes : List Char → Nat
  | [] => 0
  | c :: cs => c.utf8Size + bytes cs

@[simp]
theorem bytes_append (s t : List Char) : bytes (s ++ t) = bytes s + bytes t := by
  induction s with
  | nil => simp [bytes]
  | cons c cs ih => simp [bytes, ih, Nat.add_assoc]

def charUnits (c : Char) : Nat :=
  if c.val < 0x10000 then 1 else 2

theorem charUnits_pos (c : Char) : 0 < charUnits c := by
  unfold charUnits
  split <;> decide

def units : List Char → Nat
  | [] => 0
  | c :: cs => charUnits c + units cs

@[simp]
theorem units_append (s t : List Char) : units (s ++ t) = units s + units t := by
  induction s with
  | nil => simp [units]
  | cons c cs ih => simp [units, ih, Nat.add_assoc]

/-- What follows the first `n` bytes, if a character starts or the text ends there. -/
def dropBytes : Nat → List Char → Option (List Char)
  | 0, cs => some cs
  | _ + 1, [] => none
  | n + 1, c :: cs => if c.utf8Size ≤ n + 1 then dropBytes (n + 1 - c.utf8Size) cs else none

/-- The first `n` bytes, if a character starts or the text ends after them. -/
def takeBytes : Nat → List Char → Option (List Char)
  | 0, _ => some []
  | _ + 1, [] => none
  | n + 1, c :: cs =>
      if c.utf8Size ≤ n + 1 then (takeBytes (n + 1 - c.utf8Size) cs).map (c :: ·) else none

def slice (start stop : Nat) (cs : List Char) : Option (List Char) :=
  if start ≤ stop then (dropBytes start cs).bind (takeBytes (stop - start)) else none

structure LineColumn where
  line : Nat
  column : Nat
  deriving DecidableEq, Repr

namespace LineColumn

def origin : LineColumn := ⟨0, 0⟩

def advance (p : LineColumn) (c : Char) : LineColumn :=
  if c = '\n' then ⟨p.line + 1, 0⟩ else ⟨p.line, p.column + charUnits c⟩

def lt (p q : LineColumn) : Bool :=
  p.line < q.line || (p.line == q.line && p.column < q.column)

end LineColumn

def lineColumnFrom (p : LineColumn) : Nat → List Char → LineColumn
  | _, [] => p
  | n, c :: cs =>
      if c.utf8Size ≤ n then lineColumnFrom (p.advance c) (n - c.utf8Size) cs else p

/-- The position of an offset. An offset inside a character counts as the start of the
character, and one past the end as the end. -/
def lineColumn (cs : List Char) (offset : Nat) : LineColumn :=
  lineColumnFrom .origin offset cs

def lineCount (cs : List Char) : Nat :=
  cs.count '\n' + 1

/-- The offset at which line `n` starts, counted from `start`, and the text from there. -/
def skipLines : Nat → Nat → List Char → Option (Nat × List Char)
  | 0, start, cs => some (start, cs)
  | _ + 1, _, [] => none
  | n + 1, start, c :: cs =>
      if c = '\n' then skipLines n (start + c.utf8Size) cs
      else skipLines (n + 1) (start + c.utf8Size) cs

def dropReturn (line : List Char) : List Char :=
  if line.getLast? = some '\r' then line.dropLast else line

def columnBytes : Nat → List Char → Nat
  | 0, _ => 0
  | _ + 1, [] => 0
  | n + 1, c :: cs => c.utf8Size + columnBytes (n + 1 - charUnits c) cs

/-- The offset of a position. A column past the line is its end, before a carriage return. -/
def offset (cs : List Char) (p : LineColumn) : Option Nat :=
  (skipLines p.line 0 cs).map fun (start, rest) =>
    start + columnBytes p.column (dropReturn (rest.takeWhile (· ≠ '\n')))

end LanguageService.Text
