import LanguageService.Uri.Address

/-!
Tables of characters. A row gives a character or a span of them in hexadecimal: `41-5A` is all of
a span, `100/12E` every second character of it. After an equals sign stands what the row says of
its first character.
-/
namespace LanguageService.Uri.Domain

structure Row where
  first : Nat
  last : Nat
  step : Nat
  value : List Nat
  deriving DecidableEq, Repr

namespace Row

def number (cs : List Char) : Nat := (readDigits 16 0 cs).getD 0

def numbers (cs : List Char) : List Nat :=
  if cs.isEmpty then [] else (splitOn '+' cs).map number

def read (cs : List Char) : Row :=
  let (span, value) := cut ['='] cs
  let (first, last) := cut ['-', '/'] span
  let value := numbers (value.drop 1)
  match last with
  | '-' :: last => ⟨number first, number last, 1, value⟩
  | '/' :: last => ⟨number first, number last, 2, value⟩
  | _ => ⟨number first, number first, 1, value⟩

def holds (r : Row) (c : Char) : Bool :=
  r.first ≤ c.toNat && c.toNat ≤ r.last && (c.toNat - r.first) % r.step == 0

/-- The characters that one stands for. A single one moves along with it. -/
def image (r : Row) (c : Char) : List Char :=
  match r.value with
  | [n] => [Char.ofNat (n + (c.toNat - r.first))]
  | ns => ns.map Char.ofNat

end Row

abbrev CharTable := List Row

namespace CharTable

def ofLines (lines : List String) : CharTable :=
  lines.flatMap fun line => (splitOn ' ' line.toList).map Row.read

def row? (t : CharTable) (c : Char) : Option Row := t.find? (·.holds c)

def holds (t : CharTable) (c : Char) : Bool := t.any (·.holds c)

end CharTable

end LanguageService.Uri.Domain
