import LanguageService.Utf8

namespace LanguageService.Uri

def hexDigit (n : Nat) : Char := if n < 10 then Char.ofNat (48 + n) else Char.ofNat (55 + n)

def hexValue? (c : Char) : Option Nat :=
  if '0' ≤ c ∧ c ≤ '9' then some (c.toNat - 48)
  else if 'a' ≤ c ∧ c ≤ 'f' then some (c.toNat - 87)
  else if 'A' ≤ c ∧ c ≤ 'F' then some (c.toNat - 55)
  else none

def isHex (c : Char) : Bool := (hexValue? c).isSome

def encodeByte (b : UInt8) : List Char := ['%', hexDigit (b.toNat / 16), hexDigit (b.toNat % 16)]

def isControl (c : Char) : Bool := c.toNat < 0x20 || 0x7F ≤ c.toNat

def fragmentSet (c : Char) : Bool := isControl c || [' ', '"', '<', '>', '`'].contains c

def querySet (c : Char) : Bool := isControl c || [' ', '"', '#', '<', '>'].contains c

def specialQuerySet (c : Char) : Bool := querySet c || c == '\''

def pathSet (c : Char) : Bool := fragmentSet c || ['#', '?', '\x7b', '\x7d'].contains c

def segmentSet (c : Char) : Bool := pathSet c || ['/', '%', '\\'].contains c

def userinfoSet (c : Char) : Bool :=
  pathSet c || ['/', ':', ';', '=', '@', '[', '\\', ']', '^', '|'].contains c

def encodeChar (set : Char → Bool) (c : Char) : List Char :=
  if set c then (String.utf8EncodeChar c).flatMap encodeByte else [c]

def encode (set : Char → Bool) (cs : List Char) : List Char := cs.flatMap (encodeChar set)

def encodeName (name : Bytes) : List Char :=
  name.flatMap fun b =>
    let c := Char.ofNat b.toNat
    if segmentSet c then encodeByte b else [c]

def decode : List Char → Bytes
  | [] => []
  | '%' :: a :: b :: cs =>
      match hexValue? a, hexValue? b with
      | some m, some n => UInt8.ofNat (m * 16 + n) :: decode cs
      | _, _ => 37 :: decode (a :: b :: cs)
  | c :: cs => String.utf8EncodeChar c ++ decode cs

end LanguageService.Uri
