namespace LanguageService

abbrev Bytes := List UInt8

namespace Utf8

def encode (cs : List Char) : Bytes := cs.flatMap String.utf8EncodeChar

def ofString (s : String) : Bytes := encode s.toList

def isTail (b : Nat) : Bool := 0x80 ≤ b && b ≤ 0xBF

/-- The character at the head of the bytes and how many bytes it takes, or how many bytes to
give up where no character can start. -/
def first (b : Nat) (rest : List Nat) : Option Char × Nat :=
  if b < 0x80 then (some (Char.ofNat b), 1)
  else if 0xC2 ≤ b ∧ b ≤ 0xDF then
    match rest with
    | c :: _ =>
        if isTail c then (some (Char.ofNat ((b - 0xC0) * 64 + (c - 0x80))), 2) else (none, 1)
    | [] => (none, 1)
  else if 0xE0 ≤ b ∧ b ≤ 0xEF then
    let low := if b = 0xE0 then 0xA0 else 0x80
    let high := if b = 0xED then 0x9F else 0xBF
    match rest with
    | c :: d :: _ =>
        if low ≤ c ∧ c ≤ high then
          if isTail d then
            (some (Char.ofNat (((b - 0xE0) * 64 + (c - 0x80)) * 64 + (d - 0x80))), 3)
          else (none, 2)
        else (none, 1)
    | [c] => (none, if low ≤ c ∧ c ≤ high then 2 else 1)
    | [] => (none, 1)
  else if 0xF0 ≤ b ∧ b ≤ 0xF4 then
    let low := if b = 0xF0 then 0x90 else 0x80
    let high := if b = 0xF4 then 0x8F else 0xBF
    match rest with
    | c :: d :: e :: _ =>
        if low ≤ c ∧ c ≤ high then
          if isTail d then
            if isTail e then
              (some (Char.ofNat
                ((((b - 0xF0) * 64 + (c - 0x80)) * 64 + (d - 0x80)) * 64 + (e - 0x80))), 4)
            else (none, 3)
          else (none, 2)
        else (none, 1)
    | [c, d] => (none, if low ≤ c ∧ c ≤ high then if isTail d then 3 else 2 else 1)
    | [c] => (none, if low ≤ c ∧ c ≤ high then 2 else 1)
    | [] => (none, 1)
  else (none, 1)

def decodeFrom : Nat → List Nat → List (Option Char)
  | _, [] => []
  | n + 1, _ :: bs => decodeFrom n bs
  | 0, b :: bs =>
      let (c, n) := first b bs
      c :: decodeFrom (n - 1) bs

def units (bs : Bytes) : List (Option Char) := decodeFrom 0 (bs.map (·.toNat))

def allSome : List (Option Char) → Option (List Char)
  | [] => some []
  | none :: _ => none
  | some c :: cs => (allSome cs).map (c :: ·)

def decode? (bs : Bytes) : Option String := (allSome (units bs)).map String.ofList

def decodeLossy (bs : Bytes) : String :=
  String.ofList ((units bs).map (·.getD '\ufffd'))

end Utf8

end LanguageService
