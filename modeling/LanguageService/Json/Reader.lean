import LanguageService.Json

namespace LanguageService.Json.Reader

def isBlank (c : Char) : Bool := c == ' ' || c == '\t' || c == '\r' || c == '\n'

def skip (cs : List Char) : List Char := cs.dropWhile isBlank

def isDigit (c : Char) : Bool := '0' ≤ c && c ≤ '9'

def digits (cs : List Char) : Nat :=
  cs.foldl (fun n c => 10 * n + (c.toNat - 48)) 0

def hexValue (c : Char) : Option Nat :=
  if '0' ≤ c ∧ c ≤ '9' then some (c.toNat - 48)
  else if 'a' ≤ c ∧ c ≤ 'f' then some (c.toNat - 87)
  else if 'A' ≤ c ∧ c ≤ 'F' then some (c.toNat - 55)
  else none

def hex4 : List Char → Option (Nat × List Char)
  | a :: b :: c :: d :: rest => do
      let a ← hexValue a
      let b ← hexValue b
      let c ← hexValue c
      let d ← hexValue d
      pure (((a * 16 + b) * 16 + c) * 16 + d, rest)
  | _ => none

def simpleEscape : Char → Option Char
  | '"' => some '"'
  | '\\' => some '\\'
  | '/' => some '/'
  | 'b' => some '\x08'
  | 'f' => some '\x0c'
  | 'n' => some '\n'
  | 'r' => some '\r'
  | 't' => some '\t'
  | _ => none

/-- A character written by its UTF-16 units, after the first `\u`. A unit of a pair that
stands alone is refused. -/
def unitEscape (cs : List Char) : Option (Char × List Char) := do
  let (high, rest) ← hex4 cs
  if 0xDC00 ≤ high ∧ high ≤ 0xDFFF then none
  else if 0xD800 ≤ high ∧ high ≤ 0xDBFF then
    match rest with
    | '\\' :: 'u' :: rest => do
        let (low, rest) ← hex4 rest
        if 0xDC00 ≤ low ∧ low ≤ 0xDFFF then
          pure (Char.ofNat (0x10000 + (high - 0xD800) * 0x400 + (low - 0xDC00)), rest)
        else none
    | _ => none
  else pure (Char.ofNat high, rest)

/-- The rest of a string after its opening quote; `fuel` bounds its characters. -/
def stringFrom : Nat → List Char → List Char → Option (String × List Char)
  | 0, _, _ => none
  | _ + 1, _, [] => none
  | _ + 1, done, '"' :: rest => some (String.ofList done.reverse, rest)
  | fuel + 1, done, '\\' :: 'u' :: rest => do
      let (c, rest) ← unitEscape rest
      stringFrom fuel (c :: done) rest
  | fuel + 1, done, '\\' :: e :: rest => do
      let c ← simpleEscape e
      stringFrom fuel (c :: done) rest
  | fuel + 1, done, c :: rest =>
      if c = '\\' ∨ c.toNat < 0x20 then none else stringFrom fuel (c :: done) rest

/-- An integer that fits 64 bits is one; any other number is kept as written. -/
def number (cs : List Char) : Option (Json × List Char) :=
  let (sign, body) := match cs with
    | '-' :: rest => (['-'], rest)
    | _ => ([], cs)
  let whole := body.takeWhile isDigit
  let rest := body.dropWhile isDigit
  if whole.isEmpty ∨ (whole.head? = some '0' ∧ whole.length ≠ 1) then none
  else
    let (fraction, rest, fractionOk) := match rest with
      | '.' :: r => ('.' :: r.takeWhile isDigit, r.dropWhile isDigit, !(r.takeWhile isDigit).isEmpty)
      | _ => ([], rest, true)
    let (exponent, rest, exponentOk) := match rest with
      | e :: r =>
          if e = 'e' ∨ e = 'E' then
            let (mark, r) := match r with
              | '+' :: r => (['+'], r)
              | '-' :: r => (['-'], r)
              | _ => ([], r)
            (e :: mark ++ r.takeWhile isDigit, r.dropWhile isDigit, !(r.takeWhile isDigit).isEmpty)
          else ([], rest, true)
      | [] => ([], rest, true)
    if !fractionOk || !exponentOk then none
    else
      let asWritten := Json.decimal (String.ofList (sign ++ whole ++ fraction ++ exponent))
      if !fraction.isEmpty || !exponent.isEmpty then some (asWritten, rest)
      else
        let n := digits whole
        if sign.isEmpty then
          some (if n < 0x10000000000000000 then .int n else asWritten, rest)
        else
          some (if 0 < n ∧ n ≤ 0x8000000000000000 then .int (-n) else asWritten, rest)

def word (spelling : String) (j : Json) (cs : List Char) : Option (Json × List Char) :=
  let w := spelling.toList
  if cs.take w.length = w then some (j, cs.drop w.length) else none

mutual

/-- A value at the head of the text. Each step into a value, an element or a field takes one
unit of fuel and at least one character. -/
def value : Nat → List Char → Option (Json × List Char)
  | 0, _ => none
  | fuel + 1, cs =>
      match skip cs with
      | '"' :: rest => (stringFrom (rest.length + 1) [] rest).map fun (s, rest) => (.str s, rest)
      | '[' :: rest =>
          match skip rest with
          | ']' :: rest => some (.arr [], rest)
          | _ => elements fuel [] rest
      | '\x7b' :: rest =>
          match skip rest with
          | '\x7d' :: rest => some (.obj [], rest)
          | _ => fields fuel [] rest
      | 't' :: rest => word "true" (.bool true) ('t' :: rest)
      | 'f' :: rest => word "false" (.bool false) ('f' :: rest)
      | 'n' :: rest => word "null" .null ('n' :: rest)
      | rest => number rest

def elements : Nat → List Json → List Char → Option (Json × List Char)
  | 0, _, _ => none
  | fuel + 1, done, cs => do
      let (e, rest) ← value fuel cs
      match skip rest with
      | ',' :: rest => elements fuel (e :: done) rest
      | ']' :: rest => pure (.arr (e :: done).reverse, rest)
      | _ => none

def fields : Nat → List (String × Json) → List Char → Option (Json × List Char)
  | 0, _, _ => none
  | fuel + 1, done, cs =>
      match skip cs with
      | '"' :: rest => do
          let (key, rest) ← stringFrom (rest.length + 1) [] rest
          match skip rest with
          | ':' :: rest => do
              let (v, rest) ← value fuel rest
              match skip rest with
              | ',' :: rest => fields fuel ((key, v) :: done) rest
              | '\x7d' :: rest => pure (.obj ((key, v) :: done).reverse, rest)
              | _ => none
          | _ => none
      | _ => none

end

end LanguageService.Json.Reader

namespace LanguageService.Json

/-- The value a text stands for, if it is one JSON text and nothing else. -/
def parse? (text : String) : Option Json :=
  let cs := text.toList
  match Reader.value (2 * cs.length + 2) cs with
  | some (j, rest) => if (Reader.skip rest).isEmpty then some j else none
  | none => none

end LanguageService.Json
