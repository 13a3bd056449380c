import LanguageService.Uri.Percent

namespace LanguageService.Uri

def splitOn (sep : Char) : List Char → List (List Char)
  | [] => [[]]
  | c :: cs =>
      match splitOn sep cs with
      | [] => [[c]]
      | w :: ws => if c = sep then [] :: w :: ws else (c :: w) :: ws

def cut (marks : List Char) (cs : List Char) : List Char × List Char :=
  (cs.takeWhile (!marks.contains ·), cs.dropWhile (!marks.contains ·))

def isDigit (c : Char) : Bool := '0' ≤ c && c ≤ '9'

def digitValue? (base : Nat) (c : Char) : Option Nat :=
  (hexValue? c).bind fun n => if n < base then some n else none

def readDigits (base : Nat) : Nat → List Char → Option Nat
  | n, [] => some n
  | n, c :: cs => (digitValue? base c).bind fun d => readDigits base (n * base + d) cs

/-- A number in the notation its start shows: hexadecimal, octal or decimal. -/
def readNumber : List Char → Option Nat
  | [] => none
  | '0' :: 'x' :: cs => readDigits 16 0 cs
  | '0' :: 'X' :: cs => readDigits 16 0 cs
  | ['0'] => some 0
  | '0' :: cs => readDigits 8 0 cs
  | cs => readDigits 10 0 cs

def withoutLastEmpty (parts : List (List Char)) : List (List Char) :=
  if parts.length > 1 && parts.getLast? == some [] then parts.dropLast else parts

def endsInNumber (host : List Char) : Bool :=
  match (withoutLastEmpty (splitOn '.' host)).getLast? with
  | some [] => false
  | some last => last.all isDigit || (match last with
      | '0' :: 'x' :: cs => cs.all isHex
      | '0' :: 'X' :: cs => cs.all isHex
      | _ => false)
  | none => false

def readNumbers : List (List Char) → Option (List Nat)
  | [] => some []
  | p :: ps => (readNumber p).bind fun n => (readNumbers ps).map (n :: ·)

def ipv4? (host : List Char) : Option Nat := do
  let numbers ← readNumbers (withoutLastEmpty (splitOn '.' host))
  let last ← numbers.getLast?
  let front := numbers.dropLast
  if numbers.length > 4 || front.any (· > 255) || last ≥ Nat.pow 256 (5 - numbers.length) then none
  else
    return front.zipIdx.foldl (fun sum (n, i) => sum + n * Nat.pow 256 (3 - i)) last

def ipv4Text (n : Nat) : String :=
  ".".intercalate ([n / 16777216, n / 65536 % 256, n / 256 % 256, n % 256].map toString)

def group? (cs : List Char) : Option Nat :=
  if cs.isEmpty || cs.length > 4 then none else readDigits 16 0 cs

def octet? (cs : List Char) : Option Nat :=
  if cs.isEmpty || cs.length > 3 || (cs.length > 1 && cs.head? == some '0') then none
  else (readDigits 10 0 cs).bind fun n => if n ≤ 255 then some n else none

/-- Groups between single colons, of which the last two may be written as four bytes. -/
def groups? (tailAllowed : Bool) : List (List Char) → Option (List Nat)
  | [] => some []
  | [g] =>
      if tailAllowed && g.contains '.' then
        match (splitOn '.' g).mapM octet? with
        | some [a, b, c, d] => some [a * 256 + b, c * 256 + d]
        | _ => none
      else (group? g).map ([·])
  | g :: gs => (group? g).bind fun n => (groups? tailAllowed gs).map (n :: ·)

def doubleColon : List Char → Option (List Char × List Char)
  | [] => none
  | ':' :: ':' :: cs => some ([], cs)
  | c :: cs => (doubleColon cs).map fun (a, b) => (c :: a, b)

def side? (tailAllowed : Bool) (cs : List Char) : Option (List Nat) :=
  if cs.isEmpty then some [] else groups? tailAllowed (splitOn ':' cs)

def ipv6? (host : List Char) : Option (List Nat) :=
  match doubleColon host with
  | none => (groups? true (splitOn ':' host)).bind fun gs => if gs.length = 8 then some gs else none
  | some (a, b) => do
      let front ← side? false a
      let back ← side? true b
      if front.length + back.length > 7 then none
      else return front ++ List.replicate (8 - front.length - back.length) 0 ++ back

def hexText (n : Nat) : List Char := Nat.toDigits 16 n

def zeroRuns : List Nat → List Nat
  | [] => []
  | g :: gs =>
      let runs := zeroRuns gs
      (if g = 0 then runs.headD 0 + 1 else 0) :: runs

/-- The longest run of at least two zeros is left out, the first of equally long ones. -/
def ipv6Text (groups : List Nat) : String :=
  let runs := zeroRuns groups
  let longest := runs.foldl max 0
  let text (gs : List Nat) := ":".intercalate (gs.map fun g => String.ofList (hexText g))
  if longest < 2 then text groups
  else
    let start := runs.idxOf longest
    text (groups.take start) ++ "::" ++ text (groups.drop (start + longest))

end LanguageService.Uri
