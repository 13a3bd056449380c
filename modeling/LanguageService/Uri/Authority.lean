import LanguageService.Uri.Domain
import LanguageService.Uri.Reference
import LanguageService.Uri.Scheme

namespace LanguageService.Uri

def isForbiddenInHost (c : Char) : Bool :=
  ['\x00', '\t', '\n', '\r', ' ', '#', '/', ':', '<', '>', '?', '@', '[', '\\', ']', '^',
    '|'].contains c

def isForbiddenInDomain (c : Char) : Bool :=
  isForbiddenInHost c || c.toNat ≤ 0x1F || c == '%' || c.toNat == 0x7F

def address? (cs : List Char) : Option String :=
  match cs with
  | '[' :: rest =>
      if rest.getLast? == some ']' then
        (ipv6? rest.dropLast).map fun gs => "[" ++ ipv6Text gs ++ "]"
      else none
  | _ => none

def domain? (cs : List Char) : Option String :=
  if cs.head? == some '[' then address? cs
  else do
    let text ← Utf8.decode? (decode cs)
    let name ← Domain.toAscii? text.toList
    if name.isEmpty || name.any isForbiddenInDomain then none
    else if endsInNumber name then (ipv4? name).map ipv4Text
    else return String.ofList name

def plainHost? (cs : List Char) : Option String :=
  if cs.head? == some '[' then address? cs
  else if cs.any isForbiddenInHost then none
  else some (String.ofList (encode isControl cs))

def cutLast (mark : Char) (cs : List Char) : Option (List Char × List Char) :=
  if cs.contains mark then
    let after := cs.reverse.takeWhile (· != mark)
    some (cs.take (cs.length - after.length - 1), after.reverse)
  else none

def userinfoText (cs : List Char) : String :=
  let (user, rest) := cut [':'] cs
  let password := rest.drop 1
  let text := encode userinfoSet user ++
    (if password.isEmpty then [] else ':' :: encode userinfoSet password)
  if text.isEmpty then "" else String.ofList (text ++ ['@'])

/-- A host up to the colon before its port. A colon in brackets is part of the host. -/
def cutPort (inBrackets : Bool) : List Char → List Char × List Char
  | [] => ([], [])
  | c :: cs =>
      if c = ':' ∧ !inBrackets then ([], c :: cs)
      else
        let inside := if c = '[' then true else if c = ']' then false else inBrackets
        let (host, port) := cutPort inside cs
        (c :: host, port)

/-- A port and what follows it, which only a backslash can start. The usual port is not
written. -/
def portText? (k : SchemeKind) : List Char → Option (String × List Char)
  | [] => some ("", [])
  | _ :: cs =>
      let (ds, rest) := cut ['\\'] cs
      if ds.isEmpty then some ("", rest)
      else if ds.all isDigit then
        (readDigits 10 0 ds).bind fun n =>
          if 65535 < n then none
          else if k = .web n then some ("", rest)
          else some (":" ++ Nat.repr n, rest)
      else none

structure Authority where
  text : String
  host : String
  rest : List Char

/-- An authority, after which something stands if `followed`. Only a host can have a user or a
port. -/
def authority? (k : SchemeKind) (cs : List Char) (followed : Bool) : Option Authority := do
  let (user, hostPort) := match cutLast '@' cs with
    | some (u, h) => (some u, h)
    | none => (none, cs)
  let (hostChars, portChars) := cutPort false hostPort
  let userText := (user.map userinfoText).getD ""
  if hostChars.isEmpty &&
      (k.isSpecial || userText != "" || !portChars.isEmpty || (user == some [] && followed)) then
    none
  else
    let host ← if k.isSpecial then domain? hostChars else plainHost? hostChars
    let (port, rest) ← portText? k portChars
    return ⟨userText ++ host ++ port, host, rest⟩

def cutAuthority (k : SchemeKind) (cs : List Char) : List Char × List Char :=
  (cs.takeWhile (!isSlash k ·), cs.dropWhile (!isSlash k ·))

end LanguageService.Uri
