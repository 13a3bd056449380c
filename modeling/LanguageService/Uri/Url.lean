import LanguageService.Path
import LanguageService.Uri.Authority
import LanguageService.Uri.Trail

namespace LanguageService.Uri

structure Url where
  scheme : String
  authority : Option String
  host : String
  path : String
  query : Option String
  fragment : Option String
  deriving DecidableEq, Repr

namespace Url

/-- Two slashes at the start of a path are kept apart from those of an authority. -/
def toString (u : Url) : String :=
  u.scheme ++ ":" ++
    (match u.authority with
      | some a => "//" ++ a
      | none => if u.path.startsWith "//" then "/." else "") ++
    u.path ++
    ((u.query.map ("?" ++ ·)).getD "") ++ ((u.fragment.map ("#" ++ ·)).getD "")

def isPlain (u : Url) : Bool := u.authority.isNone && !u.path.startsWith "/"

def queryText (k : SchemeKind) : List Char → Option String
  | '?' :: cs =>
      some (String.ofList (encode (if k.isSpecial then specialQuerySet else querySet) (shown cs)))
  | _ => none

def fragmentText : List Char → Option String
  | '#' :: cs => some (String.ofList (encode fragmentSet (shown cs)))
  | _ => none

def withAuthority? (scheme : String) (k : SchemeKind) (cs query fragment : List Char) :
    Option Url := do
  let (front, rest) := cutAuthority k cs
  let followed := !(rest.isEmpty && query.isEmpty && fragment.isEmpty)
  let a ← authority? k (shown front) followed
  let rest := a.rest ++ rest
  let path := if rest.isEmpty && !k.isSpecial then "" else (rooted k (withoutSlash k rest)).text
  return ⟨scheme, some a.text, a.host, path, queryText k query, fragmentText fragment⟩

def fileHost? (cs : List Char) : Option String :=
  if cs.isEmpty then some ""
  else (domain? cs).map fun h => if h = "localhost" then "" else h

/-- A path that starts with a drive leaves no room for a host. -/
def fileUrl (host : String) (path : Rooted) (query fragment : List Char) : Url :=
  let host := if path.onDrive then "" else host
  ⟨"file", some host, host, path.text, queryText .file query, fragmentText fragment⟩

/-- What follows the first character that is not ignored, if that is a slash. -/
def afterSlash? (cs : List Char) : Option (List Char) :=
  match cs.dropWhile isIgnored with
  | c :: rest => if isSlashOrBackslash c then some rest else none
  | [] => none

def file? (cs query fragment : List Char) : Option Url :=
  match (afterSlash? cs).bind afterSlash?, afterSlash? cs with
  | some rest, _ => do
      let (front, path) := cutAuthority .file rest
      if isDrive (shown front) then return fileUrl "" (rooted .file rest) query fragment
      else
        let host ← fileHost? (shown front)
        let path := if host = "" then path else withoutSlash .file path
        return fileUrl host (rooted .file path) query fragment
  | none, some rest => some (fileUrl "" (rooted .file rest) query fragment)
  | none, none => some (fileUrl "" (rooted .file cs) query fragment)

def other? (scheme : String) (cs query fragment : List Char) : Option Url :=
  match shown cs with
  | '/' :: '/' :: rest => withAuthority? scheme .other rest query fragment
  | '/' :: rest =>
      some ⟨scheme, none, "", (rooted .other rest).text, queryText .other query,
        fragmentText fragment⟩
  | rest =>
      some ⟨scheme, none, "", String.ofList (encode isControl rest), queryText .other query,
        fragmentText fragment⟩

def isEdge (c : Char) : Bool := c.toNat ≤ 0x20

def trim (text : String) : List Char :=
  ((text.toList.dropWhile isEdge).reverse.dropWhile isEdge).reverse

/-- Reads a URL, in which tabs and line ends are not seen. A text without a scheme is none. -/
def parse? (text : String) : Option Url :=
  let (front, fragment) := cut ['#'] (trim text)
  let (front, query) := cut ['?'] front
  let (name, rest) := cut [':'] front
  match rest with
  | ':' :: cs =>
      if isSchemeName (shown name) then
        let scheme := String.ofList ((shown name).map Char.toLower)
        match SchemeKind.ofName scheme with
        | .file => file? cs query fragment
        | .web p =>
            withAuthority? scheme (.web p) ((shown cs).dropWhile isSlashOrBackslash) query fragment
        | .other => other? scheme cs query fragment
      else none
  | _ => none

/-- The path on this machine that a file URL speaks of. A drive at its end takes a slash. -/
def filePath? (u : Url) : Option Path :=
  if u.scheme = "file" ∧ u.host = "" then
    let p := decode u.path.toList
    match p.reverse with
    | b :: a :: _ :: _ =>
        let letter := (65 ≤ a && a ≤ 90) || (97 ≤ a && a ≤ 122)
        some (if letter && (b == 58 || b == 124) then p ++ [Path.slash] else p)
    | _ => some p
  else none

end Url

end LanguageService.Uri
