import LanguageService.Uri.Address

namespace LanguageService.Uri

def isLetter (c : Char) : Bool := ('a' ≤ c && c ≤ 'z') || ('A' ≤ c && c ≤ 'Z')

def isUnreserved (c : Char) : Bool :=
  isLetter c || isDigit c || ['-', '.', '_', '~'].contains c

def isSubDelim (c : Char) : Bool :=
  ['!', '$', '&', '\'', '(', ')', '*', '+', ',', ';', '='].contains c

def isRegName (c : Char) : Bool := isUnreserved c || isSubDelim c

def isUserinfo (c : Char) : Bool := isRegName c || c == ':'

def isPathChar (c : Char) : Bool := isUserinfo c || c == '@' || c == '/'

def isQueryChar (c : Char) : Bool := isPathChar c || c == '?'

def allEncoded (allowed : Char → Bool) : List Char → Bool
  | [] => true
  | '%' :: a :: b :: cs => isHex a && isHex b && allEncoded allowed cs
  | c :: cs => c != '%' && allowed c && allEncoded allowed cs

def isSchemeName : List Char → Bool
  | [] => false
  | c :: cs => isLetter c && cs.all fun x => isLetter x || isDigit x || ['+', '-', '.'].contains x

def isPort : List Char → Bool
  | [] => true
  | ':' :: cs => cs.all isDigit
  | _ => false

def isHostPort (cs : List Char) : Bool :=
  match cs with
  | '[' :: rest =>
      let (address, after) := cut [']'] rest
      !after.isEmpty && (ipv6? address).isSome && isPort (after.drop 1)
  | _ =>
      let (host, port) := cut [':'] cs
      allEncoded isRegName host && isPort port

def isAuthority (cs : List Char) : Bool :=
  let (user, rest) := cut ['@'] cs
  match rest with
  | [] => isHostPort user
  | _ :: host => allEncoded isUserinfo user && isHostPort host

def isHierarchy : List Char → Bool
  | '/' :: '/' :: cs =>
      let (authority, path) := cut ['/'] cs
      isAuthority authority && allEncoded isPathChar path
  | path => allEncoded isPathChar path

def isTail (cs : List Char) : Bool := allEncoded isQueryChar (cs.drop 1)

/-- A URI, or a reference relative to one. The first segment of the latter has no colon. -/
def isReference (text : String) : Bool :=
  let (front, fragment) := cut ['#'] text.toList
  let (front, query) := cut ['?'] front
  let (scheme, rest) := cut [':', '/'] front
  isTail fragment && isTail query &&
    match rest with
    | ':' :: hierarchy => isSchemeName scheme && isHierarchy hierarchy
    | _ => isHierarchy front

end LanguageService.Uri
