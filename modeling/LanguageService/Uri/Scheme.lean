namespace LanguageService.Uri

inductive SchemeKind where
  | file
  | web (port : Nat)
  | other
  deriving DecidableEq, Repr

namespace SchemeKind

def ofName : String → SchemeKind
  | "file" => file
  | "http" => web 80
  | "https" => web 443
  | "ws" => web 80
  | "wss" => web 443
  | "ftp" => web 21
  | _ => other

def isSpecial : SchemeKind → Bool
  | file => true
  | web _ => true
  | other => false

end SchemeKind

def isSlash (k : SchemeKind) (c : Char) : Bool := c == '/' || (k.isSpecial && c == '\\')

def isSlashOrBackslash (c : Char) : Bool := c == '/' || c == '\\'

def isIgnored (c : Char) : Bool := c == '\t' || c == '\n' || c == '\r'

def shown (cs : List Char) : List Char := cs.filter (!isIgnored ·)

end LanguageService.Uri
