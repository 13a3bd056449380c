namespace LanguageService

inductive Json where
  | null
  | bool (b : Bool)
  | int (n : Int)
  | decimal (text : String)
  | str (s : String)
  | arr (elements : List Json)
  | obj (fields : List (String × Json))
  deriving Repr, Inhabited

namespace Json

instance : Coe String Json := ⟨str⟩

instance : Coe Bool Json := ⟨bool⟩

def nat (n : Nat) : Json := .int (Int.ofNat n)

instance : Coe Nat Json := ⟨nat⟩

def opt {α : Type} (f : α → Json) : Option α → Json
  | none => null
  | some a => f a

def list {α : Type} (f : α → Json) (as : List α) : Json := arr (as.map f)

def isNull : Json → Bool
  | null => true
  | _ => false

/-- The value of a key; of a repeated key, the last one. -/
def get? (key : String) : Json → Option Json
  | obj fields => (fields.reverse.find? (fun f => f.1 == key)).map (·.2)
  | _ => none

def hexDigit (n : Nat) : Char :=
  if n < 10 then Char.ofNat (48 + n) else Char.ofNat (87 + n)

def escape (c : Char) : List Char :=
  if c = '"' then ['\\', '"']
  else if c = '\\' then ['\\', '\\']
  else if c = '\n' then ['\\', 'n']
  else if c = '\r' then ['\\', 'r']
  else if c = '\t' then ['\\', 't']
  else if c.toNat < 0x20 then
    ['\\', 'u', '0', '0', hexDigit (c.toNat / 16), hexDigit (c.toNat % 16)]
  else [c]

def quote (s : String) : String :=
  String.ofList ('"' :: s.toList.flatMap escape ++ ['"'])

mutual

def write (out : String) : Json → String
  | null => out ++ "null"
  | bool true => out ++ "true"
  | bool false => out ++ "false"
  | int n => out ++ toString n
  | decimal t => out ++ t
  | str s => out ++ quote s
  | arr [] => out ++ "[]"
  | arr (e :: es) => writeElements (write (out ++ "[") e) es ++ "]"
  | obj [] => out ++ "\x7b\x7d"
  | obj ((k, v) :: fs) => writeFields (write (out ++ "\x7b" ++ quote k ++ ":") v) fs ++ "\x7d"

def writeElements (out : String) : List Json → String
  | [] => out
  | e :: es => writeElements (write (out ++ ",") e) es

def writeFields (out : String) : List (String × Json) → String
  | [] => out
  | (k, v) :: fs => writeFields (write (out ++ "," ++ quote k ++ ":") v) fs

end

def render (j : Json) : String := write "" j

end Json

end LanguageService
