import LanguageService.Utf8

namespace LanguageService

abbrev Path := Bytes

namespace Path

def slash : UInt8 := 47

def dot : UInt8 := 46

def ofString (s : String) : Path := Utf8.ofString s

def display (p : Path) : String := Utf8.decodeLossy p

def split : Bytes → List Bytes
  | [] => [[]]
  | b :: bs =>
      match split bs with
      | [] => [[b]]
      | w :: ws => if b = slash then [] :: w :: ws else (b :: w) :: ws

structure Parts where
  absolute : Bool
  names : List Bytes
  deriving DecidableEq, Repr

/-- Empty names and single dots mean nothing, but for a dot at the start of a relative path. -/
def parts (p : Path) : Parts :=
  let absolute := p.head? == some slash
  let names := (split p).filter fun n => !n.isEmpty && n != [dot]
  let leading := !absolute && (split p).head? == some [dot]
  ⟨absolute, if leading then [dot] :: names else names⟩

def ofNames (names : List Bytes) : Path :=
  if names.isEmpty then [slash] else names.flatMap (slash :: ·)

def ofParts (ps : Parts) : Path :=
  if ps.absolute then ofNames ps.names else (ofNames ps.names).tail

def join (p : Path) (name : Bytes) : Path :=
  if p.isEmpty || p.getLast? == some slash then p ++ name else p ++ slash :: name

def startsWith (p root : Path) : Bool :=
  (parts p).absolute == (parts root).absolute && (parts root).names.isPrefixOf (parts p).names

def fileName? (p : Path) : Option Bytes :=
  match (parts p).names.getLast? with
  | some n => if n == [dot, dot] || n == [dot] then none else some n
  | none => none

/-- A name before and after its last dot. A dot at the start divides nothing. -/
def divide (name : Bytes) : Bytes × Option Bytes :=
  let after := name.reverse.takeWhile (· != dot)
  let before := (name.reverse.dropWhile (· != dot)).drop 1
  if after.length = name.length || before.isEmpty then (name, none)
  else (before.reverse, some after.reverse)

def stem? (p : Path) : Option Bytes := (fileName? p).map fun n => (divide n).1

def Parts.front (ps : Parts) (count : Nat) : Path :=
  ofParts { ps with names := ps.names.take count }

def findAbove? (p : Path) (f : Path → Bool) : Option Path :=
  let ps := parts p
  (List.range ps.names.length).reverse.findSome? fun n =>
    let dir := ps.front n
    if f dir then some dir else none

def namesLt : List Bytes → List Bytes → Bool
  | [], [] => false
  | [], _ :: _ => true
  | _ :: _, [] => false
  | a :: as, b :: bs => a < b || (a == b && namesLt as bs)

def le (p q : Path) : Bool := !namesLt (parts q).names (parts p).names

end Path

end LanguageService
