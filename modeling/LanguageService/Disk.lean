import LanguageService.Path

/-!
The files and directories that the service can read, and the links between them. Devices and pipes
are left out, and so is the current directory: a relative path leads nowhere.
-/
namespace LanguageService

inductive DiskEntry where
  | file (content : Bytes)
  | dir
  | link (target : Path)

/-- Files, directories and links by the names on the way to them. What lies above an entry is a
directory. -/
structure Disk where
  entries : List (List Bytes × DiskEntry)

inductive DiskError where
  | notFound
  | notDirectory
  | isDirectory
  | nameTooLong
  | tooManyLinks
  | nulByte
  | notText
  deriving DecidableEq, Repr

def DiskError.message : DiskError → String
  | notFound => "No such file or directory (os error 2)"
  | notDirectory => "Not a directory (os error 20)"
  | isDirectory => "Is a directory (os error 21)"
  | nameTooLong => "File name too long (os error 36)"
  | tooManyLinks => "Too many levels of symbolic links (os error 40)"
  | nulByte => "file name contained an unexpected NUL byte"
  | notText => "stream did not contain valid UTF-8"

namespace Disk

def empty : Disk := ⟨[]⟩

def entry? (d : Disk) (names : List Bytes) : Option DiskEntry :=
  if names.isEmpty then some .dir
  else
    match d.entries.find? (fun e => e.1 == names) with
    | some e => some e.2
    | none => if d.entries.any (fun e => names.isPrefixOf e.1) then some .dir else none

def origin (here : List Bytes) (target : Path) : List Bytes :=
  if target.head? == some Path.slash then [] else here

/-- Goes down from the directory at `here`, which is known by its own names. Where a link comes up,
`follow` goes on from where its target starts, with the rest of the way after it. -/
def walk (d : Disk) (follow : List Bytes → List Bytes → Except DiskError (List Bytes))
    (here : List Bytes) : List Bytes → Except DiskError (List Bytes)
  | [] => .ok here
  | n :: rest =>
      match d.entry? here with
      | some .dir =>
          if n.isEmpty || n == [Path.dot] then d.walk follow here rest
          else if n == [Path.dot, Path.dot] then d.walk follow here.dropLast rest
          else if 255 < n.length then .error .nameTooLong
          else
            match d.entry? (here ++ [n]) with
            | some (.link target) =>
                if target.contains 0 then .error .nulByte
                else follow (origin here target) (Path.split target ++ rest)
            | some _ => d.walk follow (here ++ [n]) rest
            | none => .error .notFound
      | some _ => .error .notDirectory
      | none => .error .notFound

def descend (d : Disk) : Nat → List Bytes → List Bytes → Except DiskError (List Bytes)
  | 0 => d.walk fun _ _ => .error .tooManyLinks
  | links + 1 => d.walk (d.descend links)

def maxLinks : Nat := 40

/-- The names to what a path leads to, with no link on the way. -/
def resolve (d : Disk) (p : Path) : Except DiskError (List Bytes) :=
  if p.contains 0 then .error .nulByte
  else
    match Path.split p with
    | [] :: rest => if rest.isEmpty then .error .notFound else d.descend maxLinks [] rest
    | _ => .error .notFound

def reach (d : Disk) (p : Path) : Except DiskError (List Bytes) :=
  if !p.contains 0 && 4096 ≤ p.length then .error .nameTooLong else d.resolve p

def canonical? (d : Disk) (p : Path) : Option Path :=
  match d.resolve p with
  | .ok names => some (Path.ofNames names)
  | .error _ => none

/-- The canonical form of a path that leads somewhere, and any other path as it is. -/
def canonicalize (d : Disk) (p : Path) : Path := (d.canonical? p).getD p

def isDir (d : Disk) (p : Path) : Bool :=
  match d.reach p with
  | .ok names =>
      match d.entry? names with
      | some .dir => true
      | _ => false
  | .error _ => false

def isFile (d : Disk) (p : Path) : Bool :=
  match d.reach p with
  | .ok names =>
      match d.entry? names with
      | some (.file _) => true
      | _ => false
  | .error _ => false

def readText (d : Disk) (p : Path) : Except DiskError String := do
  let names ← d.reach p
  match d.entry? names with
  | some .dir => .error .isDirectory
  | some (.file content) =>
      match Utf8.decode? content with
      | some s => .ok s
      | none => .error .notText
  | _ => .error .notFound

def list (d : Disk) (names : List Bytes) : List Bytes :=
  (d.entries.filterMap fun e =>
    if names.isPrefixOf e.1 then (e.1.drop names.length).head? else none).eraseDups

end Disk

end LanguageService
