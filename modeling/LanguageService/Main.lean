import LanguageService.Cli
import LanguageService.Json.Reader
import LanguageService.Protocol.Wire

/-!
The program: a server on standard input and output. Before each message it looks at the part
of the disk that the message can ask about.
-/
namespace LanguageService.Main

def textOf (names : List Bytes) : String := Path.display (Path.ofNames names)

abbrev Found := List (List Bytes × DiskEntry)

def isLibraryFile (names : List Bytes) : Bool :=
  (names.getLast?.bind fun n => (Path.divide n).2) == some Library.sourceExtension ||
    names.getLast? == some Library.marker

def lookAtFile (found : Found) (names : List Bytes) : IO Found := do
  try
    return (names, .file (← IO.FS.readBinFile (textOf names)).toList) :: found
  catch _ => return found

/-- Adds the library files in a directory, or the file itself, and what links lead to. -/
partial def look (found : Found) (names : List Bytes) : IO Found := do
  if found.any (·.1 == names) then return found
  try
    let place ← IO.FS.realPath (textOf names)
    let real := (Path.parts (Path.ofString place.toString)).names
    if real != names then
      look ((names, .link (Path.ofString place.toString)) :: found) real
    else if ← place.isDir then
      let mut found := (names, .dir) :: found
      for e in ← place.readDir do
        found ← look found (names ++ [Utf8.ofString e.fileName])
      return found
    else if isLibraryFile names then lookAtFile found names
    else return found
  catch _ => return found

def lookAround (found : Found) (p : Path) : IO Found := do
  let names := p.parts.names
  let mut found := found
  for n in (List.range names.length) do
    let dir := names.take n
    let marked ← look found (dir ++ [Library.marker])
    if marked.length > found.length then
      found ← look marked dir
  if found.any (·.1 == names) then return found
  try
    let place ← IO.FS.realPath (textOf names)
    let real := (Path.parts (Path.ofString place.toString)).names
    if real != names then found := (names, .link (Path.ofString place.toString)) :: found
    if ← place.isDir then return (real, .dir) :: found
    else lookAtFile found real
  catch _ => return found

def pathsOf (j : Json) : List Path :=
  let params := (j.get? "params").getD .null
  let options := (params.get? "initializationOptions").getD .null
  match ((params.get? "textDocument").getD .null).get? "uri", options.get? "libraryPath" with
  | some (.str u), _ => ((Uri.Url.parse? u).bind (·.filePath?)).toList
  | _, some (.str p) => [Path.ofString p]
  | _, _ => []

def librariesOf (s : Server) : List Path :=
  match s.phase with
  | .greeted session => session.cache.default.toList
  | .running session => session.cache.default.toList
  | _ => s.home.libraryPath.toList ++ (s.home.programDir.map (·.join Config.libraryName)).toList

def diskFor (s : Server) (j : Json) : IO Disk := do
  let mut found := []
  for p in pathsOf j do
    found ← lookAround found p
  for p in librariesOf s do
    found ← look found p.parts.names
  return ⟨found⟩

/-- The length that the header lines tell, up to the blank line. -/
partial def readHeader (input : IO.FS.Stream) (length : Option Nat) : IO (Option Nat) := do
  let line ← input.getLine
  if line.isEmpty then return none
  else if line = "\r\n" || line = "\n" then return length
  else readHeader input ((Wire.contentLength? line).or length)

partial def readBytes (input : IO.FS.Stream) (n : Nat) (read : ByteArray) : IO ByteArray := do
  if n ≤ read.size then return read
  let more ← input.read (n - read.size).toUSize
  if more.isEmpty then return read
  readBytes input n (read ++ more)

def readMessage (input : IO.FS.Stream) : IO (Option Json) := do
  match ← readHeader input none with
  | none => return none
  | some n =>
      let body ← readBytes input n .empty
      return (Utf8.decode? body.toList).bind Json.parse?

partial def serve (input output : IO.FS.Stream) (s : Server) : IO UInt32 := do
  if s.hasEnded then return s.exitCode.toUInt32
  match ← readMessage input with
  | none => return s.exitCode.toUInt32
  | some j =>
      match Wire.message? j with
      | none => return s.exitCode.toUInt32
      | some m =>
          let (replies, s) := s.receive (← diskFor s j) m
          for r in replies do
            output.putStr (Wire.frame (Wire.replyJson r).render)
            output.flush
          serve input output s

end LanguageService.Main

open LanguageService in
def main (args : List String) : IO UInt32 := do
  match Cli.output? (Cli.command args) with
  | some lines =>
      for line in lines do
        IO.println line
      return 0
  | none =>
      let library ← IO.getEnv "ORCA_LIBRARY_PATH"
      let program ← IO.appPath
      let start := Server.startIn ⟨library.map Path.ofString,
        program.parent.map fun dir => Path.ofString dir.toString⟩
      Main.serve (← IO.getStdin) (← IO.getStdout) start
