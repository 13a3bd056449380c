import LanguageService.Disk
import LanguageService.Json.Decode

namespace LanguageService

/-- What the program finds about itself: the library root in its environment, and the directory it
lies in. -/
structure Home where
  libraryPath : Option Path
  programDir : Option Path

structure Config where
  libraryPath : Option Path
  logLevel : Option String
  programDir : Option Path
  deriving DecidableEq, Repr

namespace Config

def default : Config := ⟨none, none, none⟩

def ofFields (path level : Option Json) : Option Config := do
  let path ← Json.Decoder.optional Json.Decoder.str path
  let level ← Json.Decoder.optional Json.Decoder.str level
  return ⟨path.map Path.ofString, level, none⟩

def decode? : Json → Option Config
  | .obj fs => ofFields ((Json.obj fs).get? "libraryPath") ((Json.obj fs).get? "logLevel")
  | .arr es => if es.length ≤ 2 then ofFields es[0]? es[1]? else none
  | _ => none

def ofOptions (options : Json) : Config := (decode? options).getD default

def inside (c : Config) (home : Home) : Config :=
  { c with libraryPath := c.libraryPath.or home.libraryPath, programDir := home.programDir }

def libraryName : Bytes := Utf8.ofString "stdlib"

def libraryBeside (c : Config) (d : Disk) : Option Path :=
  (c.programDir.map (·.join libraryName)).filter d.isDir

/-- The configured path, even if it leads nowhere, or else the directory `stdlib` beside the
program, if there is one. -/
def libraryRoot (c : Config) (d : Disk) : Option Path :=
  (c.libraryPath.or (c.libraryBeside d)).map d.canonicalize

end Config

end LanguageService
