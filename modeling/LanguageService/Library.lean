import LanguageService.Tree.Parse
import LanguageService.Uri

namespace LanguageService.Library

def marker : Bytes := Utf8.ofString "orca-library.toml"

def sourceExtension : Bytes := Utf8.ofString "orca"

def moduleName : String := "library"

inductive Error where
  | notFound (root : Path)
  | unreadable (path : Path) (e : DiskError)
  | noUri (path : Path)
  | diagnostics (root : Path) (ds : DiagnosticSet)

def Error.message : Error → String
  | notFound r => "library root " ++ r.display ++ " is not a directory"
  | unreadable p e => "failed to read " ++ p.display ++ ": " ++ e.message
  | noUri p => "cannot represent " ++ p.display ++ " as a URI"
  | diagnostics r ds => "library " ++ r.display ++ " contains errors:\n" ++ ds.display

/-- The source files below a directory, also those that links lead to. Each step down makes the
path longer, and a path of 4096 bytes leads nowhere, so `depth` does not run out. -/
def sourcesBelow (d : Disk) : Nat → Path → List Path
  | 0, _ => []
  | depth + 1, dir =>
      match d.reach dir with
      | .error _ => []
      | .ok names =>
          (d.list names).flatMap fun n =>
            let p := dir.join n
            if d.isDir p then sourcesBelow d depth p
            else if (Path.divide n).2 == some sourceExtension then [p]
            else []

/-- The source files below a directory in the order of their paths. -/
def sourcePaths (d : Disk) (root : Path) : Except Error (List Path) :=
  if d.isDir root then .ok ((sourcesBelow d 4096 root).mergeSort Path.le)
  else .error (.notFound root)

def loadFile (d : Disk) (p : Path) : Except Error File :=
  match d.readText p with
  | .error e => .error (.unreadable p e)
  | .ok text =>
      match p.uri? with
      | some u => .ok (.document u text)
      | none => .error (.noUri p)

def load (d : Disk) (root : Path) : Except Error (List File) := do
  let paths ← sourcePaths d root
  paths.mapM (loadFile d)

def parse (d : Disk) (root : Path) : Except Error Tree :=
  match d.canonical? root with
  | none => .error (.notFound root)
  | some root => do
      let files ← load d root
      match Tree.parseModule .empty moduleName files with
      | .ok t => .ok t
      | .error ds => .error (.diagnostics root ds)

/-- The nearest directory above a document that is marked as a library. -/
def rootAbove (d : Disk) (document : Path) : Option Path :=
  document.findAbove? fun dir => d.isFile (dir.join marker)

end LanguageService.Library
