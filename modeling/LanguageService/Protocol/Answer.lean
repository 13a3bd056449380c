import LanguageService.Definition
import LanguageService.Diagnostic
import LanguageService.Highlight
import LanguageService.Json
import LanguageService.Outline
import LanguageService.Uri.Reference

namespace LanguageService

def Text.LineColumn.toJson (p : Text.LineColumn) : Json :=
  .obj [("line", p.line), ("character", p.column)]

namespace Site

def rangeJson (s : Site) : Json :=
  .obj [("start", s.startPosition.toJson), ("end", s.stopPosition.toJson)]

/-- What is not in a document, or in one whose name no client can read, has no location. -/
def location? (s : Site) : Option Json :=
  if s.isSynthesized then none
  else if Uri.isReference s.file.uri then
    some (.obj [("uri", s.file.uri), ("range", s.rangeJson)])
  else none

end Site

namespace SymbolKind

def code : SymbolKind → Nat
  | space => 3
  | typeAlias => 5
  | method => 6
  | field => 8
  | constructor => 9
  | interface => 11
  | function => 12
  | var => 13
  | struct => 23
  | operator => 25
  | typeParameter => 26

end SymbolKind

namespace Symbol

mutual

def toJson : Symbol → Json
  | mk name detail kind range selection children =>
      .obj ([("name", .str name)]
        ++ detail.toList.map (fun d => ("detail", .str d))
        ++ [("kind", .nat kind.code), ("range", range.rangeJson),
          ("selectionRange", selection.rangeJson)]
        ++ match children with
          | [] => []
          | c :: cs => [("children", .arr (toJson c :: listJson cs))])

def listJson : List Symbol → List Json
  | [] => []
  | s :: ss => toJson s :: listJson ss

end

end Symbol

namespace Tree

def symbolsAnswer (t : Tree) (uri : String) : Json :=
  match t.outline uri with
  | [] => .null
  | ss => .arr (Symbol.listJson ss)

end Tree

namespace Highlight

def Delta.numbers (d : Delta) : List Nat :=
  [d.line, d.start, d.length, d.kind, d.modifiers]

def legend : Json :=
  .obj [("tokenTypes", .list (fun k => .str (MarkKind.word k)) MarkKind.all),
    ("tokenModifiers", .list Json.str Mark.modifierWords)]

def answer (t : Tree) (uri : String) : Json :=
  match marks t uri with
  | [] => .null
  | ms => .obj [("data", .list Json.nat ((encode ms).flatMap Delta.numbers))]

end Highlight

namespace Program

def definitionAnswer (p : Program) (uri : String) (position : Text.LineColumn) : Json :=
  let location := do
    let (f, offset) ← p.tree.position? uri position
    let d ← p.definition? f offset
    d.selection.location?
  location.getD .null

end Program

namespace Severity

def code : Severity → Nat
  | error => 1
  | warning => 2
  | note => 3

end Severity

namespace Diagnostic

def relatedJson (n : RelatedNote) : Option Json :=
  n.site.location?.map fun l => .obj [("location", l), ("message", n.message)]

def toJson (d : Diagnostic) : Json :=
  let related := d.notes.filterMap relatedJson
  .obj ([("range", d.site.rangeJson), ("severity", .nat d.severity.code), ("code", .str d.code),
      ("source", .str "orca"), ("message", .str d.message)]
    ++ if related.isEmpty then [] else [("relatedInformation", .arr related)])

end Diagnostic

namespace DiagnosticSet

def inFile (s : DiagnosticSet) (uri : String) : List Diagnostic :=
  s.elements.filter fun d => d.site.file.uri == uri

def report (s : DiagnosticSet) (uri : String) : Json :=
  .obj [("kind", "full"), ("items", .list Diagnostic.toJson (s.inFile uri))]

end DiagnosticSet

end LanguageService
