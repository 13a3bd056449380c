import LanguageService.Diagnostic
import LanguageService.Surface.Grammar
import LanguageService.Token.Lexer
import LanguageService.Tree.Lowering

namespace LanguageService

inductive ParseError where
  | unexpected (token : String)
  | endOfInput
  | invalid (text : String)
  deriving DecidableEq, Repr

namespace ParseError

def code : ParseError → String
  | unexpected _ => "P0001"
  | endOfInput => "P0002"
  | invalid _ => "P0003"

def message : ParseError → String
  | unexpected t => "unexpected token `" ++ t ++ "`"
  | endOfInput => "unexpected end of input"
  | invalid t => "invalid character `" ++ t ++ "`"

def diagnostic (e : ParseError) (site : Site) : Diagnostic :=
  .error e.code site e.message

end ParseError

namespace Layout

def ofFile (f : File) : Layout := ⟨f, (Lexer.tokens f.text.toList).toArray⟩

theorem ofFile_of_text (f : File) {cs : List Char} (h : f.text = String.ofList cs) :
    ofFile f = ⟨f, (Lexer.tokens cs).toArray⟩ := by
  rw [ofFile, h, String.toList_ofList]

def lexicalErrors (l : Layout) : List Diagnostic :=
  l.lexemes.toList.filterMap fun x =>
    match x.token with
    | .error t => some (ParseError.diagnostic (.invalid t) ⟨l.file, x.start, x.stop⟩)
    | _ => none

/-- The complaint about the token at which a span starts. A token that is no token has been
complained about already. -/
def syntaxError (l : Layout) (s : Surface.Span) : List Diagnostic :=
  match l.lexemes[s.start]? with
  | some x =>
      if x.token.isError then []
      else [ParseError.diagnostic (.unexpected x.token.display) (l.site s)]
  | none => [ParseError.diagnostic .endOfInput (l.site s)]

end Layout

namespace Tree

def parseUnit (t : Tree) (f : File) : Except DiagnosticSet (NodeId × Tree) :=
  let l := Layout.ofFile f
  let errors := l.lexicalErrors
  match Surface.parse (l.lexemes.toList.map (·.token)) with
  | .ok ds => if errors.isEmpty then .ok (Lowering.unit l ds t) else .error (.ofList errors)
  | .error s => .error (.ofList (errors ++ l.syntaxError s))

/-- Adds files in order, and keeps the diagnostics of all that do not parse. -/
def parseUnits (t : Tree) : List File → List NodeId × DiagnosticSet × Tree
  | [] => ([], .empty, t)
  | f :: fs =>
      match t.parseUnit f with
      | .ok (u, t) =>
          let (us, ds, t) := t.parseUnits fs
          (u :: us, ds, t)
      | .error ds =>
          let (us, ds', t) := t.parseUnits fs
          (us, ds.extend ds'.elements, t)

def parseModule (base : Tree) (name : String) (files : List File) : Except DiagnosticSet Tree :=
  let (us, ds, t) := (extending base).parseUnits files
  if ds.isEmpty then
    let (m, t) := t.insert (.module name us) .synthesized
    .ok (t.addModule m)
  else .error ds

end Tree

end LanguageService
