import LanguageService.Json.Decode

/-!
What a client says it is able to do. It makes no difference to the answers, but a client whose
words have the wrong form is turned away.
-/
namespace LanguageService.Protocol.Abilities

open Json.Decoder

abbrev Form := Json.Decoder Unit

def anything : Form := fun _ => some ()

def flag : Form
  | .bool _ => some ()
  | _ => none

def count : Form := fun j => (unsigned32 j).map fun _ => ()

def number : Form := fun j => (signed32 j).map fun _ => ()

def words : Form := fun j => (str j).map fun _ => ()

def each (form : Form) : Form := fun j => (list form j).map fun _ => ()

/-- One of some words, which may also be the only key of an object. -/
def oneOf (choices : List String) : Form
  | .str s => if choices.contains s then some () else none
  | .obj [(s, .null)] => if choices.contains s then some () else none
  | _ => none

structure Field where
  name : String
  read : Option Json → Option Unit
  canLack : Bool

def must (name : String) (form : Form) : Field := ⟨name, required form, false⟩

def may (name : String) (form : Form) : Field :=
  ⟨name, fun j => (optional form j).map fun _ => (), false⟩

def flags (names : List String) : List Field := names.map (may · flag)

def pair : List Field → List Json → Option (List (Field × Option Json))
  | [], [] => some []
  | [], _ :: _ => none
  | f :: fs, [] => if f.canLack then (pair fs []).map ((f, none) :: ·) else none
  | f :: fs, j :: js => (pair fs js).map ((f, some j) :: ·)

def record (fs : List Field) : Form
  | .obj given => fs.forM fun f => f.read ((Json.obj given).get? f.name)
  | .arr given => (pair fs given).bind fun ps => ps.forM fun p => p.1.read p.2
  | _ => none

def registration : Form := record (flags ["dynamicRegistration"])

def refresh : Form := record (flags ["refreshSupport"])

def properties : Form := record [must "properties" (each words)]

def numbers : Form := record [must "valueSet" (each number)]

/-- Tags are listed, or known as a whole or not at all. -/
def tags : Field :=
  { may "tagSupport" fun j => (flag j).or (numbers j) with canLack := true }

def symbolKinds : Field := may "symbolKind" (record [may "valueSet" (each number)])

def markup : Form := each (oneOf ["plaintext", "markdown"])

def editing : Form :=
  record
    [may "documentChanges" flag,
      may "resourceOperations" (each (oneOf ["create", "rename", "delete"])),
      may "failureHandling" (oneOf ["abort", "transactional", "textOnlyTransactional", "undo"]),
      may "normalizesLineEndings" flag,
      may "changeAnnotationSupport" (record (flags ["groupsOnLabel"]))]

def workspace : Form :=
  record
    [may "applyEdit" flag,
      may "workspaceEdit" editing,
      may "didChangeConfiguration" registration,
      may "didChangeWatchedFiles"
        (record (flags ["dynamicRegistration", "relativePatternSupport"])),
      may "symbol"
        (record
          [may "dynamicRegistration" flag, symbolKinds, tags, may "resolveSupport" properties]),
      may "executeCommand" registration,
      may "workspaceFolders" flag,
      may "configuration" flag,
      may "semanticTokens" refresh,
      may "codeLens" refresh,
      may "fileOperations"
        (record (flags ["dynamicRegistration", "didCreate", "willCreate", "didRename",
          "willRename", "didDelete", "willDelete"])),
      may "inlineValue" refresh,
      may "inlayHint" refresh,
      may "diagnostic" refresh]

def completionItem : Form :=
  record
    [may "snippetSupport" flag,
      may "commitCharactersSupport" flag,
      may "documentationFormat" markup,
      may "deprecatedSupport" flag,
      may "preselectSupport" flag,
      tags,
      may "insertReplaceSupport" flag,
      may "resolveSupport" properties,
      may "insertTextModeSupport" numbers,
      may "labelDetailsSupport" flag]

def completion : Form :=
  record
    [may "dynamicRegistration" flag,
      may "completionItem" completionItem,
      may "completionItemKind" (record [may "valueSet" (each number)]),
      may "contextSupport" flag,
      may "insertTextMode" number,
      may "completionList" (record [may "itemDefaults" (each words)])]

def signatureHelp : Form :=
  record
    [may "dynamicRegistration" flag,
      may "signatureInformation"
        (record
          [may "documentationFormat" markup,
            may "parameterInformation" (record (flags ["labelOffsetSupport"])),
            may "activeParameterSupport" flag]),
      may "contextSupport" flag]

def goto : Form := record (flags ["dynamicRegistration", "linkSupport"])

def codeAction : Form :=
  record
    [may "dynamicRegistration" flag,
      may "codeActionLiteralSupport"
        (record [must "codeActionKind" (record [must "valueSet" (each words)])]),
      may "isPreferredSupport" flag,
      may "disabledSupport" flag,
      may "dataSupport" flag,
      may "resolveSupport" properties,
      may "honorsChangeAnnotations" flag]

def foldingRange : Form :=
  record
    [may "dynamicRegistration" flag,
      may "rangeLimit" count,
      may "lineFoldingOnly" flag,
      may "foldingRangeKind"
        (record [may "valueSet" (each (oneOf ["comment", "imports", "region"]))]),
      may "foldingRange" (record (flags ["collapsedText"]))]

/-- All tokens of a document are given as a flag or as an object. -/
def allTokens : Form
  | .obj given => record (flags ["delta"]) (.obj given)
  | j => flag j

def semanticTokens : Form :=
  record
    [may "dynamicRegistration" flag,
      must "requests" (record [may "range" flag, may "full" allTokens]),
      must "tokenTypes" (each words),
      must "tokenModifiers" (each words),
      must "formats" (each words),
      may "overlappingTokenSupport" flag,
      may "multilineTokenSupport" flag,
      may "serverCancelSupport" flag,
      may "augmentsSyntaxTokens" flag]

def textDocument : Form :=
  record
    [may "synchronization"
        (record (flags ["dynamicRegistration", "willSave", "willSaveWaitUntil", "didSave"])),
      may "completion" completion,
      may "hover" (record [may "dynamicRegistration" flag, may "contentFormat" markup]),
      may "signatureHelp" signatureHelp,
      may "references" registration,
      may "documentHighlight" registration,
      may "documentSymbol"
        (record
          [may "dynamicRegistration" flag, symbolKinds,
            may "hierarchicalDocumentSymbolSupport" flag, tags]),
      may "formatting" registration,
      may "rangeFormatting" registration,
      may "onTypeFormatting" registration,
      may "declaration" goto,
      may "definition" goto,
      may "typeDefinition" goto,
      may "implementation" goto,
      may "codeAction" codeAction,
      may "codeLens" registration,
      may "documentLink" (record (flags ["dynamicRegistration", "tooltipSupport"])),
      may "colorProvider" registration,
      may "rename"
        (record
          [may "dynamicRegistration" flag, may "prepareSupport" flag,
            may "prepareSupportDefaultBehavior" number, may "honorsChangeAnnotations" flag]),
      may "publishDiagnostics"
        (record
          [may "relatedInformation" flag, tags, may "versionSupport" flag,
            may "codeDescriptionSupport" flag, may "dataSupport" flag]),
      may "foldingRange" foldingRange,
      may "selectionRange" registration,
      may "linkedEditingRange" registration,
      may "callHierarchy" registration,
      may "semanticTokens" semanticTokens,
      may "moniker" registration,
      may "typeHierarchy" registration,
      may "inlineValue" registration,
      may "inlayHint"
        (record [may "dynamicRegistration" flag, may "resolveSupport" properties]),
      may "diagnostic" (record (flags ["dynamicRegistration", "relatedDocumentSupport"]))]

def notebook : Form :=
  record
    [must "synchronization"
      (record (flags ["dynamicRegistration", "executionSummaryReport"]))]

def window : Form :=
  record
    [may "workDoneProgress" flag,
      may "showMessage"
        (record [may "messageActionItem" (record (flags ["additionalPropertiesSupport"]))]),
      may "showDocument" (record [must "support" flag])]

def general : Form :=
  record
    [may "regularExpressions" (record [must "engine" words, may "version" words]),
      may "markdown"
        (record [must "parser" words, may "version" words, may "allowedTags" (each words)]),
      may "staleRequestSupport"
        (record [must "cancel" flag, must "retryOnContentModified" (each words)]),
      may "positionEncodings" (each words)]

def client : Form :=
  record
    [may "workspace" workspace,
      may "textDocument" textDocument,
      may "notebookDocument" notebook,
      may "window" window,
      may "general" general,
      may "experimental" anything]

end LanguageService.Protocol.Abilities
