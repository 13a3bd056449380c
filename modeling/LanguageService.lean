import LanguageService.Analysis
import LanguageService.Cache
import LanguageService.Check
import LanguageService.Check.Basic
import LanguageService.Check.Complaint
import LanguageService.Check.Expr
import LanguageService.Check.Signature
import LanguageService.Check.Stmt
import LanguageService.Cli
import LanguageService.Config
import LanguageService.Definition
import LanguageService.Diagnostic
import LanguageService.Disk
import LanguageService.Document
import LanguageService.Enclosing
import LanguageService.Highlight
import LanguageService.Json
import LanguageService.Json.Decode
import LanguageService.Json.Reader
import LanguageService.Library
import LanguageService.Main
import LanguageService.Modifier
import LanguageService.Outline
import LanguageService.Path
import LanguageService.Program
import LanguageService.Proofs.Accounting
import LanguageService.Proofs.Adding
import LanguageService.Proofs.Addresses
import LanguageService.Proofs.Afresh
import LanguageService.Proofs.Agreement
import LanguageService.Proofs.AgreementBinding
import LanguageService.Proofs.AliasJobs
import LanguageService.Proofs.Aliases
import LanguageService.Proofs.AnyOrder
import LanguageService.Proofs.Blame
import LanguageService.Proofs.Blocks
import LanguageService.Proofs.BoundVars
import LanguageService.Proofs.Canonical
import LanguageService.Proofs.CheckJobs
import LanguageService.Proofs.CheckState
import LanguageService.Proofs.CheckedBinding
import LanguageService.Proofs.CheckedDecl
import LanguageService.Proofs.CheckedExpr
import LanguageService.Proofs.CheckedStmt
import LanguageService.Proofs.CheckedTypes
import LanguageService.Proofs.Collected
import LanguageService.Proofs.Completing
import LanguageService.Proofs.CompletingGrammar
import LanguageService.Proofs.Definitions
import LanguageService.Proofs.Deltas
import LanguageService.Proofs.Denoting
import LanguageService.Proofs.Destructuring
import LanguageService.Proofs.Edits
import LanguageService.Proofs.Emitted
import LanguageService.Proofs.EmittedDecl
import LanguageService.Proofs.Ending
import LanguageService.Proofs.Escapes
import LanguageService.Proofs.Expansion
import LanguageService.Proofs.Extending
import LanguageService.Proofs.FileNames
import LanguageService.Proofs.FileReports
import LanguageService.Proofs.Filed
import LanguageService.Proofs.Frames
import LanguageService.Proofs.Fulfilling
import LanguageService.Proofs.FulfillingDecl
import LanguageService.Proofs.FulfillingJobs
import LanguageService.Proofs.FulfillingTypes
import LanguageService.Proofs.Growth
import LanguageService.Proofs.Highlighting
import LanguageService.Proofs.Hosts
import LanguageService.Proofs.Innermost
import LanguageService.Proofs.Interleaving
import LanguageService.Proofs.Layers
import LanguageService.Proofs.Lexemes
import LanguageService.Proofs.LexicalBinding
import LanguageService.Proofs.LexicalDecl
import LanguageService.Proofs.LexicalExpr
import LanguageService.Proofs.LexicalJobs
import LanguageService.Proofs.LexicalScope
import LanguageService.Proofs.LexicalStmt
import LanguageService.Proofs.LexicalTypes
import LanguageService.Proofs.LibraryRoots
import LanguageService.Proofs.LineIndex
import LanguageService.Proofs.Loop
import LanguageService.Proofs.Lowered
import LanguageService.Proofs.MarkSites
import LanguageService.Proofs.Memberwise
import LanguageService.Proofs.MemberwiseParameters
import LanguageService.Proofs.Memoization
import LanguageService.Proofs.MoreFuel
import LanguageService.Proofs.NameSites
import LanguageService.Proofs.NameTables
import LanguageService.Proofs.Nested
import LanguageService.Proofs.NestedDecl
import LanguageService.Proofs.Nesting
import LanguageService.Proofs.Numbering
import LanguageService.Proofs.Operators
import LanguageService.Proofs.OutlineMarks
import LanguageService.Proofs.Outlined
import LanguageService.Proofs.Overlooked
import LanguageService.Proofs.Owned
import LanguageService.Proofs.Placement
import LanguageService.Proofs.PlainSession
import LanguageService.Proofs.Pointing
import LanguageService.Proofs.Positions
import LanguageService.Proofs.PrintedDecl
import LanguageService.Proofs.PrintedExpr
import LanguageService.Proofs.PrintedStmt
import LanguageService.Proofs.PrintedType
import LanguageService.Proofs.Printing
import LanguageService.Proofs.Reading
import LanguageService.Proofs.References
import LanguageService.Proofs.Resolution
import LanguageService.Proofs.Respacing
import LanguageService.Proofs.ScopeMembers
import LanguageService.Proofs.Selections
import LanguageService.Proofs.Serialized
import LanguageService.Proofs.ShownTokens
import LanguageService.Proofs.SingleFlight
import LanguageService.Proofs.SitesNest
import LanguageService.Proofs.Smallest
import LanguageService.Proofs.Soundness
import LanguageService.Proofs.Spared
import LanguageService.Proofs.Spelled
import LanguageService.Proofs.SpelledDecl
import LanguageService.Proofs.SpelledExpr
import LanguageService.Proofs.SpelledFile
import LanguageService.Proofs.SpelledWithin
import LanguageService.Proofs.Spelling
import LanguageService.Proofs.StoredVariables
import LanguageService.Proofs.Strung
import LanguageService.Proofs.Subjects
import LanguageService.Proofs.TokenRules
import LanguageService.Proofs.ToldSession
import LanguageService.Proofs.TreeShape
import LanguageService.Proofs.Typing
import LanguageService.Proofs.Unfolding
import LanguageService.Proofs.Unsettled
import LanguageService.Proofs.UrlForms
import LanguageService.Proofs.Visits
import LanguageService.Proofs.Walking
import LanguageService.Protocol.Abilities
import LanguageService.Protocol.Answer
import LanguageService.Protocol.Greeting
import LanguageService.Protocol.Params
import LanguageService.Protocol.Wire
import LanguageService.Scope
import LanguageService.Server
import LanguageService.ServiceError
import LanguageService.Session
import LanguageService.Source
import LanguageService.Surface
import LanguageService.Surface.Grammar
import LanguageService.Surface.Parser
import LanguageService.Table
import LanguageService.Text
import LanguageService.Token
import LanguageService.Token.Lexer
import LanguageService.Tree
import LanguageService.Tree.Lowering
import LanguageService.Tree.Parse
import LanguageService.Tree.Walk
import LanguageService.Ty
import LanguageService.Uri
import LanguageService.Uri.Address
import LanguageService.Uri.Authority
import LanguageService.Uri.Domain
import LanguageService.Uri.Domain.Canonical
import LanguageService.Uri.Domain.Direction
import LanguageService.Uri.Domain.Joining
import LanguageService.Uri.Domain.Spelling
import LanguageService.Uri.Domain.Table
import LanguageService.Uri.Percent
import LanguageService.Uri.Punycode
import LanguageService.Uri.Reference
import LanguageService.Uri.Scheme
import LanguageService.Uri.Trail
import LanguageService.Uri.Url
import LanguageService.Utf8
