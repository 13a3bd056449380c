import LanguageService.Table
import LanguageService.Ty

namespace LanguageService

inductive Reference where
  | direct (d : NodeId)
  | member (d : NodeId)
  | constructor (d : NodeId)
  | builtin (name : String)
  deriving DecidableEq, Repr

def Reference.target : Reference → Option NodeId
  | direct d => some d
  | member d => some d
  | constructor d => some d
  | builtin _ => none

structure Program where
  tree : Tree
  references : Table Reference
  types : Table Ty

end LanguageService
