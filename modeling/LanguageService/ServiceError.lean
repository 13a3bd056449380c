namespace LanguageService

inductive ServiceError where
  | invalidUri (uri : String)
  | documentNotFound (uri : String)
  | invalidParams (reason : String)
  | internal (reason : String)
  | methodNotFound (method : String)
  | shuttingDown
  deriving DecidableEq, Repr

namespace ServiceError

def message : ServiceError → String
  | invalidUri u => "invalid document URI `" ++ u ++ "`"
  | documentNotFound u => "document not found: " ++ u
  | invalidParams r => "invalid params: " ++ r
  | internal r => "internal error: " ++ r
  | methodNotFound m => "unhandled method: " ++ m
  | shuttingDown => "server is shutting down"

def code : ServiceError → Int
  | invalidUri _ => -32602
  | documentNotFound _ => -32602
  | invalidParams _ => -32602
  | internal _ => -32603
  | methodNotFound _ => -32601
  | shuttingDown => -32600

end ServiceError

end LanguageService
