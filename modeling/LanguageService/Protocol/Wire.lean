import LanguageService.Json.Decode
import LanguageService.Server

namespace LanguageService.Wire

def isId : Json → Bool
  | .int n => (Json.Decoder.signed32 (.int n)).isSome
  | .str _ => true
  | _ => false

def message? (j : Json) : Option Message :=
  let params := (j.get? "params").getD .null
  match (j.get? "id").filter isId, j.get? "method" with
  | some id, some (.str method) => some (.request id method params)
  | some id, _ => some (.response id)
  | none, some (.str method) => some (.notification method params)
  | none, _ => none

def replyJson (r : Reply) : Json :=
  match r.toJson with
  | .obj fs => .obj (("jsonrpc", "2.0") :: fs)
  | j => j

def contentLength? (line : String) : Option Nat :=
  match line.splitOn ": " with
  | [name, value] =>
      if name.toLower = "content-length" then value.trimAscii.toString.toNat? else none
  | _ => none

def frame (body : String) : String :=
  "Content-Length: " ++ toString body.utf8ByteSize ++ "\r\n\r\n" ++ body

end LanguageService.Wire
