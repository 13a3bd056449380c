import LanguageService.Json

/-!
Reading what clients send. Unknown fields are ignored, an absent or null field may stand for
nothing where nothing is allowed, and a list gives the fields of a record in their order.
-/
namespace LanguageService.Json

abbrev Decoder (α : Type) := Json → Option α

namespace Decoder

variable {α : Type}

def str : Decoder String
  | .str s => some s
  | _ => none

def unsigned32 : Decoder Nat
  | .int n => if 0 ≤ n ∧ n < 0x100000000 then some n.toNat else none
  | _ => none

def signed32 : Decoder Int
  | .int n => if -0x80000000 ≤ n ∧ n < 0x80000000 then some n else none
  | _ => none

def nullable (dec : Decoder α) : Decoder (Option α)
  | .null => some none
  | j => (dec j).map some

def list (dec : Decoder α) : Decoder (List α)
  | .arr es => es.mapM dec
  | _ => none

def required (dec : Decoder α) : Option Json → Option α
  | none => none
  | some j => dec j

def optional (dec : Decoder α) : Option Json → Option (Option α)
  | none => some none
  | some j => nullable dec j

end Decoder

/-- The fields of a record, from an object or from a list with all of them. -/
def fields (names : List String) : Json → Option (List (Option Json))
  | obj fs => some (names.map fun x => (obj fs).get? x)
  | arr es => if es.length = names.length then some (es.map some) else none
  | _ => none

def namedFields (names : List String) : Json → Option (List (Option Json))
  | obj fs => some (names.map fun x => (obj fs).get? x)
  | _ => none

end LanguageService.Json
