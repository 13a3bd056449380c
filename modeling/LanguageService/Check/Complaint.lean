import LanguageService.Ty

namespace LanguageService.Check

inductive Complaint where
  | selfValueOutside
  | selfTypeOutside
  | undefinedName (x : String)
  | undefinedType (x : String)
  | notType (x : String)
  | noMember (t : Ty) (x : String)
  | noSubscript (t : Ty)
  | mismatch (expected found : Ty)
  | cyclicAlias (x : String)
  | notTrait (t : Ty)
  | destructuring (t : Ty) (parts : Nat)
  | missingValue (t : Ty)
  | operands (op : String) (lhs rhs : Ty)
  | arity (expected found : Nat)
  | operandCount (op : String)
  | notConstructible (t : Ty)
  | notCallable (t : Ty)
  | noInitializer (t : Ty)

namespace Complaint

def code : Complaint → String
  | selfValueOutside => "E1001"
  | selfTypeOutside => "E1001"
  | undefinedName _ => "E1001"
  | undefinedType _ => "E1001"
  | notType _ => "E1001"
  | noMember _ _ => "E1002"
  | noSubscript _ => "E1002"
  | mismatch _ _ => "E1003"
  | cyclicAlias _ => "E1003"
  | notTrait _ => "E1003"
  | destructuring _ _ => "E1003"
  | missingValue _ => "E1003"
  | operands _ _ _ => "E1003"
  | arity _ _ => "E1004"
  | operandCount _ => "E1004"
  | notConstructible _ => "E1005"
  | notCallable _ => "E1005"
  | noInitializer _ => "E1005"

def quoted (s : String) : String := "`" ++ s ++ "`"

def message (t : Tree) : Complaint → String
  | selfValueOutside => "`self` is only available inside a type"
  | selfTypeOutside => "`Self` is only available inside a type"
  | undefinedName x => "undefined name " ++ quoted x
  | undefinedType x => "undefined type " ++ quoted x
  | notType x => quoted x ++ " does not name a type"
  | noMember a x => quoted (a.describe t) ++ " has no member " ++ quoted x
  | noSubscript a => quoted (a.describe t) ++ " has no subscript"
  | mismatch expected found =>
      "expected " ++ quoted (expected.describe t) ++ ", found " ++ quoted (found.describe t)
  | cyclicAlias x => "type alias " ++ quoted x ++ " refers to itself"
  | notTrait a => quoted (a.describe t) ++ " is not a trait"
  | destructuring a n =>
      "cannot destructure a value of type " ++ quoted (a.describe t) ++ " into " ++ toString n ++
        " elements"
  | missingValue a => "missing return value of type " ++ quoted (a.describe t)
  | operands op a b =>
      "operator " ++ quoted op ++ " cannot be applied to " ++ quoted (a.describe t) ++ " and " ++
        quoted (b.describe t)
  | arity expected found =>
      "expected " ++ toString expected ++ " argument" ++ (if expected = 1 then "" else "s") ++
        ", found " ++ toString found
  | operandCount op => "operator " ++ quoted op ++ " must take exactly one operand"
  | notConstructible a => "cannot construct a value of type " ++ quoted (a.describe t)
  | notCallable a => "cannot call a value of type " ++ quoted (a.describe t)
  | noInitializer a => quoted (a.describe t) ++ " has no initializer"

end Complaint

end LanguageService.Check
