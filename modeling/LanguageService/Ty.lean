import LanguageService.Tree

namespace LanguageService

inductive Builtin where
  | int
  | float
  | bool
  | string
  | void
  deriving DecidableEq, Repr

namespace Builtin

def word : Builtin → String
  | int => "Int"
  | float => "Float"
  | bool => "Bool"
  | string => "String"
  | void => "Void"

def ofWord : String → Option Builtin
  | "Int" => some int
  | "Float" => some float
  | "Bool" => some bool
  | "String" => some string
  | "Void" => some void
  | _ => none

theorem ofWord_word (b : Builtin) : ofWord b.word = some b := by
  cases b <;> rfl

theorem word_of_ofWord {w : String} {b : Builtin} (h : ofWord w = some b) : b.word = w := by
  unfold ofWord at h
  split at h <;> cases h <;> rfl

end Builtin

/-- The type of an expression or a declaration. A declared type is known by its declaration,
and `error` is the type of what is wrong already. -/
inductive Ty where
  | builtin (b : Builtin)
  | product (d : NodeId)
  | trait (d : NodeId)
  | parameter (d : NodeId)
  | tuple (elements : List Ty)
  | function (inputs : List Ty) (output : Ty)
  | metatype (t : Ty)
  | space (d : NodeId)
  | error
  deriving Repr, Inhabited

namespace Ty

def void : Ty := builtin .void

def bool : Ty := builtin .bool

def ofElements : List Ty → Ty
  | [] => void
  | t :: ts => tuple (t :: ts)

def output : Ty → Ty
  | function _ o => o
  | _ => error

mutual

def hasError : Ty → Bool
  | error => true
  | tuple ts => anyError ts
  | function is o => anyError is || o.hasError
  | metatype t => t.hasError
  | _ => false

def anyError : List Ty → Bool
  | [] => false
  | t :: ts => t.hasError || anyError ts

end

mutual

def same : Ty → Ty → Bool
  | builtin a, builtin b => a == b
  | product a, product b => a == b
  | trait a, trait b => a == b
  | parameter a, parameter b => a == b
  | tuple as, tuple bs => sameList as bs
  | function is o, function js p => sameList is js && same o p
  | metatype a, metatype b => same a b
  | space a, space b => a == b
  | error, error => true
  | _, _ => false

def sameList : List Ty → List Ty → Bool
  | [], [] => true
  | a :: as, b :: bs => same a b && sameList as bs
  | _, _ => false

end

mutual

/-- Whether a value of the first type can be used where the second is expected. A type with an
error in it passes for any, so that one error is told once, and so does a parameter. -/
def compatible : Ty → Ty → Bool
  | parameter _, _ => true
  | tuple as, b =>
      anyError as || b.hasError ||
        match b with
        | parameter _ => true
        | tuple bs => compatibleList as bs
        | _ => false
  | function is o, b =>
      anyError is || o.hasError || b.hasError ||
        match b with
        | parameter _ => true
        | function js p => compatibleList is js && compatible o p
        | _ => false
  | a, b =>
      a.hasError || b.hasError ||
        match b with
        | parameter _ => true
        | _ => same a b

def compatibleList : List Ty → List Ty → Bool
  | [], [] => true
  | a :: as, b :: bs => compatible a b && compatibleList as bs
  | _, _ => false

end

/-- A declaration is shown by its name, or by its number if it has none. -/
def declName (t : Tree) (d : NodeId) : String :=
  match (t.get? d).bind (·.kind.declares) with
  | some x => x.text
  | none => "#" ++ toString d

mutual

def describe (t : Tree) : Ty → String
  | builtin b => b.word
  | product d => declName t d
  | trait d => declName t d
  | parameter d => declName t d
  | space d => declName t d
  | tuple ts => "(" ++ ", ".intercalate (describeList t ts) ++ ")"
  | function is o => "(" ++ ", ".intercalate (describeList t is) ++ ") -> " ++ describe t o
  | metatype a => "Metatype<" ++ describe t a ++ ">"
  | error => "<error>"

def describeList (t : Tree) : List Ty → List String
  | [] => []
  | a :: as => describe t a :: describeList t as

end

end Ty

end LanguageService
