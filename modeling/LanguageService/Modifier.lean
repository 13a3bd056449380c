namespace LanguageService

inductive Introducer where
  | byLet
  | byVar
  | byInout
  | bySink
  deriving DecidableEq, Repr

inductive Effect where
  | onLet
  | onInout
  | onSet
  | onSink
  deriving DecidableEq, Repr

inductive Fixity where
  | between
  | before
  | after
  deriving DecidableEq, Repr

def Fixity.ofWord : String → Option Fixity
  | "infix" => some .between
  | "prefix" => some .before
  | "postfix" => some .after
  | _ => none

end LanguageService
