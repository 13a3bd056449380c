namespace LanguageService

inductive Keyword where
  | kwNamespace
  | kwType
  | kwExtension
  | kwConformance
  | kwTrait
  | kwTypealias
  | kwOperator
  | kwFun
  | kwInit
  | kwSubscript
  | kwLet
  | kwVar
  | kwInout
  | kwSink
  | kwSet
  | kwReturn
  | kwWhile
  | kwIf
  | kwElse
  | kwTrue
  | kwFalse
  | kwSelf
  | kwUnderscore
  deriving DecidableEq, Repr

namespace Keyword

def spelling : Keyword → String
  | kwNamespace => "namespace"
  | kwType => "type"
  | kwExtension => "extension"
  | kwConformance => "conformance"
  | kwTrait => "trait"
  | kwTypealias => "typealias"
  | kwOperator => "operator"
  | kwFun => "fun"
  | kwInit => "init"
  | kwSubscript => "subscript"
  | kwLet => "let"
  | kwVar => "var"
  | kwInout => "inout"
  | kwSink => "sink"
  | kwSet => "set"
  | kwReturn => "return"
  | kwWhile => "while"
  | kwIf => "if"
  | kwElse => "else"
  | kwTrue => "true"
  | kwFalse => "false"
  | kwSelf => "self"
  | kwUnderscore => "_"

def all : List Keyword :=
  [kwNamespace, kwType, kwExtension, kwConformance, kwTrait, kwTypealias, kwOperator, kwFun,
   kwInit, kwSubscript, kwLet, kwVar, kwInout, kwSink, kwSet, kwReturn, kwWhile, kwIf, kwElse,
   kwTrue, kwFalse, kwSelf, kwUnderscore]

def ofSpelling (word : String) : Option Keyword :=
  all.find? (fun k => k.spelling == word)

theorem ofSpelling_spelling (k : Keyword) : ofSpelling k.spelling = some k := by
  cases k <;> decide

end Keyword

inductive Punct where
  | lparen
  | rparen
  | lbrace
  | rbrace
  | lbracket
  | rbracket
  | comma
  | colon
  | semi
  | dot
  | arrow
  | assign
  deriving DecidableEq, Repr

namespace Punct

def spelling : Punct → String
  | lparen => "("
  | rparen => ")"
  | lbrace => "\x7b"
  | rbrace => "\x7d"
  | lbracket => "["
  | rbracket => "]"
  | comma => ","
  | colon => ":"
  | semi => ";"
  | dot => "."
  | arrow => "->"
  | assign => "="

def ofChar : Char → Option Punct
  | '(' => some lparen
  | ')' => some rparen
  | '\x7b' => some lbrace
  | '\x7d' => some rbrace
  | '[' => some lbracket
  | ']' => some rbracket
  | ',' => some comma
  | ':' => some colon
  | ';' => some semi
  | '.' => some dot
  | _ => none

end Punct

inductive Token where
  | comment (text : String)
  | float (text : String)
  | int (text : String)
  | string (text : String)
  | keyword (k : Keyword)
  | punct (p : Punct)
  | op (text : String)
  | ident (text : String)
  | error (text : String)
  deriving DecidableEq, Repr

namespace Token

def display : Token → String
  | comment s => s
  | float s => s
  | int s => s
  | string s => s
  | keyword k => k.spelling
  | punct p => p.spelling
  | op s => s
  | ident s => s
  | error _ => "<error>"

def isComment : Token → Bool
  | comment _ => true
  | _ => false

def isError : Token → Bool
  | error _ => true
  | _ => false

def isBindingIntroducer : Token → Bool
  | keyword .kwLet => true
  | keyword .kwVar => true
  | keyword .kwInout => true
  | keyword .kwSink => true
  | _ => false

end Token

structure Lexeme where
  token : Token
  start : Nat
  stop : Nat
  deriving DecidableEq, Repr

end LanguageService
