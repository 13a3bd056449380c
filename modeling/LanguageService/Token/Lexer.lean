import LanguageService.Text
import LanguageService.Token

/-!
Reading tokens: the longest lexeme wins, and of equally long ones a comment before an
operator, a keyword before an identifier. A text is read to its end, whatever it holds.
-/
namespace LanguageService.Lexer

def isBlank (c : Char) : Bool :=
  c == ' ' || c == '\t' || c == '\r' || c == '\n' || c == '\x0c'

def isDigit (c : Char) : Bool := '0' ≤ c && c ≤ '9'

def isWordStart (c : Char) : Bool :=
  ('A' ≤ c && c ≤ 'Z') || ('a' ≤ c && c ≤ 'z') || c == '_'

def isWordPart (c : Char) : Bool := isWordStart c || isDigit c

def isOperatorChar (c : Char) : Bool :=
  ['-', '+', '*', '/', '%', '<', '>', '=', '!', '&', '|', '^', '~'].contains c

/-- The part of a string literal after its opening quote. An escape takes the next
character with it unless that is a line feed. -/
def stringBody : List Char → List Char
  | [] => []
  | ['\\'] => []
  | '\\' :: c :: cs => if c = '\n' then [] else '\\' :: c :: stringBody cs
  | c :: cs => if c = '"' ∨ c = '\\' ∨ c = '\n' then [] else c :: stringBody cs

def wordToken (word : String) : Token :=
  match Keyword.ofSpelling word with
  | some k => .keyword k
  | none => .ident word

def operatorToken (word : String) : Token :=
  if word = "->" then .punct .arrow
  else if word = "=" then .punct .assign
  else .op word

def number (c : Char) (cs : List Char) : Token × List Char :=
  let whole := c :: cs.takeWhile isDigit
  match cs.dropWhile isDigit with
  | '.' :: d :: rest =>
      if isDigit d then
        let word := whole ++ '.' :: d :: rest.takeWhile isDigit
        (.float (String.ofList word), word)
      else (.int (String.ofList whole), whole)
  | _ => (.int (String.ofList whole), whole)

def stringLiteral (cs : List Char) : Token × List Char :=
  let body := stringBody cs
  match cs.drop body.length with
  | '"' :: _ =>
      let word := '"' :: body ++ ['"']
      (.string (String.ofList word), word)
  | _ =>
      let word := '"' :: body
      (.error (String.ofList word), word)

def first (c : Char) (cs : List Char) : Token × List Char :=
  if c = '/' ∧ cs.head? = some '/' then
    let word := c :: cs.takeWhile (· ≠ '\n')
    (.comment (String.ofList word), word)
  else if isOperatorChar c then
    let word := c :: cs.takeWhile isOperatorChar
    (operatorToken (String.ofList word), word)
  else if isDigit c then number c cs
  else if c = '"' then stringLiteral cs
  else if isWordStart c then
    let word := c :: cs.takeWhile isWordPart
    (wordToken (String.ofList word), word)
  else
    match Punct.ofChar c with
    | some p => (.punct p, [c])
    | none => (.error (String.ofList [c]), [c])

/-- Reads a text from offset `start` on, after `n` characters that belong to a token already
read. -/
def scanFrom (start : Nat) : Nat → List Char → List Lexeme
  | _, [] => []
  | n + 1, c :: cs => scanFrom (start + c.utf8Size) n cs
  | 0, c :: cs =>
      if isBlank c then scanFrom (start + c.utf8Size) 0 cs
      else
        let (token, word) := first c cs
        ⟨token, start, start + Text.bytes word⟩ ::
          scanFrom (start + c.utf8Size) (word.length - 1) cs

def scan (text : List Char) : List Lexeme := scanFrom 0 0 text

def tokens (text : List Char) : List Lexeme := (scan text).filter (!·.token.isComment)

def comments (text : List Char) : List Lexeme := (scan text).filter (·.token.isComment)

end LanguageService.Lexer
