import HornSearch.Decimal

/-!
# Tokens

Program and query texts are read as tokens with blanks between them. Blank
space consists of spaces, tabs, carriage returns, line feeds and comments. A
comment runs from `%` up to a line end: a line feed, a carriage return with a
line feed, or the end of the text. A `%` whose line holds a carriage return on
its own opens no comment and is a stray character.

Every token keeps the text from its first character on, so that an error can
be placed.
-/

namespace HornSearch.Source

/-- The words and marks of a text. A stray character is one that begins no
token. -/
inductive Token where
  | name (s : String)
  | var (s : String)
  | number (n : Nat)
  | left
  | right
  | comma
  | period
  | neck
  | stray (c : Char)
deriving DecidableEq

/-- A token and the text that begins with it. -/
structure Lexeme where
  token : Token
  start : List Char
deriving DecidableEq

/-- A character that only separates. -/
def isBlank (c : Char) : Bool := c = ' ' || c = '\t' || c = '\r' || c = '\n'

/-- An ASCII letter, an ASCII digit or an underscore. -/
def isWordChar (c : Char) : Bool := c.isAlphanum || c = '_'

/-- A character at which a line can end. -/
def isLineEnd (c : Char) : Bool := c = '\r' || c = '\n'

def commentText (s : List Char) : List Char := s.takeWhile fun c => !isLineEnd c

/-- The line that the text begins with ends properly: not with a carriage
return on its own. -/
def closesComment (s : List Char) : Bool :=
  match s.dropWhile fun c => !isLineEnd c with
  | '\r' :: '\n' :: _ => true
  | '\r' :: _ => false
  | _ => true

/-- The token that begins with `c`, and how many characters of the text `s`
behind it belong to it. Words and numbers are as long as possible. -/
def Token.read (c : Char) (s : List Char) : Token × Nat :=
  if c.isLower then
    let word := s.takeWhile isWordChar
    (.name (String.ofList (c :: word)), word.length)
  else if c.isUpper then
    let word := s.takeWhile isWordChar
    (.var (String.ofList (c :: word)), word.length)
  else if c.isDigit then
    let digits := s.takeWhile Char.isDigit
    (.number (ofDecimal (c :: digits)), digits.length)
  else
    match c, s with
    | '(', _ => (.left, 0)
    | ')', _ => (.right, 0)
    | ',', _ => (.comma, 0)
    | '.', _ => (.period, 0)
    | ':', '-' :: _ => (.neck, 1)
    | c, _ => (.stray c, 0)

/-- The tokens of a text whose first `k` characters are read already. -/
def scan : Nat → List Char → List Lexeme
  | _, [] => []
  | k + 1, _ :: s => scan k s
  | 0, c :: s =>
    if isBlank c then scan 0 s
    else if c = '%' && closesComment s then scan (commentText s).length s
    else
      let (token, k) := Token.read c s
      ⟨token, c :: s⟩ :: scan k s

def tokens (text : List Char) : List Lexeme := scan 0 text

end HornSearch.Source
