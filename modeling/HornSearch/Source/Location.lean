/-!
# Syntax errors

A syntax error is placed at a suffix of the text that was read: the text that
could not be read further. Lines are ended by line feeds; columns count
characters; both count from one.
-/

namespace HornSearch.Source

/-- Where reading stopped, and what was found there. -/
structure SyntaxError where
  line : Nat
  column : Nat
  detail : String
deriving DecidableEq

/-- The text up to its first line feed. A carriage return just before the line
feed belongs to the line end. -/
def firstLine (text : List Char) : List Char :=
  let line := text.takeWhile (· ≠ '\n')
  if line.length < text.length && line.getLast? = some '\r' then line.dropLast else line

/-- What an error quotes: the first twenty characters of the line. -/
def found (rest : List Char) : String :=
  match (firstLine rest).take 20 with
  | [] => "unexpected end of input"
  | quoted => "unexpected `" ++ String.ofList quoted ++ "`"

namespace SyntaxError

/-- The error at `rest`, a suffix of `text`. -/
def locate (text rest : List Char) : SyntaxError :=
  let before := text.take (text.length - rest.length)
  ⟨before.count '\n' + 1, (before.reverse.takeWhile (· ≠ '\n')).length + 1, found rest⟩

def message (e : SyntaxError) : String :=
  "syntax error at line " ++ toString e.line ++ ", column " ++ toString e.column ++
    ": " ++ e.detail

end SyntaxError

end HornSearch.Source
