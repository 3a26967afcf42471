import HornSearch.Decimal
import HornSearch.Json.Basic

/-!
# Reading JSON

`Json.read` accepts exactly one value with blanks around its tokens. Blanks are
spaces, tabs, carriage returns and line feeds.

The number that the readers carry bounds their nesting; twice the length of
the text is enough, since no two calls in a row leave the text as it is.
-/

namespace HornSearch.Json

/-- The text from its first character on that is no blank. -/
def skipBlanks (s : List Char) : List Char :=
  s.dropWhile fun c => c = ' ' || c = '\t' || c = '\r' || c = '\n'

/-- The text behind an exponent, if there is one. -/
def skipExponent : List Char → Option (List Char)
  | c :: s =>
    if c = 'e' ∨ c = 'E' then
      let s := match s with
        | '+' :: s | '-' :: s => s
        | s => s
      if (s.takeWhile Char.isDigit).isEmpty then none else some (s.dropWhile Char.isDigit)
    else none
  | [] => none

/-- The text behind a fraction, if there is one. -/
def skipFraction : List Char → Option (List Char)
  | '.' :: s =>
    if (s.takeWhile Char.isDigit).isEmpty then none else some (s.dropWhile Char.isDigit)
  | _ => none

/-- The digits of an integer: no digit may follow a leading zero. -/
def integerDigits (s : List Char) : List Char :=
  match s with
  | '0' :: _ => ['0']
  | s => s.takeWhile Char.isDigit

/-- The integer that a sign and digits write. Zero with a minus sign is no
integer. -/
def signedInteger (negative : Bool) (digits : List Char) : Option Int :=
  let n := ofDecimal digits
  if negative then if n = 0 then none else some (-(n : Int)) else some n

/-- A number and the text behind it. -/
def readNumber (s : List Char) : Option (Json × List Char) :=
  let (negative, unsigned) := match s with
    | '-' :: s => (true, s)
    | s => (false, s)
  let digits := integerDigits unsigned
  if digits.isEmpty then none
  else
    let behind := unsigned.drop digits.length
    let rest := (skipFraction behind).getD behind
    let rest := (skipExponent rest).getD rest
    let real := Json.real (String.ofList (s.take (s.length - rest.length)))
    if rest.length < behind.length then some (real, rest)
    else
      match signedInteger negative digits with
      | some n => some (.integer n, rest)
      | none => some (real, rest)

mutual
/-- One value and the text behind it. -/
def readValue : Nat → List Char → Option (Json × List Char)
  | 0, _ => none
  | n + 1, s =>
    match skipBlanks s with
    | '[' :: s =>
      match skipBlanks s with
      | ']' :: s => some (.array [], s)
      | s => do
        let (items, s) ← readItems n s
        pure (.array items, s)
    | '\x7b' :: s =>
      match skipBlanks s with
      | '\x7d' :: s => some (.object [], s)
      | s => do
        let (fields, s) ← readFields n s
        pure (.object fields, s)
    | '\"' :: s => do
      let (written, s) ← Quoted.untilQuote s
      pure (.string (String.ofList written), s)
    | 't' :: 'r' :: 'u' :: 'e' :: s => some (.bool true, s)
    | 'f' :: 'a' :: 'l' :: 's' :: 'e' :: s => some (.bool false, s)
    | 'n' :: 'u' :: 'l' :: 'l' :: s => some (.null, s)
    | s => readNumber s

def readItems : Nat → List Char → Option (List Json × List Char)
  | 0, _ => none
  | n + 1, s => do
    let (item, s) ← readValue n s
    match skipBlanks s with
    | ',' :: s =>
      let (items, s) ← readItems n s
      pure (item :: items, s)
    | ']' :: s => pure ([item], s)
    | _ => none

def readFields : Nat → List Char → Option (List (String × Json) × List Char)
  | 0, _ => none
  | n + 1, s =>
    match skipBlanks s with
    | '\"' :: s => do
      let (key, s) ← Quoted.untilQuote s
      match skipBlanks s with
      | ':' :: s =>
        let (value, s) ← readValue n s
        match skipBlanks s with
        | ',' :: s =>
          let (fields, s) ← readFields n s
          pure ((String.ofList key, value) :: fields, s)
        | '\x7d' :: s => pure ([(String.ofList key, value)], s)
        | _ => none
      | _ => none
    | _ => none
end

/-- The value that a whole text is. -/
def read (text : String) : Option Json :=
  let s := text.toList
  match readValue (2 * s.length + 2) s with
  | some (value, rest) => if (skipBlanks rest).isEmpty then some value else none
  | none => none

end HornSearch.Json
