import HornSearch.Json.Quoted

/-!
# JSON values

A JSON value as a tree. Strings and keys are kept as they are written between
their quotes, since a reader may have to know how; `Json.ofText` and
`Json.unquote` pass from and to the text that a string stands for. Of the
numbers, integers have a value, and others are kept as they are written.

`Json.render` writes a value without blanks.
-/

namespace HornSearch

/-- A JSON value. A `real` is a number with a fraction or an exponent, or minus
zero. -/
inductive Json where
  | null
  | bool (b : Bool)
  | integer (n : Int)
  | real (written : String)
  | string (written : String)
  | array (items : List Json)
  | object (fields : List (String × Json))

namespace Json

def ofText (text : String) : Json := .string (String.ofList (Quoted.escape text.toList))

/-- The text that a written string stands for. -/
def unquote (written : String) : Option String :=
  (Quoted.unescape written.toList).map String.ofList

/-- The object of values under keys that are given as texts. -/
def ofFields (fields : List (String × Json)) : Json :=
  .object (fields.map fun (key, value) => (String.ofList (Quoted.escape key.toList), value))

mutual
/-- The compact text of a value in front of `rest`. -/
def chars : Json → List Char → List Char
  | .null, rest => 'n' :: 'u' :: 'l' :: 'l' :: rest
  | .bool true, rest => 't' :: 'r' :: 'u' :: 'e' :: rest
  | .bool false, rest => 'f' :: 'a' :: 'l' :: 's' :: 'e' :: rest
  | .integer n, rest => (toString n).toList ++ rest
  | .real written, rest => written.toList ++ rest
  | .string written, rest => '\"' :: written.toList ++ '\"' :: rest
  | .array items, rest => '[' :: charsItems items (']' :: rest)
  | .object fields, rest => '\x7b' :: charsFields fields ('\x7d' :: rest)

def charsItems : List Json → List Char → List Char
  | [], rest => rest
  | [item], rest => chars item rest
  | item :: items, rest => chars item (',' :: charsItems items rest)

def charsFields : List (String × Json) → List Char → List Char
  | [], rest => rest
  | [(key, value)], rest => '\"' :: key.toList ++ '\"' :: ':' :: chars value rest
  | (key, value) :: fields, rest =>
    '\"' :: key.toList ++ '\"' :: ':' :: chars value (',' :: charsFields fields rest)
end

def render (j : Json) : String := String.ofList (j.chars [])

end Json

end HornSearch
