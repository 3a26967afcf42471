import HornSearch.Database
import HornSearch.Json.Term
import HornSearch.Source.Parser

/-!
# The command line

A program file and a query are named on the command line; every answer is
printed on a line of its own. A failure is reported on the standard error
stream, and the exit code is 1, or 2 after a note on usage.

`CommandLine.run` is the whole program as a function of its arguments and of
what reading a file gives. Printing goes on from one answer to the next
(`Printing.next`), whether the lines are collected or printed as they come.
-/

namespace HornSearch.CommandLine

inductive ReadError where
  | notFound
  | isDirectory
  | notText
  | other (message : String)

def ReadError.message : ReadError → String
  | .notFound => "No such file or directory (os error 2)"
  | .isDirectory => "Is a directory (os error 21)"
  | .notText => "stream did not contain valid UTF-8"
  | .other message => message

inductive LimitError where
  | empty
  | badDigit
  | tooLarge
deriving DecidableEq

def LimitError.message : LimitError → String
  | .empty => "cannot parse integer from empty string"
  | .badDigit => "invalid digit found in string"
  | .tooLarge => "number too large to fit in target type"

/-- Reads digits behind a number that is read already. The first character
that is no digit, or that makes the number exceed 64 bits, is the error. -/
def readDigits : Nat → List Char → Except LimitError Nat
  | n, [] => .ok n
  | n, c :: rest =>
    if c.isDigit then
      let n := 10 * n + ofDecimal [c]
      if n < 2 ^ 64 then readDigits n rest else .error .tooLarge
    else .error .badDigit

/-- Reads a limit: digits, with a plus sign in front if one likes. -/
def readLimit (text : String) : Except LimitError Nat :=
  match text.toList with
  | [] => .error .empty
  | '+' :: c :: rest => readDigits 0 (c :: rest)
  | digits => readDigits 0 digits

inductive Failure where
  | usage
  | limitMissing
  | badLimit (text : String) (cause : LimitError)
  | unknownOption (option : String)
  | unreadable (path : String) (cause : ReadError)
  | badProgram (path : String) (cause : Source.SyntaxError)
  | badQuery (cause : Source.SyntaxError)

def usage : String :=
  "Usage: hornlog <program> <query> [--limit N] [--json]\n\n" ++
  "Options:\n" ++
  "  --limit N   Stop after N solutions\n" ++
  "  --json      Print one JSON object per solution\n"

namespace Failure

/-- What went wrong, and why if there is a cause. -/
def report (what : String) (cause : Option String) : String :=
  "Error: " ++ what ++ "\n" ++
    match cause with
    | none => ""
    | some cause => "\nCaused by:\n    " ++ cause ++ "\n"

def message : Failure → String
  | .usage => CommandLine.usage
  | .limitMissing => report "--limit needs a value" none
  | .badLimit text cause => report ("invalid --limit `" ++ text ++ "`") (some cause.message)
  | .unknownOption option => report ("unknown option `" ++ option ++ "`") none
  | .unreadable path cause => report ("failed to read " ++ path) (some cause.message)
  | .badProgram path cause => report ("failed to load " ++ path) (some cause.message)
  | .badQuery cause => report "failed to parse query" (some cause.message)

def code : Failure → Nat
  | .usage => 2
  | _ => 1

end Failure

structure Options where
  program : String
  query : String
  limit : Option Nat
  json : Bool

/-- Reads arguments one after another behind those that are read already. -/
def readArguments (positional : List String) (limit : Option Nat) (json : Bool) :
    List String → Except Failure Options
  | [] =>
    match positional with
    | [program, query] => .ok ⟨program, query, limit, json⟩
    | _ => .error .usage
  | "-h" :: _ | "--help" :: _ => .error .usage
  | "--json" :: args => readArguments positional limit true args
  | ["--limit"] => .error .limitMissing
  | "--limit" :: text :: args =>
    match readLimit text with
    | .ok n => readArguments positional (some n) json args
    | .error cause => .error (.badLimit text cause)
  | arg :: args =>
    if arg.toList.take 2 = ['-', '-'] then .error (.unknownOption arg)
    else readArguments (positional ++ [arg]) limit json args

def Options.ofArguments (args : List String) : Except Failure Options :=
  readArguments [] none false args

def Options.load (options : Options) (content : Except ReadError String) :
    Except Failure (Database × Cursor) := do
  let text ← content.mapError (.unreadable options.program)
  let clauses ← (Source.parseProgram text).mapError (.badProgram options.program)
  let goals ← (Source.parseQuery options.query).mapError .badQuery
  let db := Database.ofClauses clauses
  pure (db, db.query goals)

/-- The line for one answer, whose bindings are materialized. -/
def answerLine (json : Bool) (b : Bindings) : String :=
  if json then b.toJson.render
  else if b.size = 0 then "true."
  else b.text

/-- Printing under way: the search, how many answers may still be printed, and whether one was. -/
structure Printing where
  json : Bool
  limit : Option Nat
  db : Database
  cursor : Cursor
  found : Bool

inductive Printed where
  /-- The line of an answer, and what is printed behind it. -/
  | answer (line : String) (behind : Printing)
  /-- There are no more answers; a message is due if there was none at all. -/
  | finished (message : Option String)

namespace Printing

def start (options : Options) (db : Database) (cursor : Cursor) : Printing :=
  ⟨options.json, options.limit, db, cursor, false⟩

/-- Without any answer the query is false, which is said in text mode only. -/
def message (p : Printing) : Option String :=
  if p.found || p.json then none else some "false."

/-- Goes on to the next answer, in less than `n` steps. At the limit the search is not pulled. -/
def next (n : Nat) (p : Printing) : Option Printed :=
  if p.limit = some 0 then some (.finished p.message)
  else
    match p.db.pull n p.cursor with
    | none => none
    | some (none, _, _) => some (.finished p.message)
    | some (some b, cursor, db) =>
      b.materialize.map fun b => .answer (answerLine p.json b)
        { p with limit := p.limit.map (· - 1), db, cursor, found := true }

/-- All the lines, if the search needs less than `n` steps. -/
def lines : Nat → Printing → Option (List String)
  | 0, p =>
    match p.next 0 with
    | some (.finished message) => some message.toList
    | _ => none
  | n + 1, p =>
    match p.next (n + 1) with
    | none => none
    | some (.finished message) => some message.toList
    | some (.answer line behind) => (behind.lines n).map (line :: ·)

end Printing

structure Outcome where
  code : Nat
  output : String
  errors : String
deriving DecidableEq

def Failure.outcome (f : Failure) : Outcome := ⟨f.code, "", f.message⟩

/-- A run with the given arguments, where `read` reads files. There is no
outcome if the search needs `n` steps or more. -/
def run (n : Nat) (read : String → Except ReadError String) (args : List String) :
    Option Outcome :=
  match Options.ofArguments args with
  | .error f => some f.outcome
  | .ok options =>
    match options.load (read options.program) with
    | .error f => some f.outcome
    | .ok (db, cursor) => do
      let lines ← (Printing.start options db cursor).lines n
      pure ⟨0, String.join (lines.map (· ++ "\n")), ""⟩

end HornSearch.CommandLine
