import HornSearch.Clause
import HornSearch.Source.Location
import HornSearch.Source.Token

/-!
# Reading programs and queries

```text
term     =  name ( term , ... , term )  |  number  |  name  |  variable
compound =  name ( term , ... , term )
goals    =  compound , ... , compound
clause   =  compound .  |  compound :- goals .
program  =  clause ... clause
query    =  goals .
```

A parser takes tokens from the front of a list. On failure it gives the tokens
from the one that it could not accept on. A comma after which nothing can be
read is left for the caller, who will refuse it; a name whose arguments cannot
be read is an atom; a clause whose body cannot be read fails behind its head.

The number that parsers carry bounds their nesting and the length of their
lists; that of all tokens is enough.
-/

namespace HornSearch.Source

/-- A parser of `α`: what it read and the tokens behind it, or the tokens at
which it failed. -/
abbrev Parse (α : Type) := List Lexeme → Except (List Lexeme) (α × List Lexeme)

/-- One or more items with commas between them. -/
def commaSeparated {α : Type} (item : Parse α) : Nat → Parse (List α)
  | 0, ts => .error ts
  | n + 1, ts => do
    let (a, rest) ← item ts
    match rest with
    | ⟨.comma, _⟩ :: more =>
      match commaSeparated item n more with
      | .ok (as, rest) => .ok (a :: as, rest)
      | .error _ => .ok ([a], rest)
    | _ => .ok ([a], rest)

/-- Terms between parentheses, at least one. -/
def arguments (term : Parse Term) (n : Nat) : Parse (List Term)
  | ⟨.left, _⟩ :: ts => do
    let (args, rest) ← commaSeparated term n ts
    match rest with
    | ⟨.right, _⟩ :: rest => .ok (args, rest)
    | _ => .error rest
  | ts => .error ts

/-- A term. Numbers reach up to the largest signed 64-bit number. -/
def term : Nat → Parse Term
  | 0, ts => .error ts
  | n + 1, ts =>
    match ts with
    | ⟨.name f, _⟩ :: rest =>
      match arguments (term n) n rest with
      | .ok (args, rest) => .ok (.app f args, rest)
      | .error _ => .ok (.atom f, rest)
    | ⟨.number k, _⟩ :: rest =>
      if k < 2 ^ 63 then .ok (.num (Int64.ofNat k), rest) else .error ts
    | ⟨.var x, _⟩ :: rest => .ok (.var (.ofName x), rest)
    | _ => .error ts

def compound (n : Nat) : Parse Compound
  | ⟨.name f, _⟩ :: ts => do
    let (args, rest) ← arguments (term n) n ts
    .ok (⟨f, args⟩, rest)
  | ts => .error ts

def goals (n : Nat) : Parse (List Compound) := commaSeparated (compound n) n

def clause (n : Nat) : Parse Clause := fun ts => do
  let (head, rest) ← compound n ts
  match rest with
  | ⟨.period, _⟩ :: rest => .ok (.classify head, rest)
  | ⟨.neck, _⟩ :: body =>
    match goals n body with
    | .ok (gs, ⟨.period, _⟩ :: rest) => .ok (.rule ⟨head, gs⟩, rest)
    | _ => .error rest
  | _ => .error rest

/-- At most `k` clauses up to the end, each bounded by `n`. -/
def clauses (n : Nat) : Nat → List Lexeme → Except (List Lexeme) (List Clause)
  | _, [] => .ok []
  | 0, ts => .error ts
  | k + 1, ts => do
    let (c, rest) ← clause n ts
    let cs ← clauses n k rest
    .ok (c :: cs)

/-- Goals and a period up to the end. -/
def conjunction (n : Nat) (ts : List Lexeme) : Except (List Lexeme) (List Compound) := do
  let (gs, rest) ← goals n ts
  match rest with
  | [⟨.period, _⟩] => .ok gs
  | ⟨.period, _⟩ :: rest => .error rest
  | _ => .error rest

/-- Reads a whole text as tokens and places the error, if any. -/
def parse {α : Type} (whole : Nat → List Lexeme → Except (List Lexeme) α) (text : String) :
    Except SyntaxError α :=
  let text := text.toList
  let ts := tokens text
  match whole ts.length ts with
  | .ok a => .ok a
  | .error [] => .error (.locate text [])
  | .error (t :: _) => .error (.locate text t.start)

def parseProgram (text : String) : Except SyntaxError (List Clause) :=
  parse (fun n => clauses n n) text

def parseQuery (text : String) : Except SyntaxError (List Compound) :=
  parse conjunction text

end HornSearch.Source
