import HornSearch.Trace

/-!
# Sessions

Several searches on one database, pulled in any order. They share the supply
of new variables and nothing else: a search sees what another one draws only
in the numbers of its own new variables.
-/

namespace HornSearch

/-- A database and the searches begun on it, by number. A search that was
dropped is `none`. -/
structure Session where
  database : Database
  cursors : List (Option Cursor)

inductive Request where
  | query (goals : List Compound)
  | pull (i : Nat)
  | drop (i : Nat)
  | freshVar
  | instantiate (r : Rule)

inductive Reply where
  | started (i : Nat)
  | answer (b : Bindings)
  | finished
  /-- The search was dropped before. -/
  | dropped
  /-- Whether the search was still there. -/
  | wasOpen (b : Bool)
  | freshVar (x : Var)
  | renamed (r : Rule)

namespace Session

def start (database : Database) : Session := ⟨database, []⟩

/-- The search of a number, unless it was dropped. -/
def cursor? (s : Session) (i : Nat) : Option Cursor := s.cursors[i]?.join

/-- Carries out a request; a pull may take less than `n` steps. -/
def perform (s : Session) (n : Nat) : Request → Option (Reply × Session)
  | .query goals =>
    some (.started s.cursors.length,
      { s with cursors := s.cursors ++ [some (s.database.query goals)] })
  | .pull i =>
    match s.cursor? i with
    | none => some (.dropped, s)
    | some cursor => do
      let (answer, cursor, database) ← s.database.pull n cursor
      pure ((answer.map Reply.answer).getD .finished,
        ⟨database, s.cursors.set i (some cursor)⟩)
  | .drop i => some (.wasOpen (s.cursor? i).isSome, { s with cursors := s.cursors.set i none })
  | .freshVar =>
    let (x, database) := s.database.freshVar
    some (.freshVar x, { s with database })
  | .instantiate r =>
    let (r, database) := s.database.instantiate r
    some (.renamed r, { s with database })

/-- What a session reports while it carries out a request. -/
def events (s : Session) (n : Nat) : Request → List Event
  | .query goals => [.query goals s.database.size]
  | .pull i =>
    match s.cursor? i with
    | none => []
    | some cursor => s.database.trace n (some 1) cursor
  | _ => []

end Session

end HornSearch
