import HornSearch.Database

/-!
# Traces

What a search reports about its work: the query when it is made, every clause
of the goal's signature that is tried, every clash, and every answer as raw
bindings. Clauses are shown as stored, goals as they stand in the list of
goals.
-/

namespace HornSearch

inductive Event where
  | loaded (clauses : Nat)
  | query (goals : List Compound) (clauses : Nat)
  | trying (c : Clause) (goal : Compound)
  | rejected (clash : Clash)
  | solution (b : Bindings)

/-- A report as a line of a log: its level, then its message. -/
def Event.line : Event → String
  | .loaded k => "DEBUG loaded " ++ toString k ++ " declarations"
  | .query goals k =>
    "DEBUG query `" ++ Compound.textAll goals ++ ".` against " ++ toString k ++ " declarations"
  | .trying c goal => "TRACE trying `" ++ c.text ++ "` for `" ++ goal.text ++ "`"
  | .rejected clash => "TRACE rejected: " ++ clash.message
  | .solution b => "DEBUG solution " ++ b.text

/-- What the next step of a search reports. -/
def stepEvents (n drawn : Nat) : List Frame → List Event
  | ⟨[], b, _⟩ :: _ => [.solution b]
  | ⟨goal :: _, b, c :: _⟩ :: _ =>
    if goal.SameSignature c.head then
      match unifyCompound n b goal (c.instantiate drawn).1.head with
      | some (.error clash) => [.trying c goal, .rejected clash]
      | _ => [.trying c goal]
    else []
  | _ => []

/-- Everything that a search reports until `limit` answers are found, put in
front of `before`; the latest report comes first. -/
def traceOnto (clauses : List Clause) (before : List Event) :
    Nat → Option Nat → Nat → List Frame → List Event
  | 0, _, _, _ | _, some 0, _, _ => before
  | n + 1, limit, drawn, stack =>
    let before := (stepEvents n drawn stack).reverse ++ before
    match step clauses n drawn stack with
    | some (.answer _ stack) => traceOnto clauses before n (limit.map (· - 1)) drawn stack
    | some (.moved drawn stack) => traceOnto clauses before n limit drawn stack
    | _ => before

/-- Everything that pulling `limit` answers from a search reports, in order. -/
def Database.trace (db : Database) (n : Nat) (limit : Option Nat) (cursor : Cursor) :
    List Event :=
  (traceOnto db.clauses [] n limit db.drawn cursor.stack).reverse

end HornSearch
