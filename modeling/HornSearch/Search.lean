import HornSearch.Renaming
import HornSearch.Unify

/-!
# Search

Depth-first resolution of a conjunction of goals against a list of clauses.
Goals are solved from left to right and clauses are tried in program order, so
the order of the answers is fixed by the program.

A search is a stack of choice points. `step` looks at the innermost one:

* it has no goal left: its bindings are an answer, and it leaves the stack;
* it has no clause left to try: it leaves the stack;
* otherwise its next clause is tried for its first goal. The choice point stays
  only if more clauses remain, and a clause that applies puts the goals that
  are left then on top.

`pull` steps up to the next answer. A left-recursive program can search
forever, so `pull` and `collect` take a bound on their work; the answer is
`none` when the bound is too small, and a larger bound never changes an answer
that was found.
-/

namespace HornSearch

/-- A choice point: goals to prove under some bindings, and the clauses not
yet tried for the first of them. -/
structure Frame where
  goals : List Compound
  bindings : Bindings
  pending : List Clause
deriving DecidableEq

/-- A search under way: its choice points, the innermost first. -/
structure Cursor where
  stack : List Frame
deriving DecidableEq

def Cursor.start (clauses : List Clause) (goals : List Compound) : Cursor :=
  ⟨[⟨goals, .empty, clauses⟩]⟩

/-- Tries one clause for the goal `goal`, with the goals `rest` behind it.
Nothing is drawn for a clause of another signature. Gives the draws made by
then and, if the clause applies, the choice point to go on with. -/
def tryClause (clauses : List Clause) (n drawn : Nat) (b : Bindings) (goal : Compound)
    (rest : List Compound) (c : Clause) : Option (Nat × Option Frame) :=
  if goal.SameSignature c.head then
    let (r, drawn) := c.instantiate drawn
    match unifyCompound n b goal r.head with
    | none => none
    | some (.error _) => some (drawn, none)
    | some (.ok b) => some (drawn, some ⟨r.body ++ rest, b, clauses⟩)
  else some (drawn, none)

inductive Step where
  /-- There is no choice point left. -/
  | finished
  /-- An answer, and the choice points that are left. -/
  | answer (b : Bindings) (stack : List Frame)
  /-- The draws made by then and the new stack. -/
  | moved (drawn : Nat) (stack : List Frame)

/-- One step of a search; `n` bounds the unification it may need. -/
def step (clauses : List Clause) (n drawn : Nat) : List Frame → Option Step
  | [] => some .finished
  | ⟨[], b, _⟩ :: stack => some (.answer b stack)
  | ⟨_ :: _, _, []⟩ :: stack => some (.moved drawn stack)
  | ⟨goal :: rest, b, c :: pending⟩ :: stack =>
    let below := if pending.isEmpty then stack else ⟨goal :: rest, b, pending⟩ :: stack
    match tryClause clauses n drawn b goal rest c with
    | none => none
    | some (drawn, none) => some (.moved drawn below)
    | some (drawn, some frame) => some (.moved drawn (frame :: below))

/-- What pulling a search gives: the next answer, or none at its end. -/
structure Pulled where
  answer : Option Bindings
  drawn : Nat
  cursor : Cursor
deriving DecidableEq

/-- Runs a search up to its next answer or its end, in less than `n` steps. -/
def pull (clauses : List Clause) : Nat → Nat → Cursor → Option Pulled
  | 0, _, _ => none
  | n + 1, drawn, cursor =>
    match step clauses n drawn cursor.stack with
    | none => none
    | some .finished => some ⟨none, drawn, ⟨[]⟩⟩
    | some (.answer b stack) => some ⟨some b, drawn, ⟨stack⟩⟩
    | some (.moved drawn stack) => pull clauses n drawn ⟨stack⟩

structure Collected where
  answers : List Bindings
  /-- The search reported its end. -/
  finished : Bool
  drawn : Nat
deriving DecidableEq

/-- Pulls answers until there are `limit` of them, or to the end if there is no
limit. Once the limit is reached the search is not pulled again. -/
def collect (clauses : List Clause) : Nat → Option Nat → Nat → Cursor → Option Collected
  | _, some 0, drawn, _ => some ⟨[], false, drawn⟩
  | 0, _, _, _ => none
  | n + 1, limit, drawn, cursor =>
    match pull clauses (n + 1) drawn cursor with
    | none => none
    | some ⟨none, drawn, _⟩ => some ⟨[], true, drawn⟩
    | some ⟨some b, drawn, cursor⟩ =>
      match collect clauses n (limit.map (· - 1)) drawn cursor with
      | none => none
      | some rest => some { rest with answers := b :: rest.answers }

end HornSearch
