import HornSearch.Search

/-!
# Databases

A database is a list of clauses together with the supply of new variables that
all its queries share. Clauses are kept in the order in which they are tried.

`Database.push` stores a clause as it is. `Database.addFact` classifies, so a
head with variables is stored as a rule.
-/

namespace HornSearch

/-- Clauses, and how many new variables have been drawn. -/
structure Database where
  clauses : List Clause
  drawn : Nat
deriving DecidableEq

namespace Database

/-- A database from which no variable has been drawn. -/
def ofClauses (clauses : List Clause) : Database := ⟨clauses, 0⟩

/-- Adds a clause after all others. -/
def push (db : Database) (c : Clause) : Database := { db with clauses := db.clauses ++ [c] }

def addFact (db : Database) (head : Compound) : Database := db.push (.classify head)

def addRule (db : Database) (r : Rule) : Database := db.push (.rule r)

def size (db : Database) : Nat := db.clauses.length

/-- The count of the variables drawn, as a 64-bit word. -/
def freshCount (db : Database) : Nat := db.drawn % UInt64.size

def freshVar (db : Database) : Var × Database :=
  (.fresh db.drawn, { db with drawn := db.drawn + 1 })

def instantiate (db : Database) (r : Rule) : Rule × Database :=
  let (r, drawn) := r.instantiate db.drawn
  (r, { db with drawn })

/-- A search for `goals`; nothing is drawn before it is pulled. -/
def query (db : Database) (goals : List Compound) : Cursor := .start db.clauses goals

/-- The next answer of a search, the search after it, and the database with the
variables drawn on the way. -/
def pull (db : Database) (n : Nat) (cursor : Cursor) :
    Option (Option Bindings × Cursor × Database) := do
  let p ← HornSearch.pull db.clauses n db.drawn cursor
  pure (p.answer, p.cursor, { db with drawn := p.drawn })

/-- Answers of a search up to a limit, and the database afterwards. -/
def collect (db : Database) (n : Nat) (limit : Option Nat) (cursor : Cursor) :
    Option (Collected × Database) := do
  let c ← HornSearch.collect db.clauses n limit db.drawn cursor
  pure (c, { db with drawn := c.drawn })

def ask (db : Database) (n : Nat) (goals : List Compound) : Option (Bool × Database) := do
  let (answer, _, db) ← db.pull n (db.query goals)
  pure (answer.isSome, db)

/-- Equal clauses in the same order; the supply plays no part. -/
def Alike (db db' : Database) : Prop :=
  db.clauses.map Clause.unflagged = db'.clauses.map Clause.unflagged

instance (db db' : Database) : Decidable (db.Alike db') :=
  inferInstanceAs (Decidable (_ = _))

end Database

end HornSearch
