import HornSearch.Term

/-!
# Clauses

A program is a list of clauses. A *fact* is used exactly as it stands; a
*rule* is a template whose variables are renamed before every use.

`Clause.classify` reads a bare head: one with variables becomes a rule without
body, so that its variables are renamed too.
-/

namespace HornSearch

/-- `head` holds whenever all goals of `body` hold. -/
structure Rule where
  head : Compound
  body : List Compound
deriving DecidableEq

inductive Clause where
  | fact (head : Compound)
  | rule (r : Rule)
deriving DecidableEq

def Compound.textAll (goals : List Compound) : String :=
  String.ofList (Term.charsAll (goals.map Compound.toTerm) [])

namespace Rule

/-- The variable occurrences, the head's first. -/
def vars (r : Rule) : List Var := r.head.vars ++ r.body.flatMap Compound.vars

/-- `head :- goal, goal.`, or `head.` if there is no goal. -/
def text (r : Rule) : String :=
  match r.body with
  | [] => r.head.text ++ "."
  | body => r.head.text ++ " :- " ++ Compound.textAll body ++ "."

end Rule

namespace Clause

/-- A head without variables is a fact, any other a rule without body. -/
def classify (head : Compound) : Clause :=
  if head.isGround then .fact head else .rule ⟨head, []⟩

/-- What the clause concludes. -/
def head : Clause → Compound
  | .fact head => head
  | .rule r => r.head

/-- What the clause needs: nothing for a fact. -/
def body : Clause → List Compound
  | .fact _ => []
  | .rule r => r.body

def text : Clause → String
  | .fact head => head.text ++ "."
  | .rule r => r.text

/-- The clause with every variable's flag cleared. -/
def unflagged : Clause → Clause
  | .fact head => .fact (clear head)
  | .rule r => .rule ⟨clear r.head, r.body.map clear⟩
where
  clear (c : Compound) : Compound := ⟨c.name, c.args.map Term.unflagged⟩

/-- Equal clauses, when a variable is identified by its name alone. -/
def Alike (c d : Clause) : Prop := c.unflagged = d.unflagged

instance (c d : Clause) : Decidable (c.Alike d) :=
  inferInstanceAs (Decidable (c.unflagged = d.unflagged))

end Clause

end HornSearch
