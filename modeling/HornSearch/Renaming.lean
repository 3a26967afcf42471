import HornSearch.Clause

/-!
# Renaming apart

Every use of a rule works on a copy with new variables. New variables are
numbered from one supply per database; the supply is the number of variables
drawn from it so far.

Numbers are 64-bit words, so names repeat only after 2^64 draws. A name in a
source text never begins with an underscore, so no variable of a program or a
query text is taken for a new one.
-/

namespace HornSearch

/-- The variable that the draw after `drawn` earlier draws gives. -/
def Var.fresh (drawn : Nat) : Var := ⟨"_G" ++ toString (drawn % UInt64.size), true⟩

/-- A renaming under way: the draws made so far, and the new variable of every
name met so far. -/
structure Renaming where
  drawn : Nat
  names : List (String × Var)

namespace Renaming

def start (drawn : Nat) : Renaming := ⟨drawn, []⟩

/-- The new variable of `x`: the same for all occurrences of one name, drawn
when the name is met first. -/
def rename (x : Var) (r : Renaming) : Term × Renaming :=
  match r.names.lookup x.name with
  | some y => (.var y, r)
  | none =>
    let y := Var.fresh r.drawn
    (.var y, ⟨r.drawn + 1, (x.name, y) :: r.names⟩)

/-- Renames a compound, its variables from left to right. -/
def compound (c : Compound) : StateM Renaming Compound := c.substM rename

def compounds : List Compound → StateM Renaming (List Compound)
  | [] => pure []
  | c :: cs => do
    let c ← compound c
    let cs ← compounds cs
    pure (c :: cs)

end Renaming

/-- A copy of the rule with new variables, numbered in the order in which the
names occur, the head first; and the draws made by then. -/
def Rule.instantiate (r : Rule) (drawn : Nat) : Rule × Nat :=
  let (head, met) := (Renaming.compound r.head).run (.start drawn)
  let (body, met) := (Renaming.compounds r.body).run met
  (⟨head, body⟩, met.drawn)

/-- A clause made ready for one use: a rule is renamed, a fact taken as it is. -/
def Clause.instantiate (c : Clause) (drawn : Nat) : Rule × Nat :=
  match c with
  | .fact head => (⟨head, []⟩, drawn)
  | .rule r => r.instantiate drawn

end HornSearch
