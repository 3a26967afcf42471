/-!
# Terms

First-order terms over numbers, atoms, variables and compound terms.

* a variable is identified by its name; the `internal` flag only records that
  it was made by renaming a clause apart;
* `Term.substM` is the one traversal that replaces variables, from left to
  right, under any monad; `Term.subst` is its pure form;
* `Term.Alike` is equality of terms up to the flags of their variables;
* `Term.chars` and `Term.text` are the written form of a term.
-/

namespace HornSearch

structure Var where
  name : String
  internal : Bool
deriving DecidableEq

/-- A variable that occurs in a program, a query or a host term. -/
def Var.ofName (name : String) : Var := ⟨name, false⟩

/-- A first-order term. An atom differs from a compound term without
arguments. -/
inductive Term where
  | num (n : Int64)
  | atom (name : String)
  | var (x : Var)
  | app (name : String) (args : List Term)

namespace Term

mutual
def decEq : (s t : Term) → Decidable (s = t)
  | .num m, .num n => if h : m = n then .isTrue (by rw [h]) else .isFalse (by simp [h])
  | .atom a, .atom b => if h : a = b then .isTrue (by rw [h]) else .isFalse (by simp [h])
  | .var x, .var y => if h : x = y then .isTrue (by rw [h]) else .isFalse (by simp [h])
  | .app f ss, .app g ts =>
    if hf : f = g then
      match decEqAll ss ts with
      | .isTrue h => .isTrue (by rw [hf, h])
      | .isFalse h => .isFalse (by simp [h])
    else .isFalse (by simp [hf])
  | .num _, .atom _ | .num _, .var _ | .num _, .app _ _
  | .atom _, .num _ | .atom _, .var _ | .atom _, .app _ _
  | .var _, .num _ | .var _, .atom _ | .var _, .app _ _
  | .app _ _, .num _ | .app _ _, .atom _ | .app _ _, .var _ => .isFalse (by simp)

def decEqAll : (ss ts : List Term) → Decidable (ss = ts)
  | [], [] => .isTrue rfl
  | [], _ :: _ | _ :: _, [] => .isFalse (by simp)
  | s :: ss, t :: ts =>
    match decEq s t with
    | .isTrue h =>
      match decEqAll ss ts with
      | .isTrue hs => .isTrue (by rw [h, hs])
      | .isFalse hs => .isFalse (by simp [hs])
    | .isFalse h => .isFalse (by simp [h])
end

instance : DecidableEq Term := decEq

/-! ## Variables -/

mutual
def vars : Term → List Var
  | .num _ | .atom _ => []
  | .var x => [x]
  | .app _ args => varsAll args

def varsAll : List Term → List Var
  | [] => []
  | t :: ts => vars t ++ varsAll ts
end

def isGround (t : Term) : Bool := t.vars.isEmpty

section
variable {m : Type → Type} [Monad m]

mutual
/-- Puts `f x` for every occurrence of a variable `x`, from left to right. -/
def substM (f : Var → m Term) : Term → m Term
  | .num n => pure (.num n)
  | .atom a => pure (.atom a)
  | .var x => f x
  | .app g args => do
    let args ← substAllM f args
    pure (.app g args)

def substAllM (f : Var → m Term) : List Term → m (List Term)
  | [] => pure []
  | t :: ts => do
    let t ← substM f t
    let ts ← substAllM f ts
    pure (t :: ts)
end

end

/-- Puts `f x` for every variable `x`, all at once. -/
def subst (f : Var → Term) (t : Term) : Term :=
  Id.run (substM (fun x => pure (f x)) t)

/-- The term with every variable's flag cleared. -/
def unflagged : Term → Term := subst fun x => .var (.ofName x.name)

/-- Equal terms, when a variable is identified by its name alone. -/
def Alike (s t : Term) : Prop := s.unflagged = t.unflagged

instance (s t : Term) : Decidable (Alike s t) :=
  inferInstanceAs (Decidable (s.unflagged = t.unflagged))

/-! ## Written form -/

mutual
/-- The written form of a term in front of `rest`: numbers in decimal, names
bare, arguments between parentheses. -/
def chars : Term → List Char → List Char
  | .num n, rest => (toString n.toInt).toList ++ rest
  | .atom a, rest => a.toList ++ rest
  | .var x, rest => x.name.toList ++ rest
  | .app f args, rest => f.toList ++ '(' :: charsAll args (')' :: rest)

def charsAll : List Term → List Char → List Char
  | [], rest => rest
  | [t], rest => chars t rest
  | t :: ts, rest => chars t (',' :: ' ' :: charsAll ts rest)
end

def text (t : Term) : String := String.ofList (t.chars [])

end Term

/-- A name applied to arguments: a goal, the head of a clause, or the
outermost layer of a compound term. -/
structure Compound where
  name : String
  args : List Term
deriving DecidableEq

namespace Compound

def toTerm (c : Compound) : Term := .app c.name c.args

def arity (c : Compound) : Nat := c.args.length

/-- Only goals and heads of one name and one arity can ever be made equal. -/
def SameSignature (c d : Compound) : Prop := c.name = d.name ∧ c.arity = d.arity

instance (c d : Compound) : Decidable (c.SameSignature d) :=
  inferInstanceAs (Decidable (_ ∧ _))

def vars (c : Compound) : List Var := Term.varsAll c.args

def isGround (c : Compound) : Bool := c.vars.isEmpty

/-- `Term.substM` in every argument. -/
def substM {m : Type → Type} [Monad m] (f : Var → m Term) (c : Compound) : m Compound := do
  let args ← Term.substAllM f c.args
  pure ⟨c.name, args⟩

def text (c : Compound) : String := c.toTerm.text

end Compound

end HornSearch
