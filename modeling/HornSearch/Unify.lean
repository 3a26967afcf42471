import HornSearch.Bindings

/-!
# Unification

`unify n b s t` extends the bindings `b` so that `s` and `t` become equal, or
reports the first pair of terms that clash. Arguments are unified from left to
right, each pair in the bindings that the pairs before it left.

There is no occurs check: a variable may be bound to a term in which it
occurs. Unification on such bindings need not come to an end, so `n` bounds
the nesting of calls: the answer is `none` when `n` is too small, and a larger
`n` never changes an answer that was found.
-/

namespace HornSearch

/-- Two terms, already resolved, that cannot be made equal. -/
structure Clash where
  left : Term
  right : Term
deriving DecidableEq

def Clash.message (c : Clash) : String :=
  "failed to unify " ++ c.left.text ++ " and " ++ c.right.text

/-- Binds `x` to a term that is no variable. A resolved variable is bound
already only if it is bound to itself; that binding clashes with the term. -/
def Bindings.bind (b : Bindings) (x : Var) (t : Term) : Except Clash Bindings :=
  match b.get? x.name with
  | some bound => .error ⟨bound, t⟩
  | none => .ok (b.put x t)

/-- Links two free variables by binding the one with the larger name to the
other, so the direction does not depend on the side on which each stands. -/
def Bindings.link (b : Bindings) (x y : Var) : Bindings :=
  match compare x.name y.name with
  | .lt => b.put y (.var x)
  | .gt => b.put x (.var y)
  | .eq => b

/-- Unifies terms pairwise with `unify`, stopping at the first clash. -/
def unifyPairs (unify : Bindings → Term → Term → Option (Except Clash Bindings)) :
    Bindings → List Term → List Term → Option (Except Clash Bindings)
  | b, s :: ss, t :: ts =>
    match unify b s t with
    | some (.ok b') => unifyPairs unify b' ss ts
    | stopped => stopped
  | b, _, _ => some (.ok b)

/-- Compounds unify if they have the same signature and their arguments
unify. -/
def unifyArgs (unify : Bindings → Term → Term → Option (Except Clash Bindings))
    (b : Bindings) (c d : Compound) : Option (Except Clash Bindings) :=
  if c.SameSignature d then unifyPairs unify b c.args d.args
  else some (.error ⟨c.toTerm, d.toTerm⟩)

/-- Unifies two resolved terms, with `unify` for their arguments. -/
def unifyRoots (unify : Bindings → Term → Term → Option (Except Clash Bindings))
    (b : Bindings) : Term → Term → Option (Except Clash Bindings)
  | .var x, .var y => some (.ok (b.link x y))
  | .var x, t => some (b.bind x t)
  | s, .var y => some (b.bind y s)
  | .num m, .num n => some (if m = n then .ok b else .error ⟨.num m, .num n⟩)
  | .atom a, .atom c => some (if a = c then .ok b else .error ⟨.atom a, .atom c⟩)
  | .app f ss, .app g ts => unifyArgs unify b ⟨f, ss⟩ ⟨g, ts⟩
  | s, t => some (.error ⟨s, t⟩)

/-- The bindings that make two terms equal, or the first clash. -/
def unify : Nat → Bindings → Term → Term → Option (Except Clash Bindings)
  | 0, _, _, _ => none
  | n + 1, b, s, t => do
    let s ← b.resolve s
    let t ← b.resolve t
    unifyRoots (unify n) b s t

def unifyCompound (n : Nat) (b : Bindings) (c d : Compound) :
    Option (Except Clash Bindings) :=
  unifyArgs (unify n) b c d

end HornSearch
