import Std.Data.ExtTreeMap
import HornSearch.Term

/-!
# Bindings

A finite map from variable names to terms. Bindings are *triangular*: a value
may mention variables that are bound in turn, so a term is read by following
bindings.

* `Bindings.resolve` follows a variable to the first term that is no bound
  variable; it has no answer when the variable leads back to itself through
  other variables;
* `Bindings.resolveDeep` does so at every depth; it has no answer when some
  variable reaches itself, also through arguments;
* `Bindings.materialize` keeps the bindings of host variables, those that no
  renaming made, resolved at every depth.

No path through distinct variables follows more bindings than there are, so
that many steps decide both.

`Bindings.binding?` is the view of the type: bindings with the same entries are
equal (`ext_binding?`), and `binding?_put` says what binding a variable changes.
-/

namespace HornSearch

/-- What is stored under a name: the flag of the variable that was bound, and
its value. -/
structure Binding where
  internal : Bool
  value : Term
deriving DecidableEq

/-- Bindings by variable name. Equal bindings hold the same entries. -/
structure Bindings where
  entries : Std.ExtTreeMap String Binding compare
deriving DecidableEq

namespace Bindings

def empty : Bindings := ⟨∅⟩

def binding? (b : Bindings) (name : String) : Option Binding := b.entries[name]?

/-- The value stored for a name, not followed. -/
def get? (b : Bindings) (name : String) : Option Term := (b.binding? name).map Binding.value

/-- Binds a variable. An earlier binding of the name is replaced, value and
flag alike. -/
def put (b : Bindings) (x : Var) (t : Term) : Bindings :=
  ⟨b.entries.insert x.name ⟨x.internal, t⟩⟩

/-- Bindings are the entries that look-ups find. -/
theorem ext_binding? {b c : Bindings} (h : ∀ name, b.binding? name = c.binding? name) : b = c := by
  cases b; cases c
  exact congrArg Bindings.mk (Std.ExtTreeMap.ext_getElem? h)

@[simp] theorem binding?_empty (name : String) : empty.binding? name = none := by
  simp [empty, binding?]

@[simp] theorem binding?_put (b : Bindings) (x : Var) (t : Term) (name : String) :
    (b.put x t).binding? name =
      if x.name = name then some ⟨x.internal, t⟩ else b.binding? name := by
  simp only [binding?, put, Std.ExtTreeMap.getElem?_insert, Std.LawfulEqCmp.compare_eq_iff_eq]

@[simp] theorem get?_empty (name : String) : empty.get? name = none := by
  simp [get?]

@[simp] theorem get?_put (b : Bindings) (x : Var) (t : Term) (name : String) :
    (b.put x t).get? name = if x.name = name then some t else b.get? name := by
  simp only [get?, binding?_put]
  split <;> rfl

def size (b : Bindings) : Nat := b.entries.size

/-- The entries in the order of their names. -/
def toList (b : Bindings) : List (String × Binding) := b.entries.toList

def ofList (pairs : List (Var × Term)) : Bindings :=
  pairs.foldl (fun b (x, t) => b.put x t) empty

/-! ## Following bindings -/

/-- The value that stands for `t` if `t` is a bound variable. A variable bound
to itself counts as unbound. -/
def follow? (b : Bindings) (t : Term) : Option Term :=
  match t with
  | .var x =>
    match b.get? x.name with
    | some (.var y) => if y.name = x.name then none else some (.var y)
    | found => found
  | _ => none

/-- Follows at most `n` bindings; no answer if one more would be needed. -/
def walk (b : Bindings) : Nat → Term → Option Term
  | 0, t => if (b.follow? t).isNone then some t else none
  | n + 1, t =>
    match b.follow? t with
    | none => some t
    | some u => b.walk n u

def resolve (b : Bindings) (t : Term) : Option Term := b.walk b.size t

/-- Replaces bound variables at every depth, following at most `n` bindings
on the way to any part of the result. -/
def expand (b : Bindings) : Nat → Term → Option Term
  | 0 => Term.substM fun x =>
    if (b.follow? (.var x)).isNone then some (.var x) else none
  | n + 1 => Term.substM fun x =>
    match b.follow? (.var x) with
    | none => some (.var x)
    | some t => b.expand n t

/-- What `t` stands for, at every depth. -/
def resolveDeep (b : Bindings) (t : Term) : Option Term := b.expand b.size t

/-! ## Answers for the host -/

/-- A free internal variable: it tells a host nothing. -/
def isAnonymous : Term → Bool
  | .var x => x.internal
  | _ => false

/-- The bindings of host variables with their values resolved at every depth.
A host variable that resolves to a free internal variable is left out, being
still unbound. -/
def materialize (b : Bindings) : Option Bindings := do
  let resolved ← (b.toList.filter fun (_, e) => !e.internal).mapM fun (name, e) => do
    let t ← b.resolveDeep e.value
    pure (Var.mk name e.internal, t)
  pure (ofList (resolved.filter fun (_, t) => !isAnonymous t))

/-! ## Comparison and written form -/

/-- Equal bindings, when a variable is identified by its name alone. -/
def Alike (b c : Bindings) : Prop :=
  b.toList.map (fun (x, e) => (x, e.value.unflagged)) =
    c.toList.map (fun (x, e) => (x, e.value.unflagged))

instance (b c : Bindings) : Decidable (b.Alike c) :=
  inferInstanceAs (Decidable (_ = _))

/-- `X = 1, Y = f(Z)` between braces, in the order of the names. -/
def text (b : Bindings) : String :=
  let entry : String × Binding → String := fun (x, e) => x ++ " = " ++ e.value.text
  "\x7b" ++ ", ".intercalate (b.toList.map entry) ++ "\x7d"

end Bindings

end HornSearch
