import HornSearch.Bindings
import HornSearch.Clause
import HornSearch.Json.Reader

/-!
# Terms and clauses as JSON

A variant is an object with one key that names it; a structure is an object of
its fields; a list is an array.

```text
term      =  Num: integer  |  Atom: string  |  Var: variable  |  Functor: compound
variable  =  name: string, internal: boolean
compound  =  name: string, args: [term, ...]
rule      =  head: compound, body: [compound, ...]
clause    =  Fact: compound  |  Rule: rule
```

Reading is as lenient as the format: fields may come in any order, unknown
fields are skipped, and a structure may also be an array of exactly its fields.
A field that is missing or repeated is refused. Readers carry the number of
containers that may still be opened.
-/

namespace HornSearch

/-! ## Writing -/

def Var.toJson (x : Var) : Json :=
  .ofFields [("name", .ofText x.name), ("internal", .bool x.internal)]

namespace Term

mutual
def toJson : Term → Json
  | .num n => .ofFields [("Num", .integer n.toInt)]
  | .atom a => .ofFields [("Atom", .ofText a)]
  | .var x => .ofFields [("Var", x.toJson)]
  | .app f args =>
    .ofFields [("Functor", .ofFields [("name", .ofText f), ("args", .array (toJsonAll args))])]

def toJsonAll : List Term → List Json
  | [] => []
  | t :: ts => toJson t :: toJsonAll ts
end

end Term

def Compound.toJson (c : Compound) : Json :=
  .ofFields [("name", .ofText c.name), ("args", .array (Term.toJsonAll c.args))]

def Rule.toJson (r : Rule) : Json :=
  .ofFields [("head", r.head.toJson), ("body", .array (r.body.map Compound.toJson))]

def Clause.toJson : Clause → Json
  | .fact head => .ofFields [("Fact", head.toJson)]
  | .rule r => .ofFields [("Rule", r.toJson)]

/-- The values under the names of their variables, in the order of the names. -/
def Bindings.toJson (b : Bindings) : Json :=
  .ofFields (b.toList.map fun (x, e) => (x, e.value.toJson))

/-! ## Reading -/

namespace Json

def toText? : Json → Option String
  | .string written => unquote written
  | _ => none

def toBool? : Json → Option Bool
  | .bool b => some b
  | _ => none

/-- An integer that fits into 64 bits with a sign. -/
def toInt64? : Json → Option Int64
  | .integer n =>
    if Int64.minValue.toInt ≤ n ∧ n ≤ Int64.maxValue.toInt then some (Int64.ofInt n) else none
  | _ => none

def toItems? : Json → Option (List Json)
  | .array items => some items
  | _ => none

/-- The only entry of an object: the name of a variant and what it holds. -/
def toVariant? : Json → Option (String × Json)
  | .object [(key, value)] => (unquote key).map (·, value)
  | _ => none

/-- The only value under a key. -/
def valueOf (key : String) (fields : List (String × Json)) : Option Json :=
  match fields.filter (·.1 = key) with
  | [(_, value)] => some value
  | _ => none

/-- The values of a structure's fields, which are named in order. -/
def toFields? (names : List String) : Json → Option (List Json)
  | .array items => if items.length = names.length then some items else none
  | .object fields => do
    let fields ← fields.mapM fun (key, value) => (unquote key).map (·, value)
    names.mapM fun name => valueOf name fields
  | _ => none

end Json

/-- Reads a value that may open `room` more containers, one inside the other. -/
abbrev JsonReader (α : Type) := (room : Nat) → Json → Option α

def Var.ofJson? : JsonReader Var
  | _ + 1, j => do
    match ← j.toFields? ["name", "internal"] with
    | [name, internal] => pure ⟨← name.toText?, ← internal.toBool?⟩
    | _ => none
  | _, _ => none

/-- Reads a compound with `term` for its arguments, which stand two containers
deeper. -/
def Compound.ofJsonWith (term : Json → Option Term) (j : Json) : Option Compound := do
  match ← j.toFields? ["name", "args"] with
  | [name, args] => pure ⟨← name.toText?, ← (← args.toItems?).mapM term⟩
  | _ => none

def Term.ofJson? : JsonReader Term
  | 0, _ => none
  | room + 1, j => do
    let (variant, content) ← j.toVariant?
    match variant with
    | "Num" => Term.num <$> content.toInt64?
    | "Atom" => Term.atom <$> content.toText?
    | "Var" => Term.var <$> Var.ofJson? room content
    | "Functor" =>
      match room with
      | room + 2 => Compound.toTerm <$> Compound.ofJsonWith (Term.ofJson? room) content
      | _ => none
    | _ => none

def Compound.ofJson? : JsonReader Compound
  | room + 2, j => Compound.ofJsonWith (Term.ofJson? room) j
  | _, _ => none

def Rule.ofJson? : JsonReader Rule
  | room + 2, j => do
    match ← j.toFields? ["head", "body"] with
    | [head, body] =>
      pure ⟨← Compound.ofJson? (room + 1) head,
        ← (← body.toItems?).mapM (Compound.ofJson? room)⟩
    | _ => none
  | _, _ => none

def Clause.ofJson? : JsonReader Clause
  | 0, _ => none
  | room + 1, j => do
    let (variant, content) ← j.toVariant?
    match variant with
    | "Fact" => Clause.fact <$> Compound.ofJson? room content
    | "Rule" => Clause.rule <$> Rule.ofJson? room content
    | _ => none

/-- Reads a text with `reader`. Less than 128 containers may be open at a time. -/
def Json.decode {α : Type} (reader : JsonReader α) (text : String) : Option α :=
  (Json.read text).bind (reader 127)

end HornSearch
