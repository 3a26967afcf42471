import Mathlib.Algebra.Group.Nat.Defs
import HornSearch.Source.Parser

/-!
# The grammar of programs and queries

Every kind of phrase is a relation between a text that begins with such a
phrase, the tree of the phrase, and the text behind it:

```text
blank     =  ( space | tab | carriage return | line feed | % line )*
name      =  a lower-case letter, then letters, digits and underscores
variable  =  an upper-case letter, then letters, digits and underscores
number    =  decimal digits, at most 2^63 - 1
compound  =  name blank ( blank term blank , ... , blank term blank )
term      =  compound | number | name | variable
goals     =  blank compound blank , ... , blank compound blank
clause    =  blank compound blank .  |  blank compound blank :- goals .
program   =  blank clause blank ... clause blank
query     =  blank goals . blank
```

A phrase may be as short or as long as its rule allows, and any rule may be
used. Only a comment looks at the text behind it: it runs to the end of its
line.
-/

namespace HornSearch.Source

/-! ## Words and blanks -/

/-- A first character of the given kind, then ASCII letters, digits and
underscores. -/
def IsWord (first : Char → Bool) (word : List Char) : Prop :=
  ∃ c cs, word = c :: cs ∧ first c = true ∧ ∀ d ∈ cs, isWordChar d = true

/-- `[a-z][A-Za-z0-9_]*` -/
abbrev IsName : List Char → Prop := IsWord Char.isLower

/-- `[A-Z][A-Za-z0-9_]*` -/
abbrev IsVariable : List Char → Prop := IsWord Char.isUpper

/-- `[0-9]+` -/
def IsNumber (digits : List Char) : Prop := digits ≠ [] ∧ ∀ c ∈ digits, c.isDigit = true

/-- The text is at a line end: a line feed, a carriage return with a line feed,
or the end of the whole text. -/
inductive LineEnd : List Char → Prop where
  | text : LineEnd []
  | feed {s : List Char} : LineEnd ('\n' :: s)
  | returnFeed {s : List Char} : LineEnd ('\r' :: '\n' :: s)

/-- Blanks and comments. A comment runs up to the next line end and has no
carriage return in it. -/
inductive Blank : List Char → List Char → Prop where
  | none {s : List Char} : Blank s s
  | space {c : Char} {s rest : List Char} (hc : c = ' ' ∨ c = '\t' ∨ c = '\r' ∨ c = '\n')
      (h : Blank s rest) : Blank (c :: s) rest
  | comment {line s rest : List Char} (hline : ∀ c ∈ line, c ≠ '\r' ∧ c ≠ '\n')
      (hend : LineEnd s) (h : Blank s rest) : Blank ('%' :: (line ++ s)) rest

theorem Blank.trans {s t rest : List Char} (h : Blank s t) (h' : Blank t rest) : Blank s rest := by
  induction h with
  | none => exact h'
  | space hc _ ih => exact .space hc (ih h')
  | comment hline hend _ ih => exact .comment hline hend (ih h')

/-! ## Phrases -/

/-- At least one item, with commas between items and blanks around each. -/
inductive Separated {α : Type} (item : List Char → α → List Char → Prop) :
    List Char → List α → List Char → Prop where
  | one {s t u rest : List Char} {a : α} (hbefore : Blank s t) (ha : item t a u)
      (hbehind : Blank u rest) : Separated item s [a] rest
  | cons {s t u v rest : List Char} {a : α} {as : List α} (hbefore : Blank s t) (ha : item t a u)
      (hbehind : Blank u (',' :: v)) (has : Separated item v as rest) :
      Separated item s (a :: as) rest

inductive Applied (term : List Char → Term → List Char → Prop) :
    List Char → Compound → List Char → Prop where
  | intro {name s t rest : List Char} {args : List Term} (hname : IsName name)
      (hopen : Blank s ('(' :: t)) (hargs : Separated term t args (')' :: rest)) :
      Applied term (name ++ s) ⟨.ofList name, args⟩ rest

inductive TermAt : List Char → Term → List Char → Prop where
  | compound {s rest : List Char} {f : String} {args : List Term}
      (h : Applied TermAt s ⟨f, args⟩ rest) : TermAt s (.app f args) rest
  | number {digits rest : List Char} (hdigits : IsNumber digits)
      (hmax : Nat.ofDigitChars 10 digits 0 ≤ 2 ^ 63 - 1) :
      TermAt (digits ++ rest) (.num (.ofNat (Nat.ofDigitChars 10 digits 0))) rest
  | name {name rest : List Char} (hname : IsName name) :
      TermAt (name ++ rest) (.atom (.ofList name)) rest
  | var {name rest : List Char} (hname : IsVariable name) :
      TermAt (name ++ rest) (.var (.ofName (.ofList name))) rest

abbrev CompoundAt : List Char → Compound → List Char → Prop := Applied TermAt

abbrev GoalsAt : List Char → List Compound → List Char → Prop := Separated CompoundAt

/-- A clause with its period. Without a body it is a fact if it has no variable,
and a rule otherwise. -/
inductive ClauseAt : List Char → Clause → List Char → Prop where
  | fact {s t u rest : List Char} {head : Compound} (hbefore : Blank s t)
      (hhead : CompoundAt t head u) (hbehind : Blank u ('.' :: rest)) (hvars : head.vars = []) :
      ClauseAt s (.fact head) rest
  | general {s t u rest : List Char} {head : Compound} (hbefore : Blank s t)
      (hhead : CompoundAt t head u) (hbehind : Blank u ('.' :: rest)) (hvars : head.vars ≠ []) :
      ClauseAt s (.rule ⟨head, []⟩) rest
  | rule {s t u v rest : List Char} {head : Compound} {body : List Compound}
      (hbefore : Blank s t) (hhead : CompoundAt t head u) (hbehind : Blank u (':' :: '-' :: v))
      (hbody : GoalsAt v body ('.' :: rest)) : ClauseAt s (.rule ⟨head, body⟩) rest

/-- Clauses up to the end of the text, each with blanks behind it. -/
inductive ClausesAt : List Char → List Clause → Prop where
  | nil : ClausesAt [] []
  | cons {s t u : List Char} {c : Clause} {cs : List Clause} (hc : ClauseAt s c t)
      (hbehind : Blank t u) (hcs : ClausesAt u cs) : ClausesAt s (c :: cs)

def IsProgram (s : List Char) (cs : List Clause) : Prop := ∃ t, Blank s t ∧ ClausesAt t cs

/-- The text is a query with these goals. -/
def IsQuery (s : List Char) (goals : List Compound) : Prop :=
  ∃ t u, Blank s t ∧ GoalsAt t goals ('.' :: u) ∧ Blank u []

/-! ## Blanks around phrases -/

section
variable {α : Type} {item : List Char → α → List Char → Prop} {s t rest rest' : List Char}

theorem Separated.before {as : List α} (h : Blank s t) (has : Separated item t as rest) :
    Separated item s as rest := by
  cases has with
  | one hbefore ha hbehind => exact .one (h.trans hbefore) ha hbehind
  | cons hbefore ha hbehind has => exact .cons (h.trans hbefore) ha hbehind has

theorem Separated.behind {as : List α} (has : Separated item s as rest) (h : Blank rest rest') :
    Separated item s as rest' := by
  induction has with
  | one hbefore ha hbehind => exact .one hbefore ha (hbehind.trans h)
  | cons hbefore ha hbehind _ ih => exact .cons hbefore ha hbehind (ih h)

theorem Separated.ne_nil {as : List α} (has : Separated item s as rest) : as ≠ [] := by
  cases has <;> simp

theorem ClauseAt.before {c : Clause} (h : Blank s t) (hc : ClauseAt t c rest) :
    ClauseAt s c rest := by
  cases hc with
  | fact hbefore hhead hbehind hvars => exact .fact (h.trans hbefore) hhead hbehind hvars
  | general hbefore hhead hbehind hvars => exact .general (h.trans hbefore) hhead hbehind hvars
  | rule hbefore hhead hbehind hbody => exact .rule (h.trans hbefore) hhead hbehind hbody

end

end HornSearch.Source
