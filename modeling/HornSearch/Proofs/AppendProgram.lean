import HornSearch.Proofs.QueryAliases
import HornSearch.Proofs.Solvability
import HornSearch.Source.Parser

/-!
# What the program for append answers

`append(nil, Y, Y). append(cons(X, Xs), Y, cons(X, Z)) :- append(Xs, Y, Z).` derives
`append(s, t, w)` only if `s` is a list and `w` is this list in front of `t` (`appended_of_holds`).
It is asked to join two lists, or to split one. So whatever the lengths, an acyclic answer shows
what the lists are joined (`joined_of_run`), or a split of the list (`split_of_run`).
-/

namespace HornSearch

/-! ## Lists -/

@[ext] structure GroundTerm where
  term : Term
  ground : term.vars = []

namespace GroundTerm

def nil : GroundTerm := ⟨.atom "nil", Term.vars_atom _⟩

def cons (x xs : GroundTerm) : GroundTerm :=
  ⟨.app "cons" [x.term, xs.term], by simp [Term.vars, Term.varsAll, x.ground, xs.ground]⟩

def list : List GroundTerm → GroundTerm
  | [] => nil
  | x :: xs => cons x (list xs)

@[simp] theorem term_nil : nil.term = .atom "nil" := rfl

@[simp] theorem term_cons (x xs : GroundTerm) :
    (cons x xs).term = .app "cons" [x.term, xs.term] :=
  rfl

@[simp] theorem list_nil : list [] = nil := rfl

@[simp] theorem list_cons (x : GroundTerm) (xs : List GroundTerm) :
    list (x :: xs) = cons x (list xs) :=
  rfl

theorem term_over (x : GroundTerm) (V : Var → Prop) : x.term.Over V := by
  simp [Term.Over, x.ground]

theorem term_list_cons {s t : Term} {x : GroundTerm} {xs : List GroundTerm} :
    .app "cons" [s, t] = (list (x :: xs)).term ↔ s = x.term ∧ t = (list xs).term := by
  simp

end GroundTerm

open GroundTerm (nil cons list)

/-! ## The program -/

def appendGoal (x y z : Term) : Compound := ⟨"append", [x, y, z]⟩

/-- `append(nil, Y, Y).` -/
def appendNil : Rule :=
  ⟨appendGoal (.atom "nil") (.var (.ofName "Y")) (.var (.ofName "Y")), []⟩

/-- `append(cons(X, Xs), Y, cons(X, Z)) :- append(Xs, Y, Z).` -/
def appendCons : Rule :=
  ⟨appendGoal (.app "cons" [.var (.ofName "X"), .var (.ofName "Xs")]) (.var (.ofName "Y"))
      (.app "cons" [.var (.ofName "X"), .var (.ofName "Z")]),
    [appendGoal (.var (.ofName "Xs")) (.var (.ofName "Y")) (.var (.ofName "Z"))]⟩

def appendProgram : List Clause := [.rule appendNil, .rule appendCons]

def appendText : String :=
  "append(nil, Y, Y). append(cons(X, Xs), Y, cons(X, Z)) :- append(Xs, Y, Z)."

theorem parseProgram_appendText : Source.parseProgram appendText = .ok appendProgram := by
  decide +kernel

theorem mem_appendProgram {c : Clause} :
    c ∈ appendProgram ↔ c = .rule appendNil ∨ c = .rule appendCons :=
  List.mem_pair

theorem closed_appendProgram : ∀ c ∈ appendProgram, c.Closed := by
  simp [mem_appendProgram, Clause.Closed]

theorem sameSignature_append {c : Clause} (hc : c ∈ appendProgram) (x y z : Term) :
    (appendGoal x y z).SameSignature c.head := by
  obtain rfl | rfl := mem_appendProgram.1 hc <;> exact ⟨rfl, rfl⟩

@[simp] theorem compound_appendGoal (v : Valuation) (x y z : Term) :
    v.compound (appendGoal x y z) = appendGoal (v.term x) (v.term y) (v.term z) :=
  rfl

@[simp] theorem appendGoal_inj {x y z x' y' z' : Term} :
    appendGoal x y z = appendGoal x' y' z' ↔ x = x' ∧ y = y' ∧ z = z' := by
  simp [appendGoal]

/-! ## What the program says -/

def GroundTerm.before (xs : List GroundTerm) (t : Term) : Term :=
  xs.foldr (fun x u => .app "cons" [x.term, u]) t

theorem before_list (xs ys : List GroundTerm) :
    GroundTerm.before xs (list ys).term = (list (xs ++ ys)).term := by
  induction xs with
  | nil => rfl
  | cons x xs ih => exact congrArg (fun u => Term.app "cons" [x.term, u]) ih

theorem append_eq_of_before {xs zs : List GroundTerm} {t : Term}
    (h : (list zs).term = GroundTerm.before xs t) : ∃ ys, zs = xs ++ ys ∧ t = (list ys).term := by
  induction xs generalizing zs with
  | nil => exact ⟨zs, rfl, h.symm⟩
  | cons x xs ih =>
    cases zs with
    | nil => cases h
    | cons z zs =>
      obtain ⟨hx, hrest⟩ := GroundTerm.term_list_cons.1 h.symm
      obtain ⟨ys, rfl, rfl⟩ := ih hrest.symm
      exact ⟨ys, by rw [GroundTerm.ext hx, List.cons_append], rfl⟩

theorem list_injective {xs ys : List GroundTerm} (h : (list xs).term = (list ys).term) :
    xs = ys := by
  induction xs generalizing ys with
  | nil =>
    cases ys with
    | nil => rfl
    | cons y ys => cases h
  | cons x xs ih =>
    cases ys with
    | nil => cases h
    | cons y ys =>
      obtain ⟨hx, hrest⟩ := GroundTerm.term_list_cons.1 h
      rw [GroundTerm.ext hx, ih hrest]

/-- The program only derives what is right. -/
theorem appended_of_holds {c : Compound} (h : Holds appendProgram c) :
    ∃ xs t, c = appendGoal (list xs).term t (GroundTerm.before xs t) := by
  induction h with
  | @intro c hc v _ ih =>
    obtain rfl | rfl := mem_appendProgram.1 hc
    · exact ⟨[], v.value "Y", rfl⟩
    · obtain ⟨xs, t, hrest⟩ := ih _ List.mem_cons_self
      obtain ⟨hxs, rfl, hz⟩ := appendGoal_inj.1 hrest
      refine ⟨⟨v.value "X", v.ground _⟩ :: xs, _, appendGoal_inj.2 ⟨?_, rfl, ?_⟩⟩
      · exact congrArg (fun u => Term.app "cons" [v.value "X", u]) hxs
      · exact congrArg (fun u => Term.app "cons" [v.value "X", u]) hz

/-! ## Sizes -/

theorem sizeOf_back_le (xs ys : List GroundTerm) :
    sizeOf (list ys).term ≤ sizeOf (list (xs ++ ys)).term := by
  induction xs with
  | nil => exact Nat.le_refl _
  | cons x xs ih =>
    simp only [List.cons_append, GroundTerm.list_cons, GroundTerm.term_cons,
      Term.app.sizeOf_spec, List.cons.sizeOf_spec]
    omega

theorem sizeOf_front_le (xs ys : List GroundTerm) :
    sizeOf (list xs).term ≤ sizeOf (list (xs ++ ys)).term := by
  induction xs with
  | nil => simpa using sizeOf_back_le ys []
  | cons x xs ih =>
    simp only [List.cons_append, GroundTerm.list_cons, GroundTerm.term_cons,
      Term.app.sizeOf_spec, List.cons.sizeOf_spec]
    omega

/-! ## The answers -/

/-- The query for what the lists are joined. -/
def joinQuery (xs ys : List GroundTerm) : List Compound :=
  [appendGoal (list xs).term (list ys).term (.var (.ofName "Z"))]

/-- The query for the lists that are joined to `zs`. -/
def splitQuery (zs : List GroundTerm) : List Compound :=
  [appendGoal (.var (.ofName "X")) (.var (.ofName "Y")) (list zs).term]

/-- The answer that two lists are joined to `zs`. -/
def joined (zs : List GroundTerm) : Bindings := .ofList [(.ofName "Z", (list zs).term)]

/-- The answer that `xs` and `ys` are joined to the list. -/
def split (xs ys : List GroundTerm) : Bindings :=
  .ofList [(.ofName "X", (list xs).term), (.ofName "Y", (list ys).term)]

section
variable {drawn e : Nat} {last : Cursor} {answers : List Bindings} {b : Bindings}
  {xs ys zs : List GroundTerm}

theorem vars_joinQuery (xs ys : List GroundTerm) :
    (joinQuery xs ys).flatMap Compound.vars = [.ofName "Z"] := by
  simp [joinQuery, appendGoal, Compound.vars, Term.varsAll, GroundTerm.ground, Term.vars]

theorem vars_splitQuery (zs : List GroundTerm) :
    (splitQuery zs).flatMap Compound.vars = [.ofName "X", .ofName "Y"] := by
  simp [splitQuery, appendGoal, Compound.vars, Term.varsAll, GroundTerm.ground, Term.vars]

theorem hosted_joinQuery (xs ys : List GroundTerm) : Hosted (joinQuery xs ys) := by
  intro g hg x hx
  have hmem := List.mem_flatMap.2 ⟨g, hg, hx⟩
  rw [vars_joinQuery, List.mem_singleton] at hmem
  exact hmem ▸ ⟨rfl, by decide⟩

theorem hosted_splitQuery (zs : List GroundTerm) : Hosted (splitQuery zs) := by
  intro g hg x hx
  have hmem := List.mem_flatMap.2 ⟨g, hg, hx⟩
  rw [vars_splitQuery, List.mem_pair] at hmem
  obtain rfl | rfl := hmem <;> exact ⟨rfl, by decide⟩

theorem over_joined (zs : List GroundTerm) : (joined zs).Over fun x => x.internal = false :=
  (Bindings.over_empty _).put rfl ((list zs).term_over _)

theorem over_split (xs ys : List GroundTerm) :
    (split xs ys).Over fun x => x.internal = false := by
  have hfront := (Bindings.over_empty fun x => x.internal = false).put (x := .ofName "X") rfl
    ((list xs).term_over _)
  exact hfront.put rfl ((list ys).term_over _)

/-- In a solution of an answer the last list is the first one in front of the second. -/
theorem appended_of_run {s t w : Term}
    (hrun : Run appendProgram drawn (.start appendProgram [appendGoal s t w]) answers e last)
    (hb : b ∈ answers) {v : Valuation} (hv : v.Solves b) :
    ∃ l, v.term s = (list l).term ∧ v.term w = GroundTerm.before l (v.term t) := by
  have hsound := sound_run hrun (List.forall_mem_singleton.2 Frame.sound_start) b hb
  obtain ⟨l, t, heq⟩ :=
    appended_of_holds (hsound.promise v hv (by simp) _ List.mem_cons_self)
  obtain ⟨hs, rfl, hw⟩ := appendGoal_inj.1 heq
  exact ⟨l, hs, hw⟩

/-- Every acyclic answer shows what the lists are joined, however long they are. -/
theorem joined_of_run
    (hrun : Run appendProgram drawn (.start appendProgram (joinQuery xs ys)) answers e last)
    (hb : b ∈ answers) (ha : b.Acyclic) : b.materialize = some (joined (xs ++ ys)) := by
  have h := hostAnswer_of_run closed_appendProgram (hosted_joinQuery xs ys) hrun hb ha
  have hground := (list (xs ++ ys)).ground
  have hvalue (v : Valuation) (hv : v.Solves b) :
      v.term (.var (.ofName "Z")) = (list (xs ++ ys)).term := by
    obtain ⟨l, hl, hw⟩ := appended_of_run hrun hb hv
    rw [v.term_ground (list xs).ground] at hl
    rw [hw, v.term_ground (list ys).ground, ← list_injective hl, before_list]
  refine h.materialize_of_ground (vars_joinQuery xs ys) (List.pairwise_singleton _ _) ?_
  exact List.forall_mem_singleton.2 ⟨hground, deep_eq_of_solves ha hground hvalue⟩

/-- Every acyclic answer shows a split of the list, however long it is. -/
theorem split_of_run
    (hrun : Run appendProgram drawn (.start appendProgram (splitQuery zs)) answers e last)
    (hb : b ∈ answers) (ha : b.Acyclic) :
    ∃ xs ys, xs ++ ys = zs ∧ b.materialize = some (split xs ys) := by
  have h := hostAnswer_of_run closed_appendProgram (hosted_splitQuery zs) hrun hb ha
  -- A variable that is left open would have a value that is too large for a part of the list.
  let v : Valuation := ⟨fun _ => .app "" [(list zs).term], fun _ => by
    simp [Term.vars, Term.varsAll, (list zs).ground]⟩
  obtain ⟨xs, hx, hz⟩ := appended_of_run hrun hb (v.solves_through ha)
  rw [Valuation.term_ground _ (list zs).ground] at hz
  obtain ⟨ys, rfl, hy⟩ := append_eq_of_before hz
  rw [v.term_through ha] at hx hy
  have hlarge {l : List GroundTerm} (hle : sizeOf (list l).term ≤ sizeOf (list (xs ++ ys)).term)
      (x : String) : sizeOf (list l).term < sizeOf (v.value x) := by
    simp only [v, Term.app.sizeOf_spec, List.cons.sizeOf_spec]
    omega
  refine ⟨xs, ys, rfl, ?_⟩
  refine h.materialize_of_ground (vars_splitQuery _)
    (List.pairwise_pair.2 (show "X" ≠ "Y" by decide)) ?_
  exact List.forall_mem_cons.2
    ⟨⟨(list xs).ground, v.eq_of_sizeOf_lt hx (hlarge (sizeOf_front_le xs ys))⟩,
      List.forall_mem_singleton.2
        ⟨(list ys).ground, v.eq_of_sizeOf_lt hy (hlarge (sizeOf_back_le xs ys))⟩⟩

end

end HornSearch
