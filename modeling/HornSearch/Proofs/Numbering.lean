import Mathlib.Data.List.Induction
import HornSearch.Proofs.QueryNames

/-!
# Copies of a rule

A rule is copied by replacing its variables, all at once. The names are taken in the
order in which they occur first, the head's first, and numbered from the counter on; each
name becomes the internal variable of its number (`instantiate_numbers`). A variable of
the rule may have such a name itself: it is replaced as any other one.
-/

namespace HornSearch

/-! ## First occurrences -/

theorem eraseDups_concat {α : Type} [BEq α] [LawfulBEq α] (l : List α) (a : α) :
    (l ++ [a]).eraseDups = if a ∈ l then l.eraseDups else l.eraseDups ++ [a] := by
  rw [List.eraseDups_append]
  by_cases h : a ∈ l <;> simp [List.removeAll, h, List.eraseDups_cons]

/-- Names are met in the order in which they occur first. -/
theorem meetAll_nil (names : List String) : Renaming.meetAll [] names = names.eraseDups := by
  induction names using List.reverseRecOn with
  | nil => rfl
  | append_singleton names x ih =>
    rw [Renaming.meetAll_append, ih, eraseDups_concat]
    simp only [Renaming.meetAll, List.foldl_cons, List.foldl_nil, Renaming.meet,
      List.mem_eraseDups]

/-- The distinct names are met in the order in which they occur first. -/
theorem Rule.names_eq (r : Rule) : r.names = (r.vars.map Var.name).eraseDups :=
  meetAll_nil _

/-! ## Renamed rules -/

/-- Rules of one shape, with related variables in the same places. -/
structure Rule.SameShape (R : Var → Var → Prop) (r r' : Rule) : Prop where
  head : r.head.SameShape R r'.head
  body : List.Forall₂ (Compound.SameShape R) r.body r'.body

def Rule.renamed (σ : Var → Var) (r : Rule) : Rule := r.subst fun x => .var (σ x)

theorem Rule.sameShape_renamed {R : Var → Var → Prop} {σ : Var → Var} {r : Rule}
    (h : ∀ x ∈ r.vars, R x (σ x)) : r.SameShape R (r.renamed σ) where
  head := Compound.sameShape_renamed fun x hx => h x (List.mem_append_left _ hx)
  body := List.forall₂_map_right_iff.2 (List.forall₂_same.2 fun g hg =>
    Compound.sameShape_renamed fun x hx =>
      h x (List.mem_append_right _ (List.mem_flatMap.2 ⟨g, hg, hx⟩)))

/-! ## Numbers -/

/-- The name of `x` stands at some place `i`, and `y` is the internal variable of the number
`c + i`. -/
def Numbers (names : List String) (c : Nat) (x y : Var) : Prop :=
  ∃ i, names[i]? = some x.name ∧ y = ⟨"_G" ++ toString (c + i), true⟩

theorem fresh_of_lt {n : Nat} (h : n < 2 ^ 64) : Var.fresh n = ⟨"_G" ++ toString n, true⟩ := by
  rw [Var.fresh, Nat.mod_eq_of_lt (show n < UInt64.size from h)]

section
variable {names : List String} {c : Nat} (hroom : c + names.length ≤ 2 ^ 64)
include hroom

/-- Up to the last number of the counter, no two names are given one variable. -/
theorem Numbers.name_eq_iff (hnames : names.Nodup) {x x' y y' : Var} (hx : Numbers names c x x')
    (hy : Numbers names c y y') : x'.name = y'.name ↔ x.name = y.name := by
  obtain ⟨i, hi, rfl⟩ := hx
  obtain ⟨j, hj, rfl⟩ := hy
  obtain ⟨hilt, hi⟩ := List.getElem?_eq_some_iff.1 hi
  obtain ⟨hjlt, hj⟩ := List.getElem?_eq_some_iff.1 hj
  rw [← fresh_of_lt (show c + i < 2 ^ 64 by omega), ← fresh_of_lt (show c + j < 2 ^ 64 by omega),
    fresh_name_eq_iff, ← hi, ← hj, List.getElem_inj hnames]
  omega

theorem numbers_fresh {d : Nat} (hc : c = d % 2 ^ 64) {x : Var} (hx : x.name ∈ names) :
    Numbers names c x (.fresh (d + names.idxOf x.name)) := by
  have hlt := List.idxOf_lt_length_of_mem hx
  have hmod : (d + names.idxOf x.name) % UInt64.size = c + names.idxOf x.name := by
    rw [show UInt64.size = 2 ^ 64 from rfl]
    omega
  exact ⟨_, List.getElem?_idxOf hx, by rw [Var.fresh, hmod]⟩

end

/-- To copy a rule is to number its distinct names from the counter on, in the order in which
they occur first, and to replace each variable by the internal one of its number. Distinct
names get distinct variables. The counter goes on behind the numbers that were given; as a
64-bit word it is zero after the last of all. -/
theorem instantiate_numbers (db : Database) (r : Rule)
    (hroom : db.freshCount + (r.vars.map Var.name).eraseDups.length ≤ 2 ^ 64) :
    let names := (r.vars.map Var.name).eraseDups
    r.SameShape (Numbers names db.freshCount) (db.instantiate r).1 ∧
      (∀ x x' y y', Numbers names db.freshCount x x' → Numbers names db.freshCount y y' →
        (x'.name = y'.name ↔ x.name = y.name)) ∧
      (db.instantiate r).2 = { db with drawn := db.drawn + names.length } ∧
      (db.instantiate r).2.freshCount = (db.freshCount + names.length) % 2 ^ 64 := by
  intro names
  have hnames : names = r.names := r.names_eq.symm
  have hnodup : names.Nodup := hnames ▸ r.nodup_names
  have hrun : r.instantiate db.drawn =
      (r.renamed fun x => .fresh (db.drawn + names.idxOf x.name), db.drawn + names.length) := by
    rw [hnames]
    exact r.instantiate_eq db.drawn
  have hcopy : db.instantiate r = (r.renamed fun x => .fresh (db.drawn + names.idxOf x.name),
      { db with drawn := db.drawn + names.length }) := by
    rw [Database.instantiate, hrun]
  rw [hcopy]
  refine ⟨Rule.sameShape_renamed fun x hx => numbers_fresh hroom rfl ?_,
    fun x x' y y' hx hy => hx.name_eq_iff hroom hnodup hy, rfl, ?_⟩
  · exact List.mem_eraseDups.2 (List.mem_map_of_mem hx)
  · exact (Nat.mod_add_mod db.drawn UInt64.size names.length).symm

/-- `_G1` is renamed to `_G0`, and `X` to `_G1`. -/
theorem instantiate_numbers_reserved :
    let g1 := Term.var (.ofName "_G1")
    let x := Term.var (.ofName "X")
    let y := Term.var (.ofName "Y")
    let v (k : Nat) := Term.var (.fresh k)
    let db : Database := .ofClauses []
    let r : Rule := ⟨⟨"p", [g1, .app "f" [x], x]⟩, [⟨"q", [y, g1]⟩]⟩
    let names := (r.vars.map Var.name).eraseDups
    names = ["_G1", "X", "Y"] ∧ db.freshCount + names.length ≤ 2 ^ 64 ∧
    db.instantiate r = (⟨⟨"p", [v 0, .app "f" [v 1], v 1]⟩, [⟨"q", [v 2, v 0]⟩]⟩, ⟨[], 3⟩) ∧
    r.SameShape (Numbers names db.freshCount) (db.instantiate r).1 ∧
      (∀ x x' y y', Numbers names db.freshCount x x' → Numbers names db.freshCount y y' →
        (x'.name = y'.name ↔ x.name = y.name)) ∧
      (db.instantiate r).2 = { db with drawn := db.drawn + names.length } ∧
      (db.instantiate r).2.freshCount = (db.freshCount + names.length) % 2 ^ 64 := by
  intro g1 x y v db r names
  have hroom : db.freshCount + names.length ≤ 2 ^ 64 := by decide
  exact ⟨by decide, hroom, by decide, instantiate_numbers db r hroom⟩

theorem iterate_freshVar (n : Nat) (db : Database) :
    (fun db : Database => db.freshVar.2)^[n] db = { db with drawn := db.drawn + n } := by
  induction n with
  | zero => rfl
  | succ n ih => rw [Function.iterate_succ_apply', ih, Database.freshVar, Nat.add_assoc]

/-- The last number of all is given to `X`, and the counter is not behind it but at zero. -/
theorem instantiate_wraps :
    let db := (fun db : Database => db.freshVar.2)^[2 ^ 64 - 1] (.ofClauses [])
    let r : Rule := ⟨⟨"p", [.var (.ofName "X")]⟩, []⟩
    let names := (r.vars.map Var.name).eraseDups
    db.freshCount + names.length ≤ 2 ^ 64 ∧
      (db.instantiate r).1 = ⟨⟨"p", [.var ⟨"_G18446744073709551615", true⟩]⟩, []⟩ ∧
      (db.instantiate r).2.freshCount = 0 ∧
      (db.instantiate r).2.freshCount ≠ db.freshCount + names.length := by
  rw [iterate_freshVar]
  decide

end HornSearch
