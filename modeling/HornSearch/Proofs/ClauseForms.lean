import HornSearch.Proofs.Enumeration
import HornSearch.Proofs.Numbering

/-!
# The form of a clause does not matter

A search knows a clause by its signature and by the copies that are made of it. A copy
has numbers for the names in a rule, so a rule and a renaming of it have the same copies
(`Rule.instantiate_renamed`). A fact without variables is its own copy, and so is the
rule of the same head without a body.

Hence searches among clauses of another form take the same steps (`step_agree_sameUse`)
with the same bindings, not only with bindings of the same classes.
-/

namespace HornSearch

/-! ## Renamed lists -/

section
variable {α β : Type} [BEq α] [LawfulBEq α] [BEq β] [LawfulBEq β] {f : α → β}

/-- A map that is injective on the list leaves first occurrences first. -/
theorem eraseDups_map {l : List α} (hf : ∀ a ∈ l, ∀ b ∈ l, f a = f b → a = b) :
    (l.map f).eraseDups = l.eraseDups.map f := by
  induction l using List.reverseRecOn with
  | nil => rfl
  | append_singleton l a ih =>
    have hl := ih fun b hb c hc => hf b (List.mem_append_left _ hb) c (List.mem_append_left _ hc)
    have hmem : f a ∈ l.map f ↔ a ∈ l := by
      refine ⟨fun h => ?_, List.mem_map_of_mem⟩
      obtain ⟨b, hb, e⟩ := List.mem_map.1 h
      exact hf b (List.mem_append_left _ hb) a (by simp) e ▸ hb
    rw [List.map_append, List.map_singleton, eraseDups_concat, eraseDups_concat, hl]
    simp only [hmem, apply_ite (List.map f), List.map_append, List.map_singleton]

/-- It leaves an element at its place. -/
theorem idxOf_map {l : List α} {a : α} (hf : ∀ b ∈ l, f b = f a → b = a) :
    (l.map f).idxOf (f a) = l.idxOf a := by
  induction l with
  | nil => rfl
  | cons b l ih =>
    have hb : (f b == f a) = (b == a) := by
      rw [Bool.eq_iff_iff, beq_iff_eq, beq_iff_eq]
      exact ⟨hf b List.mem_cons_self, congrArg f⟩
    rw [List.map_cons, List.idxOf_cons, List.idxOf_cons, hb,
      ih fun c hc => hf c (List.mem_cons_of_mem _ hc)]

end

/-! ## Copies of renamed rules -/

namespace Rule

/-- The occurrences of variables in a renamed rule. -/
theorem vars_renamed (σ : Var → Var) (r : Rule) : (r.renamed σ).vars = r.vars.map σ := by
  simp only [renamed, vars_subst, Term.vars_var, ← List.map_eq_flatMap]

/-- Each old name with its new one, as they occur. The renaming is one of variables; these
pairs are what it does to names. -/
def respellings (σ : Var → Var) (r : Rule) : List (String × String) :=
  r.vars.map fun x => (x.name, (σ x).name)

section
variable {r : Rule} {σ : Var → Var}
  (hσ : ∀ x ∈ r.vars, ∀ y ∈ r.vars, ((σ x).name = (σ y).name ↔ x.name = y.name))
include hσ

theorem fst_eq_iff {p q : String × String} (hp : p ∈ r.respellings σ) (hq : q ∈ r.respellings σ) :
    p.1 = q.1 ↔ p.2 = q.2 := by
  obtain ⟨x, hx, rfl⟩ := List.mem_map.1 hp
  obtain ⟨y, hy, rfl⟩ := List.mem_map.1 hq
  exact (hσ x hx y hy).symm

theorem fst_inj {p q : String × String} (hp : p ∈ r.respellings σ) (hq : q ∈ r.respellings σ)
    (h : p.1 = q.1) : p = q := Prod.ext h ((fst_eq_iff hσ hp hq).1 h)

theorem snd_inj {p q : String × String} (hp : p ∈ r.respellings σ) (hq : q ∈ r.respellings σ)
    (h : p.2 = q.2) : p = q := Prod.ext ((fst_eq_iff hσ hp hq).2 h) h

theorem names_eq_fst : r.names = (r.respellings σ).eraseDups.map Prod.fst := by
  rw [names_eq, ← eraseDups_map fun p hp q hq => fst_inj hσ hp hq, respellings, List.map_map]
  rfl

theorem names_renamed_eq_snd : (r.renamed σ).names = (r.respellings σ).eraseDups.map Prod.snd := by
  rw [names_eq, ← eraseDups_map fun p hp q hq => snd_inj hσ hp hq, respellings, vars_renamed,
    List.map_map, List.map_map]
  rfl

/-- A renamed rule numbers the new names as the rule does the old ones. -/
theorem idxOf_renamed {x : Var} (hx : x ∈ r.vars) :
    (r.renamed σ).names.idxOf (σ x).name = r.names.idxOf x.name := by
  have hmem : (x.name, (σ x).name) ∈ r.respellings σ :=
    List.mem_map.2 ⟨x, hx, rfl⟩
  rw [names_eq_fst hσ, names_renamed_eq_snd hσ]
  calc ((r.respellings σ).eraseDups.map Prod.snd).idxOf (σ x).name
      = (r.respellings σ).eraseDups.idxOf (x.name, (σ x).name) :=
        idxOf_map fun p hp => snd_inj hσ (List.mem_eraseDups.1 hp) hmem
    _ = ((r.respellings σ).eraseDups.map Prod.fst).idxOf x.name :=
        (idxOf_map fun p hp => fst_inj hσ (List.mem_eraseDups.1 hp) hmem).symm

/-- The names of a rule are gone from its copies. -/
theorem instantiate_renamed (d : Nat) : (r.renamed σ).instantiate d = r.instantiate d := by
  have hlen : (r.renamed σ).names.length = r.names.length := by
    rw [names_eq_fst hσ, names_renamed_eq_snd hσ, List.length_map, List.length_map]
  have hcopy : (r.renamed σ).subst (Renaming.numbered d (r.renamed σ).names) =
      r.subst (Renaming.numbered d r.names) := by
    rw [renamed, subst_subst]
    refine subst_congr fun x hx => ?_
    rw [Term.subst_var, Renaming.numbered, Renaming.numbered, ← idxOf_renamed hσ hx, renamed]
  rw [instantiate_eq, instantiate_eq, hlen, hcopy]

end

end Rule

/-! ## Clauses of another form -/

/-- The clause in another form: a rule with its variables renamed so that distinct ones stay
distinct, a fact without variables as a rule without body, and any fact as it is. -/
inductive Clause.Variant : Clause → Clause → Prop where
  | fact (head : Compound) : Variant (.fact head) (.fact head)
  | bodiless {head : Compound} (h : head.vars = []) : Variant (.fact head) (.rule ⟨head, []⟩)
  | renamed (r : Rule) (σ : Var → Var)
      (hσ : ∀ x ∈ r.vars, ∀ y ∈ r.vars, ((σ x).name = (σ y).name ↔ x.name = y.name)) :
      Variant (.rule r) (.rule (r.renamed σ))

/-- Clauses that are tried for the same goals, and of which the same copies are made. -/
structure Clause.SameUse (c c' : Clause) : Prop where
  signature : ∀ goal : Compound, goal.SameSignature c.head ↔ goal.SameSignature c'.head
  copies : ∀ d, c.instantiate d = c'.instantiate d

theorem Clause.Variant.sameUse {c c' : Clause} (h : c.Variant c') : c.SameUse c' := by
  cases h with
  | fact head => exact ⟨fun _ => Iff.rfl, fun _ => rfl⟩
  | @bodiless head h =>
    refine ⟨fun _ => Iff.rfl, fun d => ?_⟩
    have hnames : (Rule.mk head []).names = [] := by
      simp [Rule.names, Rule.vars, h, Renaming.meetAll]
    simp only [Clause.instantiate, Rule.instantiate_eq, hnames, Rule.subst,
      Compound.subst_of_ground _ h, List.map_nil, List.length_nil, Nat.add_zero]
  | renamed r σ hσ =>
    refine ⟨fun goal => ?_, fun d => (Rule.instantiate_renamed hσ d).symm⟩
    simp only [Compound.SameSignature, Clause.head, Rule.renamed, Rule.subst,
      Compound.arity_subst]
    rfl

/-! ## Searches -/

/-- Choice points that differ in the form of the clauses left to try. -/
structure Frame.SameUse (f f' : Frame) : Prop where
  goals : f.goals = f'.goals
  bindings : f.bindings = f'.bindings
  pending : List.Forall₂ Clause.SameUse f.pending f'.pending

section
variable {clauses clauses' : List Clause} {n d : Nat} {stack stack' : List Frame}

theorem sameUse_retry {goal : Compound} {rest : List Compound} {b : Bindings}
    {pending pending' : List Clause} (hp : List.Forall₂ Clause.SameUse pending pending')
    (hs : List.Forall₂ Frame.SameUse stack stack') :
    List.Forall₂ Frame.SameUse (retry goal rest b pending stack)
      (retry goal rest b pending' stack') := by
  cases hp with
  | nil => exact hs
  | cons hc hp => exact .cons ⟨rfl, rfl, .cons hc hp⟩ hs

/-- Searches among clauses of the same use take the same step. -/
theorem step_agree_sameUse (hclauses : List.Forall₂ Clause.SameUse clauses clauses')
    (h : List.Forall₂ Frame.SameUse stack stack') :
    Option.Rel (Step.Agree id (List.Forall₂ Frame.SameUse))
      (step clauses n d stack) (step clauses' n d stack') := by
  cases h with
  | nil => exact .some .finished
  | @cons f f' stack stack' hf hs =>
    obtain ⟨goals, b, pending⟩ := f
    obtain ⟨goals', b', pending'⟩ := f'
    obtain ⟨rfl, rfl, hpending⟩ := hf
    cases goals with
    | nil => exact .some (.answer rfl hs)
    | cons goal rest =>
      cases hpending with
      | nil => exact .some (.moved d hs)
      | @cons c c' pending pending' hc hpending =>
        have hretry : List.Forall₂ Frame.SameUse (retry goal rest b pending stack)
            (retry goal rest b pending' stack') := sameUse_retry hpending hs
        by_cases e : goal.SameSignature c.head
        -- The copies are equal, so both sides unify the goal with one and the same head.
        · simp only [step, tryClause, if_pos e, if_pos ((hc.signature goal).1 e), hc.copies]
          cases unifyCompound n b goal (c'.instantiate d).1.head with
          | none => exact .none
          | some result =>
            cases result with
            | error clash => exact .some (.moved _ hretry)
            | ok b' => exact .some (.moved _ (.cons ⟨rfl, rfl, hclauses⟩ hretry))
        · simp only [step, tryClause, if_neg e, if_neg fun e' => e ((hc.signature goal).2 e')]
          exact .some (.moved d hretry)

end

/-- If every clause of a database is put into another form, then every search gives to each
pull the same bindings or its end, after the same number of draws. Also those do that run
out of their bound. -/
theorem replies_variant {db db' : Database}
    (hclauses : List.Forall₂ Clause.Variant db.clauses db'.clauses) (hdrawn : db.drawn = db'.drawn)
    (goals : List Compound) (n k : Nat) :
    db.replies n k (db.query goals) = db'.replies n k (db'.query goals) := by
  obtain ⟨clauses, d⟩ := db
  obtain ⟨clauses', d'⟩ := db'
  cases hdrawn
  have huse : List.Forall₂ Clause.SameUse clauses clauses' :=
    hclauses.imp fun _ _ h => h.sameUse
  have hstart : Frame.SameUse ⟨goals, .empty, clauses⟩ ⟨goals, .empty, clauses'⟩ :=
    ⟨rfl, rfl, huse⟩
  have hsim : Bisimulation id (List.Forall₂ Frame.SameUse) clauses clauses' :=
    ⟨.nil, step_agree_sameUse huse⟩
  have hreplies := hsim.replies (n := n) (k := k) (d := d) (.cons hstart .nil)
  simp only [Prod.map_id, List.map_id_fun, Option.map_id_fun, id] at hreplies
  exact hreplies

/-- The bird as a rule, and in the other rule a name that its copy has, too. -/
theorem replies_variant_birds :
    let tweety : Rule := ⟨⟨"bird", [.atom "tweety"]⟩, []⟩
    let g0 := Term.var (.ofName "_G0")
    let db' : Database := .ofClauses [.rule tweety, .rule ⟨⟨"flies", [g0]⟩, [⟨"bird", [g0]⟩]⟩]
    List.Forall₂ Clause.Variant birds.clauses db'.clauses ∧ birds.drawn = db'.drawn ∧
    birds.replies 9 2 (birds.query whoFlies) = db'.replies 9 2 (db'.query whoFlies) ∧
    db'.replies 9 2 (db'.query whoFlies) =
      some [(some (.ofList [(.fresh 0, .var (.ofName "Who")), (.ofName "Who", .atom "tweety")]), 1),
        (none, 1)] := by
  intro tweety g0 db'
  have hclauses : List.Forall₂ Clause.Variant birds.clauses db'.clauses :=
    .cons (.bodiless (by simp [Compound.vars, Term.varsAll]))
      (.cons (.renamed _ (fun _ => .ofName "_G0") (by
        simp [Rule.vars, Compound.vars, Term.varsAll, Var.ofName])) .nil)
  exact ⟨hclauses, rfl, replies_variant hclauses rfl whoFlies 9 2, by decide⟩

end HornSearch
