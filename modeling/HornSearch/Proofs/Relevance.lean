import Mathlib.Data.Set.Insert
import HornSearch.Proofs.Enumeration
import HornSearch.Proofs.Soundness

/-!
# Clauses that do not matter

The goals of a search come from the query and from the bodies of clauses that were
used. Let `S` be signatures that no goal of the query has and no body of a clause for
other signatures. Then no goal ever has one of them, and a clause for `S` is only ever
skipped.

So databases that differ in such clauses have the same enumerations
(`DifferIn.enumerates`), though their choice points are put back and dropped at
different times. Their searches give the same bindings and the same end, after the same
draws (`replies_of_differIn`).
-/

namespace HornSearch

variable {S : Set (String × Nat)} {clauses clauses' : List Clause}

/-! ## Clauses for the signatures -/

/-- Clauses for `S` were put in and taken out, anywhere. -/
inductive DifferIn (S : Set (String × Nat)) : List Clause → List Clause → Prop where
  | nil : DifferIn S [] []
  | same (c : Clause) {cs cs' : List Clause} (h : DifferIn S cs cs') :
      DifferIn S (c :: cs) (c :: cs')
  | taken {c : Clause} {cs cs' : List Clause} (hc : c.head.signature ∈ S)
      (h : DifferIn S cs cs') : DifferIn S (c :: cs) cs'
  | put {c : Clause} {cs cs' : List Clause} (hc : c.head.signature ∈ S)
      (h : DifferIn S cs cs') : DifferIn S cs (c :: cs')

def Outside (S : Set (String × Nat)) (goals : List Compound) : Prop :=
  ∀ g ∈ goals, g.signature ∉ S

/-- Clauses for other signatures do not need those of `S`. -/
def Independent (S : Set (String × Nat)) (clauses : List Clause) : Prop :=
  ∀ c ∈ clauses, c.head.signature ∉ S → Outside S c.body

namespace DifferIn

theorem symm (h : DifferIn S clauses clauses') : DifferIn S clauses' clauses := by
  induction h with
  | nil => exact .nil
  | same c _ ih => exact .same c ih
  | taken hc _ ih => exact .put hc ih
  | put hc _ ih => exact .taken hc ih

/-- A clause for other signatures stands in both lists. -/
theorem mem_of_notMem (h : DifferIn S clauses clauses') {c : Clause} (hc : c ∈ clauses')
    (hsig : c.head.signature ∉ S) : c ∈ clauses := by
  induction h with
  | nil => cases hc
  | same c' _ ih =>
    rcases List.mem_cons.1 hc with rfl | hc
    · exact List.mem_cons_self
    · exact List.mem_cons_of_mem _ (ih hc)
  | taken _ _ ih => exact List.mem_cons_of_mem _ (ih hc)
  | put hc' _ ih =>
    rcases List.mem_cons.1 hc with rfl | hc
    · exact absurd hc' hsig
    · exact ih hc

theorem independent (h : DifferIn S clauses clauses') (hi : Independent S clauses) :
    Independent S clauses' :=
  fun c hc hsig => hi c (h.mem_of_notMem hc hsig) hsig

theorem of_nil (h : DifferIn S [] clauses') : ∀ c ∈ clauses', c.head.signature ∈ S := by
  generalize hcs : [] = cs at h
  induction h with
  | nil => simp
  | same _ _ _ => cases hcs
  | taken _ _ _ => cases hcs
  | put hc _ ih => exact List.forall_mem_cons.2 ⟨hc, ih hcs⟩

/-- A clause for `S` may be taken out. -/
theorem of_cons {c : Clause} {cs cs' : List Clause} (h : DifferIn S (c :: cs) cs')
    (hc : c.head.signature ∈ S) : DifferIn S cs cs' := by
  generalize hl : c :: cs = l at h
  induction h with
  | nil => cases hl
  | same _ h _ =>
    cases hl
    exact .put hc h
  | taken _ h _ =>
    cases hl
    exact h
  | put hc' _ ih => exact .put hc' (ih hl)

/-- Before another clause there are only clauses for `S`. -/
theorem split {c : Clause} {cs cs' : List Clause} (h : DifferIn S (c :: cs) cs')
    (hc : c.head.signature ∉ S) : ∃ extra more, cs' = extra ++ c :: more ∧
      (∀ e ∈ extra, e.head.signature ∈ S) ∧ DifferIn S cs more := by
  generalize hl : c :: cs = l at h
  induction h with
  | nil => cases hl
  | same _ h _ =>
    cases hl
    exact ⟨[], _, rfl, by simp, h⟩
  | taken hc' _ _ =>
    cases hl
    exact absurd hc' hc
  | @put e _ _ he _ ih =>
    obtain ⟨extra, more, rfl, hextra, h⟩ := ih hl
    exact ⟨e :: extra, more, rfl, List.forall_mem_cons.2 ⟨he, hextra⟩, h⟩

end DifferIn

/-- A goal outside has another signature than every clause for `S`. -/
theorem Outside.mismatch {goal : Compound} {rest : List Compound} (h : Outside S (goal :: rest))
    {c : Clause} (hc : c.head.signature ∈ S) : ¬goal.SameSignature c.head := by
  intro hsig
  have hgoal := h goal List.mem_cons_self
  rw [Compound.sameSignature_iff.1 hsig] at hgoal
  exact hgoal hc

/-- The goals that a clause leaves are outside if the goal was. -/
theorem Outside.apply {goal : Compound} {rest : List Compound} {c : Clause} {r : Rule}
    {d d' : Nat} (h : Outside S (goal :: rest)) (hi : Independent S clauses) (hc : c ∈ clauses)
    (hsig : goal.SameSignature c.head) (huse : c.instantiate d = (r, d')) :
    Outside S (r.body ++ rest) := by
  have hbody : Outside S c.body := hi c hc fun hmem => h.mismatch hmem hsig
  obtain ⟨ρ, _, hcopy⟩ := Clause.exists_renaming huse
  intro g hg
  rcases List.mem_append.1 hg with hg | hg
  · rw [hcopy] at hg
    obtain ⟨g₀, hg₀, rfl⟩ := List.mem_map.1 hg
    rw [Compound.signature_subst]
    exact hbody g₀ hg₀
  · exact h g (List.mem_cons_of_mem _ hg)

/-! ## Enumerations -/

/-- A clause that the goal has the signature of is found behind others that are skipped. -/
theorem DifferIn.enumerates_behind {c : Clause} {pending pending' : List Clause} {goal : Compound}
    {rest : List Compound} {b : Bindings} {d : Nat} {answers : List (Bindings × Nat)}
    {ending : Option Nat} (hp : DifferIn S (c :: pending) pending') (ho : Outside S (goal :: rest))
    (hc : c.head.signature ∉ S)
    (hnext : ∀ more, DifferIn S pending more →
      Enumerates clauses (c :: more) (goal :: rest) b d answers ending) :
    Enumerates clauses pending' (goal :: rest) b d answers ending := by
  obtain ⟨extra, more, rfl, hextra, hmore⟩ := hp.split hc
  exact .skip_all (fun e he => ho.mismatch (hextra e he)) (hnext more hmore)

/-- Enumerations stay as they are. -/
theorem DifferIn.enumerates (hclauses : DifferIn S clauses clauses')
    (hi : Independent S clauses) {pending : List Clause} {goals : List Compound} {b : Bindings}
    {d : Nat} {answers : List (Bindings × Nat)} {ending : Option Nat}
    (h : Enumerates clauses pending goals b d answers ending) :
    ∀ pending', pending ⊆ clauses → DifferIn S pending pending' → Outside S goals →
      Enumerates clauses' pending' goals b d answers ending := by
  induction h with
  | leave => intros; exact .leave
  | answer => intros; exact .answer
  | answered => intros; exact .answered
  | @exhausted goal rest b d =>
    intro pending' _ hp ho
    have hend : Enumerates clauses' [] (goal :: rest) b d [] (some d) := .exhausted
    have hskip := hend.skip_all fun c hc => ho.mismatch (hp.of_nil c hc)
    rwa [List.append_nil] at hskip
  | @skip c pending goal rest b d answers ending hsig _ ih =>
    intro pending' hsub hp ho
    obtain ⟨_, htail⟩ := List.cons_subset.1 hsub
    by_cases hc : c.head.signature ∈ S
    · exact ih _ htail (hp.of_cons hc) ho
    · exact hp.enumerates_behind ho hc fun more hmore => .skip hsig (ih more htail hmore ho)
  | clash hsig huse hunify _ ih =>
    intro pending' hsub hp ho
    obtain ⟨_, htail⟩ := List.cons_subset.1 hsub
    exact hp.enumerates_behind ho (fun hc => ho.mismatch hc hsig) fun more hmore =>
      .clash hsig huse hunify (ih more htail hmore ho)
  | enter hsig huse hunify _ ihbelow =>
    intro pending' hsub hp ho
    obtain ⟨hc, _⟩ := List.cons_subset.1 hsub
    have hrest := ho.apply hi hc hsig huse
    exact hp.enumerates_behind ho (fun hc => ho.mismatch hc hsig) fun _ _ =>
      .enter hsig huse hunify (ihbelow _ (List.Subset.refl _) hclauses hrest)
  | apply hsig huse hunify _ _ ihbelow ih =>
    intro pending' hsub hp ho
    obtain ⟨hc, htail⟩ := List.cons_subset.1 hsub
    have hrest := ho.apply hi hc hsig huse
    exact hp.enumerates_behind ho (fun hc => ho.mismatch hc hsig) fun more hmore =>
      .apply hsig huse hunify (ihbelow _ (List.Subset.refl _) hclauses hrest)
        (ih more htail hmore ho)

/-! ## Searches -/

theorem gives_of_differIn {db db' : Database} (hclauses : DifferIn S db.clauses db'.clauses)
    (hdrawn : db.drawn = db'.drawn) (hi : Independent S db.clauses) {goals : List Compound}
    (hgoals : Outside S goals) {k : Nat} {replies : List (Option Bindings × Nat)}
    (h : ∃ n, db.replies n k (db.query goals) = some replies) :
    ∃ n, db'.replies n k (db'.query goals) = some replies := by
  obtain ⟨answers, ending, he, hr⟩ := (replies_iff_enumerates db goals k replies).1 h
  have he' := hclauses.enumerates hi he _ (List.Subset.refl _) hclauses hgoals
  exact (replies_iff_enumerates db' goals k replies).2 ⟨answers, ending, hdrawn ▸ he', hr⟩

/-- Put in or taken out anywhere, clauses for signatures that the search never comes to
leave its bindings, its end and its draws as they are, pull by pull. Where a pull of one
search never returns, that of the other one never does. -/
theorem replies_of_differIn {db db' : Database} (hclauses : DifferIn S db.clauses db'.clauses)
    (hdrawn : db.drawn = db'.drawn) (hi : Independent S db.clauses) {goals : List Compound}
    (hgoals : Outside S goals) (k : Nat) (replies : List (Option Bindings × Nat)) :
    (∃ n, db.replies n k (db.query goals) = some replies) ↔
      ∃ n, db'.replies n k (db'.query goals) = some replies := by
  constructor
  · exact gives_of_differIn hclauses hdrawn hi hgoals
  · exact gives_of_differIn hclauses.symm hdrawn.symm (hclauses.independent hi) hgoals

/-- Among the birds some sing: a fact that stands between the clauses, and a rule behind them
that needs `flies` and never ends. Nobody asks. -/
theorem replies_of_differIn_sings :
    let x := Term.var (.ofName "X")
    let sings : List Clause := [.fact ⟨"sings", [.atom "tweety"]⟩,
      .rule ⟨⟨"sings", [x]⟩, [⟨"sings", [x]⟩, ⟨"flies", [x]⟩]⟩]
    let db' : Database :=
      .ofClauses (birds.clauses.take 1 ++ sings.take 1 ++ birds.clauses.drop 1 ++ sings.drop 1)
    let replies := [(some (Bindings.ofList
      [(.fresh 0, .var (.ofName "Who")), (.ofName "Who", .atom "tweety")]), 1), (none, 1)]
    DifferIn {("sings", 1)} birds.clauses db'.clauses ∧ birds.drawn = db'.drawn ∧
    Independent {("sings", 1)} birds.clauses ∧ Outside {("sings", 1)} whoFlies ∧
    ((∃ n, birds.replies n 2 (birds.query whoFlies) = some replies) ↔
      ∃ n, db'.replies n 2 (db'.query whoFlies) = some replies) ∧
    birds.replies 9 2 (birds.query whoFlies) = some replies := by
  intro x sings db' replies
  have hclauses : DifferIn {("sings", 1)} birds.clauses db'.clauses :=
    .same _ (.put rfl (.same _ (.put rfl .nil)))
  have hi : Independent {("sings", 1)} birds.clauses := by
    simp [Independent, Outside, birds, Database.ofClauses, Clause.head, Clause.body,
      Compound.signature]
  have hgoals : Outside {("sings", 1)} whoFlies := by
    simp [Outside, whoFlies, Compound.signature]
  exact ⟨hclauses, rfl, hi, hgoals, replies_of_differIn hclauses rfl hi hgoals 2 replies, by decide⟩

end HornSearch
