import HornSearch.Proofs.Freshness
import HornSearch.Proofs.Soundness

/-!
# A finished search has missed nothing

Fix a valuation that makes the query hold. A choice point *covers* it if the
bindings have a solution that agrees with it on the query, makes the goals
hold, and proves the first of them by a clause not yet tried
(`Frame.Covers`). Every step leaves some choice point that covers it
(`covers_move`): a clause that is tried either is the one that proves the goal,
and then it applies, the unifier being most general, or is not, and then the
choice point stays. A finished search has no choice point, so an answer must
have covered the valuation before.

Solutions extend to the variables of a renamed clause because those are new to
every choice point (`Frame.Apart`).
-/

namespace HornSearch

/-- The valuations agree on the variables of the goals. -/
def Valuation.AgreesOn (goals : List Compound) (s v : Valuation) : Prop :=
  ∀ g ∈ goals, ∀ x ∈ g.vars, s.value x.name = v.value x.name

section
variable (clauses : List Clause) (query : List Compound) (v : Valuation)

/-- The goals hold under a solution `s` that agrees with `v` on the query, the
first one by the ground instance of `c` that `w` gives. -/
structure ProvedBy (goal : Compound) (rest : List Compound) (b : Bindings) (c : Clause)
    (s w : Valuation) : Prop where
  agrees : s.AgreesOn query v
  solves : s.Solves b
  body : ∀ g ∈ c.body, Holds clauses (w.compound g)
  head : s.compound goal = w.compound c.head
  rest : ∀ g ∈ rest, Holds clauses (s.compound g)

/-- Some solution of the choice point agrees with `v` on the query and is found
by the clauses still to be tried. -/
inductive Frame.Covers : Frame → Prop where
  | answer {b : Bindings} {pending : List Clause} {s : Valuation} (agrees : s.AgreesOn query v)
      (solves : s.Solves b) : Covers ⟨[], b, pending⟩
  | goal {goal : Compound} {rest : List Compound} {b : Bindings} {pending : List Clause}
      {c : Clause} {s w : Valuation} (hc : c ∈ pending)
      (h : ProvedBy clauses query v goal rest b c s w) : Covers ⟨goal :: rest, b, pending⟩

end

variable {clauses : List Clause} {query : List Compound} {v : Valuation}

/-! ## Solutions -/

/-- A solution under which the goals hold is covered while all clauses are left
to try. -/
theorem Frame.covers_all {goals : List Compound} {b : Bindings} {s : Valuation}
    (hs : s.AgreesOn query v) (hb : s.Solves b)
    (hgoals : ∀ g ∈ goals, Holds clauses (s.compound g)) :
    Frame.Covers clauses query v ⟨goals, b, clauses⟩ := by
  cases goals with
  | nil => exact .answer hs hb
  | cons goal rest =>
    have hgoal := hgoals goal List.mem_cons_self
    have hrest : ∀ g ∈ rest, Holds clauses (s.compound g) :=
      fun g hg => hgoals g (List.mem_cons_of_mem _ hg)
    generalize hu : s.compound goal = u at hgoal
    cases hgoal with
    | intro hc w hbody => exact .goal hc ⟨hs, hb, hbody, hu, hrest⟩

section
variable {goal : Compound} {rest : List Compound} {b : Bindings} {c : Clause} {s w : Valuation}

theorem ProvedBy.sameSignature (h : ProvedBy clauses query v goal rest b c s w) :
    goal.SameSignature c.head := by
  have head := h.head
  simp only [Valuation.compound_eq, Compound.mk.injEq] at head
  exact ⟨head.1, by simpa [Compound.arity] using congrArg List.length head.2⟩

/-- A choice point whose goal is proved by a later clause stays. -/
theorem ProvedBy.retry (h : ProvedBy clauses query v goal rest b c s w) {pending : List Clause}
    (hc : c ∈ pending) (stack : List Frame) :
    ∃ f ∈ HornSearch.retry goal rest b pending stack, Frame.Covers clauses query v f := by
  have hne : pending.isEmpty = false := by
    cases pending with
    | nil => cases hc
    | cons _ _ => rfl
  refine ⟨⟨goal :: rest, b, pending⟩, ?_, .goal hc h⟩
  simp [HornSearch.retry, hne]

/-- A solution extends to the copy of a clause: what a valuation makes of the clause, the
extension makes of the copy, and it makes of the goals what the solution does. -/
theorem Frame.Apart.extend {d d' e : Nat} {r : Rule} {pending : List Clause}
    (hf : Frame.Apart clauses d e ⟨goal :: rest, b, c :: pending⟩)
    (hfacts : ∀ c ∈ clauses, c.Closed) (hle : d' ≤ e) (he : e ≤ d + 2 ^ 64)
    (huse : c.instantiate d = (r, d')) (hs : s.Solves b) (w : Valuation) :
    ∃ s' : Valuation, s'.Solves b ∧ (∀ x, ¬Later d d' x → s'.value x = s.value x) ∧
      (∀ g ∈ goal :: rest, s'.compound g = s.compound g) ∧
      s'.compound r.head = w.compound c.head ∧
      r.body.map s'.compound = c.body.map w.compound := by
  have hclosed := hfacts c (hf.pending c List.mem_cons_self)
  obtain ⟨s', hold, hhead, hbody⟩ := Clause.instantiate_lift hclosed huse (by omega) s w
  have hsame : ∀ x, ¬Later d e x → s'.value x = s.value x := by
    intro x hx
    apply hold x
    rintro ⟨k, hk, hkd, hkx⟩
    exact hx ⟨k, hk, by omega, hkx⟩
  have hgoals : ∀ g ∈ goal :: rest, s'.compound g = s.compound g := fun g hg =>
    Valuation.compound_congr fun x hx => hsame _ (hf.goals g hg x hx)
  refine ⟨s', fun x t hx => ?_, hold, hgoals, hhead, hbody⟩
  have hterm : s'.term t = s.term t :=
    Valuation.term_congr fun y hy => hsame _ (hf.bindings.value hx y hy)
  rw [hsame x (hf.bindings.key hx), hterm]
  exact hs x t hx

/-- The solution extends to the copy of the clause that proves the goal, and
makes the goal equal to its head. -/
theorem ProvedBy.extend {d d' e : Nat} {r : Rule} {pending : List Clause}
    (h : ProvedBy clauses query v goal rest b c s w) (hquery : Undrawn query)
    (hfacts : ∀ c ∈ clauses, c.Closed) (hle : d' ≤ e) (he : e ≤ d + 2 ^ 64)
    (hf : Frame.Apart clauses d e ⟨goal :: rest, b, c :: pending⟩)
    (huse : c.instantiate d = (r, d')) :
    ∃ s' : Valuation, s'.AgreesOn query v ∧ (s'.Solves b ∧ s'.compound goal = s'.compound r.head) ∧
      ∀ g ∈ r.body ++ rest, Holds clauses (s'.compound g) := by
  obtain ⟨s', hs', hold, hgoals, hhead, hbody⟩ := hf.extend hfacts hle he huse h.solves w
  refine ⟨s', ?_, ⟨hs', ?_⟩, ?_⟩
  · intro g hg x hx
    rw [← h.agrees g hg x hx]
    apply hold
    rintro ⟨k, _, _, hk⟩
    exact hquery g hg x hx k hk.symm
  · rw [hgoals goal List.mem_cons_self, h.head, hhead]
  · intro g hg
    rcases List.mem_append.1 hg with hg | hg
    · exact forall_of_map_eq hbody h.body g hg
    · have hmem := List.mem_cons_of_mem goal hg
      exact hgoals g hmem ▸ h.rest g hg

end

/-- What one step does to the choice point that covers: it leaves one that
covers in its place. -/
theorem covers_top {n d d' e : Nat} {f : Frame} {stack stack' : List Frame}
    (hquery : Undrawn query) (hfacts : ∀ c ∈ clauses, c.Closed) (hle : d' ≤ e)
    (he : e ≤ d + 2 ^ 64) (hf : Frame.Apart clauses d e f) (hc : Frame.Covers clauses query v f)
    (hm : Move clauses n d (f :: stack) (.moved d' stack')) :
    ∃ f ∈ stack', Frame.Covers clauses query v f := by
  cases hc with
  | answer _ _ => cases hm
  | goal hc h =>
    cases hm with
    | exhausted => cases hc
    | skipped hsig =>
      rcases List.mem_cons.1 hc with rfl | hc
      · exact absurd h.sameSignature hsig
      · exact h.retry hc stack
    | clashed _ huse hunify =>
      rcases List.mem_cons.1 hc with rfl | hc
      · obtain ⟨s', _, heq, _⟩ := h.extend hquery hfacts hle he hf huse
        exact absurd heq (unifyCompound_solves hf.oriented hunify s')
      · exact h.retry hc stack
    | applied _ huse hunify =>
      rcases List.mem_cons.1 hc with rfl | hc
      · obtain ⟨s', hs', heq, hgoals⟩ := h.extend hquery hfacts hle he hf huse
        have hb' := (unifyCompound_solves hf.oriented hunify s').2 heq
        exact ⟨_, List.mem_cons_self, Frame.covers_all hs' hb' hgoals⟩
      · obtain ⟨f, hmem, hfc⟩ := h.retry hc stack
        exact ⟨f, List.mem_cons_of_mem _ hmem, hfc⟩

/-- No step drops a choice point below the innermost one. -/
theorem mem_of_move {n d d' : Nat} {f g : Frame} {stack stack' : List Frame}
    (hm : Move clauses n d (f :: stack) (.moved d' stack')) (hg : g ∈ stack) : g ∈ stack' := by
  have hretry {goal : Compound} {rest : List Compound} {b : Bindings} {pending : List Clause} :
      g ∈ retry goal rest b pending stack := by
    unfold retry
    split
    · exact hg
    · exact List.mem_cons_of_mem _ hg
  cases hm with
  | exhausted => exact hg
  | skipped _ => exact hretry
  | clashed _ _ _ => exact hretry
  | applied _ _ _ => exact List.mem_cons_of_mem _ hretry

/-! ## Runs -/

/-- The solution is not lost yet: some choice point covers it. -/
structure Kept (clauses : List Clause) (query : List Compound) (v : Valuation) (e d : Nat)
    (stack : List Frame) : Prop where
  apart : ∀ f ∈ stack, Frame.Apart clauses d e f
  covers : ∃ f ∈ stack, Frame.Covers clauses query v f

theorem kept_move {n d d' e : Nat} {stack stack' : List Frame} (hquery : Undrawn query)
    (hfacts : ∀ c ∈ clauses, c.Closed) (hle : d' ≤ e) (he : e ≤ d + 2 ^ 64)
    (h : Kept clauses query v e d stack) (hm : Move clauses n d stack (.moved d' stack')) :
    Kept clauses query v e d' stack' := by
  refine ⟨apart_move hfacts he h.apart hm, ?_⟩
  obtain ⟨f, hf, hc⟩ := h.covers
  cases stack with
  | nil => cases hf
  | cons top stack =>
    rcases List.mem_cons.1 hf with rfl | hf
    · exact covers_top hquery hfacts hle he (h.apart f List.mem_cons_self) hc hm
    · exact ⟨f, mem_of_move hm hf, hc⟩

theorem Kept.mono {d d' e : Nat} {stack : List Frame} (h : Kept clauses query v e d stack)
    (hd : d ≤ d') : Kept clauses query v e d' stack :=
  ⟨fun f hf => (h.apart f hf).mono hd, h.covers⟩

/-- A pull does not lose the solution: its answer has it, or it is kept. -/
theorem kept_pull {n d e : Nat} {cursor : Cursor} {p : Pulled} (hquery : Undrawn query)
    (hfacts : ∀ c ∈ clauses, c.Closed) (hle : p.drawn ≤ e) (he : e ≤ d + 2 ^ 64)
    (h : Kept clauses query v e d cursor.stack) (hpull : pull clauses n d cursor = some p) :
    ∃ b, p.answer = some b ∧ ((∃ s : Valuation, s.Solves b ∧ s.AgreesOn query v) ∨
      Kept clauses query v e p.drawn p.cursor.stack) := by
  -- Draws only grow, so a state that is within the bound comes from such states.
  have hkeeps := pull_keeps
    (I := fun d' stack => d ≤ d' ∧ (d' ≤ e → Kept clauses query v e d' stack))
    (fun hI hm => ⟨hI.1.trans (drawn_le_of_move hm), fun hle' =>
      kept_move hquery hfacts hle' (by omega) (hI.2 ((drawn_le_of_move hm).trans hle')) hm⟩)
    ⟨Nat.le_refl d, fun _ => h⟩ hpull
  obtain ⟨_, _, _, hI⟩ | ⟨b, pending, hb, _, hI⟩ := hkeeps
  · obtain ⟨f, hf, _⟩ := (hI hle).covers
    cases hf
  · have hkept := hI hle
    refine ⟨b, hb, ?_⟩
    obtain ⟨f, hf, hc⟩ := hkept.covers
    rcases List.mem_cons.1 hf with rfl | hf
    · cases hc with
      | answer hs hsb => exact .inl ⟨_, hsb, hs⟩
    · exact .inr ⟨fun f hf => hkept.apart f (List.mem_cons_of_mem _ hf), f, hf, hc⟩

theorem kept_run {d d' e : Nat} {cursor last : Cursor} {answers : List Bindings}
    (hquery : Undrawn query) (hfacts : ∀ c ∈ clauses, c.Closed) (hle : d' ≤ e)
    (he : e ≤ d + 2 ^ 64) (h : Kept clauses query v e d cursor.stack)
    (hrun : Run clauses d cursor answers d' last) :
    (∃ b ∈ answers, ∃ s : Valuation, s.Solves b ∧ s.AgreesOn query v) ∨
      Kept clauses query v e d' last.stack := by
  induction hrun with
  | refl => exact .inr h
  | others hd _ ih => exact ih hle (by omega) (h.mono hd)
  | answer hpull hrest ih =>
    have hd := drawn_le_of_pull hpull
    have hd' := drawn_le_of_run hrest
    obtain ⟨b, hb, hcase⟩ := kept_pull hquery hfacts (hd'.trans hle) he h hpull
    cases hb
    rcases hcase with hs | hkept
    · exact .inl ⟨_, List.mem_cons_self, hs⟩
    · rcases ih hle (by simp only at hd; omega) hkept with ⟨b', hb', hs⟩ | hkept
      · exact .inl ⟨b', List.mem_cons_of_mem _ hb', hs⟩
      · exact .inr hkept

/-! ## Completeness -/

/-- A search that has come to its end has an answer for every ground instance
of the query that follows from the program; a query that has no answer has no
such instance. -/
theorem finished_complete {db : Database} {query : List Compound}
    (hfacts : ∀ c ∈ db.clauses, c.Closed) (hquery : Undrawn query) :
    (∀ {answers d last n p}, Run db.clauses db.drawn (db.query query) answers d last →
      pull db.clauses n d last = some p → p.answer = none → p.drawn < db.drawn + 2 ^ 64 →
      ∀ v : Valuation, (∀ g ∈ query, Holds db.clauses (v.compound g)) →
        ∃ b ∈ answers, ∃ s : Valuation, s.Solves b ∧ s.AgreesOn query v) ∧
    ∀ {n db'}, db.ask n query = some (false, db') → db'.drawn < db.drawn + 2 ^ 64 →
      ∀ v : Valuation, ¬∀ g ∈ query, Holds db.clauses (v.compound g) := by
  have main {answers : List Bindings} {d n : Nat} {last : Cursor} {p : Pulled}
      (hrun : Run db.clauses db.drawn (db.query query) answers d last)
      (hpull : pull db.clauses n d last = some p) (hend : p.answer = none)
      (hdraws : p.drawn < db.drawn + 2 ^ 64) (v : Valuation)
      (hv : ∀ g ∈ query, Holds db.clauses (v.compound g)) :
      ∃ b ∈ answers, ∃ s : Valuation, s.Solves b ∧ s.AgreesOn query v := by
    have hd := drawn_le_of_run hrun
    have hstart : Kept db.clauses query v p.drawn db.drawn (db.query query).stack := by
      refine ⟨fun f hf => ?_, _, List.mem_cons_self, ?_⟩
      · cases List.mem_singleton.1 hf
        exact Frame.apart_start hquery
      · exact Frame.covers_all (fun _ _ _ _ => rfl) (Valuation.solves_empty v) hv
    have hle := drawn_le_of_pull hpull
    rcases kept_run hquery hfacts hle (by omega) hstart hrun with hs | hkept
    · exact hs
    · obtain ⟨b, hb, _⟩ := kept_pull hquery hfacts (Nat.le_refl _) (by omega) hkept hpull
      simp [hend] at hb
  refine ⟨main, fun {n db'} hask hdraws v hv => ?_⟩
  simp only [Database.ask, Database.pull] at hask
  cases hpull : pull db.clauses n db.drawn (db.query query) with
  | none => simp [hpull] at hask
  | some p =>
    simp only [hpull, Option.bind_eq_bind, Option.bind_some, Option.pure_def, Option.some.injEq,
      Prod.mk.injEq, Option.isSome_eq_false_iff, Option.isNone_iff_eq_none] at hask
    obtain ⟨hend, rfl⟩ := hask
    obtain ⟨b, hb, _⟩ := main .refl hpull hend hdraws v hv
    cases hb

theorem closed_birds : ∀ c ∈ birds.clauses, c.Closed := by
  simp [birds, Database.ofClauses, Clause.Closed, Compound.vars, Term.varsAll]

theorem name_of_whoFlies {g : Compound} (hg : g ∈ whoFlies) {x : Var} (hx : x ∈ g.vars) :
    x.name = "Who" := by
  cases List.mem_singleton.1 hg
  simp_all [Compound.vars, Term.varsAll, Var.ofName]

/-- Nothing but birds fly, so the query has one answer and none for a penguin. -/
theorem finished_complete_birds :
    (∃ (b : Bindings) (last : Cursor) (p : Pulled) (v : Valuation),
      Run birds.clauses birds.drawn (birds.query whoFlies) [b] 1 last ∧
      pull birds.clauses 9 1 last = some p ∧ p.answer = none ∧
      p.drawn < birds.drawn + 2 ^ 64 ∧
      (∀ g ∈ whoFlies, Holds birds.clauses (v.compound g)) ∧
      ∃ b' ∈ [b], ∃ s : Valuation, s.Solves b' ∧ s.AgreesOn whoFlies v) ∧
    (∃ db', birds.ask 9 [⟨"flies", [.atom "penguin"]⟩] = some (false, db') ∧
      ∀ v : Valuation, ¬∀ g ∈ [Compound.mk "flies" [.atom "penguin"]],
        Holds birds.clauses (v.compound g)) := by
  constructor
  · let b := Bindings.ofList [(.fresh 0, .var (.ofName "Who")), (.ofName "Who", .atom "tweety")]
    let last : Cursor := ⟨[⟨[⟨"bird", [.var (.fresh 0)]⟩],
      .ofList [(.fresh 0, .var (.ofName "Who"))], birds.clauses.tail⟩]⟩
    let v : Valuation := ⟨fun _ => .atom "tweety", fun _ => Term.vars_atom _⟩
    have hquery : Undrawn whoFlies := by
      intro g hg x hx k e
      have htoList := congrArg String.toList ((name_of_whoFlies hg hx).symm.trans e)
      simp [Var.fresh] at htoList
    have hpull : pull birds.clauses 9 birds.drawn (birds.query whoFlies) =
        some ⟨some b, 1, last⟩ := by decide
    have hrun := Run.answer hpull .refl
    have hend : pull birds.clauses 9 1 last = some ⟨none, 1, ⟨[]⟩⟩ := by decide
    have hdraws : 1 < birds.drawn + 2 ^ 64 := by decide
    have hbird : Holds birds.clauses ⟨"bird", [.atom "tweety"]⟩ :=
      .intro (c := .fact ⟨"bird", [.atom "tweety"]⟩) (by simp [birds, Database.ofClauses]) v
        (by simp [Clause.body])
    have hv : ∀ g ∈ whoFlies, Holds birds.clauses (v.compound g) := by
      intro g hg
      cases List.mem_singleton.1 hg
      refine .intro (c := birds.clauses.getLast (by simp [birds, Database.ofClauses]))
        (List.getLast_mem _) v ?_
      simpa [birds, Database.ofClauses, Clause.body, Valuation.compound_eq, v] using hbird
    exact ⟨b, last, _, v, hrun, hend, rfl, hdraws, hv,
      (finished_complete closed_birds hquery).1 hrun hend rfl hdraws v hv⟩
  · have hquery : Undrawn [⟨"flies", [.atom "penguin"]⟩] := by
      simp [Undrawn, Compound.vars, Term.varsAll]
    have hask : birds.ask 9 [⟨"flies", [.atom "penguin"]⟩] =
        some (false, { birds with drawn := 1 }) := by decide
    exact ⟨_, hask, (finished_complete closed_birds hquery).2 hask (by decide)⟩

end HornSearch
