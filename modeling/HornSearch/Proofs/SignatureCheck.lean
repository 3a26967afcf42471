import HornSearch.Proofs.Interleaving

/-!
# The signature check saves work and nothing else

A search looks at the signature of a clause before it takes a copy of it. The
plain search takes a copy in any case and leaves a mismatch to unification. It
draws variables for copies that it throws away, so both searches soon use
different names for the same variables, and may bind two linked variables in
opposite directions.

They stay in lockstep nevertheless: what a mismatch costs the plain search is one
step, and so is the check (`stepPlain_cases`). So all pulls have the same outcome
(`repliesPlain_replies`).
-/

namespace HornSearch

/-! ## The plain search -/

/-- Tries one clause for the goal `goal`, whatever its signature is. -/
def tryPlain (clauses : List Clause) (n drawn : Nat) (b : Bindings) (goal : Compound)
    (rest : List Compound) (c : Clause) : Option (Nat × Option Frame) :=
  let (r, drawn) := c.instantiate drawn
  match unifyCompound n b goal r.head with
  | none => none
  | some (.error _) => some (drawn, none)
  | some (.ok b) => some (drawn, some ⟨r.body ++ rest, b, clauses⟩)

def stepPlain (clauses : List Clause) (n drawn : Nat) : List Frame → Option Step
  | ⟨goal :: rest, b, c :: pending⟩ :: stack =>
    let below := if pending.isEmpty then stack else ⟨goal :: rest, b, pending⟩ :: stack
    match tryPlain clauses n drawn b goal rest c with
    | none => none
    | some (drawn, none) => some (.moved drawn below)
    | some (drawn, some frame) => some (.moved drawn (frame :: below))
  | stack => step clauses n drawn stack

def pullPlain (clauses : List Clause) : Nat → Nat → Cursor → Option Pulled
  | 0, _, _ => none
  | n + 1, drawn, cursor =>
    match stepPlain clauses n drawn cursor.stack with
    | none => none
    | some .finished => some ⟨none, drawn, ⟨[]⟩⟩
    | some (.answer b stack) => some ⟨some b, drawn, ⟨stack⟩⟩
    | some (.moved drawn stack) => pullPlain clauses n drawn ⟨stack⟩

def Database.repliesPlain (n : Nat) : (k : Nat) → Database → Cursor →
    Option (List (Option Bindings × Nat))
  | 0, _, _ => some []
  | k + 1, db, cursor =>
    match pullPlain db.clauses n db.drawn cursor with
    | none => none
    | some p =>
      (repliesPlain n k { db with drawn := p.drawn } p.cursor).map ((p.answer, p.drawn) :: ·)

section
variable {clauses : List Clause} {n d : Nat}

/-- The check is all that is left out. -/
theorem tryClause_eq {b : Bindings} {goal : Compound} {rest : List Compound} {c : Clause} :
    tryClause clauses n d b goal rest c =
      if goal.SameSignature c.head then tryPlain clauses n d b goal rest c else some (d, none) :=
  rfl

/-- With the signature of the goal the clause is tried in the same way. -/
theorem stepPlain_of_sameSignature {b : Bindings} {goal : Compound} {rest : List Compound}
    {c : Clause} {pending : List Clause} {stack : List Frame} (hsig : goal.SameSignature c.head) :
    stepPlain clauses n d (⟨goal :: rest, b, c :: pending⟩ :: stack) =
      step clauses n d (⟨goal :: rest, b, c :: pending⟩ :: stack) := by
  have htry : tryPlain clauses n d b goal rest c = tryClause clauses n d b goal rest c := by
    rw [tryClause_eq, if_pos hsig]
  simp only [stepPlain]
  rw [htry]
  rfl

/-- A clause of another signature is drawn and clashes. -/
theorem stepPlain_of_mismatch {b : Bindings} {goal : Compound} {rest : List Compound}
    {c : Clause} {pending : List Clause} {stack : List Frame} (hsig : ¬goal.SameSignature c.head) :
    stepPlain clauses n d (⟨goal :: rest, b, c :: pending⟩ :: stack) =
      some (.moved (c.instantiate d).2 (retry goal rest b pending stack)) := by
  have hcopy : ¬goal.SameSignature (c.instantiate d).1.head := by
    cases c with
    | fact head => exact hsig
    | rule r =>
      rw [Clause.instantiate, Rule.instantiate_eq]
      simpa [Compound.SameSignature, Compound.arity, Rule.subst, Compound.subst, Clause.head]
        using hsig
  simp [stepPlain, tryPlain, unifyCompound, unifyArgs, if_neg hcopy, retry]

/-- A step of the plain search is one of the search, or gives up a clause of
another signature that was drawn. -/
theorem stepPlain_cases {stack : List Frame} {r : Step} (h : stepPlain clauses n d stack = some r) :
    Move clauses n d stack r ∨
      ∃ goal rest b c pending below, stack = ⟨goal :: rest, b, c :: pending⟩ :: below ∧
        ¬goal.SameSignature c.head ∧
        r = .moved (c.instantiate d).2 (retry goal rest b pending below) := by
  match stack with
  | [] => exact .inl (step_eq_some_iff.1 h)
  | ⟨[], b, pending⟩ :: stack => exact .inl (step_eq_some_iff.1 h)
  | ⟨goal :: rest, b, []⟩ :: stack => exact .inl (step_eq_some_iff.1 h)
  | ⟨goal :: rest, b, c :: pending⟩ :: stack =>
    by_cases hsig : goal.SameSignature c.head
    · rw [stepPlain_of_sameSignature hsig] at h
      exact .inl (step_eq_some_iff.1 h)
    · rw [stepPlain_of_mismatch hsig, Option.some.injEq] at h
      exact .inr ⟨goal, rest, b, c, pending, stack, rfl, hsig, h.symm⟩

theorem drawn_le_of_stepPlain {k : Nat} {stack stack' : List Frame}
    (h : stepPlain clauses n d stack = some (.moved k stack')) : d ≤ k := by
  obtain hm | ⟨_, _, _, c, _, _, _, _, hr⟩ := stepPlain_cases h
  · exact drawn_le_of_move hm
  · cases hr
    exact Clause.drawn_le_instantiate rfl

/-- What is left of a plain search, told by its first step. -/
theorem pullPlain_succ {stack : List Frame} {p : Pulled}
    (h : pullPlain clauses (n + 1) d ⟨stack⟩ = some p) :
    (stepPlain clauses n d stack = some .finished ∧ p = ⟨none, d, ⟨[]⟩⟩) ∨
    (∃ b rest, stepPlain clauses n d stack = some (.answer b rest) ∧ p = ⟨some b, d, ⟨rest⟩⟩) ∨
    (∃ k stack', stepPlain clauses n d stack = some (.moved k stack') ∧
      pullPlain clauses n k ⟨stack'⟩ = some p) := by
  simp only [pullPlain] at h
  cases hs : stepPlain clauses n d stack with
  | none => simp [hs] at h
  | some r =>
    cases r with
    | finished => exact .inl ⟨rfl, by simpa [hs] using h.symm⟩
    | answer b rest => exact .inr (.inl ⟨b, rest, rfl, by simpa [hs] using h.symm⟩)
    | moved k stack' => exact .inr (.inr ⟨k, stack', rfl, by simpa [hs] using h⟩)

theorem drawn_le_of_pullPlain {stack : List Frame} {p : Pulled}
    (h : pullPlain clauses n d ⟨stack⟩ = some p) : d ≤ p.drawn := by
  induction n generalizing d stack with
  | zero => cases h
  | succ n ih =>
    obtain ⟨_, rfl⟩ | ⟨_, _, _, rfl⟩ | ⟨k, stack', hs, h⟩ := pullPlain_succ h
    · exact Nat.le_refl d
    · exact Nat.le_refl d
    · exact (drawn_le_of_stepPlain hs).trans (ih h)

end

/-! ## Lockstep -/

/-- Steps of the plain search and of the search that do the same. The plain one
may draw more. -/
inductive StepsAlike (clauses : List Clause) (d e d' e' : Nat) : Step → Step → Prop where
  | finished : StepsAlike clauses d e d' e' .finished .finished
  | answer {draws : List (Nat × Nat)} {b b' : Bindings} {stack stack' : List Frame}
      (hb : Corresponds draws b b') (h : StacksAbreast clauses d e d' e' stack stack') :
      StepsAlike clauses d e d' e' (.answer b stack) (.answer b' stack')
  | moved {k k' : Nat} {stack stack' : List Frame} (hk : d ≤ k) (hk' : d' ≤ k')
      (hcount : k' + d ≤ k + d') (h : StacksAbreast clauses k e k' e' stack stack') :
      StepsAlike clauses d e d' e' (.moved k stack) (.moved k' stack')

/-- Pulls of the plain search and of the search that give the same. -/
structure PullsAlike (clauses : List Clause) (d e d' e' : Nat) (p p' : Pulled) : Prop where
  drawn : d ≤ p.drawn
  drawn' : d' ≤ p'.drawn
  count : p'.drawn + d ≤ p.drawn + d'
  answer : Option.Rel (fun b b' => ∃ draws, Corresponds draws b b') p.answer p'.answer
  stack : StacksAbreast clauses p.drawn e p'.drawn e' p.cursor.stack p'.cursor.stack

section
variable {clauses : List Clause} {n d e d' e' : Nat}

theorem StepsAbreast.alike {r r' : Step} (h : StepsAbreast clauses d e d' e' r r') :
    StepsAlike clauses d e d' e' r r' := by
  cases h with
  | finished => exact .finished
  | answer hb h => exact .answer hb h
  | moved len h => exact .moved (by omega) (by omega) (by omega) h

/-- What the plain search does in a step, the search does too. -/
theorem step_of_stepPlain {stack stack' : List Frame} {r : Step}
    (hfacts : ∀ c ∈ clauses, c.Closed) (hroom : Room d e d' e')
    (h : StacksAbreast clauses d e d' e' stack stack') (hr : stepPlain clauses n d stack = some r)
    (hle : ∀ k s, r = .moved k s → k ≤ e) :
    ∃ r', step clauses n d' stack' = some r' ∧ StepsAlike clauses d e d' e' r r' := by
  obtain hm | ⟨goal, rest, b, c, pending, below, rfl, hsig, rfl⟩ := stepPlain_cases hr
  · obtain ⟨r', hm', hsteps⟩ := lockstep_move hfacts hroom h hm hle
    exact ⟨r', step_eq_some_iff.2 hm', hsteps.alike⟩
  · cases h with
    | @cons _ f' _ below' hf hs =>
      obtain ⟨goals', b', pending'⟩ := f'
      obtain ⟨draws, hf⟩ := hf
      have hgoals := hf.goals
      have hpending := hf.pending
      cases hgoals with
      | @cons _ goal' _ rest' hg _ =>
        cases hpending
        have hsig' : ¬goal'.SameSignature c.head := fun e => hsig (hg.sameSignature_iff.2 e)
        have hdrawn : d ≤ (c.instantiate d).2 := Clause.drawn_le_instantiate rfl
        refine ⟨_, step_eq_some_iff.2 (.skipped hsig'), .moved hdrawn (Nat.le_refl _) (by omega) ?_⟩
        exact (StacksAbreast.retry ⟨draws, hf⟩ hs).mono hdrawn (Nat.le_refl _)

/-- What the plain search gives to a pull, the search gives too, within the same
number of steps. -/
theorem pull_of_pullPlain {stack stack' : List Frame} {p : Pulled}
    (hfacts : ∀ c ∈ clauses, c.Closed) (hroom : Room d e d' e')
    (h : StacksAbreast clauses d e d' e' stack stack')
    (hpull : pullPlain clauses n d ⟨stack⟩ = some p) (hle : p.drawn ≤ e) :
    ∃ p', pull clauses n d' ⟨stack'⟩ = some p' ∧ PullsAlike clauses d e d' e' p p' := by
  induction n generalizing d d' stack stack' with
  | zero => cases hpull
  | succ n ih =>
    obtain ⟨hs, rfl⟩ | ⟨b, rest, hs, rfl⟩ | ⟨k, next, hs, hpull⟩ := pullPlain_succ hpull
    · obtain ⟨r', hs', hr⟩ := step_of_stepPlain hfacts hroom h hs (by simp)
      cases hr
      refine ⟨⟨none, d', ⟨[]⟩⟩, by simp only [pull, hs'], ?_⟩
      exact ⟨Nat.le_refl d, Nat.le_refl d', (Nat.add_comm d' d).le, .none, .nil⟩
    · obtain ⟨r', hs', hr⟩ := step_of_stepPlain hfacts hroom h hs (by simp)
      cases hr with
      | @answer draws _ b' _ rest' hb h =>
        refine ⟨⟨some b', d', ⟨rest'⟩⟩, by simp only [pull, hs'], ?_⟩
        exact ⟨Nat.le_refl d, Nat.le_refl d', (Nat.add_comm d' d).le, .some ⟨draws, hb⟩, h⟩
    · have hle' := drawn_le_of_pullPlain hpull
      obtain ⟨r', hs', hr⟩ := step_of_stepPlain hfacts hroom h hs (by rintro _ _ ⟨⟩; omega)
      cases hr with
      | @moved _ k' _ next' hk hk' hcount h =>
        obtain ⟨p', hp', halike⟩ := ih (hroom.advance hk hk' hcount) h hpull
        refine ⟨p', by simpa only [pull, hs'] using hp', ?_⟩
        have hmore := halike.count
        exact ⟨hk.trans halike.drawn, hk'.trans halike.drawn', by omega, halike.answer,
          halike.stack⟩

end

/-! ## Replies -/

/-- The end on both sides, or answers that are the same for a host: if they are
without cycles, their materialized forms are variants. -/
def SameReply : Option Bindings → Option Bindings → Prop :=
  Option.Rel fun b c => b.Acyclic → c.Acyclic →
    ∃ m m', b.materialize = some m ∧ c.materialize = some m' ∧ m.Variant m'

theorem sameReply_of_rel {o o' : Option Bindings}
    (h : Option.Rel (fun b c => ∃ draws, Corresponds draws b c) o o') : SameReply o o' := by
  cases h with
  | none => exact .none
  | some h =>
    obtain ⟨draws, h⟩ := h
    exact .some fun hb hc => h.materialize hb hc

theorem replies_of_repliesPlain {clauses : List Clause} {n k d d' e e' : Nat}
    {cursor cursor' : Cursor} {plain : List (Option Bindings × Nat)}
    (hfacts : ∀ c ∈ clauses, c.Closed) (hroom : Room d e d' e')
    (h : StacksAbreast clauses d e d' e' cursor.stack cursor'.stack)
    (hplain : Database.repliesPlain n k ⟨clauses, d⟩ cursor = some plain)
    (hle : ∀ reply ∈ plain, reply.2 ≤ e) :
    ∃ replies, Database.replies n k ⟨clauses, d'⟩ cursor' = some replies ∧
      List.Forall₂ SameReply (plain.map Prod.fst) (replies.map Prod.fst) := by
  induction k generalizing d d' cursor cursor' plain with
  | zero =>
    cases hplain
    exact ⟨[], rfl, .nil⟩
  | succ k ih =>
    simp only [Database.repliesPlain] at hplain
    cases hp : pullPlain clauses n d cursor with
    | none => simp [hp] at hplain
    | some p =>
      simp only [hp, Option.map_eq_some_iff] at hplain
      obtain ⟨rest, hrest, rfl⟩ := hplain
      obtain ⟨hfirst, hlater⟩ := List.forall_mem_cons.1 hle
      obtain ⟨p', hp', halike⟩ := pull_of_pullPlain hfacts hroom h hp hfirst
      have hroom' := hroom.advance halike.drawn halike.drawn' halike.count
      obtain ⟨rest', hrest', hsame⟩ := ih hroom' halike.stack hrest hlater
      exact ⟨_, replies_succ.2 ⟨p', rest', hp', hrest', rfl⟩,
        .cons (sameReply_of_rel halike.answer) hsame⟩

/-- If pulls of the plain search return, with less than 2^64 draws, then the same
pulls of the search return, and whenever they return they have the same outcome. -/
theorem repliesPlain_replies {db : Database} {query : List Compound} {n k : Nat}
    {plain : List (Option Bindings × Nat)} (hfacts : ∀ c ∈ db.clauses, c.Closed)
    (hquery : ∀ g ∈ query, ∀ x ∈ g.vars, ¬Reserved x.name)
    (hplain : db.repliesPlain n k (db.query query) = some plain)
    (hdraws : ∀ reply ∈ plain, reply.2 < db.drawn + 2 ^ 64) :
    (∃ replies, db.replies n k (db.query query) = some replies) ∧
    ∀ m replies, db.replies m k (db.query query) = some replies →
      List.Forall₂ SameReply (plain.map Prod.fst) (replies.map Prod.fst) := by
  have hroom : Room db.drawn (db.drawn + 2 ^ 64) db.drawn (db.drawn + 2 ^ 64) :=
    ⟨Nat.le_refl _, Nat.le_refl _, Nat.le_refl _⟩
  have hstart : StacksAbreast db.clauses db.drawn (db.drawn + 2 ^ 64) db.drawn (db.drawn + 2 ^ 64)
      (db.query query).stack (db.query query).stack := .cons (Frame.abreast_start hquery) .nil
  obtain ⟨replies, hreplies, hsame⟩ := replies_of_repliesPlain hfacts hroom hstart hplain
    fun reply hr => Nat.le_of_lt (hdraws reply hr)
  refine ⟨⟨replies, hreplies⟩, fun m replies' h => ?_⟩
  have hmax := replies_mono (le_max_left m n) h
  rw [replies_mono (le_max_right m n) hreplies] at hmax
  cases hmax
  exact hsame

/-- After the answer the plain search also tries the rule for `flies` against the
goal `bird(_G0)`, and draws a variable for it. -/
theorem repliesPlain_replies_birds : ∃ plain replies : List (Option Bindings × Nat),
    birds.repliesPlain 9 2 (birds.query whoFlies) = some plain ∧
      birds.replies 9 2 (birds.query whoFlies) = some replies ∧
      plain.map Prod.snd = [1, 2] ∧ replies.map Prod.snd = [1, 1] ∧
      List.Forall₂ SameReply (plain.map Prod.fst) (replies.map Prod.fst) := by
  let b := Bindings.ofList [(.fresh 0, .var (.ofName "Who")), (.ofName "Who", .atom "tweety")]
  have hplain : birds.repliesPlain 9 2 (birds.query whoFlies) = some [(some b, 1), (none, 2)] := by
    decide
  have hreplies : birds.replies 9 2 (birds.query whoFlies) = some [(some b, 1), (none, 1)] := by
    decide
  have hdraws : ∀ reply ∈ [(some b, 1), (none, 2)], reply.2 < birds.drawn + 2 ^ 64 := by
    simp [birds, Database.ofClauses]
  have hsame := (repliesPlain_replies closed_birds unreserved_whoFlies hplain hdraws).2 9 _ hreplies
  exact ⟨_, _, hplain, hreplies, rfl, rfl, hsame⟩

end HornSearch
