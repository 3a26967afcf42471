import HornSearch.Proofs.Renaming
import HornSearch.Proofs.Unification
import HornSearch.Database

/-!
# Steps of a search

`Move` lists what one step can do, and `step_eq_some_iff` says that it lists
nothing else. What every step keeps, a pull keeps (`pull_keeps`), and what
every pull keeps, a `Run` of pulls keeps (`run_keeps`). Others may draw variables
between two pulls of a run.

Two searches that agree in every step (`Bisimulation`) agree in what they give to a
pull (`Bisimulation.pull`).
-/

namespace HornSearch

/-- The stack with a choice point put back on it, unless no clause remains. -/
def retry (goal : Compound) (rest : List Compound) (b : Bindings) (pending : List Clause)
    (stack : List Frame) : List Frame :=
  if pending.isEmpty then stack else ⟨goal :: rest, b, pending⟩ :: stack

theorem mem_retry {goal : Compound} {rest : List Compound} {b : Bindings} {pending : List Clause}
    {stack : List Frame} {f : Frame} (h : f ∈ retry goal rest b pending stack) :
    f = ⟨goal :: rest, b, pending⟩ ∨ f ∈ stack := by
  unfold retry at h
  split at h
  · exact .inr h
  · exact List.mem_cons.1 h

/-- What one step does, by the innermost choice point. -/
inductive Move (clauses : List Clause) (n d : Nat) : List Frame → Step → Prop where
  | finished : Move clauses n d [] .finished
  | answer {b : Bindings} {pending : List Clause} {stack : List Frame} :
      Move clauses n d (⟨[], b, pending⟩ :: stack) (.answer b stack)
  | exhausted {goal : Compound} {rest : List Compound} {b : Bindings} {stack : List Frame} :
      Move clauses n d (⟨goal :: rest, b, []⟩ :: stack) (.moved d stack)
  | skipped {goal : Compound} {rest : List Compound} {b : Bindings} {c : Clause}
      {pending : List Clause} {stack : List Frame} (hsig : ¬goal.SameSignature c.head) :
      Move clauses n d (⟨goal :: rest, b, c :: pending⟩ :: stack)
        (.moved d (retry goal rest b pending stack))
  | clashed {goal : Compound} {rest : List Compound} {b : Bindings} {c : Clause} {r : Rule}
      {d' : Nat} {pending : List Clause} {stack : List Frame} {clash : Clash}
      (hsig : goal.SameSignature c.head) (huse : c.instantiate d = (r, d'))
      (hunify : unifyCompound n b goal r.head = some (.error clash)) :
      Move clauses n d (⟨goal :: rest, b, c :: pending⟩ :: stack)
        (.moved d' (retry goal rest b pending stack))
  | applied {goal : Compound} {rest : List Compound} {b b' : Bindings} {c : Clause} {r : Rule}
      {d' : Nat} {pending : List Clause} {stack : List Frame}
      (hsig : goal.SameSignature c.head) (huse : c.instantiate d = (r, d'))
      (hunify : unifyCompound n b goal r.head = some (.ok b')) :
      Move clauses n d (⟨goal :: rest, b, c :: pending⟩ :: stack)
        (.moved d' (⟨r.body ++ rest, b', clauses⟩ :: retry goal rest b pending stack))

theorem step_eq_some_iff {clauses : List Clause} {n d : Nat} {stack : List Frame} {r : Step} :
    step clauses n d stack = some r ↔ Move clauses n d stack r := by
  constructor
  · intro h
    match stack with
    | [] => cases h; exact .finished
    | ⟨[], b, pending⟩ :: stack => cases h; exact .answer
    | ⟨goal :: rest, b, []⟩ :: stack => cases h; exact .exhausted
    | ⟨goal :: rest, b, c :: pending⟩ :: stack =>
      simp only [step, tryClause] at h
      by_cases hsig : goal.SameSignature c.head
      · simp only [if_pos hsig] at h
        cases hu : unifyCompound n b goal (c.instantiate d).1.head with
        | none => simp [hu] at h
        | some o =>
          cases o with
          | error clash =>
            simp only [hu, Option.some.injEq] at h
            exact h ▸ .clashed hsig rfl hu
          | ok b' =>
            simp only [hu, Option.some.injEq] at h
            exact h ▸ .applied hsig rfl hu
      · simp only [if_neg hsig, Option.some.injEq] at h
        exact h ▸ .skipped hsig
  · intro h
    cases h with
    | finished | answer | exhausted => rfl
    | skipped hsig => simp [step, tryClause, hsig, retry]
    | clashed hsig huse h => simp [step, tryClause, hsig, huse, h, retry]
    | applied hsig huse h => simp [step, tryClause, hsig, huse, h, retry]

theorem step_mono {clauses : List Clause} {n m d : Nat} (hnm : n ≤ m) {stack : List Frame}
    {r : Step} (h : step clauses n d stack = some r) : step clauses m d stack = some r := by
  rw [step_eq_some_iff] at h ⊢
  cases h with
  | finished => exact .finished
  | answer => exact .answer
  | exhausted => exact .exhausted
  | skipped hsig => exact .skipped hsig
  | clashed hsig huse h => exact .clashed hsig huse (unifyCompound_mono hnm h)
  | applied hsig huse h => exact .applied hsig huse (unifyCompound_mono hnm h)

/-- What holds of all choice points holds of all after a step: of those that
are left, also with a clause less to try, and of the one that is put on top. -/
theorem forall_of_move {clauses : List Clause} {n d d' : Nat} {stack stack' : List Frame}
    {P Q : Frame → Prop} (hm : Move clauses n d stack (.moved d' stack'))
    (h : ∀ f ∈ stack, P f) (hkeep : ∀ f, P f → Q f)
    (hskip : ∀ {goals b c pending}, P ⟨goals, b, c :: pending⟩ → P ⟨goals, b, pending⟩)
    (happly : ∀ {goal rest b b' c pending r}, P ⟨goal :: rest, b, c :: pending⟩ →
      c.instantiate d = (r, d') → unifyCompound n b goal r.head = some (.ok b') →
      Q ⟨r.body ++ rest, b', clauses⟩) :
    ∀ f ∈ stack', Q f := by
  have hretry {goal : Compound} {rest : List Compound} {b : Bindings} {c : Clause}
      {pending : List Clause} {stack : List Frame}
      (h : ∀ f ∈ ⟨goal :: rest, b, c :: pending⟩ :: stack, P f) :
      ∀ f ∈ retry goal rest b pending stack, Q f := by
    intro f hf
    apply hkeep
    rcases mem_retry hf with rfl | hf
    · exact hskip (h _ List.mem_cons_self)
    · exact h f (List.mem_cons_of_mem _ hf)
  cases hm with
  | exhausted =>
    intro f hf
    exact hkeep f (h f (List.mem_cons_of_mem _ hf))
  | skipped _ => exact hretry h
  | clashed _ _ _ => exact hretry h
  | applied _ huse hunify =>
    intro f hf
    rcases List.mem_cons.1 hf with rfl | hf
    · exact happly (h _ List.mem_cons_self) huse hunify
    · exact hretry h f hf

theorem drawn_le_of_move {clauses : List Clause} {n d d' : Nat} {stack stack' : List Frame}
    (h : Move clauses n d stack (.moved d' stack')) : d ≤ d' := by
  cases h with
  | exhausted => exact Nat.le_refl d
  | skipped _ => exact Nat.le_refl d
  | clashed _ huse _ => exact Clause.drawn_le_instantiate huse
  | applied _ huse _ => exact Clause.drawn_le_instantiate huse

/-! ## Pulls -/

/-- What is left of a search, told by its first step. -/
theorem pull_succ {clauses : List Clause} {n d : Nat} {stack : List Frame} {p : Pulled}
    (h : pull clauses (n + 1) d ⟨stack⟩ = some p) :
    (stack = [] ∧ p = ⟨none, d, ⟨[]⟩⟩) ∨
    (∃ b rest, Move clauses n d stack (.answer b rest) ∧ p = ⟨some b, d, ⟨rest⟩⟩) ∨
    (∃ d' stack', Move clauses n d stack (.moved d' stack') ∧
      pull clauses n d' ⟨stack'⟩ = some p) := by
  simp only [pull] at h
  cases hs : step clauses n d stack with
  | none => simp [hs] at h
  | some r =>
    have hm := step_eq_some_iff.1 hs
    cases r with
    | finished =>
      cases hm
      exact .inl ⟨rfl, by simpa [hs] using h.symm⟩
    | answer b rest => exact .inr (.inl ⟨b, rest, hm, by simpa [hs] using h.symm⟩)
    | moved d' stack' => exact .inr (.inr ⟨d', stack', hm, by simpa [hs] using h⟩)

theorem pull_mono {clauses : List Clause} {n m d : Nat} (hnm : n ≤ m) {cursor : Cursor}
    {p : Pulled} (h : pull clauses n d cursor = some p) : pull clauses m d cursor = some p := by
  obtain ⟨stack⟩ := cursor
  induction n generalizing m d stack with
  | zero => cases h
  | succ n ih =>
    obtain ⟨m, rfl⟩ : ∃ m', m = m' + 1 := ⟨m - 1, by omega⟩
    have hnm : n ≤ m := by omega
    obtain ⟨rfl, rfl⟩ | ⟨b, rest, hm, rfl⟩ | ⟨d', stack', hm, h⟩ := pull_succ h
    · rfl
    · simp only [pull, step_mono hnm (step_eq_some_iff.2 hm)]
    · simp only [pull, step_mono hnm (step_eq_some_iff.2 hm)]
      exact ih hnm stack' h

/-- A step that does not answer changes nothing about what a pull gives. -/
theorem pull_moved_iff {clauses : List Clause} {n₀ d d' : Nat} {stack stack' : List Frame}
    (hm : Move clauses n₀ d stack (.moved d' stack')) {p : Pulled} :
    (∃ n, pull clauses n d ⟨stack⟩ = some p) ↔ ∃ n, pull clauses n d' ⟨stack'⟩ = some p := by
  have hs := step_eq_some_iff.2 hm
  constructor
  · rintro ⟨n, h⟩
    refine ⟨max n n₀, ?_⟩
    have h := pull_mono (show n ≤ max n n₀ + 1 by omega) h
    simpa only [pull, step_mono (le_max_right n n₀) hs] using h
  · rintro ⟨n, h⟩
    refine ⟨max n n₀ + 1, ?_⟩
    simpa only [pull, step_mono (le_max_right n n₀) hs] using pull_mono (le_max_left n n₀) h

/-- A pull ends with a state that all steps before have kept: with no choice
point, or with one that has no goal left. -/
theorem pull_keeps {clauses : List Clause} {I : Nat → List Frame → Prop}
    (hmove : ∀ {n d stack d' stack'}, I d stack → Move clauses n d stack (.moved d' stack') →
      I d' stack')
    {n d : Nat} {cursor : Cursor} {p : Pulled} (hI : I d cursor.stack)
    (h : pull clauses n d cursor = some p) :
    (p.answer = none ∧ p.cursor.stack = [] ∧ I p.drawn []) ∨
      ∃ b pending, p.answer = some b ∧ I p.drawn (⟨[], b, pending⟩ :: p.cursor.stack) := by
  obtain ⟨stack⟩ := cursor
  induction n generalizing d stack with
  | zero => cases h
  | succ n ih =>
    obtain ⟨rfl, rfl⟩ | ⟨b, rest, hm, rfl⟩ | ⟨d', stack', hm, h⟩ := pull_succ h
    · exact .inl ⟨rfl, rfl, hI⟩
    · cases hm
      exact .inr ⟨b, _, rfl, hI⟩
    · exact ih stack' (hmove hI hm) h

theorem drawn_le_of_pull {clauses : List Clause} {n d : Nat} {cursor : Cursor} {p : Pulled}
    (h : pull clauses n d cursor = some p) : d ≤ p.drawn := by
  have := pull_keeps (I := fun d' _ => d ≤ d') (fun hI hm => hI.trans (drawn_le_of_move hm))
    (Nat.le_refl d) h
  obtain ⟨_, _, h⟩ | ⟨_, _, _, h⟩ := this <;> exact h

/-! ## Searches that agree -/

section
variable {α : Type} {view : Option Bindings → α} {S : List Frame → List Frame → Prop}
  {clauses clauses' : List Clause}

/-- Steps that draw the same variables and leave related choice points. Under the view their
answers are the same. -/
inductive Step.Agree (view : Option Bindings → α) (S : List Frame → List Frame → Prop) :
    Step → Step → Prop where
  | finished : Agree view S .finished .finished
  | answer {b b' : Bindings} {stack stack' : List Frame} (hb : view (some b) = view (some b'))
      (h : S stack stack') : Agree view S (.answer b stack) (.answer b' stack')
  | moved (d : Nat) {stack stack' : List Frame} (h : S stack stack') :
      Agree view S (.moved d stack) (.moved d stack')

/-- Pulls that give the same under the view, and leave related choice points. -/
structure Pulled.Agree (view : Option Bindings → α) (S : List Frame → List Frame → Prop)
    (p p' : Pulled) : Prop where
  answer : view p.answer = view p'.answer
  drawn : p.drawn = p'.drawn
  stack : S p.cursor.stack p'.cursor.stack

/-- From related choice points, searches among the clauses of either side take steps that
agree, or both run out of their bound. -/
structure Bisimulation (view : Option Bindings → α) (S : List Frame → List Frame → Prop)
    (clauses clauses' : List Clause) : Prop where
  nil : S [] []
  step : ∀ {n d stack stack'}, S stack stack' →
    Option.Rel (Step.Agree view S) (step clauses n d stack) (step clauses' n d stack')

theorem Bisimulation.pull (hsim : Bisimulation view S clauses clauses') {n d : Nat}
    {stack stack' : List Frame} (h : S stack stack') :
    Option.Rel (Pulled.Agree view S) (pull clauses n d ⟨stack⟩) (pull clauses' n d ⟨stack'⟩) := by
  induction n generalizing d stack stack' with
  | zero => exact .none
  | succ n ih =>
    have hstep := hsim.step (n := n) (d := d) h
    simp only [HornSearch.pull]
    generalize HornSearch.step clauses n d stack = o,
      HornSearch.step clauses' n d stack' = o' at hstep
    cases hstep with
    | none => exact .none
    | some hstep =>
      cases hstep with
      | finished => exact .some ⟨rfl, rfl, hsim.nil⟩
      | answer hb h => exact .some ⟨hb, rfl, h⟩
      | moved d h => exact ih h

end

/-! ## Runs -/

/-- A search that is pulled again and again gives the answers `answers`. Before
a pull, others may have drawn from the supply. -/
inductive Run (clauses : List Clause) : Nat → Cursor → List Bindings → Nat → Cursor → Prop where
  | refl {d : Nat} {cursor : Cursor} : Run clauses d cursor [] d cursor
  | others {d d' e : Nat} {cursor cursor' : Cursor} {answers : List Bindings} (h : d ≤ d')
      (hrun : Run clauses d' cursor answers e cursor') : Run clauses d cursor answers e cursor'
  | answer {n d d' e : Nat} {cursor cursor' last : Cursor} {b : Bindings}
      {answers : List Bindings} (h : pull clauses n d cursor = some ⟨some b, d', cursor'⟩)
      (hrun : Run clauses d' cursor' answers e last) : Run clauses d cursor (b :: answers) e last

/-- What every step keeps of all choice points is left of each answer. -/
theorem run_keeps {clauses : List Clause} {P : Frame → Prop}
    (hmove : ∀ {n d d' stack stack'}, (∀ f ∈ stack, P f) →
      Move clauses n d stack (.moved d' stack') → ∀ f ∈ stack', P f)
    {d e : Nat} {cursor last : Cursor} {answers : List Bindings}
    (hrun : Run clauses d cursor answers e last) (h : ∀ f ∈ cursor.stack, P f) :
    ∀ b ∈ answers, ∃ pending, P ⟨[], b, pending⟩ := by
  induction hrun with
  | refl => simp
  | others _ _ ih => exact ih h
  | answer hpull _ ih =>
    obtain ⟨hnone, _, _⟩ | ⟨b, pending, hb, hI⟩ := pull_keeps
      (I := fun _ stack => ∀ f ∈ stack, P f) (fun hI hm => hmove hI hm) h hpull
    · cases hnone
    · cases hb
      intro b' hb'
      rcases List.mem_cons.1 hb' with rfl | hb'
      · exact ⟨pending, hI _ List.mem_cons_self⟩
      · exact ih (fun f hf => hI f (List.mem_cons_of_mem _ hf)) b' hb'

theorem drawn_le_of_run {clauses : List Clause} {d e : Nat} {cursor last : Cursor}
    {answers : List Bindings} (h : Run clauses d cursor answers e last) : d ≤ e := by
  induction h with
  | refl => exact Nat.le_refl _
  | others h _ ih => omega
  | answer h _ ih => exact (drawn_le_of_pull h).trans ih

end HornSearch
