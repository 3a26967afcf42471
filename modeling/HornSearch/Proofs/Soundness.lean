import HornSearch.Proofs.Enumeration

/-!
# Answers are consequences of the program

`Holds clauses` is the least set of ground compounds that is closed under the
ground instances of the clauses, all of them read as universally quantified
(`holds_iff`).

Every choice point of a search keeps a promise: a valuation that solves its
bindings and makes its goals hold makes the whole query hold (`Frame.Sound`).
An answer has no goals left, so its solutions make the query hold
(`answers_hold`). Renaming apart is not needed for this, and a cyclic answer is
no exception: it has no solutions.
-/

namespace HornSearch

/-! ## The least model -/

/-- The consequences of a program that have no variables. -/
inductive Holds (clauses : List Clause) : Compound → Prop where
  | intro {c : Clause} (hc : c ∈ clauses) (v : Valuation)
      (hbody : ∀ g ∈ c.body, Holds clauses (v.compound g)) : Holds clauses (v.compound c.head)

/-- The set contains the head of a ground instance whenever it contains the
body. -/
def Models (M : Compound → Prop) (clauses : List Clause) : Prop :=
  ∀ c ∈ clauses, ∀ v : Valuation, (∀ g ∈ c.body, M (v.compound g)) → M (v.compound c.head)

theorem models_holds (clauses : List Clause) : Models (Holds clauses) clauses :=
  fun _ hc v hbody => .intro hc v hbody

theorem holds_iff {clauses : List Clause} {g : Compound} :
    Holds clauses g ↔ ∀ M : Compound → Prop, Models M clauses → M g := by
  constructor
  · intro h M hM
    induction h with
    | intro hc v _ ih => exact hM _ hc v ih
  · intro h
    exact h _ (models_holds clauses)

theorem forall_of_map_eq {α β γ : Type} {f : α → γ} {g : β → γ} {l : List α} {l' : List β}
    (h : l.map f = l'.map g) {P : γ → Prop} (hP : ∀ b ∈ l', P (g b)) : ∀ a ∈ l, P (f a) := by
  have hmap : ∀ c ∈ l.map f, P c := by
    rw [h]
    simpa using hP
  simpa using hmap

/-- A used copy of a clause passes on what holds from its body to its head. -/
theorem holds_of_instantiate {clauses : List Clause} {c : Clause} {d d' : Nat} {r : Rule}
    (hc : c ∈ clauses) (huse : c.instantiate d = (r, d')) {v : Valuation}
    (hbody : ∀ g ∈ r.body, Holds clauses (v.compound g)) : Holds clauses (v.compound r.head) := by
  obtain ⟨w, hhead, hmap⟩ := Clause.instantiate_ground huse v
  rw [hhead]
  apply Holds.intro hc w
  exact forall_of_map_eq hmap.symm hbody

/-! ## The invariant -/

/-- Whatever solves the bindings of the choice point and makes its goals hold
makes the whole query hold. -/
structure Frame.Sound (clauses : List Clause) (query : List Compound) (f : Frame) : Prop where
  oriented : f.bindings.Oriented
  pending : ∀ c ∈ f.pending, c ∈ clauses
  promise : ∀ v : Valuation, v.Solves f.bindings → (∀ g ∈ f.goals, Holds clauses (v.compound g)) →
    ∀ g ∈ query, Holds clauses (v.compound g)

variable {clauses : List Clause} {query : List Compound}

theorem Frame.sound_start : Frame.Sound clauses query ⟨query, .empty, clauses⟩ :=
  ⟨Bindings.oriented_empty, fun _ h => h, fun _ _ h => h⟩

/-- The choice point that stays has fewer clauses to try, and the same promise. -/
theorem Frame.Sound.skip {goals : List Compound} {b : Bindings} {c : Clause}
    {pending : List Clause} (h : Frame.Sound clauses query ⟨goals, b, c :: pending⟩) :
    Frame.Sound clauses query ⟨goals, b, pending⟩ :=
  ⟨h.oriented, fun c hc => h.pending c (List.mem_cons_of_mem _ hc), h.promise⟩

/-- A clause that applies turns the promise for its head into one for its body. -/
theorem Frame.Sound.apply {goal : Compound} {rest : List Compound} {b b' : Bindings} {c : Clause}
    {pending : List Clause} {n d d' : Nat} {r : Rule}
    (h : Frame.Sound clauses query ⟨goal :: rest, b, c :: pending⟩)
    (huse : c.instantiate d = (r, d')) (hunify : unifyCompound n b goal r.head = some (.ok b')) :
    Frame.Sound clauses query ⟨r.body ++ rest, b', clauses⟩ := by
  refine ⟨unifyCompound_oriented h.oriented hunify, fun _ hc => hc, ?_⟩
  intro v hv hgoals
  have hsolves : v.Solves b' ↔ v.Solves b ∧ v.compound goal = v.compound r.head :=
    unifyCompound_solves h.oriented hunify v
  obtain ⟨hb, heq⟩ := hsolves.1 hv
  have hhead : Holds clauses (v.compound r.head) :=
    holds_of_instantiate (h.pending c List.mem_cons_self) huse fun g hg =>
      hgoals g (List.mem_append_left _ hg)
  apply h.promise v hb
  intro g hg
  rcases List.mem_cons.1 hg with rfl | hg
  · exact heq ▸ hhead
  · exact hgoals g (List.mem_append_right _ hg)

/-- One step keeps the promise of every choice point. -/
theorem sound_move {n d d' : Nat} {stack stack' : List Frame}
    (h : ∀ f ∈ stack, Frame.Sound clauses query f)
    (hm : Move clauses n d stack (.moved d' stack')) :
    ∀ f ∈ stack', Frame.Sound clauses query f :=
  forall_of_move hm h (fun _ hf => hf) (fun hf => hf.skip) fun hf huse hunify =>
    hf.apply huse hunify

/-- A run keeps the promises, and its answers have only theirs left. -/
theorem sound_run {d e : Nat} {cursor last : Cursor} {answers : List Bindings}
    (hrun : Run clauses d cursor answers e last)
    (h : ∀ f ∈ cursor.stack, Frame.Sound clauses query f) :
    ∀ b ∈ answers, Frame.Sound clauses query ⟨[], b, []⟩ := by
  intro b hb
  obtain ⟨pending, hf⟩ := run_keeps sound_move hrun h b hb
  exact ⟨hf.oriented, by simp, hf.promise⟩

/-! ## Soundness -/

/-- Every solution of an answer makes every goal of the query a consequence of
the program. -/
theorem answers_hold {db : Database} {query : List Compound} {e : Nat} {last : Cursor}
    {answers : List Bindings} (hrun : Run db.clauses db.drawn (db.query query) answers e last)
    {b : Bindings} (hb : b ∈ answers) {v : Valuation} (hv : v.Solves b) :
    ∀ g ∈ query, Holds db.clauses (v.compound g) := by
  have hstart : ∀ f ∈ (db.query query).stack, Frame.Sound db.clauses query f := by
    intro f hf
    cases List.mem_singleton.1 hf
    exact Frame.sound_start
  exact (sound_run hrun hstart b hb).promise v hv (by simp)

/-! ## Enumerations -/

section
variable {pending : List Clause} {goals rest : List Compound} {goal : Compound}
  {b b' : Bindings} {answers : List (Bindings × Nat)}

/-- The solutions of the answer solve the bindings, and the goals hold under them. -/
def Says (clauses : List Clause) (goals : List Compound) (b : Bindings)
    (answer : Bindings × Nat) : Prop :=
  ∀ v : Valuation, v.Solves answer.1 → v.Solves b ∧ ∀ p ∈ goals, Holds clauses (v.compound p)

theorem Says.of_body {c : Clause} {d d' n : Nat} {r : Rule} {a : Bindings × Nat} (ho : b.Oriented)
    (hc : c ∈ clauses) (huse : c.instantiate d = (r, d'))
    (hunify : unifyCompound n b goal r.head = some (.ok b'))
    (h : Says clauses (r.body ++ rest) b' a) : Says clauses (goal :: rest) b a := by
  intro v hv
  obtain ⟨hb', hgoals⟩ := h v hv
  obtain ⟨hb, heq⟩ := (unifyCompound_solves ho hunify v).1 hb'
  obtain ⟨hbody, hrest⟩ := List.forall_mem_append.1 hgoals
  have hhead := holds_of_instantiate hc huse hbody
  exact ⟨hb, List.forall_mem_cons.2 ⟨heq ▸ hhead, hrest⟩⟩

theorem says_of_enumerates {d : Nat} {ending : Option Nat} (ho : b.Oriented)
    (hpending : pending ⊆ clauses) (h : Enumerates clauses pending goals b d answers ending) :
    ∀ a ∈ answers, Says clauses goals b a := by
  induction h with
  | leave | exhausted => simp
  | answer | answered => exact List.forall_mem_singleton.2 fun v hv => ⟨hv, by simp⟩
  | skip _ _ ih | clash _ _ _ _ ih => exact ih ho (List.cons_subset.1 hpending).2
  | enter _ huse hunify _ ih =>
    have hbelow := ih (unifyCompound_oriented ho hunify) (List.Subset.refl _)
    exact fun a ha => (hbelow a ha).of_body ho (List.cons_subset.1 hpending).1 huse hunify
  | apply _ huse hunify _ _ ihbelow ih =>
    obtain ⟨hc, hbehind⟩ := List.cons_subset.1 hpending
    have hbelow := ihbelow (unifyCompound_oriented ho hunify) (List.Subset.refl _)
    exact List.forall_mem_append.2
      ⟨fun a ha => (hbelow a ha).of_body ho hc huse hunify, ih ho hbehind⟩

end

/-! ## An example -/

def birds : Database :=
  .ofClauses [.fact ⟨"bird", [.atom "tweety"]⟩,
    .rule ⟨⟨"flies", [.var (.ofName "X")]⟩, [⟨"bird", [.var (.ofName "X")]⟩]⟩]

def whoFlies : List Compound := [⟨"flies", [.var (.ofName "Who")]⟩]

theorem answers_hold_birds : ∃ (b : Bindings) (last : Cursor) (v : Valuation),
    Run birds.clauses birds.drawn (birds.query whoFlies) [b] 1 last ∧
    v.Solves b ∧ ∀ g ∈ whoFlies, Holds birds.clauses (v.compound g) := by
  let b := Bindings.ofList [(.fresh 0, .var (.ofName "Who")), (.ofName "Who", .atom "tweety")]
  let last : Cursor := ⟨[⟨[⟨"bird", [.var (.fresh 0)]⟩],
    .ofList [(.fresh 0, .var (.ofName "Who"))], birds.clauses.tail⟩]⟩
  let v : Valuation := ⟨fun _ => .atom "tweety", fun _ => Term.vars_atom _⟩
  have hpull : pull birds.clauses 9 birds.drawn (birds.query whoFlies) =
      some ⟨some b, 1, last⟩ := by decide
  have hrun := Run.answer hpull .refl
  have hv : v.Solves b := by
    intro x t h
    simp only [b, Bindings.ofList, List.foldl, Bindings.get?_put, Bindings.get?_empty] at h
    split at h
    · cases h; simp [v]
    · split at h
      · cases h; simp [v]
      · cases h
  exact ⟨b, last, v, hrun, hv, answers_hold hrun List.mem_cons_self hv⟩

end HornSearch
