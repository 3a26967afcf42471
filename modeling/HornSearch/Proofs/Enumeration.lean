import HornSearch.Proofs.Stepping

/-!
# A search enumerates answers as recursion does

`Enumerates` describes answers by recursion on the goals, with no stack: no
goals are answered by the bindings so far, and for a first goal each clause is
tried in turn, all answers below it coming before those of the next clause. An
enumeration may be left at any point, so one that never ends, or searches
forever after its last answer, has a description for each of its beginnings.

`replies_iff_enumerates`: pulling a search gives exactly these answers in this
order, each with the number of variables drawn by then, and the end when and
only when the recursion ends. A search that comes to its end is one whose
recursion does (`finishes_iff`).
-/

namespace HornSearch

/-- The answers of the goals, from left to right, where `pending` are the
clauses left to try for the first goal and `drawn` the draws made before. Each
answer stands with the draws made by then. The ending holds the draws made by
the end, or nothing if the enumeration was left before. -/
inductive Enumerates (clauses : List Clause) : (pending : List Clause) → List Compound →
    Bindings → (drawn : Nat) → List (Bindings × Nat) → (ending : Option Nat) → Prop where
  /-- Nothing more is asked for. -/
  | leave {pending goals b d} : Enumerates clauses pending goals b d [] none
  | answer {pending b d} : Enumerates clauses pending [] b d [(b, d)] (some d)
  /-- Nothing more is asked for after the answer. -/
  | answered {pending b d} : Enumerates clauses pending [] b d [(b, d)] none
  | exhausted {goal rest b d} : Enumerates clauses [] (goal :: rest) b d [] (some d)
  | skip {c pending goal rest b d answers ending} (hsig : ¬goal.SameSignature c.head)
      (hnext : Enumerates clauses pending (goal :: rest) b d answers ending) :
      Enumerates clauses (c :: pending) (goal :: rest) b d answers ending
  | clash {c pending goal rest b d n r d' clash answers ending}
      (hsig : goal.SameSignature c.head) (huse : c.instantiate d = (r, d'))
      (hunify : unifyCompound n b goal r.head = some (.error clash))
      (hnext : Enumerates clauses pending (goal :: rest) b d' answers ending) :
      Enumerates clauses (c :: pending) (goal :: rest) b d answers ending
  /-- The clause applies, and the answers below it never end or are left. -/
  | enter {c pending goal rest b d n r d' b' answers}
      (hsig : goal.SameSignature c.head) (huse : c.instantiate d = (r, d'))
      (hunify : unifyCompound n b goal r.head = some (.ok b'))
      (hbelow : Enumerates clauses clauses (r.body ++ rest) b' d' answers none) :
      Enumerates clauses (c :: pending) (goal :: rest) b d answers none
  /-- The clause applies, and the next one is tried after the answers below it. -/
  | apply {c pending goal rest b d n r d' b' d'' answers more ending}
      (hsig : goal.SameSignature c.head) (huse : c.instantiate d = (r, d'))
      (hunify : unifyCompound n b goal r.head = some (.ok b'))
      (hbelow : Enumerates clauses clauses (r.body ++ rest) b' d' answers (some d''))
      (hnext : Enumerates clauses pending (goal :: rest) b d'' more ending) :
      Enumerates clauses (c :: pending) (goal :: rest) b d (answers ++ more) ending

/-- What `k` requests to an enumeration give: its answers one by one, and its
end again and again once it has ended. -/
def asked : Nat → List (Bindings × Nat) → (ending : Option Nat) →
    Option (List (Option Bindings × Nat))
  | 0, _, _ => some []
  | k + 1, (b, d) :: answers, ending => (asked k answers ending).map ((some b, d) :: ·)
  | k + 1, [], some d => (asked k [] (some d)).map ((none, d) :: ·)
  | _ + 1, [], none => none

/-- What `k` pulls of a search give, each with the draws made by then; every
pull takes less than `n` steps. -/
def Database.replies (n : Nat) : (k : Nat) → Database → Cursor →
    Option (List (Option Bindings × Nat))
  | 0, _, _ => some []
  | k + 1, db, cursor =>
    match db.pull n cursor with
    | none => none
    | some (answer, cursor, db) => (replies n k db cursor).map ((answer, db.drawn) :: ·)

namespace Enumerates

variable {clauses : List Clause}

/-- An enumeration that has ended may also be left at its end. -/
theorem cut {pending : List Clause} {goals : List Compound} {b : Bindings} {d : Nat}
    {answers : List (Bindings × Nat)} {ending : Option Nat}
    (h : Enumerates clauses pending goals b d answers ending) :
    Enumerates clauses pending goals b d answers none := by
  induction h with
  | leave => exact .leave
  | answer | answered => exact .answered
  | exhausted => exact .leave
  | skip hsig _ ih => exact .skip hsig ih
  | clash hsig huse hunify _ ih => exact .clash hsig huse hunify ih
  | enter hsig huse hunify hbelow _ => exact .enter hsig huse hunify hbelow
  | apply hsig huse hunify hbelow _ _ ih => exact .apply hsig huse hunify hbelow ih

/-- Clauses of other signatures in front make no difference. -/
theorem skip_all {extra pending : List Clause} {goal : Compound} {rest : List Compound}
    {b : Bindings} {d : Nat} {answers : List (Bindings × Nat)} {ending : Option Nat}
    (hextra : ∀ c ∈ extra, ¬goal.SameSignature c.head)
    (h : Enumerates clauses pending (goal :: rest) b d answers ending) :
    Enumerates clauses (extra ++ pending) (goal :: rest) b d answers ending := by
  induction extra with
  | nil => exact h
  | cons c extra ih =>
    obtain ⟨hc, hextra⟩ := List.forall_mem_cons.1 hextra
    exact .skip hc (ih hextra)

/-- Draws are never taken back. -/
theorem drawn_le {pending : List Clause} {goals : List Compound} {b : Bindings} {d d' : Nat}
    {answers : List (Bindings × Nat)}
    (h : Enumerates clauses pending goals b d answers (some d')) : d ≤ d' := by
  generalize he : some d' = ending at h
  induction h generalizing d' with
  | leave | answered | enter => cases he
  | answer | exhausted =>
    cases he
    exact Nat.le_refl _
  | skip _ _ ih => exact ih he
  | clash _ huse _ _ ih => exact (Clause.drawn_le_instantiate huse).trans (ih he)
  | apply _ huse _ _ _ ihbelow ih =>
    exact (Clause.drawn_le_instantiate huse).trans ((ihbelow rfl).trans (ih he))

end Enumerates

theorem length_of_asked {k : Nat} {answers : List (Bindings × Nat)} {ending : Option Nat}
    {replies : List (Option Bindings × Nat)} (h : asked k answers ending = some replies) :
    replies.length = k := by
  induction k generalizing answers replies with
  | zero => cases h; rfl
  | succ k ih =>
    match answers, ending with
    | (b, d) :: answers, ending | [], some d =>
      simp only [asked, Option.map_eq_some_iff] at h
      obtain ⟨rest, hrest, rfl⟩ := h
      simp [ih hrest]

/-! ## Replies -/

/-- Pulls of a search give these replies, each pull with a bound of its own. -/
inductive Gives (clauses : List Clause) : Nat → List Frame → List (Option Bindings × Nat) →
    Prop where
  | nil {d stack} : Gives clauses d stack []
  | cons {n d stack p replies} (h : pull clauses n d ⟨stack⟩ = some p)
      (hrest : Gives clauses p.drawn p.cursor.stack replies) :
      Gives clauses d stack ((p.answer, p.drawn) :: replies)

theorem replies_succ {n k : Nat} {db : Database} {cursor : Cursor}
    {replies : List (Option Bindings × Nat)} :
    db.replies n (k + 1) cursor = some replies ↔ ∃ p rest,
      pull db.clauses n db.drawn cursor = some p ∧
      ({ db with drawn := p.drawn } : Database).replies n k p.cursor = some rest ∧
      replies = (p.answer, p.drawn) :: rest := by
  simp only [Database.replies, Database.pull]
  cases h : pull db.clauses n db.drawn cursor with
  | none => simp
  | some p =>
    simp only [Option.bind_eq_bind, Option.bind_some, Option.pure_def, Option.map_eq_some_iff,
      Option.some.injEq]
    constructor
    · rintro ⟨rest, hrest, rfl⟩
      exact ⟨p, rest, rfl, hrest, rfl⟩
    · rintro ⟨p, rest, rfl, hrest, rfl⟩
      exact ⟨rest, hrest, rfl⟩

/-- Searches that agree in every step give the same replies under the view. -/
theorem Bisimulation.replies {α : Type} {view : Option Bindings → α}
    {S : List Frame → List Frame → Prop} {clauses clauses' : List Clause}
    (hsim : Bisimulation view S clauses clauses') {n k d : Nat} {cursor cursor' : Cursor}
    (h : S cursor.stack cursor'.stack) :
    ((Database.mk clauses d).replies n k cursor).map (List.map (Prod.map view id)) =
      ((Database.mk clauses' d).replies n k cursor').map (List.map (Prod.map view id)) := by
  induction k generalizing d cursor cursor' with
  | zero => rfl
  | succ k ih =>
    have hpull := hsim.pull (n := n) (d := d) h
    simp only [Database.replies, Database.pull]
    generalize HornSearch.pull clauses n d ⟨cursor.stack⟩ = o,
      HornSearch.pull clauses' n d ⟨cursor'.stack⟩ = o' at hpull
    cases hpull with
    | none => rfl
    | @some p p' hp =>
      have hcons (reply : Option Bindings × Nat) (rest : Option (List (Option Bindings × Nat))) :
          (rest.map (reply :: ·)).map (List.map (Prod.map view id)) =
            (rest.map (List.map (Prod.map view id))).map ((view reply.1, reply.2) :: ·) := by
        cases rest <;> rfl
      simp only [Option.bind_eq_bind, Option.bind_some, Option.pure_def, hcons, ← hp.answer,
        ← hp.drawn, ih hp.stack]

theorem gives_of_replies {n k : Nat} {db : Database} {cursor : Cursor}
    {replies : List (Option Bindings × Nat)} (h : db.replies n k cursor = some replies) :
    Gives db.clauses db.drawn cursor.stack replies ∧ replies.length = k := by
  induction k generalizing db cursor replies with
  | zero =>
    cases h
    exact ⟨.nil, rfl⟩
  | succ k ih =>
    obtain ⟨p, rest, hp, hrest, rfl⟩ := replies_succ.1 h
    obtain ⟨hgives, hlen⟩ := ih hrest
    exact ⟨.cons hp hgives, by simp [hlen]⟩

theorem replies_mono {n m k : Nat} (hnm : n ≤ m) {db : Database} {cursor : Cursor}
    {replies : List (Option Bindings × Nat)} (h : db.replies n k cursor = some replies) :
    db.replies m k cursor = some replies := by
  induction k generalizing db cursor replies with
  | zero => exact h
  | succ k ih =>
    obtain ⟨p, rest, hp, hrest, rfl⟩ := replies_succ.1 h
    exact replies_succ.2 ⟨p, rest, pull_mono hnm hp, ih hrest, rfl⟩

theorem replies_of_gives {clauses : List Clause} {d : Nat} {stack : List Frame}
    {replies : List (Option Bindings × Nat)} (h : Gives clauses d stack replies) :
    ∃ n, (Database.mk clauses d).replies n replies.length ⟨stack⟩ = some replies := by
  induction h with
  | nil => exact ⟨0, rfl⟩
  | @cons n d stack p replies hp _ ih =>
    obtain ⟨m, hm⟩ := ih
    exact ⟨max n m, replies_succ.2 ⟨p, replies, pull_mono (le_max_left n m) hp,
      replies_mono (le_max_right n m) hm, rfl⟩⟩

theorem gives_moved_iff {clauses : List Clause} {n d d' : Nat} {stack stack' : List Frame}
    (hm : Move clauses n d stack (.moved d' stack')) {replies : List (Option Bindings × Nat)} :
    Gives clauses d stack replies ↔ Gives clauses d' stack' replies := by
  constructor
  · intro h
    cases h with
    | nil => exact .nil
    | cons hp hrest =>
      obtain ⟨n, hp⟩ := (pull_moved_iff hm).1 ⟨_, hp⟩
      exact .cons hp hrest
  · intro h
    cases h with
    | nil => exact .nil
    | cons hp hrest =>
      obtain ⟨n, hp⟩ := (pull_moved_iff hm).2 ⟨_, hp⟩
      exact .cons hp hrest

theorem gives_answer {clauses : List Clause} {d : Nat} {b : Bindings} {pending : List Clause}
    {stack : List Frame} {replies : List (Option Bindings × Nat)}
    (h : Gives clauses d stack replies) :
    Gives clauses d (⟨[], b, pending⟩ :: stack) ((some b, d) :: replies) :=
  have hp : pull clauses 1 d ⟨⟨[], b, pending⟩ :: stack⟩ = some ⟨some b, d, ⟨stack⟩⟩ := rfl
  .cons hp h

theorem gives_end {clauses : List Clause} {d k : Nat} {replies : List (Option Bindings × Nat)}
    (h : asked k [] (some d) = some replies) : Gives clauses d [] replies := by
  induction k generalizing replies with
  | zero => cases h; exact .nil
  | succ k ih =>
    simp only [asked, Option.map_eq_some_iff] at h
    obtain ⟨rest, hrest, rfl⟩ := h
    have hp : pull clauses 1 d ⟨[]⟩ = some ⟨none, d, ⟨[]⟩⟩ := rfl
    exact .cons hp (ih hrest)

theorem gives_retry_iff {clauses : List Clause} {d : Nat} {goal : Compound}
    {rest : List Compound} {b : Bindings} {pending : List Clause} {stack : List Frame}
    {replies : List (Option Bindings × Nat)} :
    Gives clauses d (retry goal rest b pending stack) replies ↔
      Gives clauses d (⟨goal :: rest, b, pending⟩ :: stack) replies := by
  cases pending with
  | nil => exact (gives_moved_iff (n := 0) .exhausted).symm
  | cons c pending => rfl

theorem gives_prefix {clauses : List Clause} {d : Nat} {stack : List Frame}
    {replies more : List (Option Bindings × Nat)} (h : Gives clauses d stack (replies ++ more)) :
    Gives clauses d stack replies := by
  induction replies generalizing d stack with
  | nil => exact .nil
  | cons r replies ih =>
    cases h with
    | cons hp hrest => exact .cons hp (ih hrest)

/-! ## From the recursion to the stack -/

/-- The replies that give these answers. -/
def told (answers : List (Bindings × Nat)) : List (Option Bindings × Nat) :=
  answers.map fun a => (some a.1, a.2)

/-- What a search may reply when the innermost enumeration has come to `ending`:
what the rest of the stack gives after its end, and nothing if it was left. -/
def Continues (clauses : List Clause) (ending : Option Nat) (below : List Frame)
    (replies : List (Option Bindings × Nat)) : Prop :=
  match ending with
  | some d => Gives clauses d below replies
  | none => replies = []

theorem gives_of_enumerates {clauses pending : List Clause} {goals : List Compound}
    {b : Bindings} {d : Nat} {answers : List (Bindings × Nat)} {ending : Option Nat}
    (h : Enumerates clauses pending goals b d answers ending) :
    ∀ (below : List Frame) (more : List (Option Bindings × Nat)),
      Continues clauses ending below more →
      Gives clauses d (⟨goals, b, pending⟩ :: below) (told answers ++ more) := by
  induction h with
  | leave => rintro below _ rfl; exact .nil
  | answer => intro below more h; exact gives_answer h
  | answered => rintro below _ rfl; exact gives_answer .nil
  | exhausted => intro below more h; exact (gives_moved_iff (n := 0) .exhausted).2 h
  | skip hsig _ ih =>
    intro below more h
    exact (gives_moved_iff (n := 0) (.skipped hsig)).2 (gives_retry_iff.2 (ih below more h))
  | clash hsig huse hunify _ ih =>
    intro below more h
    exact (gives_moved_iff (.clashed hsig huse hunify)).2 (gives_retry_iff.2 (ih below more h))
  | enter hsig huse hunify _ ih =>
    rintro below _ rfl
    exact (gives_moved_iff (.applied hsig huse hunify)).2 (ih _ [] rfl)
  | apply hsig huse hunify _ _ ihbelow ih =>
    intro below more h
    rw [told, List.map_append, List.append_assoc]
    exact (gives_moved_iff (.applied hsig huse hunify)).2
      (ihbelow _ _ (gives_retry_iff.2 (ih below more h)))

/-- What is asked of an enumeration is told, or part of it, or all of it and
then the end. -/
theorem told_of_asked {k : Nat} {answers : List (Bindings × Nat)} {ending : Option Nat}
    {replies : List (Option Bindings × Nat)} (h : asked k answers ending = some replies) :
    (∃ more, told answers = replies ++ more) ∨
      ∃ d j more, ending = some d ∧ asked j [] (some d) = some more ∧
        replies = told answers ++ more := by
  induction k generalizing answers replies with
  | zero =>
    cases h
    exact .inl ⟨told answers, rfl⟩
  | succ k ih =>
    cases answers with
    | nil =>
      cases ending with
      | none => cases h
      | some d => exact .inr ⟨d, k + 1, replies, rfl, h, rfl⟩
    | cons a answers =>
      simp only [asked, Option.map_eq_some_iff] at h
      obtain ⟨rest, hrest, rfl⟩ := h
      obtain ⟨more, hmore⟩ | ⟨d, j, more, hd, hj, rfl⟩ := ih hrest
      · refine .inl ⟨more, ?_⟩
        simpa [told] using hmore
      · exact .inr ⟨d, j, more, hd, hj, rfl⟩

theorem gives_of_asked {clauses : List Clause} {goals : List Compound} {d k : Nat}
    {answers : List (Bindings × Nat)} {ending : Option Nat}
    {replies : List (Option Bindings × Nat)}
    (he : Enumerates clauses clauses goals .empty d answers ending)
    (h : asked k answers ending = some replies) :
    Gives clauses d (Cursor.start clauses goals).stack replies := by
  obtain ⟨more, hmore⟩ | ⟨e, j, more, rfl, hj, rfl⟩ := told_of_asked h
  · have hg := gives_of_enumerates he.cut [] [] rfl
    rw [List.append_nil, hmore] at hg
    exact gives_prefix hg
  · exact gives_of_enumerates he [] more (gives_end hj)

/-! ## From the stack to the recursion -/

/-- The answers of a stack of choice points: those of the innermost one, then
those of the rest. -/
inductive Drains (clauses : List Clause) : List Frame → Nat → List (Bindings × Nat) →
    Option Nat → Prop where
  | leave {stack d} : Drains clauses stack d [] none
  | empty {d} : Drains clauses [] d [] (some d)
  | inside {pending goals b stack d answers}
      (hf : Enumerates clauses pending goals b d answers none) :
      Drains clauses (⟨goals, b, pending⟩ :: stack) d answers none
  | behind {pending goals b stack d d' answers more ending}
      (hf : Enumerates clauses pending goals b d answers (some d'))
      (hrest : Drains clauses stack d' more ending) :
      Drains clauses (⟨goals, b, pending⟩ :: stack) d (answers ++ more) ending

section
variable {clauses : List Clause}

theorem drains_retry {d : Nat} {goal : Compound} {rest : List Compound} {b : Bindings}
    {pending : List Clause} {stack : List Frame} {answers : List (Bindings × Nat)}
    {ending : Option Nat} (h : Drains clauses (retry goal rest b pending stack) d answers ending) :
    Drains clauses (⟨goal :: rest, b, pending⟩ :: stack) d answers ending := by
  cases pending with
  | nil => exact .behind .exhausted h
  | cons c pending => exact h

/-- A step that does not answer leaves the answers of the stack as they are. -/
theorem drains_of_moved {n d d' : Nat} {stack stack' : List Frame}
    {answers : List (Bindings × Nat)} {ending : Option Nat}
    (hm : Move clauses n d stack (.moved d' stack'))
    (h : Drains clauses stack' d' answers ending) : Drains clauses stack d answers ending := by
  cases hm with
  | exhausted => exact .behind .exhausted h
  | skipped hsig =>
    cases drains_retry h with
    | leave => exact .leave
    | inside hf => exact .inside (.skip hsig hf)
    | behind hf hrest => exact .behind (.skip hsig hf) hrest
  | clashed hsig huse hunify =>
    cases drains_retry h with
    | leave => exact .leave
    | inside hf => exact .inside (.clash hsig huse hunify hf)
    | behind hf hrest => exact .behind (.clash hsig huse hunify hf) hrest
  | applied hsig huse hunify =>
    cases h with
    | leave => exact .leave
    | inside hf => exact .inside (.enter hsig huse hunify hf)
    | behind hbelow h =>
      cases drains_retry h with
      | leave => exact .inside (.apply hsig huse hunify hbelow .leave)
      | inside hf => exact .inside (.apply hsig huse hunify hbelow hf)
      | behind hf hrest =>
        rw [← List.append_assoc]
        exact .behind (.apply hsig huse hunify hbelow hf) hrest

/-- Pulls draw the answers of the stack. -/
theorem drains_of_pull {n d k : Nat} {stack : List Frame} {p : Pulled}
    {answers : List (Bindings × Nat)} {ending : Option Nat}
    {replies : List (Option Bindings × Nat)} (hp : pull clauses n d ⟨stack⟩ = some p)
    (h : Drains clauses p.cursor.stack p.drawn answers ending)
    (hr : asked k answers ending = some replies) :
    ∃ answers' ending', Drains clauses stack d answers' ending' ∧
      asked (k + 1) answers' ending' = some ((p.answer, p.drawn) :: replies) := by
  induction n generalizing d stack with
  | zero => cases hp
  | succ n ih =>
    obtain ⟨rfl, rfl⟩ | ⟨b, rest, hm, rfl⟩ | ⟨d', stack', hm, hp⟩ := pull_succ hp
    · refine ⟨[], some d, .empty, ?_⟩
      cases h with
      | leave =>
        cases k with
        | zero => cases hr; rfl
        | succ k => cases hr
      | empty => simp [asked, hr]
    · cases hm
      exact ⟨[(b, d)] ++ answers, ending, .behind .answer h, by simp [asked, hr]⟩
    · obtain ⟨answers', ending', h', hr'⟩ := ih hp
      exact ⟨answers', ending', drains_of_moved hm h', hr'⟩

theorem drains_of_gives {d : Nat} {stack : List Frame} {replies : List (Option Bindings × Nat)}
    (h : Gives clauses d stack replies) : ∃ answers ending,
      Drains clauses stack d answers ending ∧ asked replies.length answers ending = some replies := by
  induction h with
  | nil => exact ⟨[], none, .leave, rfl⟩
  | cons hp _ ih =>
    obtain ⟨answers, ending, h, hr⟩ := ih
    exact drains_of_pull hp h hr

theorem enumerates_of_drains {d : Nat} {goals : List Compound} {answers : List (Bindings × Nat)}
    {ending : Option Nat}
    (h : Drains clauses (Cursor.start clauses goals).stack d answers ending) :
    Enumerates clauses clauses goals .empty d answers ending := by
  cases h with
  | leave => exact .leave
  | inside hf => exact hf
  | behind hf hrest =>
    cases hrest with
    | leave => simpa using hf.cut
    | empty => simpa using hf

end

/-- Pulling a search `k` times gives what asking the recursion `k` times gives:
its answers in its order, with all bindings and with the draws made by then,
and after the last answer the end, as often as it is asked for. -/
theorem replies_iff_enumerates (db : Database) (goals : List Compound) (k : Nat)
    (replies : List (Option Bindings × Nat)) :
    (∃ n, db.replies n k (db.query goals) = some replies) ↔
      ∃ answers ending, Enumerates db.clauses db.clauses goals .empty db.drawn answers ending ∧
        asked k answers ending = some replies := by
  constructor
  · rintro ⟨n, h⟩
    obtain ⟨hg, rfl⟩ := gives_of_replies h
    obtain ⟨answers, ending, hd, hr⟩ := drains_of_gives hg
    exact ⟨answers, ending, enumerates_of_drains hd, hr⟩
  · rintro ⟨answers, ending, he, hr⟩
    obtain ⟨n, hn⟩ := replies_of_gives (gives_of_asked he hr)
    refine ⟨n, ?_⟩
    rwa [length_of_asked hr] at hn

/-! ## Finished searches -/

/-- Pulls of the search give these answers, each after the draws beside it, and from then on
its end, after `d` draws, as often as it is pulled. -/
def Database.Finishes (db : Database) (goals : List Compound) (answers : List (Bindings × Nat))
    (d : Nat) : Prop :=
  ∀ k, ∃ n, db.replies n (answers.length + k) (db.query goals) =
    some (told answers ++ List.replicate k (none, d))

theorem asked_finished (answers : List (Bindings × Nat)) (d k : Nat) :
    asked (answers.length + k) answers (some d) =
      some (told answers ++ List.replicate k (none, d)) := by
  induction answers with
  | nil =>
    induction k with
    | zero => rfl
    | succ k ih =>
      rw [List.length_nil, Nat.zero_add] at ih ⊢
      simp only [asked, ih]
      rfl
  | cons a answers ih =>
    rw [List.length_cons, Nat.add_right_comm]
    simp only [asked, ih]
    rfl

/-- An enumeration of which the end is asked for has ended. -/
theorem finished_of_asked {answers answers' : List (Bindings × Nat)} {d : Nat}
    {ending : Option Nat}
    (h : asked (answers.length + 1) answers' ending = some (told answers ++ [(none, d)])) :
    answers' = answers ∧ ending = some d := by
  induction answers generalizing answers' with
  | nil =>
    match answers', ending with
    | [], none => cases h
    | [], some d' =>
      cases h
      exact ⟨rfl, rfl⟩
    | (b, d') :: answers', ending => simp [asked, told] at h
  | cons a answers ih =>
    match answers', ending with
    | [], none => cases h
    | [], some d' => simp [asked, told] at h
    | (b, d') :: answers', ending =>
      simp only [asked, told, List.map_cons, List.length_cons, Option.map_eq_some_iff,
        List.cons_append, List.cons.injEq, Prod.mk.injEq, Option.some.injEq] at h
      obtain ⟨rest, hrest, ⟨rfl, rfl⟩, rfl⟩ := h
      obtain ⟨rfl, rfl⟩ := ih hrest
      exact ⟨rfl, rfl⟩

theorem enumerates_of_replies {db : Database} {goals : List Compound}
    {answers : List (Bindings × Nat)} {n d : Nat}
    (h : db.replies n (answers.length + 1) (db.query goals) =
      some (told answers ++ [(none, d)])) :
    Enumerates db.clauses db.clauses goals .empty db.drawn answers (some d) := by
  obtain ⟨answers', ending, he, hr⟩ := (replies_iff_enumerates db goals _ _).1 ⟨n, h⟩
  obtain ⟨rfl, rfl⟩ := finished_of_asked hr
  exact he

theorem finishes_iff {db : Database} {goals : List Compound} {answers : List (Bindings × Nat)}
    {d : Nat} : db.Finishes goals answers d ↔
      Enumerates db.clauses db.clauses goals .empty db.drawn answers (some d) := by
  constructor
  · intro h
    obtain ⟨n, hn⟩ := h 1
    exact enumerates_of_replies hn
  · intro h k
    exact (replies_iff_enumerates db goals _ _).2 ⟨answers, some d, h, asked_finished answers d k⟩

theorem told_append_inj {answers answers' : List (Bindings × Nat)} {d d' k k' : Nat}
    (h : told answers ++ List.replicate (k + 1) (none, d) =
      told answers' ++ List.replicate (k' + 1) (none, d')) : answers = answers' ∧ d = d' := by
  induction answers generalizing answers' with
  | nil =>
    cases answers' with
    | nil => simpa [told, List.replicate_succ] using And.left (List.cons.inj h)
    | cons a answers' => simp [told, List.replicate_succ] at h
  | cons a answers ih =>
    cases answers' with
    | nil => simp [told, List.replicate_succ] at h
    | cons a' answers' =>
      obtain ⟨ha, hrest⟩ := List.cons.inj h
      obtain ⟨rfl, rfl⟩ := ih hrest
      simp only [Prod.mk.injEq, Option.some.injEq] at ha
      exact ⟨congrArg (· :: answers) (Prod.ext ha.1 ha.2), rfl⟩

/-- A search finishes in one way only. -/
theorem Database.Finishes.unique {db : Database} {goals : List Compound}
    {answers answers' : List (Bindings × Nat)} {d d' : Nat} (h : db.Finishes goals answers d)
    (h' : db.Finishes goals answers' d') : answers = answers' ∧ d = d' := by
  obtain ⟨n, hn⟩ := h (answers'.length + 1)
  obtain ⟨n', hn'⟩ := h' (answers.length + 1)
  have hmax := replies_mono (le_max_left n n') hn
  have hlen : answers.length + (answers'.length + 1) = answers'.length + (answers.length + 1) := by
    omega
  rw [hlen, replies_mono (le_max_right n n') hn'] at hmax
  exact told_append_inj (Option.some.inj hmax).symm

theorem run_of_gives {clauses : List Clause} {d : Nat} {stack : List Frame}
    {answers : List (Bindings × Nat)} {more : List (Option Bindings × Nat)}
    (h : Gives clauses d stack (told answers ++ more)) :
    ∃ e last, Run clauses d ⟨stack⟩ (answers.map Prod.fst) e last := by
  induction answers generalizing d stack with
  | nil => exact ⟨d, ⟨stack⟩, .refl⟩
  | cons a answers ih =>
    generalize hreplies : told (a :: answers) ++ more = replies at h
    cases h with
    | nil => cases hreplies
    | @cons n _ _ p _ hp hrest =>
      obtain ⟨ha, rfl⟩ := List.cons.inj hreplies
      obtain ⟨e, last, hrun⟩ := ih hrest
      obtain ⟨answer, drawn, cursor⟩ := p
      cases ha
      exact ⟨e, last, .answer hp hrun⟩

/-- The answers of a finished search are those of a run. -/
theorem Database.Finishes.run {db : Database} {goals : List Compound}
    {answers : List (Bindings × Nat)} {d : Nat} (h : db.Finishes goals answers d) :
    ∃ e last, Run db.clauses db.drawn (db.query goals) (answers.map Prod.fst) e last := by
  obtain ⟨n, hn⟩ := h 0
  exact run_of_gives (gives_of_replies hn).1

end HornSearch
