import HornSearch.Proofs.DeepResolution
import HornSearch.Proofs.Enumeration
import HornSearch.Proofs.Lockstep

/-!
# More clauses, more answers

Put more clauses into a database, and a search that still ends gives all the answers it
gave before, in their order, and others between them.

The search over the smaller database goes the way of the other one and leaves out what lies
below the new clauses. It draws less, so that it gets other numbers, and may bind two free
variables in the other direction. But its bindings correspond to those of the larger search
on every way that both of them go (`Alongside`), and so do the answers at the end of it.

To be variants, both answers need to be without cycles. If one of them is, so is the other,
provided that all its variables have twins (`Corresponds.acyclic`): each variable on a cycle
has a twin, which stands for a term of the same shape and so lies on an endless way.
-/

namespace HornSearch

/-! ## Cycles -/

namespace Bindings

variable {b : Bindings}

/-- No way from `x` through the values of variables is endless. -/
def Settles (b : Bindings) (x : String) : Prop := Acc (Function.swap b.Mentions) x

theorem settles_of_get? {x : String} (h : ∀ t, b.get? x = some t → ∀ z ∈ t.vars, b.Settles z.name) :
    b.Settles x := by
  refine Acc.intro x ?_
  rintro _ ⟨t, ht, z, hz, rfl⟩
  exact h t ht z hz

theorem Settles.not_cyclic {x : String} (h : b.Settles x) : ¬Relation.TransGen b.Mentions x x := by
  induction h with
  | intro x _ ih =>
    intro hx
    obtain ⟨y, hxy, hyx⟩ := Relation.TransGen.head'_iff.1 hx
    exact ih y hxy (.tail' hyx hxy)

/-- A variable settles if the term does that it leads to. -/
theorem settles_of_leads {t u : Term} (h : b.Leads t u) (hu : ∀ z ∈ u.vars, b.Settles z.name) :
    ∀ z ∈ t.vars, b.Settles z.name := by
  induction h with
  | stop _ => exact hu
  | follow hf _ ih =>
    obtain ⟨x, rfl, hx⟩ := eq_var_of_follow? hf
    intro z hz
    obtain rfl : z = x := by simpa using hz
    refine settles_of_get? fun t ht => ?_
    rw [hx, Option.some.injEq] at ht
    exact ht ▸ ih hu

end Bindings

section
variable {draws : List (Nat × Nat)} {b c : Bindings}

/-- In the term that `y` leads to on the right, all variables have only twins that settle on
the left. The variable `y` itself may be without a twin, being on the way to that term. -/
def SettlesBelow (draws : List (Nat × Nat)) (b c : Bindings) (y : Var) : Prop :=
  ∀ t, c.Leads (.var y) t → t.Rigid → ∀ y' ∈ t.vars, ∀ x', Twins draws x' y' → b.Settles x'.name

/-- A twin leads to a free variable, or to variables with twins. -/
theorem Corresponds.settles (h : Corresponds draws b c) {x y : Var} (hxy : Twins draws x y)
    (hy : SettlesBelow draws b c y) : b.Settles x.name := by
  obtain ⟨s, hs⟩ := Bindings.resolve_total h.left (.var x)
  obtain ⟨t, ht⟩ := Bindings.resolve_total h.right (.var y)
  refine Bindings.settles_of_leads (Bindings.leads_of_walk hs) ?_ x (by simp)
  cases h.ends ⟨x, y, hxy, hs, ht⟩ with
  | @free u _ _ =>
    intro z hz
    obtain rfl : z = u := by simpa using hz
    have hfree := Bindings.resolve_free hs
    rw [h.left.follow?_var] at hfree
    exact Bindings.settles_of_get? fun t ht => by simp [hfree] at ht
  | rigid hr hm =>
    intro z hz
    obtain ⟨y', hy', hzy⟩ := hm.exists_of_mem hz
    exact hy t (Bindings.leads_of_walk ht) (hm.rigid hr) y' hy' z hzy

/-- By induction along the bindings on the right. -/
theorem Corresponds.settlesBelow (h : Corresponds draws b c) (hc : c.Acyclic) (y : Var) :
    SettlesBelow draws b c y := by
  induction y using hc.induct with
  | free y hy =>
    intro t ht hr
    cases ht with
    | stop _ => exact absurd rfl (hr y)
    | follow hf _ => simp [hc.follow?_var, hy] at hf
  | bound y u hy ih =>
    intro t ht hr
    cases ht with
    | stop hf => simp [hc.follow?_var, hy] at hf
    | follow hf hu =>
      rw [hc.follow?_var, hy, Option.some.injEq] at hf
      subst hf
      rcases u.rigid_or_var with hru | ⟨z, rfl⟩
      · cases hu with
        | stop _ => exact fun y' hy' x' hxy => h.settles hxy (ih y' hy')
        | follow hf _ => simp [Bindings.follow?_of_rigid hru] at hf
      · exact ih z (by simp) t hu hr

/-- Bindings are without cycles if all their variables have twins on the other side and there
are no cycles there. -/
theorem Corresponds.acyclic (h : Corresponds draws b c)
    (hpaired : b.Over fun x => ∃ y, Twins draws x y) (hc : c.Acyclic) : b.Acyclic := by
  intro x hx
  obtain ⟨_, ⟨t, ht, _⟩, _⟩ := Relation.TransGen.head'_iff.1 hx
  obtain ⟨e, he, _⟩ := Bindings.get?_eq_some_iff.1 ht
  obtain ⟨y, hxy⟩ := hpaired.key he
  exact (h.settles hxy (h.settlesBelow hc y)).not_cyclic hx

/-- An answer is given as another one: if it has no cycles, nor has the other, and what the
host sees of it is a variant. -/
def GivenAs (b b' : Bindings) : Prop :=
  b.Acyclic → b'.Acyclic ∧ ∃ m m', b.materialize = some m ∧ b'.materialize = some m' ∧ m'.Variant m

theorem Corresponds.givenAs (h : Corresponds draws b c)
    (hpaired : b.Over fun x => ∃ y, Twins draws x y) : GivenAs c b := by
  intro hc
  have hb := h.acyclic hpaired hc
  obtain ⟨m', m, hm', hm, hvariant⟩ := h.materialize hb hc
  exact ⟨hb, m, m', hm, hm', hvariant⟩

end

/-! ## Goals and bindings on both sides -/

/-- Two searches have come to these goals and bindings on one way. The second one has room for
as many draws as the first one, and a twin for each variable in the bindings of the first. -/
structure Alongside (clauses : List Clause) (d e d' e' : Nat) (goals goals' : List Compound)
    (b b' : Bindings) : Prop where
  room : Room d e d' e'
  paired : ∃ draws, Frame.AbreastBy clauses d e d' e' draws ⟨goals, b, []⟩ ⟨goals', b', []⟩ ∧
    b.Over fun x => ∃ y, Twins draws x y

/-- Variables of goals of one shape have twins. -/
theorem Compound.Matches.exists_twin {draws : List (Nat × Nat)} {c c' : Compound}
    (h : c.Matches draws c') {x : Var} (hx : x ∈ c.vars) : ∃ y, Twins draws x y := by
  obtain ⟨t, ht, hx⟩ := mem_vars.1 hx
  obtain ⟨i, hi, rfl⟩ := List.getElem_of_mem ht
  obtain ⟨y, _, hxy⟩ := (h.2.get hi (h.2.length_eq ▸ hi)).exists_of_mem hx
  exact ⟨y, hxy⟩

namespace Alongside

variable {clauses : List Clause} {d e d' e' k k' n : Nat} {goals goals' rest rest' : List Compound}
  {goal goal' : Compound} {b b' b₁ : Bindings} {c : Clause} {r : Rule}

theorem start {query : List Compound} (hquery : ∀ g ∈ query, ∀ x ∈ g.vars, ¬Reserved x.name)
    (hroom : Room d e d' e') : Alongside clauses d e d' e' query query .empty .empty := by
  obtain ⟨draws, habreast⟩ : Frame.Abreast clauses d e d' e' ⟨query, .empty, clauses⟩
      ⟨query, .empty, clauses⟩ := Frame.abreast_start hquery
  exact ⟨hroom, draws, habreast.setPending (by simp), Bindings.over_empty _⟩

/-- Meanwhile the second search has drawn no more than the first one. -/
theorem later (h : Alongside clauses d e d' e' goals goals' b b') (hk : d ≤ k) (hk' : d' ≤ k')
    (hcount : k' + d ≤ k + d') : Alongside clauses k e k' e' goals goals' b b' := by
  obtain ⟨hroom, draws, habreast, hpaired⟩ := h
  exact ⟨hroom.advance hk hk' hcount, draws, habreast.mono hk hk', hpaired⟩

theorem givenAs (h : Alongside clauses d e d' e' goals goals' b b') : GivenAs b' b := by
  obtain ⟨_, _, habreast, hpaired⟩ := h
  exact habreast.bindings.givenAs hpaired

theorem goals_nil (h : Alongside clauses d e d' e' [] goals' b b') : goals' = [] := by
  obtain ⟨_, _, habreast, _⟩ := h
  exact List.forall₂_nil_left_iff.1 habreast.goals

theorem goals_cons (h : Alongside clauses d e d' e' (goal :: rest) goals' b b') :
    ∃ goal' rest', goals' = goal' :: rest' ∧
      ∀ c, goal.SameSignature c ↔ goal'.SameSignature c := by
  obtain ⟨_, _, habreast, _⟩ := h
  obtain ⟨goal', rest', hgoal, _, rfl⟩ := List.forall₂_cons_left_iff.1 habreast.goals
  exact ⟨goal', rest', rfl, fun c => hgoal.sameSignature_iff⟩

/-- Where one search clashes with a clause, the other one does. -/
theorem clash {clash : Clash} (hfacts : ∀ c ∈ clauses, c.Closed) (hc : c ∈ clauses)
    (h : Alongside clauses d e d' e' (goal :: rest) (goal' :: rest') b b')
    (huse : c.instantiate d = (r, k)) (hk : k ≤ e)
    (hunify : unifyCompound n b goal r.head = some (.error clash)) :
    ∃ r' k' clash', c.instantiate d' = (r', k') ∧ k + d' = k' + d ∧
      unifyCompound n b' goal' r'.head = some (.error clash') := by
  obtain ⟨hroom, draws, habreast, hpaired⟩ := h
  have hmem : ∀ c' ∈ [c], c' ∈ clauses := by simpa using hc
  have hc' := habreast.setPending hmem
  obtain ⟨len, r', draws', rfl, huse', _, _, _, _, hout⟩ := hc'.use (n := n) hfacts hroom huse hk
  rw [hunify] at hout
  generalize hu : unifyCompound n b' goal' r'.head = o at hout
  cases hout with
  | clash _ clash' => exact ⟨r', d' + len, clash', huse', by omega, hu⟩

/-- Where a clause applies in one search, it applies in the other one, and they go on with its
body side by side. -/
theorem apply (hfacts : ∀ c ∈ clauses, c.Closed) (hc : c ∈ clauses)
    (h : Alongside clauses d e d' e' (goal :: rest) (goal' :: rest') b b')
    (huse : c.instantiate d = (r, k)) (hk : k ≤ e)
    (hunify : unifyCompound n b goal r.head = some (.ok b₁)) :
    ∃ r' k' b₁', c.instantiate d' = (r', k') ∧ k + d' = k' + d ∧
      unifyCompound n b' goal' r'.head = some (.ok b₁') ∧
      Alongside clauses k e k' e' (r.body ++ rest) (r'.body ++ rest') b₁ b₁' := by
  obtain ⟨hroom, draws, habreast, hpaired⟩ := h
  have hmem : ∀ c' ∈ [c], c' ∈ clauses := by simpa using hc
  have hc' := habreast.setPending hmem
  obtain ⟨len, r', draws', rfl, huse', hsub, hused, hhead, hbody, hout⟩ :=
    hc'.use (n := n) hfacts hroom huse hk
  rw [hunify] at hout
  generalize hu : unifyCompound n b' goal' r'.head = o at hout
  cases hout with
  | @ok _ b₁' hb =>
    have hnext := hc'.apply hfacts hroom hused huse hunify huse' hu hbody hb
    have hgoal : goal.Matches draws' goal' := (List.forall₂_cons.1 hused.goals).1
    have hpaired' : b₁.Over fun x => ∃ y, Twins draws' x y := by
      refine unifyCompound_over habreast.left.oriented hunify ?_ (fun x hx => hgoal.exists_twin hx)
        fun x hx => hhead.exists_twin hx
      exact hpaired.mono fun x ⟨y, hxy⟩ => ⟨y, hxy.mono hsub⟩
    exact ⟨r', d' + len, b₁', huse', by omega, hu, hroom.advance (by omega) (by omega) (by omega),
      draws', hnext.setPending (by simp), hpaired'⟩

end Alongside

/-! ## Enumerations -/

theorem sublistForall₂_append {α β : Type} {R : α → β → Prop} {l₁ m₁ : List α} {l₂ m₂ : List β}
    (hl : List.SublistForall₂ R l₁ l₂) (hm : List.SublistForall₂ R m₁ m₂) :
    List.SublistForall₂ R (l₁ ++ m₁) (l₂ ++ m₂) := by
  obtain ⟨l, hl, hl'⟩ := List.sublistForall₂_iff.1 hl
  obtain ⟨m, hm, hm'⟩ := List.sublistForall₂_iff.1 hm
  exact List.sublistForall₂_iff.2 ⟨l ++ m, List.rel_append hl hm, hl'.append hm'⟩

/-- The answers are given as some of the others, in order. -/
def Among (answers answers' : List (Bindings × Nat)) : Prop :=
  List.SublistForall₂ GivenAs (answers.map Prod.fst) (answers'.map Prod.fst)

theorem Among.append {answers answers' more more' : List (Bindings × Nat)}
    (h : Among answers answers') (hmore : Among more more') :
    Among (answers ++ more) (answers' ++ more') := by
  unfold Among
  rw [List.map_append, List.map_append]
  exact sublistForall₂_append h hmore

/-- From these goals an enumeration ends after no more draws than were made from `d` to `k`,
and gives some of the answers. -/
def EndsAmong (clauses pending : List Clause) (goals : List Compound) (b : Bindings)
    (d' d k : Nat) (answers : List (Bindings × Nat)) : Prop :=
  ∃ answers' k', Enumerates clauses pending goals b d' answers' (some k') ∧ k' + d ≤ k + d' ∧
    Among answers' answers

/-- With fewer clauses an enumeration ends too, and among the answers. -/
theorem endsAmong_of_enumerates {clauses clauses' : List Clause} (hsub : clauses.Sublist clauses')
    (hfacts : ∀ c ∈ clauses', c.Closed) {pending : List Clause} {goals : List Compound}
    {b : Bindings} {d e k : Nat} {answers : List (Bindings × Nat)}
    (h : Enumerates clauses' pending goals b d answers (some k)) (hk : k ≤ e) :
    ∀ {pending' goals' b' d' e'}, pending ⊆ clauses' → pending'.Sublist pending →
      Alongside clauses' d e d' e' goals goals' b b' →
      EndsAmong clauses pending' goals' b' d' d k answers := by
  generalize hending : some k = ending at h
  induction h generalizing k with
  | leave | answered | enter => cases hending
  | answer =>
    intro pending' goals' b' d' e' _ _ ha
    cases hending
    obtain rfl := ha.goals_nil
    exact ⟨_, _, .answer, by omega, .cons ha.givenAs .nil⟩
  | exhausted =>
    intro pending' goals' b' d' e' _ hp ha
    cases hending
    obtain ⟨goal', rest', rfl, _⟩ := ha.goals_cons
    obtain rfl := List.sublist_nil.1 hp
    exact ⟨_, _, .exhausted, by omega, .nil⟩
  | skip hsig hnext ih =>
    intro pending' goals' b' d' e' hmem hp ha
    obtain ⟨_, hmem⟩ := List.cons_subset.1 hmem
    obtain hp | ⟨pending', rfl, hp'⟩ := List.sublist_cons_iff.1 hp
    · exact ih hk hending hmem hp ha
    · obtain ⟨goal', rest', rfl, hsig'⟩ := ha.goals_cons
      obtain ⟨answers', k', hrest, hcount, hamong⟩ := ih hk hending hmem hp' ha
      exact ⟨answers', k', .skip (fun h => hsig ((hsig' _).2 h)) hrest, hcount, hamong⟩
  | @clash c pending goal rest b d n r d₁ clash answers ending hsig huse hunify hnext ih =>
    intro pending' goals' b' d' e' hmem hp ha
    obtain ⟨hc, hmem⟩ := List.cons_subset.1 hmem
    have hd := Clause.drawn_le_instantiate huse
    have hd₁ := (hending ▸ hnext).drawn_le
    obtain hp | ⟨pending', rfl, hp'⟩ := List.sublist_cons_iff.1 hp
    · obtain ⟨answers', k', hrest, hcount, hamong⟩ :=
        ih hk hending hmem hp (ha.later hd (Nat.le_refl d') (by omega))
      exact ⟨answers', k', hrest, by omega, hamong⟩
    · obtain ⟨goal', rest', rfl, hsig'⟩ := ha.goals_cons
      obtain ⟨r', d₁', clash', huse', hd', hunify'⟩ :=
        ha.clash hfacts hc huse (hd₁.trans hk) hunify
      have hle := Clause.drawn_le_instantiate huse'
      obtain ⟨answers', k', hrest, hcount, hamong⟩ :=
        ih hk hending hmem hp' (ha.later hd hle (by omega))
      exact ⟨answers', k', .clash ((hsig' _).1 hsig) huse' hunify' hrest, by omega, hamong⟩
  | @apply c pending goal rest b d n r d₁ b₁ d₂ answers more ending hsig huse hunify hbelow hnext
      ihbelow ih =>
    intro pending' goals' b' d' e' hmem hp ha
    obtain ⟨hc, hmem⟩ := List.cons_subset.1 hmem
    have hd := (Clause.drawn_le_instantiate huse).trans hbelow.drawn_le
    have hd₁ := hbelow.drawn_le
    have hd₂ := (hending ▸ hnext).drawn_le
    obtain hp | ⟨pending', rfl, hp'⟩ := List.sublist_cons_iff.1 hp
    · -- The clause is a new one: nothing below it is needed.
      obtain ⟨more', k', hrest, hcount, hmore⟩ :=
        ih hk hending hmem hp (ha.later hd (Nat.le_refl d') (by omega))
      have hnone : Among [] answers := .nil
      exact ⟨more', k', hrest, by omega, hnone.append hmore⟩
    · obtain ⟨goal', rest', rfl, hsig'⟩ := ha.goals_cons
      obtain ⟨r', d₁', b₁', huse', hd', hunify', hinside⟩ :=
        ha.apply hfacts hc huse (by omega) hunify
      obtain ⟨answers', d₂', hbelow', hcount, hamong⟩ :=
        ihbelow (hd₂.trans hk) rfl (List.Subset.refl _) hsub hinside
      have hle := (Clause.drawn_le_instantiate huse').trans hbelow'.drawn_le
      obtain ⟨more', k', hrest, hcount', hmore⟩ :=
        ih hk hending hmem hp' (ha.later hd hle (by omega))
      exact ⟨answers' ++ more', k', .apply ((hsig' _).1 hsig) huse' hunify' hbelow' hrest, by omega,
        hamong.append hmore⟩

/-! ## Searches -/

/-- Clauses are put in at any places, and the search still ends. Then it ended before, after
no more draws, and each of its answers stands among the new ones, in the same order: if it has
no cycles, then materialized and up to the names of internal variables. -/
theorem exists_finishes_of_sublist {db db' : Database} (hsub : db.clauses.Sublist db'.clauses)
    (hfacts : ∀ c ∈ db'.clauses, c.Closed) {query : List Compound}
    (hquery : ∀ g ∈ query, ∀ x ∈ g.vars, ¬Reserved x.name)
    {answers' : List (Bindings × Nat)} {d' : Nat} (hfinishes : db'.Finishes query answers' d')
    (hdraws : d' < db'.drawn + 2 ^ 64) :
    ∃ answers d, db.Finishes query answers d ∧ d + db'.drawn ≤ d' + db.drawn ∧
      List.SublistForall₂ GivenAs (answers.map Prod.fst) (answers'.map Prod.fst) := by
  have hroom : Room db'.drawn (db'.drawn + 2 ^ 64) db.drawn (db.drawn + 2 ^ 64) :=
    ⟨by omega, by omega, by omega⟩
  obtain ⟨answers, d, he, hcount, hamong⟩ := endsAmong_of_enumerates hsub hfacts
    (finishes_iff.1 hfinishes) hdraws.le (List.Subset.refl _) hsub (.start hquery hroom)
  exact ⟨answers, d, finishes_iff.2 he, hcount, hamong⟩

/-- What stands on a tree is tall, whatever it is. Put before this rule, one for towers draws a
variable and finds none, so that the answer has other variables. -/
theorem exists_finishes_of_sublist_tall :
    let x := Term.var (.ofName "X")
    let y := Term.var (.ofName "Y")
    let oak : Clause := .fact ⟨"tree", [.atom "oak"]⟩
    let onTrees : Clause := .rule ⟨⟨"tall", [.app "on" [y, x]]⟩, [⟨"tree", [x]⟩]⟩
    let towers : Clause := .rule ⟨⟨"tall", [x]⟩, [⟨"tower", [x]⟩]⟩
    let db := Database.ofClauses [oak, onTrees]
    let db' := Database.ofClauses [oak, towers, onTrees]
    let query : List Compound := [⟨"tall", [.var (.ofName "Who")]⟩]
    let answer (i j : Nat) : Bindings := .ofList
      [(.ofName "Who", .app "on" [.var (.fresh i), .var (.fresh j)]), (.fresh j, .atom "oak")]
    db.clauses.Sublist db'.clauses ∧ (∀ c ∈ db'.clauses, c.Closed) ∧
    (∀ g ∈ query, ∀ x ∈ g.vars, ¬Reserved x.name) ∧ db'.Finishes query [(answer 1 2, 3)] 3 ∧
    3 < db'.drawn + 2 ^ 64 ∧
    (∃ answers d, db.Finishes query answers d ∧ d + db'.drawn ≤ 3 + db.drawn ∧
      List.SublistForall₂ GivenAs (answers.map Prod.fst) [answer 1 2]) ∧
    db.replies 9 2 (db.query query) = some [(some (answer 0 1), 2), (none, 2)] := by
  intro x y oak onTrees towers db db' query answer
  have hsub : db.clauses.Sublist db'.clauses := .cons_cons _ (.cons _ (.refl _))
  have hfacts : ∀ c ∈ db'.clauses, c.Closed := by
    simp [db', oak, towers, onTrees, Database.ofClauses, Clause.Closed, Compound.vars, Term.varsAll]
  have hquery : ∀ g ∈ query, ∀ x ∈ g.vars, ¬Reserved x.name := by decide
  have hreplies : db'.replies 9 2 (db'.query query) =
      some [(some (answer 1 2), 3), (none, 3)] := by decide
  have hfinishes : db'.Finishes query [(answer 1 2, 3)] 3 :=
    finishes_iff.2 (enumerates_of_replies hreplies)
  have hdraws : 3 < db'.drawn + 2 ^ 64 := by decide
  exact ⟨hsub, hfacts, hquery, hfinishes, hdraws,
    exists_finishes_of_sublist hsub hfacts hquery hfinishes hdraws, by decide⟩

end HornSearch
