import HornSearch.Proofs.AliasClasses
import HornSearch.Proofs.Freshness

/-!
# Two searches in lockstep

Bindings that correspond have the same classes of aliases, and links and
bindings keep the correspondence (`coupling_corresponds`). So unification takes
the same course on both sides, and two searches for the same goals stay together
step by step and pull by pull (`lockstep_move`, `lockstep_pull`). Each is in its
own part of the supply. The numbers they draw differ, but not how many they
draw.
-/

namespace HornSearch

/-! ## Unification -/

section
variable {draws : List (Nat × Nat)} {b c : Bindings}

theorem Corresponds.classes (h : Corresponds draws b c) : SameClasses (Twins draws) b c := by
  refine ⟨h.left, h.right, fun hst => ?_, h.shared⟩
  cases h.ends hst with
  | free _ => exact .free hst
  | rigid hs hm => exact .rigid hs hm

/-- Linking corresponding free variables, in whichever direction each side does
it. -/
theorem Corresponds.link (h : Corresponds draws b c) {x x' y y' : Var}
    (hx : Leading (Twins draws) b c (.var x) (.var x'))
    (hy : Leading (Twins draws) b c (.var y) (.var y')) :
    Corresponds draws (b.link x y) (c.link x' y') := by
  have hshared := h.shared hx hy
  have hxb := hx.free_left
  have hyb := hy.free_left
  have hxc := hx.free_right
  have hyc := hy.free_right
  rcases lt_trichotomy x.name y.name with hlt | heq | hgt
  · have hb := binds_var h.left hyb hxb hlt
    rw [link_of_lt hlt]
    rcases lt_trichotomy x'.name y'.name with hlt' | heq' | hgt'
    · rw [link_of_lt hlt']
      exact h.put hy hb (binds_var h.right hyc hxc hlt') (.free (h.kin hx)) fun _ _ => hx
    · exact absurd (hshared.2 heq') hlt.ne
    · rw [link_of_gt hgt']
      rcases (h.kin hx).lt_iff (h.kin hy) with hiff | ⟨hxr, hyr⟩
      · exact absurd (hiff.1 hlt) hgt'.asymm
      · exact h.put_cross hy hx hyr hxr hlt.ne' hb (binds_var h.right hxc hyc hgt')
  · rw [link_of_eq heq, link_of_eq (hshared.1 heq)]
    exact h
  · have hb := binds_var h.left hxb hyb hgt
    rw [link_of_gt hgt]
    rcases lt_trichotomy x'.name y'.name with hlt' | heq' | hgt'
    · rw [link_of_lt hlt']
      rcases (h.kin hx).lt_iff (h.kin hy) with hiff | ⟨hxr, hyr⟩
      · exact absurd (hiff.2 hlt') hgt.asymm
      · exact h.put_cross hx hy hxr hyr hgt.ne' hb (binds_var h.right hyc hxc hlt')
    · exact absurd (hshared.2 heq') hgt.ne'
    · rw [link_of_gt hgt']
      exact h.put hx hb (binds_var h.right hxc hyc hgt') (.free (h.kin hy)) fun _ _ => hy

theorem coupling_corresponds : Coupling (Twins draws) (Corresponds draws) := by
  refine ⟨fun h => h.classes, fun h hx hy => h.link hx hy, fun h hx hb hc ht hm => ?_⟩
  exact h.put hx hb hc (.rigid ht hm) fun z hz => absurd hz (ht z)

end

/-! ## Choice points -/

/-- Both searches have room for the draws before `e` and before `e'`: within one
period of the supply, and the second for no fewer than the first. -/
structure Room (d e d' e' : Nat) : Prop where
  left : e ≤ d + 2 ^ 64
  right : e' ≤ d' + 2 ^ 64
  more : d' + e ≤ d + e'

theorem Room.advance {d e d' e' k k' : Nat} (h : Room d e d' e') (hk : d ≤ k) (hk' : d' ≤ k')
    (hcount : k' + d ≤ k + d') : Room k e k' e' := by
  have hleft := h.left
  have hright := h.right
  have hmore := h.more
  exact ⟨by omega, by omega, by omega⟩

/-- Two choice points that have come equally far, after `d` draws and after `d'`
draws. -/
structure Frame.AbreastBy (clauses : List Clause) (d e d' e' : Nat) (draws : List (Nat × Nat))
    (f f' : Frame) : Prop where
  left : f.Apart clauses d e
  right : f'.Apart clauses d' e'
  past : ∀ {i j}, (i, j) ∈ draws →
    ¬Later d e (Var.fresh i).name ∧ ¬Later d' e' (Var.fresh j).name
  goals : List.Forall₂ (Compound.Matches draws) f.goals f'.goals
  bindings : Corresponds draws f.bindings f'.bindings
  pending : f.pending = f'.pending

/-- Each pair of choice points has its own pairs of draws: those on its way. -/
def Frame.Abreast (clauses : List Clause) (d e d' e' : Nat) (f f' : Frame) : Prop :=
  ∃ draws, Frame.AbreastBy clauses d e d' e' draws f f'

/-- The pairs of draws that the use of a clause adds. -/
def drawnPairs (d d' len : Nat) : List (Nat × Nat) := (List.range len).map fun k => (d + k, d' + k)

theorem mem_drawnPairs {d d' len i j : Nat} :
    (i, j) ∈ drawnPairs d d' len ↔ ∃ k < len, i = d + k ∧ j = d' + k := by
  simp only [drawnPairs, List.mem_map, List.mem_range, Prod.mk.injEq]
  constructor
  · rintro ⟨k, hk, rfl, rfl⟩
    exact ⟨k, hk, rfl, rfl⟩
  · rintro ⟨k, hk, rfl, rfl⟩
    exact ⟨k, hk, rfl, rfl⟩

/-- Copies of one clause have one shape. -/
theorem matches_numbered {draws : List (Nat × Nat)} {d d' : Nat} {names : List String}
    {c : Compound} (hc : ∀ x ∈ c.vars, x.name ∈ names) :
    (c.subst (Renaming.numbered d names)).Matches (draws ++ drawnPairs d d' names.length)
      (c.subst (Renaming.numbered d' names)) := by
  refine Compound.matches_subst fun x hx => .var (.drawn ?_)
  have hlt := List.idxOf_lt_length_of_mem (hc x hx)
  exact List.mem_append_right _ (mem_drawnPairs.2 ⟨_, hlt, rfl, rfl⟩)

section
variable {clauses : List Clause} {d e d' e' k k' : Nat}

theorem Frame.AbreastBy.mono {draws : List (Nat × Nat)} {f f' : Frame}
    (h : Frame.AbreastBy clauses d e d' e' draws f f') (hk : d ≤ k) (hk' : d' ≤ k') :
    Frame.AbreastBy clauses k e k' e' draws f f' := by
  refine ⟨h.left.mono hk, h.right.mono hk', fun hmem => ?_, h.goals, h.bindings, h.pending⟩
  exact ⟨not_later_mono hk (h.past hmem).1, not_later_mono hk' (h.past hmem).2⟩

theorem Frame.Abreast.mono {f f' : Frame} (h : Frame.Abreast clauses d e d' e' f f')
    (hk : d ≤ k) (hk' : d' ≤ k') : Frame.Abreast clauses k e k' e' f f' := by
  obtain ⟨draws, h⟩ := h
  exact ⟨draws, h.mono hk hk'⟩

theorem Frame.abreast_start {query : List Compound}
    (hquery : ∀ g ∈ query, ∀ x ∈ g.vars, ¬Reserved x.name) :
    Frame.Abreast clauses d e d' e' ⟨query, .empty, clauses⟩ ⟨query, .empty, clauses⟩ := by
  have hundrawn : Undrawn query := by
    intro g hg x hx k hk
    exact hquery g hg x hx (hk ▸ reserved_fresh k)
  refine ⟨[], Frame.apart_start hundrawn, Frame.apart_start hundrawn, by simp, ?_,
    corresponds_empty, rfl⟩
  exact List.forall₂_same.2 fun g hg => Compound.matches_self (hquery g hg)

variable {goal goal' : Compound} {rest rest' : List Compound} {b b' : Bindings} {c : Clause}
  {pending : List Clause}

/-- New variables drawn on both sides become twins. -/
theorem Frame.AbreastBy.draw {draws : List (Nat × Nat)} {f f' : Frame} (hroom : Room d e d' e')
    (h : Frame.AbreastBy clauses d e d' e' draws f f') {len : Nat} (hlen : d + len ≤ e) :
    Frame.AbreastBy clauses (d + len) e (d' + len) e' (draws ++ drawnPairs d d' len) f f' := by
  have hmore := hroom.more
  have hleft := hroom.left
  have hright := hroom.right
  refine ⟨h.left.mono (by omega), h.right.mono (by omega), ?_, ?_, ?_, h.pending⟩
  · intro i j hmem
    rcases List.mem_append.1 hmem with hmem | hmem
    · obtain ⟨hi, hj⟩ := h.past hmem
      exact ⟨not_later_mono (by omega) hi, not_later_mono (by omega) hj⟩
    · obtain ⟨m, hm, rfl, rfl⟩ := mem_drawnPairs.1 hmem
      exact ⟨not_later_fresh (by omega) (by omega), not_later_fresh (by omega) (by omega)⟩
  · exact h.goals.imp fun _ _ hg => hg.mono (List.subset_append_left _ _)
  · refine h.bindings.extend h.left.bindings h.right.bindings ?_ h.past ?_ ?_
    · intro x hx
      exact ⟨fun ⟨m, _, _, e⟩ => hx (e ▸ reserved_fresh m),
        fun ⟨m, _, _, e⟩ => hx (e ▸ reserved_fresh m)⟩
    · intro i j hmem
      obtain ⟨m, hm, rfl, rfl⟩ := mem_drawnPairs.1 hmem
      exact ⟨fun hn => hn ⟨d + m, by omega, by omega, rfl⟩,
        fun hn => hn ⟨d' + m, by omega, by omega, rfl⟩⟩
    · intro i j p q hij hpq
      obtain ⟨m, hm, rfl, rfl⟩ := mem_drawnPairs.1 hij
      obtain ⟨m', hm', rfl, rfl⟩ := mem_drawnPairs.1 hpq
      rw [fresh_name_eq_iff, fresh_name_eq_iff]
      omega

/-- Which clauses are left to try does not matter. -/
theorem Frame.AbreastBy.setPending {draws : List (Nat × Nat)} {goals goals' : List Compound}
    {left right : List Clause}
    (h : Frame.AbreastBy clauses d e d' e' draws ⟨goals, b, left⟩ ⟨goals', b', right⟩)
    (hpending : ∀ c ∈ pending, c ∈ clauses) :
    Frame.AbreastBy clauses d e d' e' draws ⟨goals, b, pending⟩ ⟨goals', b', pending⟩ :=
  ⟨⟨h.left.oriented, hpending, h.left.bindings, h.left.goals⟩,
    ⟨h.right.oriented, hpending, h.right.bindings, h.right.goals⟩, h.past, h.goals, h.bindings, rfl⟩

abbrev StacksAbreast (clauses : List Clause) (d e d' e' : Nat) : List Frame → List Frame → Prop :=
  List.Forall₂ (Frame.Abreast clauses d e d' e')

theorem StacksAbreast.mono {stack stack' : List Frame}
    (h : StacksAbreast clauses d e d' e' stack stack') (hk : d ≤ k) (hk' : d' ≤ k') :
    StacksAbreast clauses k e k' e' stack stack' :=
  h.imp fun _ _ hf => hf.mono hk hk'

theorem StacksAbreast.retry {stack stack' : List Frame}
    (hf : Frame.Abreast clauses d e d' e' ⟨goal :: rest, b, c :: pending⟩
      ⟨goal' :: rest', b', c :: pending⟩)
    (h : StacksAbreast clauses d e d' e' stack stack') :
    StacksAbreast clauses d e d' e' (retry goal rest b pending stack)
      (retry goal' rest' b' pending stack') := by
  unfold HornSearch.retry
  cases pending with
  | nil => exact h
  | cons c' pending =>
    obtain ⟨draws, hf⟩ := hf
    exact .cons ⟨draws, hf.left.skip, hf.right.skip, hf.past, hf.goals, hf.bindings, rfl⟩ h

inductive StepsAbreast (clauses : List Clause) (d e d' e' : Nat) : Step → Step → Prop where
  | finished : StepsAbreast clauses d e d' e' .finished .finished
  | answer {draws : List (Nat × Nat)} {b b' : Bindings} {stack stack' : List Frame}
      (hb : Corresponds draws b b') (h : StacksAbreast clauses d e d' e' stack stack') :
      StepsAbreast clauses d e d' e' (.answer b stack) (.answer b' stack')
  | moved (len : Nat) {stack stack' : List Frame}
      (h : StacksAbreast clauses (d + len) e (d' + len) e' stack stack') :
      StepsAbreast clauses d e d' e' (.moved (d + len) stack) (.moved (d' + len) stack')

/-- Both searches use a clause: they draw equally many variables, get copies of
one shape, and unify them with one outcome. -/
theorem Frame.AbreastBy.use {n : Nat} {draws : List (Nat × Nat)} {r : Rule}
    (hfacts : ∀ c ∈ clauses, c.Closed) (hroom : Room d e d' e')
    (h : Frame.AbreastBy clauses d e d' e' draws ⟨goal :: rest, b, c :: pending⟩
      ⟨goal' :: rest', b', c :: pending⟩) (huse : c.instantiate d = (r, k)) (hk : k ≤ e) :
    ∃ len r' draws', k = d + len ∧ c.instantiate d' = (r', d' + len) ∧ draws ⊆ draws' ∧
      Frame.AbreastBy clauses k e (d' + len) e' draws' ⟨goal :: rest, b, c :: pending⟩
        ⟨goal' :: rest', b', c :: pending⟩ ∧
      r.head.Matches draws' r'.head ∧ List.Forall₂ (Compound.Matches draws') r.body r'.body ∧
      SameCourse (Corresponds draws') (unifyCompound n b goal r.head)
        (unifyCompound n b' goal' r'.head) := by
  have hclosed := hfacts c (h.left.pending c List.mem_cons_self)
  rw [Clause.instantiate_eq hclosed] at huse
  cases huse
  have hdraw := h.draw hroom hk
  have hhead : (c.head.subst (Renaming.numbered d c.names)).Matches
      (draws ++ drawnPairs d d' c.names.length) (c.head.subst (Renaming.numbered d' c.names)) :=
    matches_numbered fun x hx => Clause.mem_names hclosed (.inl hx)
  refine ⟨_, _, _, rfl, Clause.instantiate_eq hclosed d', List.subset_append_left _ _, hdraw,
    hhead, ?_, ?_⟩
  · rw [List.forall₂_map_left_iff, List.forall₂_map_right_iff, List.forall₂_same]
    intro g hg
    apply matches_numbered
    intro x hx
    exact Clause.mem_names hclosed (.inr ⟨g, hg, hx⟩)
  · refine coupling_corresponds.unifyCompound_course n hdraw.bindings ?_ hhead
    cases hdraw.goals with
    | cons hg _ => exact hg

/-- Where the clause applies, the choice points that it leaves have come equally far. -/
theorem Frame.AbreastBy.apply {n m : Nat} {draws draws' : List (Nat × Nat)} {r r' : Rule}
    {b₁ b₁' : Bindings} (hfacts : ∀ c ∈ clauses, c.Closed) (hroom : Room d e d' e')
    (h : Frame.AbreastBy clauses d e d' e' draws ⟨goal :: rest, b, c :: pending⟩
      ⟨goal' :: rest', b', c :: pending⟩)
    (hused : Frame.AbreastBy clauses k e k' e' draws' ⟨goal :: rest, b, c :: pending⟩
      ⟨goal' :: rest', b', c :: pending⟩)
    (huse : c.instantiate d = (r, k)) (hunify : unifyCompound n b goal r.head = some (.ok b₁))
    (huse' : c.instantiate d' = (r', k'))
    (hunify' : unifyCompound m b' goal' r'.head = some (.ok b₁'))
    (hbody : List.Forall₂ (Compound.Matches draws') r.body r'.body)
    (hb : Corresponds draws' b₁ b₁') :
    Frame.AbreastBy clauses k e k' e' draws' ⟨r.body ++ rest, b₁, clauses⟩
      ⟨r'.body ++ rest', b₁', clauses⟩ := by
  refine ⟨h.left.apply hfacts hroom.left huse hunify, h.right.apply hfacts hroom.right huse' hunify',
    hused.past, ?_, hb, rfl⟩
  cases hused.goals with
  | cons _ hrest => exact List.rel_append hbody hrest

/-- What one search does in a step, the other one does too. -/
theorem lockstep_move {n : Nat} {stack stack' : List Frame} {r : Step}
    (hfacts : ∀ c ∈ clauses, c.Closed) (hroom : Room d e d' e')
    (h : StacksAbreast clauses d e d' e' stack stack') (hm : Move clauses n d stack r)
    (hle : ∀ k s, r = .moved k s → k ≤ e) :
    ∃ r', Move clauses n d' stack' r' ∧ StepsAbreast clauses d e d' e' r r' := by
  cases h with
  | nil =>
    cases hm
    exact ⟨_, .finished, .finished⟩
  | @cons f f' stack stack' hf hs =>
    obtain ⟨draws, hf⟩ := hf
    obtain ⟨goals', b', pending'⟩ := f'
    have hgoals := hf.goals
    have hpending := hf.pending
    cases hm with
    | answer =>
      cases hgoals
      exact ⟨_, .answer, .answer hf.bindings hs⟩
    | exhausted =>
      cases hgoals
      cases hpending
      exact ⟨_, .exhausted, .moved 0 hs⟩
    | skipped hsig =>
      cases hgoals with
      | cons hg _ =>
        cases hpending
        have hsig' := fun e => hsig (hg.sameSignature_iff.2 e)
        exact ⟨_, .skipped hsig', .moved 0 (StacksAbreast.retry ⟨draws, hf⟩ hs)⟩
    | clashed hsig huse hunify =>
      cases hgoals with
      | cons hg _ =>
        cases hpending
        obtain ⟨len, r', draws', rfl, huse', _, hf', _, _, hout⟩ :=
          hf.use hfacts hroom huse (hle _ _ rfl)
        rw [hunify] at hout
        generalize hu : unifyCompound n b' _ r'.head = o at hout
        cases hout
        refine ⟨_, .clashed (hg.sameSignature_iff.1 hsig) huse' hu, .moved len ?_⟩
        exact StacksAbreast.retry ⟨draws', hf'⟩ (StacksAbreast.mono hs (by omega) (by omega))
    | applied hsig huse hunify =>
      cases hgoals with
      | cons hg _ =>
        cases hpending
        obtain ⟨len, r', draws', rfl, huse', _, hf', _, hbody, hout⟩ :=
          hf.use hfacts hroom huse (hle _ _ rfl)
        rw [hunify] at hout
        generalize hu : unifyCompound n b' _ r'.head = o at hout
        cases hout with
        | ok hb =>
          refine ⟨_, .applied (hg.sameSignature_iff.1 hsig) huse' hu, .moved len (.cons ?_ ?_)⟩
          · exact ⟨draws', hf.apply hfacts hroom hf' huse hunify huse' hu hbody hb⟩
          · exact StacksAbreast.retry ⟨draws', hf'⟩ (StacksAbreast.mono hs (by omega) (by omega))

/-! ## Pulls -/

structure Pulled.Abreast (clauses : List Clause) (d e d' e' : Nat) (p p' : Pulled) : Prop where
  drawn : p.drawn + d' = p'.drawn + d
  answer : Option.Rel (fun b b' => ∃ draws, Corresponds draws b b') p.answer p'.answer
  stack : StacksAbreast clauses p.drawn e p'.drawn e' p.cursor.stack p'.cursor.stack

/-- What one search gives to a pull, the other one gives too, within the same
number of steps. -/
theorem lockstep_pull {n : Nat} {stack stack' : List Frame} {p : Pulled}
    (hfacts : ∀ c ∈ clauses, c.Closed) (hroom : Room d e d' e')
    (h : StacksAbreast clauses d e d' e' stack stack')
    (hpull : pull clauses n d ⟨stack⟩ = some p) (hle : p.drawn ≤ e) :
    ∃ p', pull clauses n d' ⟨stack'⟩ = some p' ∧ p.Abreast clauses d e d' e' p' := by
  induction n generalizing d d' stack stack' with
  | zero => cases hpull
  | succ n ih =>
    obtain ⟨rfl, rfl⟩ | ⟨b, rest, hm, rfl⟩ | ⟨k, next, hm, hpull⟩ := pull_succ hpull
    · cases h
      exact ⟨_, rfl, Nat.add_comm d d', .none, .nil⟩
    · obtain ⟨r', hm', hr⟩ := lockstep_move hfacts hroom h hm (by simp)
      cases hr with
      | @answer draws _ b' _ rest' hb hs =>
        refine ⟨⟨some b', d', ⟨rest'⟩⟩, ?_, Nat.add_comm d d', .some ⟨draws, hb⟩, hs⟩
        simp only [pull, step_eq_some_iff.2 hm']
    · have hk := drawn_le_of_pull hpull
      obtain ⟨r', hm', hr⟩ := lockstep_move hfacts hroom h hm (by rintro _ _ ⟨⟩; omega)
      cases hr with
      | moved len hs =>
        have hroom' : Room (d + len) e (d' + len) e' :=
          hroom.advance (by omega) (by omega) (by omega)
        obtain ⟨p', hp', hdrawn, hanswer, hstack⟩ := ih hroom' hs hpull
        refine ⟨p', ?_, by omega, hanswer, hstack⟩
        simp only [pull, step_eq_some_iff.2 hm']
        exact hp'

end

end HornSearch
