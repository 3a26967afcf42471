import HornSearch.Proofs.AppendProgram
import HornSearch.Proofs.Enumeration

/-!
# The program for append finds all answers

The search comes from one goal of `append` to the next, each on variables that the clause before
was renamed to. What it has bound by then is described by its solutions alone: the first clause
applies where some solution has `nil` and two equal lists, and its answer has these solutions
(`Reached.nil_applies`); the second applies where some solution has two lists with the same head,
and the next goal is on their tails (`Reached.cons_applies`). Then joining goes by recursion on
the first list (`Reached.joins`), and splitting by recursion on the list that is split
(`Reached.splits`).
-/

namespace HornSearch

open GroundTerm (nil cons list)

/-! ## The clauses -/

def appendValues (x xs y z : GroundTerm) : Valuation where
  value name :=
    (if name = "X" then x else if name = "Xs" then xs else if name = "Y" then y else z).term
  ground _ := GroundTerm.ground _

theorem head_appendNil (x xs y z : GroundTerm) :
    (appendValues x xs y z).compound (Clause.rule appendNil).head =
      appendGoal nil.term y.term y.term := by
  simp [Clause.head, appendNil, appendValues, Var.ofName]

theorem head_appendCons (x xs y z : GroundTerm) :
    (appendValues x xs y z).compound (Clause.rule appendCons).head =
      appendGoal (cons x xs).term y.term (cons x z).term := by
  simp [Clause.head, appendCons, appendValues, Var.ofName]

theorem body_appendCons (x xs y z : GroundTerm) :
    (Clause.rule appendCons).body.map (appendValues x xs y z).compound =
      [appendGoal xs.term y.term z.term] := by
  simp [Clause.body, appendCons, appendValues, Var.ofName]

theorem instantiate_appendNil (d : Nat) : ∃ y,
    (Clause.rule appendNil).instantiate d =
      (⟨appendGoal (.atom "nil") (.var y) (.var y), []⟩, d + 1) :=
  ⟨.fresh d, rfl⟩

theorem instantiate_appendCons (d : Nat) : ∃ x xs y z,
    (Clause.rule appendCons).instantiate d =
      (⟨appendGoal (.app "cons" [.var x, .var xs]) (.var y) (.app "cons" [.var x, .var z]),
        [appendGoal (.var xs) (.var y) (.var z)]⟩, d + 4) :=
  ⟨.fresh d, .fresh (d + 1), .fresh (d + 2), .fresh (d + 3), rfl⟩

theorem nil_mem_appendProgram : .rule appendNil ∈ appendProgram :=
  mem_appendProgram.2 (.inl rfl)

theorem cons_mem_appendProgram : .rule appendCons ∈ appendProgram :=
  mem_appendProgram.2 (.inr rfl)

/-! ## Trying a clause -/

/-- The search has come to the goal `append(s, t, w)`, and the draws before `e` that are to come
give new variables. -/
structure Reached (s t w : Term) (e : Nat) (b : Bindings) (d : Nat) : Prop where
  apart : Frame.Apart appendProgram d e ⟨[appendGoal s t w], b, appendProgram⟩
  acyclic : b.Acyclic
  room : e ≤ d + 2 ^ 64

namespace Reached

variable {s t w : Term} {e d d' : Nat} {b : Bindings} {c : Clause} {r : Rule} {v : Valuation}
  {x xs y z : GroundTerm} {pending : List Clause} {more : List (Bindings × Nat)}
  {ending : Option Nat}

theorem mono (h : Reached s t w e b d) (hd : d ≤ d') : Reached s t w e b d' :=
  ⟨h.apart.mono hd, h.acyclic, h.room.trans (Nat.add_le_add_right hd _)⟩

/-- A solution extends to the copy of a clause by any values for its variables. -/
theorem extend (h : Reached s t w e b d) (hc : c ∈ appendProgram)
    (huse : c.instantiate d = (r, d')) (hd : d' ≤ e) (hv : v.Solves b) (u : Valuation) :
    ∃ v' : Valuation, v'.Solves b ∧
      v'.compound (appendGoal s t w) = v.compound (appendGoal s t w) ∧
      v'.compound r.head = u.compound c.head ∧
      r.body.map v'.compound = c.body.map u.compound := by
  obtain ⟨v', hv', -, hgoal, hhead, hbody⟩ :=
    (h.apart.only hc).extend closed_appendProgram hd h.room huse hv u
  exact ⟨v', hv', hgoal _ List.mem_cons_self, hhead, hbody⟩

/-- A clause applies if some solution makes the goal equal to the head of its copy. -/
theorem unify (h : Reached s t w e b d) (hc : c ∈ appendProgram)
    (huse : c.instantiate d = (r, d')) (hv : v.Solves b)
    (hhead : v.compound (appendGoal s t w) = v.compound r.head) :
    ∃ n b', unifyCompound n b (appendGoal s t w) r.head = some (.ok b') ∧
      Unified b (fun v => v.compound (appendGoal s t w) = v.compound r.head) b' ∧
      Frame.Apart appendProgram d' e ⟨r.body, b', appendProgram⟩ := by
  obtain ⟨n, b', hunify, hb'⟩ :=
    exists_unifyCompound_of_solves h.apart.oriented h.acyclic hv hhead
  have hapart := (h.apart.only hc).apply closed_appendProgram h.room huse hunify
  rw [List.append_nil] at hapart
  exact ⟨n, b', hunify, hb', hapart⟩

/-- A clause clashes where the arguments before have a common solution, and these differ at
their roots. -/
theorem clash (h : Reached s t w e b d) (hc : c ∈ appendProgram) {s' t' w' : Term}
    {body : List Compound} (huse : c.instantiate d = (⟨appendGoal s' t' w', body⟩, d')) (i : Nat)
    {u u' : Term} (hu : [s, t, w][i]? = some u) (hu' : [s', t', w'][i]? = some u')
    (hv : v.Solves b) (hbefore : ([s, t, w].take i).map v.term = ([s', t', w'].take i).map v.term)
    (hclash : (b.deep u).Clashes (b.deep u'))
    (hnext : Enumerates appendProgram pending [appendGoal s t w] b d' more ending) :
    Enumerates appendProgram (c :: pending) [appendGoal s t w] b d more ending := by
  obtain ⟨n, clash, hunify⟩ := exists_unifyCompound_clash (c := appendGoal s t w)
    (d := appendGoal s' t' w') h.apart.oriented h.acyclic ⟨rfl, rfl⟩ hu hu' hv hbefore hclash
  exact .clash (sameSignature_append hc s t w) huse hunify hnext

/-- The first clause answers with the solutions that have `nil` and two equal lists. -/
theorem nil_applies (h : Reached s t w e b d) (hd : d + 1 ≤ e) (hv : v.Solves b)
    (hs : v.term s = nil.term) (ht : v.term t = y.term) (hw : v.term w = y.term) :
    ∃ b' : Bindings, b'.Acyclic ∧
      (∀ v : Valuation, v.Solves b' → v.Solves b ∧ v.term s = nil.term ∧ v.term t = v.term w) ∧
      ∀ {pending more ending},
        Enumerates appendProgram pending [appendGoal s t w] b (d + 1) more ending →
        Enumerates appendProgram (.rule appendNil :: pending) [appendGoal s t w] b d
          ((b', d + 1) :: more) ending := by
  obtain ⟨y', huse⟩ := instantiate_appendNil d
  obtain ⟨v', hv', hgoal, hhead, -⟩ :=
    h.extend nil_mem_appendProgram huse hd hv (appendValues nil nil y nil)
  have hsolution : v'.compound (appendGoal s t w) =
      v'.compound (appendGoal (.atom "nil") (.var y') (.var y')) := by
    rw [hgoal, hhead, head_appendNil, compound_appendGoal, hs, ht, hw]
  obtain ⟨n, b', hunify, hb', -⟩ := h.unify nil_mem_appendProgram huse hv' hsolution
  have hsig := sameSignature_append nil_mem_appendProgram s t w
  refine ⟨b', hb'.acyclic, fun v hv => ?_, .apply hsig huse hunify .answer⟩
  obtain ⟨hv, heq⟩ := (hb'.solves v).1 hv
  simp only [compound_appendGoal, appendGoal_inj] at heq
  obtain ⟨hs, ht, hw⟩ := heq
  exact ⟨hv, hs.trans (v.term_atom _), ht.trans hw.symm⟩

/-- The first clause clashes where the first list is not empty. -/
theorem nil_clashes (h : Reached s t w e b d)
    (hs : ∀ v : Valuation, v.Solves b → v.term s = (cons x xs).term)
    (hnext : Enumerates appendProgram pending [appendGoal s t w] b (d + 1) more ending) :
    Enumerates appendProgram (.rule appendNil :: pending) [appendGoal s t w] b d more ending := by
  obtain ⟨y, huse⟩ := instantiate_appendNil d
  have hdeep := deep_eq_of_solves h.acyclic (cons x xs).ground hs
  refine h.clash nil_mem_appendProgram huse 0 rfl rfl (Valuation.atoms.solves_through h.acyclic)
    rfl ?_ hnext
  simp [hdeep, h.acyclic.deep_atom, Term.Clashes]

/-- The goal on the tails has the solutions that the goal on the lists had. -/
structure Tails (s t w : Term) (b : Bindings) (s' t' w' : Term) (b' : Bindings) : Prop where
  sound : ∀ v : Valuation, v.Solves b' → v.Solves b ∧ ∃ x,
    v.term s = .app "cons" [x, v.term s'] ∧ v.term t = v.term t' ∧
      v.term w = .app "cons" [x, v.term w']
  complete : ∀ (v : Valuation) (x xs y z : GroundTerm), v.Solves b →
    v.term s = (cons x xs).term → v.term t = y.term → v.term w = (cons x z).term →
    ∃ v' : Valuation, v'.Solves b' ∧ v'.term s' = xs.term ∧ v'.term t' = y.term ∧
      v'.term w' = z.term

/-- The second clause goes on with the tails of two lists that have the same head in some
solution. -/
theorem cons_applies (h : Reached s t w e b d) (hd : d + 4 ≤ e) (hv : v.Solves b)
    (hs : v.term s = (cons x xs).term) (ht : v.term t = y.term)
    (hw : v.term w = (cons x z).term) :
    ∃ s' t' w' b', Reached s' t' w' e b' (d + 4) ∧ Tails s t w b s' t' w' b' ∧
      ∀ {answers d'}, Enumerates appendProgram appendProgram [appendGoal s' t' w'] b' (d + 4)
          answers (some d') →
        Enumerates appendProgram [.rule appendCons] [appendGoal s t w] b d answers (some d') := by
  obtain ⟨x', xs', y', z', huse⟩ := instantiate_appendCons d
  have hsolution (v : Valuation) (x xs y z : GroundTerm) (hv : v.Solves b)
      (hs : v.term s = (cons x xs).term) (ht : v.term t = y.term)
      (hw : v.term w = (cons x z).term) :
      ∃ v' : Valuation, v'.Solves b ∧
        v'.compound (appendGoal s t w) = v'.compound (appendGoal
          (.app "cons" [.var x', .var xs']) (.var y') (.app "cons" [.var x', .var z'])) ∧
        v'.term (.var xs') = xs.term ∧ v'.term (.var y') = y.term ∧ v'.term (.var z') = z.term := by
    obtain ⟨v', hv', hgoal, hhead, hbody⟩ :=
      h.extend cons_mem_appendProgram huse hd hv (appendValues x xs y z)
    refine ⟨v', hv', ?_, ?_⟩
    · rw [hgoal, hhead, head_appendCons, compound_appendGoal, hs, ht, hw]
    · simpa [body_appendCons] using hbody
  obtain ⟨v', hv', heq, -⟩ := hsolution v x xs y z hv hs ht hw
  obtain ⟨n, b', hunify, hb', hapart⟩ := h.unify cons_mem_appendProgram huse hv' heq
  refine ⟨.var xs', .var y', .var z', b', ⟨hapart, hb'.acyclic, by have := h.room; omega⟩,
    ⟨fun v hv => ?_, fun v x xs y z hv hs ht hw => ?_⟩, fun {answers _} hbelow => ?_⟩
  · obtain ⟨hv, heq⟩ := (hb'.solves v).1 hv
    simp only [compound_appendGoal, appendGoal_inj, Valuation.term_app, List.map_cons,
      List.map_nil] at heq
    exact ⟨hv, v.term (.var x'), heq⟩
  · obtain ⟨v', hv', heq, hvalues⟩ := hsolution v x xs y z hv hs ht hw
    exact ⟨v', (hb'.solves v').2 ⟨hv', heq⟩, hvalues⟩
  · rw [← List.append_nil answers]
    exact .apply (sameSignature_append cons_mem_appendProgram s t w) huse hunify hbelow .exhausted

/-- The second clause clashes where the first list is empty. -/
theorem cons_clashes (h : Reached s t w e b d)
    (hs : ∀ v : Valuation, v.Solves b → v.term s = nil.term) :
    Enumerates appendProgram [.rule appendCons] [appendGoal s t w] b d [] (some (d + 4)) := by
  obtain ⟨x', xs', y', z', huse⟩ := instantiate_appendCons d
  have hdeep := deep_eq_of_solves h.acyclic nil.ground hs
  refine h.clash cons_mem_appendProgram huse 0 rfl rfl (Valuation.atoms.solves_through h.acyclic)
    rfl ?_ .exhausted
  simp [hdeep, h.acyclic.deep_app, Term.Clashes]

/-- It also clashes where the joined list is empty, but only after the lists are unified. -/
theorem cons_clashes_last (h : Reached s t w e b d) (hd : d + 4 ≤ e) (hv : v.Solves b)
    (hs : v.term s = (cons x xs).term) (ht : v.term t = y.term)
    (hw : ∀ v : Valuation, v.Solves b → v.term w = nil.term) :
    Enumerates appendProgram [.rule appendCons] [appendGoal s t w] b d [] (some (d + 4)) := by
  obtain ⟨x', xs', y', z', huse⟩ := instantiate_appendCons d
  obtain ⟨v', hv', hgoal, hhead, -⟩ :=
    h.extend cons_mem_appendProgram huse hd hv (appendValues x xs y nil)
  simp only [head_appendCons, compound_appendGoal, appendGoal_inj] at hgoal hhead
  have hdeep := deep_eq_of_solves h.acyclic nil.ground hw
  refine h.clash cons_mem_appendProgram huse 2 rfl rfl hv' ?_ ?_ .exhausted
  · simp only [List.take_succ_cons, List.take_zero, List.map_cons, List.map_nil, hgoal, hhead, hs,
      ht]
  · simp [hdeep, h.acyclic.deep_app, Term.Clashes]

/-! ## Joining and splitting -/

/-- Where the first two lists are known, the search answers once. -/
theorem joins {xs ys : List GroundTerm} (h : Reached s t w e b d)
    (hd : d + 5 * (xs.length + 1) ≤ e)
    (hb : ∀ v : Valuation, v.Solves b → v.term s = (list xs).term ∧ v.term t = (list ys).term)
    (hfree : ∃ v : Valuation, v.Solves b ∧ v.term w = (list (xs ++ ys)).term) :
    ∃ a, Enumerates appendProgram appendProgram [appendGoal s t w] b d [a]
        (some (d + 5 * (xs.length + 1))) ∧ a.1.Acyclic := by
  induction xs generalizing s t w b d with
  | nil =>
    obtain ⟨v, hv, hw⟩ := hfree
    obtain ⟨hs, ht⟩ := hb v hv
    obtain ⟨b', ha, -, henum⟩ := h.nil_applies (by omega) hv hs ht hw
    have hrest := (h.mono (Nat.le_add_right d 1)).cons_clashes fun v hv => (hb v hv).1
    exact ⟨_, henum hrest, ha⟩
  | cons x xs ih =>
    rw [List.length_cons] at hd ⊢
    obtain ⟨v, hv, hw⟩ := hfree
    obtain ⟨hs, ht⟩ := hb v hv
    have hnext := h.mono (Nat.le_add_right d 1)
    obtain ⟨s', t', w', b', h', htails, henum⟩ := hnext.cons_applies (by omega) hv hs ht hw
    have hb' (v : Valuation) (hv : v.Solves b') :
        v.term s' = (list xs).term ∧ v.term t' = (list ys).term := by
      obtain ⟨hv, x', hs', ht', -⟩ := htails.sound v hv
      obtain ⟨hs, ht⟩ := hb v hv
      exact ⟨(GroundTerm.term_list_cons.1 (hs'.symm.trans hs)).2, ht'.symm.trans ht⟩
    obtain ⟨v', hv', -, -, hw'⟩ := htails.complete v _ _ _ _ hv hs ht hw
    obtain ⟨a, hbelow, ha⟩ := ih h' (by omega) hb' ⟨v', hv', hw'⟩
    have hall := h.nil_clashes (fun v hv => (hb v hv).1) (henum hbelow)
    rw [show d + 1 + 4 + 5 * (xs.length + 1) = d + 5 * (xs.length + 1 + 1) by omega] at hall
    exact ⟨a, hall, ha⟩

/-- An answer that splits a list at `i`. -/
structure SplitsAt (s t : Term) (b : Bindings) (zs : List GroundTerm) (i : Nat)
    (a : Bindings × Nat) : Prop where
  acyclic : a.1.Acyclic
  solves : ∀ v : Valuation, v.Solves a.1 → v.Solves b
  front : ∀ v : Valuation, v.Solves a.1 → v.term s = (list (zs.take i)).term
  back : ∀ v : Valuation, v.Solves a.1 → v.term t = (list (zs.drop i)).term

/-- The answer of the first clause splits in front of the list. -/
theorem nil_splits {zs : List GroundTerm} (h : Reached s t w e b d) (hd : d + 1 ≤ e)
    (hb : ∀ v : Valuation, v.Solves b → v.term w = (list zs).term)
    (hfree : ∀ p q : GroundTerm, ∃ v : Valuation, v.Solves b ∧ v.term s = p.term ∧
      v.term t = q.term) :
    ∃ a, SplitsAt s t b zs 0 a ∧
      ∀ {pending more ending},
        Enumerates appendProgram pending [appendGoal s t w] b (d + 1) more ending →
        Enumerates appendProgram (.rule appendNil :: pending) [appendGoal s t w] b d
          (a :: more) ending := by
  obtain ⟨v, hv, hs, ht⟩ := hfree nil (list zs)
  obtain ⟨b', ha, hb', henum⟩ := h.nil_applies hd hv hs ht (hb v hv)
  refine ⟨(b', d + 1), ⟨ha, fun v hv => (hb' v hv).1, fun v hv => (hb' v hv).2.1, ?_⟩, henum⟩
  intro v hv
  obtain ⟨hv, -, htw⟩ := hb' v hv
  exact htw.trans (hb v hv)

/-- Where only the joined list is known, the search answers with all its splits, the one with
the shortest first list first. -/
theorem splits {zs : List GroundTerm} (h : Reached s t w e b d)
    (hd : d + 5 * (zs.length + 1) ≤ e)
    (hb : ∀ v : Valuation, v.Solves b → v.term w = (list zs).term)
    (hfree : ∀ p q : GroundTerm, ∃ v : Valuation, v.Solves b ∧ v.term s = p.term ∧
      v.term t = q.term) :
    ∃ answers, Enumerates appendProgram appendProgram [appendGoal s t w] b d answers
        (some (d + 5 * (zs.length + 1))) ∧
      List.Forall₂ (SplitsAt s t b zs) (List.range (zs.length + 1)) answers := by
  induction zs generalizing s t w b d with
  | nil =>
    obtain ⟨a, ha, henum⟩ := h.nil_splits (by omega) hb hfree
    obtain ⟨v, hv, hs, ht⟩ := hfree (cons nil nil) nil
    have hrest := (h.mono (Nat.le_add_right d 1)).cons_clashes_last (by omega) hv hs ht hb
    exact ⟨[a], henum hrest, .cons ha .nil⟩
  | cons z zs ih =>
    rw [List.length_cons] at hd ⊢
    obtain ⟨a, ha, henum⟩ := h.nil_splits (by omega) hb hfree
    obtain ⟨v, hv, hs, ht⟩ := hfree (cons z nil) nil
    have hnext := h.mono (Nat.le_add_right d 1)
    obtain ⟨s', t', w', b', h', htails, hcons⟩ :=
      hnext.cons_applies (by omega) hv hs ht (hb v hv)
    have tails (v : Valuation) (hv : v.Solves b') : v.Solves b ∧
        v.term s = .app "cons" [z.term, v.term s'] ∧ v.term t = v.term t' ∧
          v.term w' = (list zs).term := by
      obtain ⟨hv, x, hs, ht, hw⟩ := htails.sound v hv
      obtain ⟨rfl, hw'⟩ := GroundTerm.term_list_cons.1 (hw.symm.trans (hb v hv))
      exact ⟨hv, hs, ht, hw'⟩
    have hfree' (p q : GroundTerm) :
        ∃ v : Valuation, v.Solves b' ∧ v.term s' = p.term ∧ v.term t' = q.term := by
      obtain ⟨v, hv, hs, ht⟩ := hfree (cons z p) q
      obtain ⟨v', hv', hs', ht', -⟩ := htails.complete v _ _ _ _ hv hs ht (hb v hv)
      exact ⟨v', hv', hs', ht'⟩
    obtain ⟨answers, hbelow, hsplits⟩ :=
      ih h' (by omega) (fun v hv => (tails v hv).2.2.2) hfree'
    refine ⟨a :: answers, ?_, ?_⟩
    · have hall := henum (hcons hbelow)
      rwa [show d + 1 + 4 + 5 * (zs.length + 1) = d + 5 * (zs.length + 1 + 1) by omega] at hall
    · rw [List.range_succ_eq_map]
      refine .cons ha (List.forall₂_map_left_iff.2 (hsplits.imp fun i a ha => ?_))
      refine ⟨ha.acyclic, fun v hv => (tails v (ha.solves v hv)).1, fun v hv => ?_,
        fun v hv => ?_⟩
      · rw [(tails v (ha.solves v hv)).2.1, ha.front v hv]
        rfl
      · rw [(tails v (ha.solves v hv)).2.2.1, ha.back v hv]
        rfl

end Reached

/-! ## The answers -/

section
variable {s t w : Term} {b : Bindings} {xs ys zs : List GroundTerm}

theorem reached_start (hquery : Hosted [appendGoal s t w]) (d : Nat) :
    Reached s t w (d + 2 ^ 64) .empty d where
  apart := Frame.apart_start hquery.undrawn
  acyclic := Bindings.acyclic_of_lt fun _ _ h => by simp at h
  room := Nat.le_refl _

theorem materialize_eq_split {i : Nat} {a : Bindings × Nat}
    (h : HostAnswer (splitQuery zs) a.1)
    (ha : Reached.SplitsAt (.var (.ofName "X")) (.var (.ofName "Y")) b zs i a) :
    a.1.materialize = some (split (zs.take i) (zs.drop i)) := by
  refine h.materialize_of_ground (vars_splitQuery zs)
    (List.pairwise_pair.2 (show "X" ≠ "Y" by decide)) ?_
  have hfront := (list (zs.take i)).ground
  have hback := (list (zs.drop i)).ground
  exact List.forall_mem_cons.2 ⟨⟨hfront, deep_eq_of_solves h.acyclic hfront ha.front⟩,
    List.forall_mem_singleton.2 ⟨hback, deep_eq_of_solves h.acyclic hback ha.back⟩⟩

/-- The search for what two lists are joined gives one answer and ends. -/
theorem join_finishes (drawn : Nat) (hxs : 5 * (xs.length + 1) ≤ 2 ^ 64) :
    ∃ a, Database.Finishes ⟨appendProgram, drawn⟩ (joinQuery xs ys) [a]
        (drawn + 5 * (xs.length + 1)) ∧
      a.1.materialize = some (joined (xs ++ ys)) := by
  have hstart := reached_start (hosted_joinQuery xs ys) drawn
  have hfree : ∃ v : Valuation, v.Solves .empty ∧
      v.term (.var (.ofName "Z")) = (list (xs ++ ys)).term :=
    ⟨⟨fun _ => (list (xs ++ ys)).term, fun _ => GroundTerm.ground _⟩,
      Valuation.solves_empty _, Valuation.term_var _ _⟩
  obtain ⟨a, henum, ha⟩ := hstart.joins (by omega)
    (fun v _ => ⟨v.term_ground (list xs).ground, v.term_ground (list ys).ground⟩) hfree
  have hfinishes : Database.Finishes ⟨appendProgram, drawn⟩ (joinQuery xs ys) [a] _ :=
    finishes_iff.2 henum
  obtain ⟨e, last, hrun⟩ := hfinishes.run
  exact ⟨a, hfinishes, joined_of_run hrun List.mem_cons_self ha⟩

/-- The search for the splits of a list gives them in order and ends. -/
theorem split_finishes (drawn : Nat) (hzs : 5 * (zs.length + 1) ≤ 2 ^ 64) :
    ∃ answers, Database.Finishes ⟨appendProgram, drawn⟩ (splitQuery zs) answers
        (drawn + 5 * (zs.length + 1)) ∧
      (answers.map fun a => a.1.materialize) =
        (List.range (zs.length + 1)).map fun i => some (split (zs.take i) (zs.drop i)) := by
  have hquery := hosted_splitQuery zs
  have hstart := reached_start hquery drawn
  have hfree (p q : GroundTerm) : ∃ v : Valuation, v.Solves .empty ∧
      v.term (.var (.ofName "X")) = p.term ∧ v.term (.var (.ofName "Y")) = q.term :=
    ⟨appendValues p p q q, Valuation.solves_empty _, Valuation.term_var _ _,
      Valuation.term_var _ _⟩
  obtain ⟨answers, henum, hsplits⟩ :=
    hstart.splits (by omega) (fun v _ => v.term_ground (list zs).ground) hfree
  have hfinishes : Database.Finishes ⟨appendProgram, drawn⟩ (splitQuery zs) answers _ :=
    finishes_iff.2 henum
  obtain ⟨e, last, hrun⟩ := hfinishes.run
  refine ⟨answers, hfinishes, ?_⟩
  have hall := (List.forall₂_and_left _ _).2 ⟨fun a (ha : a ∈ answers) => ha, hsplits.flip⟩
  rw [← List.forall₂_eq_eq_eq, List.forall₂_map_left_iff, List.forall₂_map_right_iff]
  refine hall.imp fun a i hai => ?_
  obtain ⟨ha, hi⟩ := hai
  have hmem := List.mem_map_of_mem (f := Prod.fst) ha
  have hanswer := hostAnswer_of_run closed_appendProgram hquery hrun hmem hi.acyclic
  exact materialize_eq_split hanswer hi

end

/-- Whatever the lengths, an acyclic answer for two lists is what they are joined, and one for a
list is a split. No answer shows an internal variable. As long as no name comes twice, which none
does within 2^64 draws, two lists have one answer, and a list has one for each of its splits, the
one with the shortest first list first; then the searches end. They make five draws for every
element and five more. This leaves out no list that fits into memory: for `5 * (length + 1)` to
exceed 2^64 it must have more than 2^61 cells. -/
theorem append_exact (drawn : Nat) :
    let db : Database := ⟨appendProgram, drawn⟩
    Source.parseProgram appendText = .ok appendProgram ∧
    (∀ xs ys : List GroundTerm,
      (∀ {answers e last}, Run db.clauses db.drawn (db.query (joinQuery xs ys)) answers e last →
        ∀ b ∈ answers, b.Acyclic → b.materialize = some (joined (xs ++ ys))) ∧
      (5 * (xs.length + 1) ≤ 2 ^ 64 →
        ∃ a, db.Finishes (joinQuery xs ys) [a] (drawn + 5 * (xs.length + 1)) ∧
          a.1.materialize = some (joined (xs ++ ys)))) ∧
    (∀ zs : List GroundTerm,
      (∀ {answers e last}, Run db.clauses db.drawn (db.query (splitQuery zs)) answers e last →
        ∀ b ∈ answers, b.Acyclic → ∃ xs ys, xs ++ ys = zs ∧ b.materialize = some (split xs ys)) ∧
      (5 * (zs.length + 1) ≤ 2 ^ 64 →
        ∃ answers, db.Finishes (splitQuery zs) answers (drawn + 5 * (zs.length + 1)) ∧
          (answers.map fun a => a.1.materialize) =
            (List.range (zs.length + 1)).map fun i => some (split (zs.take i) (zs.drop i)))) ∧
    ∀ xs ys, (joined xs).Over (fun x => x.internal = false) ∧
      (split xs ys).Over fun x => x.internal = false := by
  intro db
  refine ⟨parseProgram_appendText, fun xs ys => ⟨?_, join_finishes drawn⟩,
    fun zs => ⟨?_, split_finishes drawn⟩, fun xs ys => ⟨over_joined xs, over_split xs ys⟩⟩
  · exact fun hrun b hb ha => joined_of_run hrun hb ha
  · exact fun hrun b hb ha => split_of_run hrun hb ha

theorem append_exact_digits :
    let one : GroundTerm := ⟨.num 1, Term.vars_num 1⟩
    let two : GroundTerm := ⟨.num 2, Term.vars_num 2⟩
    let db : Database := ⟨appendProgram, 0⟩
    (∃ a, db.Finishes (joinQuery [one] [two]) [a] 10 ∧
      a.1.materialize = some (joined [one, two])) ∧
    (∃ answers, db.Finishes (splitQuery [one, two]) answers 15 ∧
      (answers.map fun a => a.1.materialize) =
        [some (split [] [one, two]), some (split [one] [two]), some (split [one, two] [])]) ∧
    ∃ b last, Run db.clauses db.drawn (db.query (splitQuery [one, two])) [b] 1 last ∧
      b.Acyclic ∧ ∃ xs ys, xs ++ ys = [one, two] ∧ b.materialize = some (split xs ys) := by
  intro one two db
  obtain ⟨-, hjoin, hsplit, -⟩ := append_exact 0
  refine ⟨(hjoin [one] [two]).2 (by decide), (hsplit [one, two]).2 (by decide), ?_⟩
  let b := Bindings.ofList [(.ofName "X", nil.term), (.fresh 0, .var (.ofName "Y")),
    (.ofName "Y", (list [one, two]).term)]
  have hpull : pull db.clauses 9 db.drawn (db.query (splitQuery [one, two])) =
      some ⟨some b, 1, ⟨[⟨splitQuery [one, two], .empty, [.rule appendCons]⟩]⟩⟩ := by
    decide
  have hrun := Run.answer hpull .refl
  have ha : b.Acyclic := by
    apply Bindings.acyclic_ofList
    simp only [List.forall_mem_cons, Term.Within]
    decide
  exact ⟨b, _, hrun, ha, (hsplit [one, two]).1 hrun b List.mem_cons_self ha⟩

end HornSearch
