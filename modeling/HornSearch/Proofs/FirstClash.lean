import HornSearch.Proofs.Extension

/-!
# The clash that is reported

Unification that fails reports two terms, which are no variables and differ at their
roots. They stand at one position of the two sides, the left one in the left side
and the right one in the right side, and all pairs of arguments before that
position unify. So the clash is the first one, from left to right, and every first
clash is reported (`unify_error_iff`).

Each pair before the position is unified in the bindings that the pairs before it
left (`Earlier`). Variables bound on the way are followed. Where they lead to a
compound, more bindings do not change that (`Extends.resolve_rigid`), so the
bindings at the end are enough to find the position (`Earlier.part?_inner`).
-/

namespace HornSearch

/-- The term at a position, which lists the arguments to go to from the root on.
Variables are followed on the way and at the end. -/
def Bindings.part? (b : Bindings) : (position : List Nat) → Term → Option Term
  | [], t => b.resolve t
  | i :: position, t => do
    match ← b.resolve t with
    | .app _ ts => b.part? position (← ts[i]?)
    | _ => none

/-- Unifying all pairs of arguments before a position of two terms turns `b` into
the last bindings: first those on the left of the way to the position at the
root, then those further down. -/
inductive Earlier : Bindings → Term → Term → (position : List Nat) → Bindings → Prop where
  | root {b : Bindings} {s t : Term} : Earlier b s t [] b
  | inner {n i : Nat} {b c e : Bindings} {s t s' t' : Term} {f : String} {ss ts : List Term}
      {p : List Nat} (hs : b.resolve s = some (.app f ss)) (ht : b.resolve t = some (.app f ts))
      (hlen : ss.length = ts.length) (hi : ss[i]? = some s') (hi' : ts[i]? = some t')
      (hleft : unifyPairs (unify n) b (ss.take i) (ts.take i) = some (.ok c))
      (h : Earlier c s' t' p e) : Earlier b s t (i :: p) e

/-- Pairs clash where one of them does after those before it unify. -/
theorem unifyPairs_error_iff {u : Bindings → Term → Term → Option (Except Clash Bindings)}
    {b : Bindings} {ss ts : List Term} {k : Clash} :
    unifyPairs u b ss ts = some (.error k) ↔
      ∃ i s t c, ss[i]? = some s ∧ ts[i]? = some t ∧
        unifyPairs u b (ss.take i) (ts.take i) = some (.ok c) ∧ u c s t = some (.error k) := by
  induction ss generalizing b ts with
  | nil => simp [unifyPairs]
  | cons s ss ih =>
    cases ts with
    | nil => simp [unifyPairs]
    | cons t ts =>
      constructor
      · intro h
        simp only [unifyPairs] at h
        split at h
        · rename_i b' hst
          obtain ⟨i, s', t', c, hi, hi', hleft, hclash⟩ := ih.1 h
          exact ⟨i + 1, s', t', c, hi, hi', by simpa [unifyPairs, hst] using hleft, hclash⟩
        · exact ⟨0, s, t, b, rfl, rfl, rfl, h⟩
      · rintro ⟨i, s', t', c, hi, hi', hleft, hclash⟩
        cases i with
        | zero =>
          cases hi
          cases hi'
          cases hleft
          simp only [unifyPairs, hclash]
        | succ i =>
          simp only [List.take_succ_cons, unifyPairs] at hleft
          split at hleft
          · rename_i b' hst
            simp only [unifyPairs, hst]
            exact ih.2 ⟨i, s', t', c, hi, hi', hleft, hclash⟩
          · rename_i hne
            exact absurd hleft (hne c)

theorem Bindings.part?_cons {b : Bindings} {i : Nat} {p : List Nat} {s s' : Term} {f : String}
    {ss : List Term} (hs : b.resolve s = some (.app f ss)) (hi : ss[i]? = some s') :
    b.part? (i :: p) s = b.part? p s' := by
  simp [part?, hs, hi]

section
variable {b e : Bindings} {s t l r : Term} {p : List Nat}

theorem Earlier.extends (h : Earlier b s t p e) (ho : b.Oriented) :
    e.Oriented ∧ e.Extends b := by
  induction h with
  | root => exact ⟨ho, .refl _⟩
  | @inner n i b c e s t s' t' f ss ts p _ _ hlen _ _ hleft _ ih =>
    have htake : (ss.take i).length = (ts.take i).length := by simp [hlen]
    have hext : c.Extends b := extendsRules.pairs ho htake hleft
    obtain ⟨he, hext'⟩ := ih (unifyPairs_oriented ho htake hleft)
    exact ⟨he, hext'.trans hext⟩

/-- The bindings at the end lead down to the arguments that the way goes to. -/
theorem Earlier.part?_inner {i : Nat} {f : String} {ss ts : List Term} {s' t' : Term}
    (h : Earlier b s t (i :: p) e) (ho : b.Oriented) (hs : b.resolve s = some (.app f ss))
    (ht : b.resolve t = some (.app f ts)) (hi : ss[i]? = some s') (hi' : ts[i]? = some t') :
    e.part? (i :: p) s = e.part? p s' ∧ e.part? (i :: p) t = e.part? p t' := by
  obtain ⟨he, hext⟩ := h.extends ho
  have happ (us : List Term) : (Term.app f us).Rigid := by simp [Term.Rigid]
  exact ⟨Bindings.part?_cons (hext.resolve_rigid ho he hs (happ ss)) hi,
    Bindings.part?_cons (hext.resolve_rigid ho he ht (happ ts)) hi'⟩

theorem earlier_of_unify {n : Nat} (ho : b.Oriented)
    (h : unify n b s t = some (.error ⟨l, r⟩)) :
    l.Clashes r ∧ ∃ p e, Earlier b s t p e ∧ e.part? p s = some l ∧ e.part? p t = some r := by
  induction n generalizing b s t with
  | zero => cases h
  | succ n ih =>
    obtain ⟨s', t', hs, ht, hstep⟩ := rootStep_of_unify ho h
    generalize hk : (some (.error ⟨l, r⟩) : Option (Except Clash Bindings)) = o at hstep
    cases hstep with
    | same _ => cases hk
    | left _ => cases hk
    | right _ => cases hk
    | constant _ => cases hk
    | clash hc =>
      cases hk
      exact ⟨hc, [], b, .root, hs, ht⟩
    | @args f ss ts hlen =>
      obtain ⟨i, s', t', c, hi, hi', hleft, hclash⟩ := unifyPairs_error_iff.1 hk.symm
      have hco : c.Oriented := unifyPairs_oriented ho (by simp [hlen]) hleft
      obtain ⟨hc, p, e, hearlier, hl, hr⟩ := ih hco hclash
      have hinner := hearlier.inner hs ht hlen hi hi' hleft
      obtain ⟨hs', ht'⟩ := hinner.part?_inner ho hs ht hi hi'
      exact ⟨hc, i :: p, e, hinner, hs'.trans hl, ht'.trans hr⟩

theorem unify_of_earlier (h : Earlier b s t p e) (ho : b.Oriented) (hc : l.Clashes r)
    (hl : e.part? p s = some l) (hr : e.part? p t = some r) :
    ∃ n, unify n b s t = some (.error ⟨l, r⟩) := by
  induction h with
  | @root b s t =>
    have hs : b.resolve s = some l := hl
    have ht : b.resolve t = some r := hr
    exact ⟨1, by simpa [unify, hs, ht] using unifyRoots_of_clashes hc⟩
  | @inner n i b c e s t s' t' f ss ts p hs ht hlen hi hi' hleft h ih =>
    obtain ⟨hs', ht'⟩ := (h.inner hs ht hlen hi hi' hleft).part?_inner ho hs ht hi hi'
    have hco : c.Oriented := unifyPairs_oriented ho (by simp [hlen]) hleft
    obtain ⟨m, hm⟩ := ih hco (hs'.symm.trans hl) (ht'.symm.trans hr)
    have hpairs : unifyPairs (unify (max n m)) b ss ts = some (.error ⟨l, r⟩) :=
      unifyPairs_error_iff.2 ⟨i, s', t', c, hi, hi',
        unifyPairs_mono (fun _ _ _ _ => unify_mono (le_max_left n m)) hleft,
        unify_mono (le_max_right n m) hm⟩
    exact ⟨max n m + 1, (unify_args hs ht hlen).trans hpairs⟩

end

theorem Term.Clashes.rigid {s t : Term} (h : s.Clashes t) : s.Rigid ∧ t.Rigid := by
  constructor
  · rintro x rfl
    exact h
  · rintro x rfl
    cases s <;> exact h

/-- On oriented bindings, unification reports two terms exactly if they clash at
their roots and stand at one position of the two sides, as seen through the
bindings that unifying all pairs of arguments before it leaves. -/
theorem unify_error_iff {b : Bindings} (ho : b.Oriented) (s t left right : Term) :
    (∃ n, unify n b s t = some (.error ⟨left, right⟩)) ↔
      (left.Rigid ∧ right.Rigid ∧ left.Clashes right) ∧
      ∃ position e, Earlier b s t position e ∧
        e.part? position s = some left ∧ e.part? position t = some right := by
  constructor
  · rintro ⟨n, h⟩
    obtain ⟨hc, hposition⟩ := earlier_of_unify ho h
    exact ⟨⟨hc.rigid.1, hc.rigid.2, hc⟩, hposition⟩
  · rintro ⟨⟨_, _, hc⟩, position, e, h, hl, hr⟩
    exact unify_of_earlier h ho hc hl hr

/-- With `Y` linked to `X`, the first arguments of `p(1, q(3, 2))` and `p(Y, q(X, Z))`
make `X` equal to `1`, so the sides clash in `3` and `1` within the second ones. -/
theorem unify_error_iff_bound :
    let b := Bindings.ofList [(.ofName "Y", .var (.ofName "X"))]
    let s := Term.app "p" [.num 1, .app "q" [.num 3, .num 2]]
    let t := Term.app "p" [.var (.ofName "Y"),
      .app "q" [.var (.ofName "X"), .var (.ofName "Z")]]
    b.Oriented ∧ unify 3 b s t = some (.error ⟨.num 3, .num 1⟩) ∧
    ((Term.num 3).Rigid ∧ (Term.num 1).Rigid ∧ (Term.num 3).Clashes (.num 1)) ∧
    ∃ position e, Earlier b s t position e ∧
      e.part? position s = some (.num 3) ∧ e.part? position t = some (.num 1) := by
  intro b s t
  have ho : b.Oriented := by
    apply Bindings.oriented_ofList
    rw [List.forall_mem_singleton]
    rintro _ ⟨⟩
    decide
  have herror : unify 3 b s t = some (.error ⟨.num 3, .num 1⟩) := by decide
  exact ⟨ho, herror, (unify_error_iff ho s t _ _).1 ⟨3, herror⟩⟩

end HornSearch
