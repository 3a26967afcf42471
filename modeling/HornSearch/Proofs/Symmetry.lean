import HornSearch.Proofs.AliasClasses

/-!
# The two sides of an equation

It makes no difference to unification which of its terms stands on the left. Both
orders take equally long, so one comes to an end exactly if the other does, and
then they give the same bindings, or the same clash with its sides exchanged
(`unify_symmetric`).

* A link looks at names only (`link_comm`).
* Binding a variable reports its conflict with the variable's value on the left,
  wherever the variable stood. This would tell the sides apart, but in oriented
  bindings no resolved variable has a value (`rootStep_bind`).
* Arguments are unified in bindings that are the same for both orders, which is
  the induction (`unify_swap`).
-/

namespace HornSearch

/-- The clash of the same terms, seen from the other side. -/
def Clash.swap (k : Clash) : Clash := ⟨k.right, k.left⟩

/-- The result for both sides exchanged. -/
def swapped (o : Option (Except Clash Bindings)) : Option (Except Clash Bindings) :=
  o.map (Except.mapError Clash.swap)

@[simp] theorem swapped_none : swapped none = none := rfl

@[simp] theorem swapped_ok (b : Bindings) : swapped (some (.ok b)) = some (.ok b) := rfl

@[simp] theorem swapped_error (s t : Term) :
    swapped (some (.error ⟨s, t⟩)) = some (.error ⟨t, s⟩) := rfl

theorem Compound.SameSignature.comm {c d : Compound} : c.SameSignature d ↔ d.SameSignature c :=
  and_congr eq_comm eq_comm

theorem link_comm (b : Bindings) (x y : Var) : b.link x y = b.link y x := by
  rcases lt_trichotomy x.name y.name with hlt | heq | hgt
  · rw [link_of_lt hlt, link_of_gt hlt]
  · rw [link_of_eq heq, link_of_eq heq.symm]
  · rw [link_of_gt hgt, link_of_lt hgt]

section
variable {n : Nat} {b : Bindings}

/-- Exchanging the sides of a call exchanges those of its result. -/
def Swaps (n : Nat) : Prop :=
  ∀ {b : Bindings} {s t : Term}, b.Oriented → unify n b t s = swapped (unify n b s t)

theorem unifyPairs_swap (hcall : Swaps n) (ho : b.Oriented) (ss ts : List Term) :
    unifyPairs (unify n) b ts ss = swapped (unifyPairs (unify n) b ss ts) := by
  induction ss generalizing b ts with
  | nil => cases ts <;> rfl
  | cons s ss ih =>
    cases ts with
    | nil => rfl
    | cons t ts =>
      simp only [unifyPairs, hcall ho (s := s) (t := t)]
      cases hst : unify n b s t with
      | none => rfl
      | some r =>
        cases r with
        | ok b' => exact ih (unify_oriented ho hst) ts
        | error k => rfl

theorem unifyArgs_swap (hcall : Swaps n) (ho : b.Oriented) (c d : Compound) :
    unifyArgs (unify n) b d c = swapped (unifyArgs (unify n) b c d) := by
  unfold unifyArgs
  by_cases hsig : c.SameSignature d
  · rw [if_pos hsig, if_pos (Compound.SameSignature.comm.1 hsig)]
    exact unifyPairs_swap hcall ho c.args d.args
  · rw [if_neg hsig, if_neg fun h => hsig (Compound.SameSignature.comm.1 h)]
    rfl

theorem unifyRoots_swap_rigid (hcall : Swaps n) (ho : b.Oriented) {s t : Term} (hs : s.Rigid)
    (ht : t.Rigid) : unifyRoots (unify n) b t s = swapped (unifyRoots (unify n) b s t) := by
  cases s with
  | var x => exact absurd rfl (hs x)
  | num k =>
    cases t with
    | var y => exact absurd rfl (ht y)
    | num m =>
      by_cases h : k = m
      · simp [unifyRoots, h]
      · simp [unifyRoots, h, Ne.symm h]
    | _ => rfl
  | atom a =>
    cases t with
    | var y => exact absurd rfl (ht y)
    | atom c =>
      by_cases h : a = c
      · simp [unifyRoots, h]
      · simp [unifyRoots, h, Ne.symm h]
    | _ => rfl
  | app f ss =>
    cases t with
    | var y => exact absurd rfl (ht y)
    | app g ts => exact unifyArgs_swap hcall ho ⟨f, ss⟩ ⟨g, ts⟩
    | _ => rfl

/-- Against a term that is no variable, a free variable is bound from either side. -/
theorem bind_swap (ho : b.Oriented) {x : Var} {t : Term} (hx : b.follow? (.var x) = none)
    (ht : t.Rigid) : some (b.bind x t) = swapped (some (b.bind x t)) := by
  rw [(rootStep_bind ho hx ht).1, swapped_ok]

theorem unifyRoots_swap (hcall : Swaps n) (ho : b.Oriented) {s t : Term}
    (hs : b.follow? s = none) (ht : b.follow? t = none) :
    unifyRoots (unify n) b t s = swapped (unifyRoots (unify n) b s t) := by
  rcases s.rigid_or_var with hsr | ⟨x, rfl⟩
  · rcases t.rigid_or_var with htr | ⟨y, rfl⟩
    · exact unifyRoots_swap_rigid hcall ho hsr htr
    · rw [unifyRoots_left hsr, unifyRoots_right hsr]
      exact bind_swap ho ht hsr
  · rcases t.rigid_or_var with htr | ⟨y, rfl⟩
    · rw [unifyRoots_left htr, unifyRoots_right htr]
      exact bind_swap ho hs htr
    · simp only [unifyRoots, link_comm b y x, swapped_ok]

/-- Exchanging the sides changes the result only in that those of a clash are
exchanged. -/
theorem unify_swap (n : Nat) : Swaps n := by
  induction n with
  | zero => exact fun _ => rfl
  | succ n ih =>
    intro b s t ho
    obtain ⟨s', hs⟩ := Bindings.resolve_total ho s
    obtain ⟨t', ht⟩ := Bindings.resolve_total ho t
    simpa [unify, hs, ht] using
      unifyRoots_swap ih ho (Bindings.resolve_free hs) (Bindings.resolve_free ht)

theorem unifyCompound_swap (ho : b.Oriented) (n : Nat) (c d : Compound) :
    unifyCompound n b d c = swapped (unifyCompound n b c d) :=
  unifyArgs_swap (unify_swap n) ho c d

end

/-! ## Symmetry -/

/-- Two calls return alike: both or neither of them, with the very same bindings,
or with one clash that names its terms the other way round. -/
structure Mirrored (o o' : Option (Except Clash Bindings)) : Prop where
  returns : (∃ r, o = some r) ↔ ∃ r, o' = some r
  ok : ∀ b, o = some (.ok b) ↔ o' = some (.ok b)
  error : ∀ s t, o = some (.error ⟨s, t⟩) ↔ o' = some (.error ⟨t, s⟩)

theorem mirrored_swapped (o : Option (Except Clash Bindings)) : Mirrored o (swapped o) := by
  cases o with
  | none => constructor <;> simp
  | some r =>
    cases r with
    | ok b => constructor <;> simp
    | error k =>
      obtain ⟨s, t⟩ := k
      constructor <;> simp [and_comm]

/-- On oriented bindings unification is symmetric, with any bound on its work, for
terms as for compounds. -/
theorem unify_symmetric {b : Bindings} (ho : b.Oriented) :
    (∀ (n : Nat) (s t : Term), Mirrored (unify n b s t) (unify n b t s)) ∧
    ∀ (n : Nat) (c d : Compound), Mirrored (unifyCompound n b c d) (unifyCompound n b d c) := by
  constructor
  · intro n s t
    rw [unify_swap n ho (s := s) (t := t)]
    exact mirrored_swapped _
  · intro n c d
    rw [unifyCompound_swap ho n c d]
    exact mirrored_swapped _

/-- With `Y` linked to `X`, both orders of `p(Y, f(Z))` and `p(W, f(X))` make the same
links, and those of `p(Y, X)` and `p(1, 2)` clash in `1` and `2`, each on its side. -/
theorem unify_symmetric_links :
    let x : Term := .var (.ofName "X")
    let y : Term := .var (.ofName "Y")
    let z : Term := .var (.ofName "Z")
    let w : Term := .var (.ofName "W")
    let b := Bindings.ofList [(.ofName "Y", x)]
    let c := (b.put (.ofName "X") w).put (.ofName "Z") w
    b.Oriented ∧
    (unify 3 b (.app "p" [y, .app "f" [z]]) (.app "p" [w, .app "f" [x]]) = some (.ok c) ∧
      unify 3 b (.app "p" [w, .app "f" [x]]) (.app "p" [y, .app "f" [z]]) = some (.ok c)) ∧
    unifyCompound 2 b ⟨"p", [y, x]⟩ ⟨"p", [.num 1, .num 2]⟩ = some (.error ⟨.num 1, .num 2⟩) ∧
      unifyCompound 2 b ⟨"p", [.num 1, .num 2]⟩ ⟨"p", [y, x]⟩ =
        some (.error ⟨.num 2, .num 1⟩) := by
  intro x y z w b c
  have ho : b.Oriented := by
    apply Bindings.oriented_ofList
    rw [List.forall_mem_singleton]
    rintro _ ⟨⟩
    decide
  have hok : unify 3 b (.app "p" [y, .app "f" [z]]) (.app "p" [w, .app "f" [x]]) =
      some (.ok c) := by decide
  have herror : unifyCompound 2 b ⟨"p", [y, x]⟩ ⟨"p", [.num 1, .num 2]⟩ =
      some (.error ⟨.num 1, .num 2⟩) := by decide
  exact ⟨ho, ⟨hok, (((unify_symmetric ho).1 _ _ _).ok c).1 hok⟩,
    herror, (((unify_symmetric ho).2 _ _ _).error _ _).1 herror⟩

end HornSearch
