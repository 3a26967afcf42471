import HornSearch.Proofs.Idempotence

/-!
# What is shown is in solved form

Bindings are *solved* if no value mentions a variable that is bound. Then there is
nothing to follow from a value: the bindings are acyclic, and every value stands for
itself (`Solved.deep_value`).

Materialized bindings are solved: a value that was resolved at every depth has only
free variables, and these stay free (`Shows.solved`). Nothing in them is internal or
stands for a free internal variable either. So to materialize them again changes
nothing, not even a flag (`materialize_solved`).
-/

namespace HornSearch

namespace Bindings

/-- No value mentions a variable that is bound. -/
def Solved (b : Bindings) : Prop :=
  ∀ x t, b.get? x = some t → t.Within fun y => b.get? y = none

namespace Solved

variable {b : Bindings} (h : b.Solved)
include h

/-- What is mentioned mentions nothing. -/
theorem acyclic : b.Acyclic := by
  have hfree {x y : String} (hxy : Relation.TransGen b.Mentions x y) : b.get? y = none := by
    cases hxy with
    | single hm | tail _ hm =>
      obtain ⟨t, ht, z, hz, rfl⟩ := hm
      exact h _ t ht z hz
  intro x hx
  obtain ⟨_, ⟨t, ht, _⟩, _⟩ := Relation.TransGen.head'_iff.1 hx
  rw [hfree hx] at ht
  cases ht

theorem deep_value {x : String} {t : Term} (hx : b.get? x = some t) : b.deep t = t :=
  calc b.deep t = t.subst fun y => b.deep (.var y) := h.acyclic.deep_eq_subst t
    _ = t.subst .var := Term.subst_congr fun y hy => h.acyclic.deep_free (h x t hx y hy)
    _ = t := Term.subst_self t

end Solved

/-- `m` has the entries of `b` that are shown, with their values resolved. -/
def Shows (m b : Bindings) : Prop := ∀ x, m.binding? x = (b.binding? x).bind b.shown

variable {b m : Bindings}

theorem shown_eq_some_iff (ha : b.Acyclic) {e e' : Binding} :
    b.shown e = some e' ↔ e.internal = false ∧ isAnonymous (b.deep e.value) = false ∧
      e' = ⟨false, b.deep e.value⟩ := by
  rw [shown, ha.resolveDeep_eq, Option.bind_some]
  cases hinternal : e.internal <;> cases hfree : isAnonymous (b.deep e.value) <;> simp [eq_comm]

theorem Shows.binding?_iff (hm : m.Shows b) (ha : b.Acyclic) {x : String} {e' : Binding} :
    m.binding? x = some e' ↔ ∃ e, b.binding? x = some e ∧ e.internal = false ∧
      isAnonymous (b.deep e.value) = false ∧ e' = ⟨false, b.deep e.value⟩ := by
  simp only [hm x, Option.bind_eq_some_iff, shown_eq_some_iff ha]

/-- Variables that are free stay free. -/
theorem Shows.get?_eq_none (hm : m.Shows b) {x : String} (hx : b.get? x = none) :
    m.get? x = none := by
  have hunbound : b.binding? x = none := Option.map_eq_none_iff.1 hx
  simp [get?, hm x, hunbound]

theorem Shows.solved (hm : m.Shows b) (ha : b.Acyclic) : m.Solved := by
  intro x t hx y hy
  obtain ⟨e', he', rfl⟩ := get?_eq_some_iff.1 hx
  obtain ⟨e, _, _, _, rfl⟩ := (hm.binding?_iff ha).1 he'
  exact hm.get?_eq_none (ha.free_of_mem_deep hy)

/-- Every entry that is shown would be shown again as it is. -/
theorem Shows.shows_self (hm : m.Shows b) (ha : b.Acyclic) : m.Shows m := by
  have hsolved := hm.solved ha
  intro x
  cases hx : m.binding? x with
  | none => rfl
  | some e' =>
    have hvalue : m.deep e'.value = e'.value :=
      hsolved.deep_value (get?_eq_some_iff.2 ⟨e', hx, rfl⟩)
    obtain ⟨e, _, _, hfree, rfl⟩ := (hm.binding?_iff ha).1 hx
    rw [Option.bind_some, eq_comm, shown_eq_some_iff hsolved.acyclic, hvalue]
    exact ⟨rfl, hfree, rfl⟩

end Bindings

/-- Materialized bindings are solved. They are those of variables that are bound as the
host's, each with its value at every depth, but for values that are free internal
variables; and they are their own materialized form. -/
theorem materialize_solved {b : Bindings} (ha : b.Acyclic) :
    ∃ m, b.materialize = some m ∧ m.Solved ∧
      (∀ x e', m.binding? x = some e' ↔ e'.internal = false ∧
        Bindings.isAnonymous e'.value = false ∧
        ∃ e, b.binding? x = some e ∧ e.internal = false ∧
          b.resolveDeep e.value = some e'.value) ∧
      m.materialize = some m := by
  obtain ⟨m, hmat, hm⟩ := ha.materialize
  have hm : m.Shows b := hm
  obtain ⟨m', hmat', hm'⟩ := (hm.solved ha).acyclic.materialize
  have hsame : m' = m := Bindings.ext_binding? fun x => (hm' x).trans (hm.shows_self ha x).symm
  refine ⟨m, hmat, hm.solved ha, fun x e' => ?_, hsame ▸ hmat'⟩
  rw [hm.binding?_iff ha]
  constructor
  · rintro ⟨e, he, hhost, hfree, rfl⟩
    exact ⟨rfl, hfree, e, he, hhost, ha.resolveDeep_eq _⟩
  · rintro ⟨hhost', hfree, e, he, hhost, hvalue⟩
    obtain ⟨internal', t⟩ := e'
    rw [ha.resolveDeep_eq, Option.some.injEq] at hvalue
    exact ⟨e, he, hhost, hvalue ▸ hfree, by simp_all⟩

/-- `Y` is bound as an internal variable but occurs as the host's, and `V` occurs as
both. What `W` and `X` stand for is internal and free. -/
theorem materialize_solved_flags :
    let v := Term.var (.ofName "V")
    let v' := Term.var ⟨"V", true⟩
    let b := Bindings.ofList [(⟨"Y", true⟩, .app "f" [v]),
      (.ofName "Z", .app "g" [.var (.ofName "Y"), v']), (.ofName "W", v'),
      (.ofName "X", .var (.ofName "W"))]
    b.materialize = some (.ofList [(.ofName "Z", .app "g" [.app "f" [v], v'])]) ∧ b.Acyclic ∧
    ∃ m, b.materialize = some m ∧ m.Solved ∧
      (∀ x e', m.binding? x = some e' ↔ e'.internal = false ∧
        Bindings.isAnonymous e'.value = false ∧
        ∃ e, b.binding? x = some e ∧ e.internal = false ∧
          b.resolveDeep e.value = some e'.value) ∧
      m.materialize = some m := by
  intro v v' b
  have hacyclic : b.Acyclic := by
    apply Bindings.acyclic_ofList
    simp only [List.forall_mem_cons, Term.Within]
    decide
  exact ⟨by decide, hacyclic, materialize_solved hacyclic⟩

end HornSearch
