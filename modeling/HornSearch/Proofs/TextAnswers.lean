import HornSearch.Proofs.Completeness
import HornSearch.Proofs.DeepResolution
import HornSearch.Proofs.Reading

/-!
# Answers to text queries

An answer binds variables of the query, which are the host's, and variables
that were drawn. Materialization shows the former only. For a query that was
read from a text this loses nothing and adds nothing (`materialize_exact`): the
shown bindings say about the variables of the query what all bindings say.

Two things make it true. A drawn variable is only needed for what it stands for,
and its value at every depth is put in its place. And a host variable is never
left out: it would have to be bound to a free drawn one, but names in a text
begin with capital letters, which are smaller than an underscore, and free
variables are bound to those of smaller names.
-/

namespace HornSearch

open Source (Capital)

theorem capital_lt_reserved {x y : Var} (hx : Capital x) (hy : Reserved y.name) :
    x.name < y.name := by
  obtain ⟨_, c, cs, hupper, hname⟩ := hx
  obtain ⟨rest, hrest⟩ := hy
  have hG : "_G".toList = ['_', 'G'] := rfl
  have hc : c < '_' := by
    obtain ⟨_, hle⟩ : 'A' ≤ c ∧ c ≤ 'Z' := of_decide_eq_true hupper
    exact lt_of_le_of_lt hle (by decide)
  rw [hname, hrest, String.lt_iff_toList_lt, String.toList_append, String.toList_ofList, hG]
  exact List.cons_lt_cons_iff.2 (.inl hc)

/-- A variable of the query, or one that was drawn. -/
def Known (query : List Compound) (x : Var) : Prop :=
  (∃ g ∈ query, x ∈ g.vars) ∨ ∃ k, x = .fresh k

/-- The bindings of an answer have no variables but those of the query and draws. -/
theorem known_of_run {db : Database} {query : List Compound} {e : Nat} {last : Cursor}
    {answers : List Bindings} (hfacts : ∀ c ∈ db.clauses, c.Closed)
    (hrun : Run db.clauses db.drawn (db.query query) answers e last) {b : Bindings}
    (hb : b ∈ answers) : b.Oriented ∧ b.Over (Known query) := by
  have hstart : ∀ f ∈ (db.query query).stack, f.Over db.clauses (Known query) := by
    intro f hf
    cases List.mem_singleton.1 hf
    exact Frame.over_start fun g hg x hx => .inl ⟨g, hg, hx⟩
  obtain ⟨pending, hf⟩ := run_keeps
    (over_move hfacts (fun _ h => h) fun k _ _ => .inr ⟨k, rfl⟩) hrun hstart b hb
  exact ⟨hf.oriented, hf.bindings⟩

/-- What is bound is a variable of the query or one that was drawn, with its flag. -/
theorem bound_of_known {query : List Compound} {b : Bindings} (hknown : b.Over (Known query))
    (hhost : ∀ g ∈ query, ∀ x ∈ g.vars, x.internal = false) {x : String} {e : Binding}
    (he : b.binding? x = some e) :
    ((∃ g ∈ query, ⟨x, false⟩ ∈ g.vars) ∧ e.internal = false) ∨
      (Reserved x ∧ e.internal = true) := by
  obtain ⟨g, hg, hx⟩ | ⟨k, hk⟩ := hknown.key he
  · have hinternal : e.internal = false := hhost g hg _ hx
    exact .inl ⟨⟨g, hg, hinternal ▸ hx⟩, hinternal⟩
  · have hname : x = (Var.fresh k).name := congrArg Var.name hk
    have hdrawn : e.internal = true := congrArg Var.internal hk
    exact .inr ⟨hname ▸ reserved_fresh k, hdrawn⟩

/-- Acyclic bindings as a search builds them for a query that was read from a
text. -/
structure TextAnswer (query : List Compound) (b : Bindings) : Prop where
  capital : ∀ g ∈ query, ∀ x ∈ g.vars, Capital x
  oriented : b.Oriented
  acyclic : b.Acyclic
  known : b.Over (Known query)

theorem textAnswer_of_run {db : Database} {text : String} {query : List Compound} {e : Nat}
    {last : Cursor} {answers : List Bindings} (hfacts : ∀ c ∈ db.clauses, c.Closed)
    (hparse : Source.parseQuery text = .ok query)
    (hrun : Run db.clauses db.drawn (db.query query) answers e last) {b : Bindings}
    (hb : b ∈ answers) (ha : b.Acyclic) : TextAnswer query b := by
  obtain ⟨horiented, hknown⟩ := known_of_run hfacts hrun hb
  exact ⟨Source.capital_of_parseQuery hparse, horiented, ha, hknown⟩

namespace TextAnswer

variable {query : List Compound} {b : Bindings} (h : TextAnswer query b)
include h

theorem bound {x : String} {e : Binding} (he : b.binding? x = some e) :
    ((∃ g ∈ query, ⟨x, false⟩ ∈ g.vars) ∧ e.internal = false) ∨
      (Reserved x ∧ e.internal = true) :=
  bound_of_known h.known (fun g hg x hx => (h.capital g hg x hx).1) he

/-- No variable of the query stands for a free drawn one. -/
theorem shown_eq {x : Var} (hx : Capital x) {t : Term}
    (hbound : b.binding? x.name = some ⟨false, t⟩) :
    b.shown ⟨false, t⟩ = some ⟨false, b.deep t⟩ := by
  have ha := h.acyclic
  have hget : b.get? x.name = some t := Bindings.get?_eq_some_iff.2 ⟨_, hbound, rfl⟩
  have hfree : Bindings.isAnonymous (b.deep t) = false := by
    generalize hu : b.deep t = u
    cases u with
    | var y =>
      have hy : Known query y := ha.over_deep h.known (h.known.value hget) y (by simp [hu])
      obtain ⟨g, hg, hy⟩ | ⟨k, rfl⟩ := hy
      · exact (h.capital g hg y hy).1
      · have hle := ha.deep_var_le h.oriented ((ha.deep_bound hget).trans hu)
        exact absurd hle (not_le_of_gt (capital_lt_reserved hx (reserved_fresh k)))
    | _ => rfl
  simp [Bindings.shown, ha.resolveDeep_eq, hfree]

/-- What is shown are the variables of the query that are bound, and what they
stand for. -/
theorem get?_materialize {m : Bindings}
    (hm : ∀ name, m.binding? name = (b.binding? name).bind b.shown) {x : String} {u : Term} :
    m.get? x = some u ↔ (∃ g ∈ query, ∃ y ∈ g.vars, y.name = x) ∧
      ∃ t, b.get? x = some t ∧ b.deep t = u := by
  constructor
  · intro hu
    obtain ⟨e', he', rfl⟩ := Bindings.get?_eq_some_iff.1 hu
    rw [hm, Option.bind_eq_some_iff] at he'
    obtain ⟨⟨internal, t⟩, he, hshown⟩ := he'
    obtain ⟨⟨g, hg, hx⟩, rfl⟩ | ⟨_, rfl⟩ := h.bound he
    · rw [h.shown_eq (h.capital g hg _ hx) he] at hshown
      cases hshown
      exact ⟨⟨g, hg, _, hx, rfl⟩, t, Bindings.get?_eq_some_iff.2 ⟨_, he, rfl⟩, rfl⟩
    · cases hshown
  · rintro ⟨⟨g, hg, y, hy, rfl⟩, t, ht, rfl⟩
    have hcapital := h.capital g hg y hy
    obtain ⟨⟨internal, t⟩, he, rfl⟩ := Bindings.get?_eq_some_iff.1 ht
    obtain ⟨_, rfl⟩ | ⟨hreserved, _⟩ := h.bound he
    · refine Bindings.get?_eq_some_iff.2 ⟨⟨false, b.deep t⟩, ?_, rfl⟩
      rw [hm, he, Option.bind_some, h.shown_eq hcapital he]
    · exact absurd (capital_lt_reserved hcapital hreserved) (lt_irrefl _)

/-- A solution of all bindings solves those that are shown. -/
theorem solves_materialize {m : Bindings}
    (hm : ∀ name, m.binding? name = (b.binding? name).bind b.shown) {v : Valuation}
    (hv : v.Solves b) : v.Solves m := by
  intro x u hu
  obtain ⟨_, t, ht, rfl⟩ := (h.get?_materialize hm).1 hu
  rw [hv x t ht, hv.term_deep h.acyclic]

/-- A solution of the shown bindings gives one of all bindings that agrees with
it on the query: each drawn variable is given what it stands for. -/
theorem agreesOn_through {m : Bindings}
    (hm : ∀ name, m.binding? name = (b.binding? name).bind b.shown) {v : Valuation}
    (hv : v.Solves m) : (v.through b).AgreesOn query v := by
  intro g hg x hx
  rw [v.value_through h.acyclic]
  cases ht : b.get? x.name with
  | none => rw [h.acyclic.deep_free ht, Valuation.term_var]
  | some t =>
    rw [h.acyclic.deep_bound ht]
    exact (hv _ _ ((h.get?_materialize hm).2 ⟨⟨g, hg, x, hx, rfl⟩, t, ht, rfl⟩)).symm

end TextAnswer

/-- The materialized form of an answer to a text query binds the variables of the
query that the answer binds, and an assignment of the query's variables extends
to a solution of the one exactly if it extends to a solution of the other. This
holds however many variables are drawn. -/
theorem materialize_exact {db : Database} {text : String} {query : List Compound} {e : Nat}
    {last : Cursor} {answers : List Bindings} (hfacts : ∀ c ∈ db.clauses, c.Closed)
    (hparse : Source.parseQuery text = .ok query)
    (hrun : Run db.clauses db.drawn (db.query query) answers e last) {b : Bindings}
    (hb : b ∈ answers) (ha : b.Acyclic) :
    ∃ m, b.materialize = some m ∧
      (∀ x, m.get? x ≠ none ↔
        (∃ g ∈ query, ∃ y ∈ g.vars, y.name = x) ∧ b.get? x ≠ none) ∧
      ∀ a : Valuation, (∃ v : Valuation, v.AgreesOn query a ∧ v.Solves b) ↔
        ∃ v : Valuation, v.AgreesOn query a ∧ v.Solves m := by
  have h := textAnswer_of_run hfacts hparse hrun hb ha
  obtain ⟨m, hmat, hm⟩ := ha.materialize
  refine ⟨m, hmat, fun x => ?_, fun a => ⟨?_, ?_⟩⟩
  · simp only [Option.ne_none_iff_exists', h.get?_materialize hm]
    exact ⟨fun ⟨_, hx, t, ht, _⟩ => ⟨hx, t, ht⟩, fun ⟨hx, t, ht⟩ => ⟨_, hx, t, ht, rfl⟩⟩
  · rintro ⟨v, hva, hv⟩
    exact ⟨v, hva, h.solves_materialize hm hv⟩
  · rintro ⟨v, hva, hv⟩
    refine ⟨v.through b, fun g hg x hx => ?_, v.solves_through ha⟩
    exact (h.agreesOn_through hm hv g hg x hx).trans (hva g hg x hx)

theorem materialize_exact_birds : ∃ (query : List Compound) (b m : Bindings) (last : Cursor),
    Source.parseQuery "flies(Who)." = .ok query ∧
    Run birds.clauses birds.drawn (birds.query query) [b] 1 last ∧ b.Acyclic ∧
    b.materialize = some m ∧
    (∀ x, m.get? x ≠ none ↔ (∃ g ∈ query, ∃ y ∈ g.vars, y.name = x) ∧ b.get? x ≠ none) ∧
    ∀ a : Valuation, (∃ v : Valuation, v.AgreesOn query a ∧ v.Solves b) ↔
      ∃ v : Valuation, v.AgreesOn query a ∧ v.Solves m := by
  let b := Bindings.ofList [(.fresh 0, .var (.ofName "Who")), (.ofName "Who", .atom "tweety")]
  let last : Cursor := ⟨[⟨[⟨"bird", [.var (.fresh 0)]⟩],
    .ofList [(.fresh 0, .var (.ofName "Who"))], birds.clauses.tail⟩]⟩
  have hparse : Source.parseQuery "flies(Who)." = .ok whoFlies := rfl
  have hpull : pull birds.clauses 9 birds.drawn (birds.query whoFlies) =
      some ⟨some b, 1, last⟩ := by decide
  have hrun := Run.answer hpull .refl
  have hwho : (Term.var (.ofName "Who")).Within (· < (Var.fresh 0).name) :=
    Term.within_var.2 (by decide)
  have htweety : (Term.atom "tweety").Within (· < "Who") := by simp [Term.Within]
  have hacyclic : b.Acyclic :=
    Bindings.acyclic_ofList (List.forall_mem_cons.2 ⟨hwho, List.forall_mem_singleton.2 htweety⟩)
  obtain ⟨m, hm, hbound, hexact⟩ :=
    materialize_exact closed_birds hparse hrun List.mem_cons_self hacyclic
  exact ⟨whoFlies, b, m, last, hparse, hrun, hacyclic, hm, hbound, hexact⟩

end HornSearch
