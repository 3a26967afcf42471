import HornSearch.Proofs.SolvedForm
import HornSearch.Proofs.TextAnswers

/-!
# Aliases in what is shown

Variables of a query are aliases in an answer if they resolve to the same term. A host
may choose any names for them that are not reserved, also such as come after those of
draws; then a draw may be what all of them resolve to.

Materialization keeps aliases that stand for anything but a free drawn variable, and
makes no others (`materialize_aliases`). It leaves out those that stand for a free drawn
variable. So they are no aliases any more (`materialize_separates_lowerCase`), each
being unbound in what is shown.
-/

namespace HornSearch

namespace Bindings

/-- Both terms resolve to the same, up to the flags of variables. -/
def Aliases (b : Bindings) (s t : Term) : Prop :=
  ∃ u w, b.resolve s = some u ∧ b.resolve t = some w ∧ u.Alike w

/-- The variable resolves to a free internal one. -/
def Hidden (b : Bindings) (x : Var) : Prop :=
  ∃ y, y.internal = true ∧ b.resolve (.var x) = some (.var y)

variable {b m : Bindings}

theorem Acyclic.deep_alike (ha : b.Acyclic) {s t : Term} (h : s.Alike t) :
    (b.deep s).Alike (b.deep t) :=
  deep_alike_of_solves ha fun v _ => h.term_eq v

/-- What resolves to the same at the root stands for the same at every depth. -/
theorem Aliases.equates (ha : b.Acyclic) {s t : Term} (h : b.Aliases s t) : b.Equates s t := by
  obtain ⟨u, w, hu, hw, halike⟩ := h
  rw [equates_iff ha, ha.deep_of_leads (leads_of_walk hu), ha.deep_of_leads (leads_of_walk hw)]
  exact ha.deep_alike halike

theorem hidden_iff (ho : b.Oriented) (ha : b.Acyclic) {x : Var} :
    b.Hidden x ↔ isAnonymous (b.deep (.var x)) = true := by
  obtain ⟨u, hu⟩ := resolve_total ho (.var x)
  rw [ha.deep_of_leads (leads_of_walk hu)]
  constructor
  · rintro ⟨y, hy, hxy⟩
    cases hu.symm.trans hxy
    rwa [ha.deep_free (ha.follow?_var y ▸ resolve_free hu)]
  · intro h
    cases hdeep : b.deep u with
    | var z =>
      obtain ⟨y, rfl⟩ := ha.eq_var_of_deep hdeep
      rw [ha.deep_free (ha.follow?_var y ▸ resolve_free hu)] at h
      exact ⟨y, h, hu⟩
    | _ => simp [hdeep, isAnonymous] at h

/-- In oriented solved bindings a bound variable is one step from what it stands for. -/
theorem Solved.resolve_var (h : b.Solved) (ho : b.Oriented) (x : Var) :
    b.resolve (.var x) = some (b.deep (.var x)) := by
  cases hx : b.get? x.name with
  | none =>
    rw [h.acyclic.deep_free hx]
    exact resolve_of_free (ho.follow?_var x ▸ hx)
  | some t =>
    rw [h.acyclic.deep_bound hx, h.deep_value hx, resolve_eq_some_iff ho]
    refine .follow (ho.follow?_var x ▸ hx) (.stop ?_)
    cases t with
    | var y => exact ho.follow?_var y ▸ h _ _ hx y (by simp)
    | _ => rfl

theorem Shows.oriented (hm : m.Shows b) (ho : b.Oriented) (ha : b.Acyclic) : m.Oriented := by
  intro x y hx
  obtain ⟨e', he', hvalue⟩ := get?_eq_some_iff.1 hx
  obtain ⟨e, he, _, _, rfl⟩ := (hm.binding?_iff ha).1 he'
  have hbound : b.get? x = some e.value := get?_eq_some_iff.2 ⟨e, he, rfl⟩
  have hdeep : b.deep (.var (.ofName x)) = .var y := (ha.deep_bound hbound).trans hvalue
  refine lt_of_le_of_ne (ha.deep_var_le ho hdeep) fun hname => ?_
  have hfree : b.get? y.name = none :=
    ha.free_of_mem_deep (t := .var (.ofName x)) (by simp [hdeep])
  rw [hname] at hfree
  simp [hbound] at hfree

end Bindings

/-! ## Queries of a host -/

/-- The variables of the query are the host's, and no name is one of a draw. -/
def Hosted (query : List Compound) : Prop :=
  ∀ g ∈ query, ∀ x ∈ g.vars, x.internal = false ∧ ¬Reserved x.name

/-- Acyclic bindings as a search builds them for a query of a host. -/
structure HostAnswer (query : List Compound) (b : Bindings) : Prop where
  hosted : Hosted query
  oriented : b.Oriented
  acyclic : b.Acyclic
  known : b.Over (Known query)

theorem hosted_of_head? {query : List Compound}
    (h : ∀ g ∈ query, ∀ x ∈ g.vars, x.internal = false ∧ x.name.toList.head? ≠ some '_') :
    Hosted query := by
  intro g hg x hx
  refine ⟨(h g hg x hx).1, ?_⟩
  rintro ⟨rest, hrest⟩
  apply (h g hg x hx).2
  rw [hrest, String.toList_append]
  rfl

theorem Hosted.undrawn {query : List Compound} (h : Hosted query) : Undrawn query :=
  fun g hg x hx k hk => (h g hg x hx).2 (hk ▸ reserved_fresh k)

theorem hostAnswer_of_run {clauses : List Clause} {query : List Compound} {d e : Nat}
    {last : Cursor} {answers : List Bindings} (hfacts : ∀ c ∈ clauses, c.Closed)
    (hquery : Hosted query) (hrun : Run clauses d (.start clauses query) answers e last)
    {b : Bindings} (hb : b ∈ answers) (ha : b.Acyclic) : HostAnswer query b := by
  let db : Database := ⟨clauses, d⟩
  have hrun : Run db.clauses db.drawn (db.query query) answers e last := hrun
  obtain ⟨ho, hknown⟩ := known_of_run hfacts hrun hb
  exact ⟨hquery, ho, ha, hknown⟩

/-- Variables of an answer have the same flag wherever they occur. -/
theorem Known.internal_eq {query : List Compound} (hquery : Hosted query) {x y : Var}
    (hx : Known query x) (hy : Known query y) (h : x.name = y.name) : x.internal = y.internal := by
  obtain ⟨g, hg, hx⟩ | ⟨k, rfl⟩ := hx
  · obtain ⟨g', hg', hy⟩ | ⟨k, rfl⟩ := hy
    · rw [(hquery g hg x hx).1, (hquery g' hg' y hy).1]
    · exact absurd (h ▸ reserved_fresh k) (hquery g hg x hx).2
  · obtain ⟨g, hg, hy⟩ | ⟨j, rfl⟩ := hy
    · exact absurd (h ▸ reserved_fresh k) (hquery g hg y hy).2
    · rfl

namespace HostAnswer

variable {query : List Compound} {b m : Bindings} (h : HostAnswer query b)
include h

/-- What a variable of the query stands for is shown, unless the variable is hidden: then
it is unbound in what is shown. -/
theorem get?_shown (hm : m.Shows b) {x : Var} (hx : x ∈ query.flatMap Compound.vars) :
    m.get? x.name =
      if Bindings.isAnonymous (b.deep (.var x)) then none
      else (b.get? x.name).map fun _ => b.deep (.var x) := by
  obtain ⟨g, hg, hx⟩ := List.mem_flatMap.1 hx
  cases hbound : b.binding? x.name with
  | none => simp [Bindings.get?, hm x.name, hbound]
  | some e =>
    have hget : b.get? x.name = some e.value := Bindings.get?_eq_some_iff.2 ⟨e, hbound, rfl⟩
    obtain ⟨_, hhost⟩ | ⟨hreserved, _⟩ :=
      bound_of_known h.known (fun g hg x hx => (h.hosted g hg x hx).1) hbound
    · rw [h.acyclic.deep_bound hget, Bindings.get?, hm x.name, hbound, hget, Option.bind_some,
        Bindings.shown, h.acyclic.resolveDeep_eq, hhost]
      simp only [Bool.false_eq_true, if_false, Option.bind_some, Option.map_some]
      split <;> rfl
    · exact absurd hreserved (h.hosted g hg x hx).2

theorem deep_shown (hm : m.Shows b) {x : Var} (hx : x ∈ query.flatMap Compound.vars) :
    m.deep (.var x) =
      if Bindings.isAnonymous (b.deep (.var x)) then .var x else b.deep (.var x) := by
  have hsolved := hm.solved h.acyclic
  have hget := h.get?_shown hm hx
  split
  · rename_i hanonymous
    rw [if_pos hanonymous] at hget
    exact hsolved.acyclic.deep_free hget
  · rename_i hanonymous
    rw [if_neg hanonymous] at hget
    cases hbound : b.get? x.name with
    | none =>
      rw [h.acyclic.deep_free hbound]
      exact hsolved.acyclic.deep_free (hm.get?_eq_none hbound)
    | some t =>
      rw [hbound, Option.map_some] at hget
      rw [hsolved.acyclic.deep_bound hget, hsolved.deep_value hget]

/-- Resolving what is shown gives what the variable stands for. -/
theorem deep_deep_shown (hm : m.Shows b) {x : Var} (hx : x ∈ query.flatMap Compound.vars) :
    b.deep (m.deep (.var x)) = b.deep (.var x) := by
  rw [h.deep_shown hm hx]
  split
  · rfl
  · exact h.acyclic.deep_deep h.acyclic (.refl b) _

/-- If the variables of the query stand for ground terms, then these are shown. -/
theorem materialize_of_ground {pairs : List (Var × Term)}
    (hvars : query.flatMap Compound.vars = pairs.map Prod.fst)
    (hd : pairs.Pairwise fun p q => p.1.name ≠ q.1.name)
    (hpairs : ∀ p ∈ pairs, p.2.vars = [] ∧ b.deep (.var p.1) = p.2) :
    b.materialize = some (.ofList pairs) := by
  obtain ⟨m, hmat, hm⟩ := h.acyclic.materialize
  have hm : m.Shows b := hm
  have bound {x : String} {e : Binding} (he : b.binding? x = some e) :=
    bound_of_known h.known (fun g hg x hx => (h.hosted g hg x hx).1) he
  have hquery {x : Var} : (∃ g ∈ query, x ∈ g.vars) ↔ ∃ p ∈ pairs, p.1 = x := by
    rw [← List.mem_flatMap, hvars, List.mem_map]
  rw [hmat]
  refine congrArg some (Bindings.ext_binding? fun x => Option.ext fun e => ?_)
  rw [hm.binding?_iff h.acyclic, Bindings.binding?_ofList hd]
  constructor
  · rintro ⟨e, he, hhost, -, rfl⟩
    obtain ⟨hx, -⟩ | ⟨-, hinternal⟩ := bound he
    · obtain ⟨p, hp, hpx⟩ := hquery.1 hx
      refine ⟨p, hp, by rw [hpx], ?_⟩
      rw [← (hpairs p hp).2, hpx,
        h.acyclic.deep_bound (x := ⟨x, false⟩) (Bindings.get?_eq_some_iff.2 ⟨e, he, rfl⟩)]
    · simp [hinternal] at hhost
  · rintro ⟨p, hp, rfl, rfl⟩
    obtain ⟨hground, hdeep⟩ := hpairs p hp
    obtain ⟨g, hg, hx⟩ := hquery.2 ⟨p, hp, rfl⟩
    cases he : b.binding? p.1.name with
    | none =>
      rw [← hdeep, h.acyclic.deep_free (Option.map_eq_none_iff.2 he)] at hground
      simp at hground
    | some e =>
      rw [h.acyclic.deep_bound (Bindings.get?_eq_some_iff.2 ⟨e, he, rfl⟩)] at hdeep
      obtain ⟨-, hhost⟩ | ⟨hreserved, -⟩ := bound he
      · refine ⟨e, rfl, hhost, ?_, by rw [hdeep, (h.hosted g hg p.1 hx).1]⟩
        rw [hdeep]
        cases hvalue : p.2 <;> simp_all [Bindings.isAnonymous]
      · exact absurd hreserved (h.hosted g hg p.1 hx).2

/-- Variables that stand for the same are both hidden or both not. -/
theorem isAnonymous_eq {s t : Term} (hs : s.Over (Known query)) (ht : t.Over (Known query))
    (halike : s.Alike t) : Bindings.isAnonymous s = Bindings.isAnonymous t := by
  cases s with
  | var x =>
    obtain ⟨y, rfl, hname⟩ := Term.eq_var_of_alike halike.symm
    exact Known.internal_eq h.hosted (hs x (by simp)) (ht y (by simp)) hname.symm
  | _ =>
    cases t with
    | var y =>
      obtain ⟨_, hvar, _⟩ := Term.eq_var_of_alike halike
      cases hvar
    | _ => rfl

/-- Aliases that are not hidden stay aliases. -/
theorem equates_shown (hm : m.Shows b) {x y : Var} (hx : x ∈ query.flatMap Compound.vars)
    (hy : y ∈ query.flatMap Compound.vars) (hxy : b.Equates (.var x) (.var y))
    (hshown : Bindings.isAnonymous (b.deep (.var x)) = false) :
    (m.deep (.var x)).Alike (m.deep (.var y)) := by
  have ha := h.acyclic
  have known {x : Var} (hx : x ∈ query.flatMap Compound.vars) :
      (b.deep (.var x)).Over (Known query) := by
    obtain ⟨g, hg, hx⟩ := List.mem_flatMap.1 hx
    refine ha.over_deep h.known fun z hz => .inl ⟨g, hg, ?_⟩
    rwa [List.mem_singleton.1 hz]
  rw [equates_iff ha] at hxy
  have hshown' := h.isAnonymous_eq (known hx) (known hy) hxy
  rw [h.deep_shown hm hx, h.deep_shown hm hy, ← hshown', hshown]
  exact hxy

end HostAnswer

/-- In what is shown of an answer to a host's query, two variables of the query are aliases
if they are in the answer, at the root or at every depth, and do not stand for a free
internal variable. There are no other aliases, and a variable that stands for a free
internal one is left unbound. -/
theorem materialize_aliases {db : Database} {query : List Compound} {e : Nat} {last : Cursor}
    {answers : List Bindings} (hfacts : ∀ c ∈ db.clauses, c.Closed) (hquery : Hosted query)
    (hrun : Run db.clauses db.drawn (db.query query) answers e last) {b : Bindings}
    (hb : b ∈ answers) (ha : b.Acyclic) :
    ∃ m, b.materialize = some m ∧
      ∀ x ∈ query.flatMap Compound.vars, ∀ y ∈ query.flatMap Compound.vars,
        (b.Aliases (.var x) (.var y) ∨ b.Equates (.var x) (.var y) → ¬b.Hidden x →
          m.Aliases (.var x) (.var y) ∧ m.Equates (.var x) (.var y)) ∧
        (m.Aliases (.var x) (.var y) → b.Equates (.var x) (.var y)) ∧
        (b.Hidden x → m.get? x.name = none) := by
  obtain ⟨ho, hknown⟩ := known_of_run hfacts hrun hb
  have h : HostAnswer query b := ⟨hquery, ho, ha, hknown⟩
  obtain ⟨m, hmat, hm⟩ := ha.materialize
  have hm : m.Shows b := hm
  have hsolved := hm.solved ha
  have hresolve := hsolved.resolve_var (hm.oriented ho ha)
  refine ⟨m, hmat, fun x hx y hy => ⟨fun hxy hshown => ?_, fun hxy => ?_, fun hhidden => ?_⟩⟩
  · have hequates : b.Equates (.var x) (.var y) := hxy.elim (fun h => h.equates ha) id
    rw [Bindings.hidden_iff ho ha, Bool.not_eq_true] at hshown
    have halike := h.equates_shown hm hx hy hequates hshown
    exact ⟨⟨_, _, hresolve x, hresolve y, halike⟩, (equates_iff hsolved.acyclic).2 halike⟩
  · have hequates := hxy.equates hsolved.acyclic
    rw [equates_iff hsolved.acyclic] at hequates
    rw [equates_iff ha, ← h.deep_deep_shown hm hx, ← h.deep_deep_shown hm hy]
    exact ha.deep_alike hequates
  · rw [h.get?_shown hm hx, if_pos ((Bindings.hidden_iff ho ha).1 hhidden)]

def same : Database := .ofClauses [.classify ⟨"same", [.var (.ofName "A"), .var (.ofName "A")]⟩]

theorem closed_same : ∀ c ∈ same.clauses, c.Closed := List.forall_mem_singleton.2 trivial

/-- `X` comes before the draw and `y` after it, so both are linked to `X`. -/
theorem materialize_aliases_sharedHost :
    let x := Var.ofName "X"
    let y := Var.ofName "y"
    let query : List Compound := [⟨"same", [.var x, .var y]⟩]
    let b := Bindings.ofList [(.fresh 0, .var x), (y, .var x)]
    (∀ c ∈ same.clauses, c.Closed) ∧ Hosted query ∧
    Run same.clauses same.drawn (same.query query) [b] 1 ⟨[]⟩ ∧ b.Acyclic ∧
    b.Aliases (.var x) (.var y) ∧ ¬b.Hidden x ∧
    ∃ m, b.materialize = some m ∧
      ∀ x ∈ query.flatMap Compound.vars, ∀ y ∈ query.flatMap Compound.vars,
        (b.Aliases (.var x) (.var y) ∨ b.Equates (.var x) (.var y) → ¬b.Hidden x →
          m.Aliases (.var x) (.var y) ∧ m.Equates (.var x) (.var y)) ∧
        (m.Aliases (.var x) (.var y) → b.Equates (.var x) (.var y)) ∧
        (b.Hidden x → m.get? x.name = none) := by
  intro x y query b
  have hquery : Hosted query := hosted_of_head? (by decide)
  have hpull : pull same.clauses 9 same.drawn (same.query query) = some ⟨some b, 1, ⟨[]⟩⟩ := by
    decide
  have hrun := Run.answer hpull .refl
  have hacyclic : b.Acyclic := by
    apply Bindings.acyclic_ofList
    simp only [List.forall_mem_cons, Term.Within]
    decide
  have hx : b.resolve (.var x) = some (.var x) := by decide
  have hy : b.resolve (.var y) = some (.var x) := by decide
  have hshown : ¬b.Hidden x := by
    rintro ⟨z, hz, hxz⟩
    cases hx.symm.trans hxz
    cases hz
  exact ⟨closed_same, hquery, hrun, hacyclic, ⟨_, _, hx, hy, rfl⟩, hshown,
    materialize_aliases closed_same hquery hrun List.mem_cons_self hacyclic⟩

/-- Both `x` and `y` come after the draw and are linked to it. They resolve to the draw in
the answer, and each to itself in what is shown. -/
theorem materialize_separates_lowerCase :
    let x := Var.ofName "x"
    let y := Var.ofName "y"
    let query : List Compound := [⟨"same", [.var x, .var y]⟩]
    let b := Bindings.ofList [(x, .var (.fresh 0)), (y, .var (.fresh 0))]
    (∀ c ∈ same.clauses, c.Closed) ∧ Hosted query ∧
    Run same.clauses same.drawn (same.query query) [b] 1 ⟨[]⟩ ∧ b.Acyclic ∧
    b.resolve (.var x) = some (.var (.fresh 0)) ∧ b.resolve (.var y) = some (.var (.fresh 0)) ∧
    ∃ m, b.materialize = some m ∧ ¬m.Aliases (.var x) (.var y) ∧ ¬m.Equates (.var x) (.var y) := by
  intro x y query b
  have hpull : pull same.clauses 9 same.drawn (same.query query) = some ⟨some b, 1, ⟨[]⟩⟩ := by
    decide
  have hacyclic : b.Acyclic := by
    apply Bindings.acyclic_ofList
    simp only [List.forall_mem_cons, Term.Within]
    decide
  have hempty : Bindings.empty.Acyclic := Bindings.acyclic_of_lt fun _ _ h => by cases h
  have hapart : ¬Bindings.empty.Equates (.var x) (.var y) := by
    have hx : Bindings.empty.resolveDeep (.var x) = some (.var x) := by decide
    have hy : Bindings.empty.resolveDeep (.var y) = some (.var y) := by decide
    rintro ⟨u, w, hu, hw, halike⟩
    cases hx.symm.trans hu
    cases hy.symm.trans hw
    exact absurd halike (by decide)
  exact ⟨closed_same, hosted_of_head? (by decide), .answer hpull .refl, hacyclic, by decide,
    by decide, .empty, by decide, fun h => hapart (h.equates hempty), hapart⟩

end HornSearch
