import HornSearch.Proofs.DeepResolution

/-!
# The order of equations

Equations unified one after another in another order may build other bindings:
of linked variables, different ones may be bound, through different chains.
What every term stands for in the end is the same, and not just up to a
renaming of variables (`unifyAll_perm`).

Both results have the solutions of the equations and no others. So each of them
resolves a term no further than the other one has done already
(`deep_alike_deep`), up to a change of variables that can be undone. As a class
of linked variables is represented by its least name in both, nothing changes
(`alike_of_deep`).
-/

namespace HornSearch

/-! ## Terms that valuations tell apart -/

def Valuation.atoms : Valuation := ⟨.atom, fun _ => Term.vars_atom _⟩

def Valuation.zeros : Valuation := ⟨fun _ => .num 0, fun _ => Term.vars_num _⟩

namespace Term

theorem alike_var {x y : Var} : (Term.var x).Alike (.var y) ↔ x.name = y.name := by
  simp [Alike, unflagged, Var.ofName]

theorem alike_app {f g : String} {ss ts : List Term} :
    (Term.app f ss).Alike (.app g ts) ↔ f = g ∧ List.Forall₂ Alike ss ts := by
  have hargs : ss.map unflagged = ts.map unflagged ↔ List.Forall₂ Alike ss ts := by
    rw [← List.forall₂_eq_eq_eq, List.forall₂_map_left_iff, List.forall₂_map_right_iff]
    rfl
  rw [← hargs]
  simp [Alike, unflagged]

theorem eq_var_of_alike {t : Term} {x : Var} (h : t.Alike (.var x)) :
    ∃ y, t = .var y ∧ y.name = x.name := by
  cases t with
  | var y => exact ⟨y, rfl, alike_var.1 h⟩
  | _ => simp [Alike, unflagged] at h

theorem eq_app_of_alike {t : Term} {f : String} {ts : List Term} (h : t.Alike (.app f ts)) :
    ∃ ss, t = .app f ss ∧ List.Forall₂ Alike ss ts := by
  cases t with
  | app g ss =>
    obtain ⟨rfl, hargs⟩ := alike_app.1 h
    exact ⟨ss, rfl, hargs⟩
  | _ => simp [Alike, unflagged] at h

theorem forall₂_alike_of_map_eq {ss ts : List Term}
    (halike : ∀ s ∈ ss, ∀ {t}, (∀ v : Valuation, v.term s = v.term t) → s.Alike t)
    (h : ∀ v : Valuation, ss.map v.term = ts.map v.term) : List.Forall₂ Alike ss ts := by
  induction ss generalizing ts with
  | nil =>
    obtain rfl : ts = [] := List.map_eq_nil_iff.1 (h .atoms).symm
    exact .nil
  | cons s ss ih =>
    obtain ⟨hs, hss⟩ := List.forall_mem_cons.1 halike
    cases ts with
    | nil => exact absurd (h .atoms) (by simp)
    | cons t ts =>
      simp only [List.map_cons, List.cons.injEq] at h
      exact .cons (hs fun v => (h v).1) (ih hss fun v => (h v).2)

/-- Terms that no valuation tells apart are alike. -/
theorem alike_of_term_eq {s t : Term} (h : ∀ v : Valuation, v.term s = v.term t) : s.Alike t := by
  induction s generalizing t with
  | num n =>
    have hatoms := h .atoms
    cases t <;> simp_all [Valuation.atoms, Alike, unflagged]
  | atom a =>
    have hzeros := h .zeros
    cases t <;> simp_all [Valuation.zeros, Alike, unflagged]
  | var x =>
    have hatoms := h .atoms
    have hzeros := h .zeros
    cases t with
    | var y => exact alike_var.2 (by simpa [Valuation.atoms] using hatoms)
    | num n => simp [Valuation.atoms] at hatoms
    | atom a => simp [Valuation.zeros] at hzeros
    | app f ts => simp [Valuation.atoms] at hatoms
  | app f ss ih =>
    have hatoms := h .atoms
    cases t with
    | app g ts =>
      simp only [Valuation.term_app, app.injEq] at h
      exact alike_app.2 ⟨(h .atoms).1, forall₂_alike_of_map_eq ih fun v => (h v).2⟩
    | _ => simp [Valuation.atoms] at hatoms

/-- No valuation tells alike terms apart. -/
theorem Alike.term_eq {s t : Term} (h : s.Alike t) (v : Valuation) : v.term s = v.term t := by
  have cleared (u : Term) : v.term u.unflagged = v.term u := by
    rw [unflagged, v.term_subst]
    simp only [Valuation.term_var, Var.ofName]
    rfl
  rw [← cleared s, ← cleared t, h]

end Term

/-! ## Bindings with the same solutions -/

section
variable {b c : Bindings}

/-- Terms that are equal in every solution stand for the same. -/
theorem deep_alike_of_solves (hb : b.Acyclic) {s t : Term}
    (h : ∀ v : Valuation, v.Solves b → v.term s = v.term t) : (b.deep s).Alike (b.deep t) := by
  apply Term.alike_of_term_eq
  intro v
  calc v.term (b.deep s) = (v.through b).term s := (v.term_through hb s).symm
    _ = (v.through b).term t := h _ (v.solves_through hb)
    _ = v.term (b.deep t) := v.term_through hb t

/-- What `c` stands for adds nothing to what `b` stands for. -/
theorem deep_alike_deep (hb : b.Acyclic) (hc : c.Acyclic)
    (h : ∀ v : Valuation, v.Solves b → v.Solves c) (t : Term) :
    (b.deep t).Alike (b.deep (c.deep t)) :=
  deep_alike_of_solves hb fun v hv => ((h v hv).term_deep hc t).symm

/-- If two terms are each what the other one stands for, they are alike: going
back and forth, names can only get smaller. -/
theorem alike_of_deep (hb : b.Acyclic) (hc : c.Acyclic) (hbo : b.Oriented) (hco : c.Oriented)
    {s t : Term} (hs : s.Alike (b.deep t)) (ht : t.Alike (c.deep s)) : s.Alike t := by
  induction s generalizing t with
  | num n =>
    rw [hc.deep_num] at ht
    exact ht.symm
  | atom a =>
    rw [hc.deep_atom] at ht
    exact ht.symm
  | var x =>
    obtain ⟨x', hx', hxname⟩ := Term.eq_var_of_alike hs.symm
    obtain ⟨y, rfl⟩ := hb.eq_var_of_deep hx'
    obtain ⟨y', hy', hyname⟩ := Term.eq_var_of_alike ht.symm
    have hxy : x.name ≤ y.name := hxname ▸ hb.deep_var_le hbo hx'
    have hyx : y.name ≤ x.name := hyname ▸ hc.deep_var_le hco hy'
    exact Term.alike_var.2 (le_antisymm hxy hyx)
  | app f ss ih =>
    rw [hc.deep_app] at ht
    obtain ⟨ts, rfl, hts⟩ := Term.eq_app_of_alike ht
    rw [hb.deep_app] at hs
    obtain ⟨_, hss⟩ := Term.alike_app.1 hs
    refine Term.alike_app.2 ⟨rfl, ?_⟩
    rw [List.forall₂_map_right_iff] at hss hts
    clear hs ht
    induction hss with
    | nil => exact .nil
    | cons hst _ rest =>
      cases hts with
      | cons hts htss =>
        exact .cons (ih _ List.mem_cons_self hst hts)
          (rest (fun s hs => ih s (List.mem_cons_of_mem _ hs)) htss)

/-- Bindings with the same solutions resolve every term alike. -/
theorem deep_alike (hb : b.Acyclic) (hc : c.Acyclic) (hbo : b.Oriented) (hco : c.Oriented)
    (h : ∀ v : Valuation, v.Solves b ↔ v.Solves c) (t : Term) : (b.deep t).Alike (c.deep t) :=
  alike_of_deep hb hc hbo hco (deep_alike_deep hb hc (fun v => (h v).1) t)
    (deep_alike_deep hc hb (fun v => (h v).2) t)

end

/-! ## Equations in any order -/

/-- Unifies the two sides of one equation after another, beginning without
bindings. -/
def unifyAll (n : Nat) (equations : List (Term × Term)) : Option (Except Clash Bindings) :=
  unifyPairs (unify n) .empty (equations.map Prod.fst) (equations.map Prod.snd)

section
variable {n : Nat} {equations : List (Term × Term)}

theorem unifyAll_oriented {b : Bindings} (h : unifyAll n equations = some (.ok b)) :
    b.Oriented :=
  unifyPairs_oriented Bindings.oriented_empty (by simp) h

/-- The solutions are those of all equations. -/
theorem unifyAll_solves {r : Except Clash Bindings} (h : unifyAll n equations = some r)
    (v : Valuation) :
    SolvesResult v .empty (∀ e ∈ equations, v.term e.1 = v.term e.2) r := by
  refine ((solvesRules v).pairs Bindings.oriented_empty (by simp) h).congr fun _ => ?_
  simp

theorem unifyAll_ok {b : Bindings} (h : unifyAll n equations = some (.ok b)) (v : Valuation) :
    v.Solves b ↔ ∀ e ∈ equations, v.term e.1 = v.term e.2 :=
  (show v.Solves b ↔ _ from unifyAll_solves h v).trans (and_iff_right v.solves_empty)

end

/-- The order of equations plays no part: if two orders end in acyclic bindings,
these resolve every term alike, and if one order ends in a clash, then no
other one ends in acyclic bindings. -/
theorem unifyAll_perm {equations equations' : List (Term × Term)}
    (h : equations.Perm equations') :
    (∀ {n m b c}, unifyAll n equations = some (.ok b) → unifyAll m equations' = some (.ok c) →
      b.Acyclic → c.Acyclic →
      ∀ t, ∃ u w, b.resolveDeep t = some u ∧ c.resolveDeep t = some w ∧ u.Alike w) ∧
    ∀ {n clash}, unifyAll n equations = some (.error clash) →
      ¬∃ m c, unifyAll m equations' = some (.ok c) ∧ c.Acyclic := by
  constructor
  · intro n m b c hb hc hba hca t
    refine ⟨b.deep t, c.deep t, hba.resolveDeep_eq t, hca.resolveDeep_eq t, ?_⟩
    refine deep_alike hba hca (unifyAll_oriented hb) (unifyAll_oriented hc) (fun v => ?_) t
    rw [unifyAll_ok hb, unifyAll_ok hc]
    simp only [h.mem_iff]
  · rintro n clash hclash ⟨m, c, hc, hca⟩
    -- Acyclic bindings have a solution, which would be one of the equations that clash.
    let v := Valuation.atoms.through c
    have hv : v.Solves c := Valuation.atoms.solves_through hca
    rw [unifyAll_ok hc] at hv
    exact unifyAll_solves hclash v ⟨v.solves_empty, fun e he => hv e (h.mem_iff.1 he)⟩

/-- Linking `Z`, `Y` and `X` in two ways gives different bindings; `1` and `2` clash in
both orders. -/
theorem unifyAll_perm_links :
    let x : Term := .var (.ofName "X")
    let y : Term := .var (.ofName "Y")
    let z : Term := .var (.ofName "Z")
    (∃ b c : Bindings, b ≠ c ∧ b.Acyclic ∧ c.Acyclic ∧
      unifyAll 1 [(z, y), (y, x)] = some (.ok b) ∧ unifyAll 1 [(y, x), (z, y)] = some (.ok c) ∧
      ∀ t, ∃ u w, b.resolveDeep t = some u ∧ c.resolveDeep t = some w ∧ u.Alike w) ∧
    unifyAll 1 [(x, .num 1), (x, .num 2)] = some (.error ⟨.num 1, .num 2⟩) ∧
    ¬∃ m c, unifyAll m [(x, .num 2), (x, .num 1)] = some (.ok c) ∧ c.Acyclic := by
  intro x y z
  let b := Bindings.ofList [(.ofName "Z", y), (.ofName "Y", x)]
  let c := Bindings.ofList [(.ofName "Y", x), (.ofName "Z", x)]
  have hxy : x.Within (· < "Y") := Term.within_var.2 (by decide)
  have hxz : x.Within (· < "Z") := Term.within_var.2 (by decide)
  have hyz : y.Within (· < "Z") := Term.within_var.2 (by decide)
  have hba : b.Acyclic :=
    Bindings.acyclic_ofList (List.forall_mem_cons.2 ⟨hyz, List.forall_mem_singleton.2 hxy⟩)
  have hca : c.Acyclic :=
    Bindings.acyclic_ofList (List.forall_mem_cons.2 ⟨hxy, List.forall_mem_singleton.2 hxz⟩)
  have hb : unifyAll 1 [(z, y), (y, x)] = some (.ok b) := by decide
  have hc : unifyAll 1 [(y, x), (z, y)] = some (.ok c) := by decide
  have hclash : unifyAll 1 [(x, .num 1), (x, .num 2)] = some (.error ⟨.num 1, .num 2⟩) := by decide
  exact ⟨⟨b, c, by decide, hba, hca, hb, hc, (unifyAll_perm (.swap _ _ _)).1 hb hc hba hca⟩,
    hclash, (unifyAll_perm (.swap _ _ _)).2 hclash⟩

end HornSearch
