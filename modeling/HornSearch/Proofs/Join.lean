import HornSearch.Proofs.Enumeration
import HornSearch.Proofs.Soundness

/-!
# Facts are joined by nested loops

If a program consists of facts without variables, each goal runs through all of them in
their order, and what an earlier goal has bound restricts the later ones. So the answers
belong to the tuples of facts that the goals can become together, and come in the
lexicographic order of their indices (`exists_nestedLoops`).

All values that are bound have no variables, so unification returns
(`unify_returns_of_ground`) and the solutions of an answer tell what it binds
(`get?_of_solves_iff`): it binds what they agree on. A solution may be changed at any
other name.
-/

namespace HornSearch

/-! ## Values without variables -/

theorem Term.rigid_of_ground {t : Term} (h : t.vars = []) : t.Rigid := by
  rintro x rfl
  simp at h

theorem Term.ground_of_mem {f : String} {ts : List Term} (h : (Term.app f ts).vars = []) :
    ∀ t ∈ ts, t.vars = [] := by
  intro t ht
  refine List.eq_nil_iff_forall_not_mem.2 fun x hx => ?_
  have hmem : x ∈ (Term.app f ts).vars := Term.mem_vars_app.2 ⟨t, ht, hx⟩
  simp [h] at hmem

def Bindings.Ground (b : Bindings) : Prop := ∀ x t, b.get? x = some t → t.vars = []

section
variable {b : Bindings}

theorem Bindings.ground_empty : Bindings.empty.Ground := by
  intro x t h
  simp at h

theorem Bindings.Ground.oriented (h : b.Ground) : b.Oriented := by
  intro x y hx
  have hvars := h x _ hx
  simp at hvars

theorem Bindings.Ground.put (h : b.Ground) (x : Var) {t : Term} (ht : t.vars = []) :
    (b.put x t).Ground :=
  forall_get?_put h ht

theorem Bindings.resolve_of_ground {t u : Term} (h : t.vars = []) (hu : b.resolve t = some u) :
    u = t := by
  rw [resolve_of_rigid (Term.rigid_of_ground h)] at hu
  exact (Option.some.inj hu).symm

/-- Unification with terms without variables binds to such terms. -/
theorem groundRules : UnifyRules
    (fun b _ t r => b.Ground → t.vars = [] → ResultHas Bindings.Ground r)
    (fun b _ ts r => b.Ground → (∀ t ∈ ts, t.vars = []) → ResultHas Bindings.Ground r) where
  same _ _ _ _ hb _ := hb
  left _ _ ht _ hb hground := by
    cases Bindings.resolve_of_ground hground ht
    exact hb.put _ hground
  right _ _ ht _ _ hground := by
    cases Bindings.resolve_of_ground hground ht
    simp at hground
  constant _ _ _ hb _ := hb
  args _ _ ht hQ hb hground := by
    cases Bindings.resolve_of_ground hground ht
    exact hQ hb (Term.ground_of_mem hground)
  clash _ _ _ _ _ _ := trivial
  nil hb _ := hb
  cons hP hQ hb hts :=
    hQ (hP hb (hts _ List.mem_cons_self)) fun t ht => hts t (List.mem_cons_of_mem _ ht)
  stop _ _ _ := trivial

/-- One bound is enough for all terms on the other side. -/
def Returns (t : Term) : Prop :=
  ∃ n, ∀ (b : Bindings) (s : Term), b.Ground → ∃ r, unify n b s t = some r

theorem unifyPairs_returns {ts : List Term} (hground : ∀ t ∈ ts, t.vars = [])
    (h : ∀ t ∈ ts, Returns t) :
    ∃ n, ∀ (b : Bindings) (ss : List Term), b.Ground →
      ∃ r, unifyPairs (unify n) b ss ts = some r := by
  induction ts with
  | nil => exact ⟨0, fun b ss _ => ⟨.ok b, by cases ss <;> rfl⟩⟩
  | cons t ts ih =>
    obtain ⟨ht, hground⟩ := List.forall_mem_cons.1 hground
    obtain ⟨⟨n, hn⟩, h⟩ := List.forall_mem_cons.1 h
    obtain ⟨m, hm⟩ := ih hground h
    refine ⟨max n m, fun b ss hb => ?_⟩
    cases ss with
    | nil => exact ⟨.ok b, rfl⟩
    | cons s ss =>
      obtain ⟨r, hr⟩ := hn b s hb
      simp only [unifyPairs, unify_mono (le_max_left n m) hr]
      cases r with
      | error clash => exact ⟨_, rfl⟩
      | ok b' =>
        obtain ⟨r, hr'⟩ := hm b' ss (groundRules.unify hb.oriented hr hb ht)
        exact ⟨r, unifyPairs_mono (fun _ _ _ _ => unify_mono (le_max_right n m)) hr'⟩

/-- A term without variables is its own root. -/
theorem returns_of_roots {t : Term} (h : t.vars = []) {n : Nat}
    (hroots : ∀ (b : Bindings) (s : Term), b.Ground → ∃ r, unifyRoots (unify n) b s t = some r) :
    Returns t := by
  refine ⟨n + 1, fun b s hb => ?_⟩
  obtain ⟨s', hs⟩ := Bindings.resolve_total hb.oriented s
  simpa [unify, hs, Bindings.resolve_of_rigid (Term.rigid_of_ground h)] using hroots b s' hb

theorem unify_returns_of_ground {t : Term} (h : t.vars = []) : Returns t := by
  induction t with
  | num k => exact returns_of_roots h (n := 0) fun b s _ => by cases s <;> exact ⟨_, rfl⟩
  | atom a => exact returns_of_roots h (n := 0) fun b s _ => by cases s <;> exact ⟨_, rfl⟩
  | var x => simp at h
  | app f ts ih =>
    have hground := Term.ground_of_mem h
    obtain ⟨n, hn⟩ := unifyPairs_returns hground fun t ht => ih t ht (hground t ht)
    refine returns_of_roots h (n := n) fun b s hb => ?_
    cases s with
    | app g ss =>
      by_cases hsig : (Compound.mk g ss).SameSignature ⟨f, ts⟩
      · simpa [unifyRoots, unifyArgs, hsig] using hn b ss hb
      · exact ⟨_, if_neg hsig⟩
    | _ => exact ⟨_, rfl⟩

/-- A goal and a head without variables. -/
theorem unifyCompound_returns (goal : Compound) {head : Compound} (hb : b.Ground) (hhead : head.vars = []) :
    ∃ n r, unifyCompound n b goal head = some r ∧ ResultHas Bindings.Ground r := by
  have hground : ∀ t ∈ head.args, t.vars = [] := Term.ground_of_mem (f := head.name) hhead
  by_cases hsig : goal.SameSignature head
  · obtain ⟨n, hn⟩ := unifyPairs_returns hground fun t ht => unify_returns_of_ground (hground t ht)
    obtain ⟨r, hr⟩ := hn b goal.args hb
    refine ⟨n, r, ?_, groundRules.pairs hb.oriented hsig.2 hr hb hground⟩
    simpa [unifyCompound, unifyArgs, hsig] using hr
  · exact ⟨0, _, if_neg hsig, trivial⟩

end

/-! ## Solutions -/

namespace Valuation

def set (v : Valuation) (x : String) (n : Int64) : Valuation where
  value y := if y = x then .num n else v.value y
  ground y := by split <;> simp [v.ground]

/-- Valuations that make the same of a term agree on its variables. -/
theorem value_eq_of_term_eq {v w : Valuation} {t : Term} (h : v.term t = w.term t) :
    ∀ x ∈ t.vars, v.value x.name = w.value x.name := by
  induction t with
  | num n => simp
  | atom a => simp
  | var x => simpa using h
  | app f ts ih =>
    simp only [term_app, Term.app.injEq, true_and, List.map_inj_left] at h
    intro x hx
    obtain ⟨t, ht, hx⟩ := Term.mem_vars_app.1 hx
    exact ih t ht (h t ht) x hx

theorem value_eq_of_compound_eq {v w : Valuation} {c : Compound}
    (h : v.compound c = w.compound c) : ∀ x ∈ c.vars, v.value x.name = w.value x.name := by
  simp only [compound_eq, Compound.mk.injEq, true_and, List.map_inj_left] at h
  intro x hx
  obtain ⟨t, ht, hx⟩ := Compound.mem_vars.1 hx
  exact value_eq_of_term_eq (h t ht) x hx

end Valuation

theorem Term.exists_num_ne (t : Term) : ∃ n, Term.num n ≠ t := by
  by_cases h : Term.num 0 = t
  · exact ⟨1, fun e => by cases h.trans e.symm⟩
  · exact ⟨0, h⟩

section
variable {b : Bindings}

/-- The values solve their bindings. -/
theorem Bindings.Ground.exists_solution (hb : b.Ground) : ∃ v : Valuation, v.Solves b := by
  let v : Valuation := {
    value := fun x => (b.get? x).getD (.num 0)
    ground := fun x => by
      cases h : b.get? x with
      | none => simp
      | some t => simpa using hb x t h }
  refine ⟨v, fun x t hx => ?_⟩
  rw [v.term_ground (hb x t hx)]
  simp [v, hx]

theorem Bindings.Ground.solves_set (hb : b.Ground) {v : Valuation} (hv : v.Solves b) {x : String}
    (hx : b.get? x = none) (n : Int64) : (v.set x n).Solves b := by
  intro y t hy
  have hne : y ≠ x := by
    rintro rfl
    simp [hx] at hy
  rw [Valuation.term_ground _ (hb y t hy)]
  simpa [Valuation.set, hne, v.term_ground (hb y t hy)] using hv y t hy

/-- Bindings whose solutions are told by `P`, which depends on the names in `names` and
settles them, bind these names and no others. -/
theorem get?_of_solves_iff {P : Valuation → Prop} {names : List String} (hb : b.Ground)
    (hsolves : ∀ v : Valuation, v.Solves b ↔ P v)
    (hdepends : ∀ v w : Valuation, (∀ x ∈ names, v.value x = w.value x) → P v → P w)
    (hsettles : ∀ v w : Valuation, P v → P w → ∀ x ∈ names, v.value x = w.value x)
    {v : Valuation} (hv : P v) (x : String) :
    b.get? x = if x ∈ names then some (v.value x) else none := by
  have hvb := (hsolves v).2 hv
  by_cases hx : x ∈ names
  · rw [if_pos hx]
    cases h : b.get? x with
    | some t => rw [hvb x t h, v.term_ground (hb x t h)]
    | none =>
      obtain ⟨n, hn⟩ := (v.value x).exists_num_ne
      have hw := (hsolves _).1 (hb.solves_set hvb h n)
      have heq := hsettles _ _ hv hw x hx
      exact absurd (by simpa [Valuation.set] using heq.symm) hn
  · rw [if_neg hx]
    cases h : b.get? x with
    | none => rfl
    | some t =>
      obtain ⟨n, hn⟩ := t.exists_num_ne
      have hw : P (v.set x n) := by
        refine hdepends v _ (fun y hy => ?_) hv
        have hne : y ≠ x := by
          rintro rfl
          exact hx hy
        simp [Valuation.set, hne]
      have heq := (hsolves _).2 hw x t h
      rw [Valuation.term_ground _ (hb x t h)] at heq
      exact absurd (by simpa [Valuation.set] using heq) hn

end

/-! ## Tuples of facts -/

/-- The valuation makes each goal the fact of the index beside it. -/
def Joins (clauses : List Clause) (goals : List Compound) (v : Valuation) (js : List Nat) :
    Prop :=
  List.Forall₂ (fun g j => clauses[j]? = some (.fact (v.compound g))) goals js

section
variable {clauses : List Clause} {goals : List Compound} {v w : Valuation} {js : List Nat}

theorem Joins.of_agree (h : Joins clauses goals v js)
    (hvw : ∀ g ∈ goals, ∀ x ∈ g.vars, v.value x.name = w.value x.name) :
    Joins clauses goals w js := by
  induction h with
  | nil => exact .nil
  | cons hj _ ih =>
    obtain ⟨hg, hrest⟩ := List.forall_mem_cons.1 hvw
    exact .cons (Valuation.compound_congr hg ▸ hj) (ih hrest)

/-- The facts settle the values of all variables. -/
theorem Joins.agree (hv : Joins clauses goals v js) (hw : Joins clauses goals w js) :
    ∀ g ∈ goals, ∀ x ∈ g.vars, v.value x.name = w.value x.name := by
  induction hv with
  | nil => simp
  | cons hj _ ih =>
    cases hw with
    | cons hj' hw =>
      rw [hj, Option.some.injEq, Clause.fact.injEq] at hj'
      exact List.forall_mem_cons.2 ⟨Valuation.value_eq_of_compound_eq hj', ih hw⟩

end

/-- The tuples that hold under some solution of `b`, in their order. Each stands beside
bindings for the solutions under which it does. -/
structure Listing (b : Bindings) (holds : Valuation → List Nat → Prop)
    (joined : List (List Nat × Bindings)) : Prop where
  sorted : (joined.map Prod.fst).Pairwise (· < ·)
  complete : ∀ {v js}, v.Solves b → holds v js → js ∈ joined.map Prod.fst
  ground : ∀ {js c}, (js, c) ∈ joined → c.Ground
  solves : ∀ {js c}, (js, c) ∈ joined → ∀ v : Valuation, v.Solves c ↔ v.Solves b ∧ holds v js

section
variable {b : Bindings} {holds : Valuation → List Nat → Prop}
  {joined : List (List Nat × Bindings)}

theorem listing_nil (h : ∀ v js, v.Solves b → ¬holds v js) : Listing b holds [] :=
  ⟨.nil, fun hv hj => absurd hj (h _ _ hv), by simp, by simp⟩

theorem Listing.mem_iff (h : Listing b holds joined) {js : List Nat} :
    js ∈ joined.map Prod.fst ↔ ∃ v : Valuation, v.Solves b ∧ holds v js := by
  constructor
  · intro hjs
    obtain ⟨⟨js, c⟩, hc, rfl⟩ := List.mem_map.1 hjs
    obtain ⟨v, hv⟩ := (h.ground hc).exists_solution
    exact ⟨v, (h.solves hc v).1 hv⟩
  · rintro ⟨v, hv, hj⟩
    exact h.complete hv hj

/-- First the tuples that begin with `k`, then those that begin with more. -/
theorem Listing.append {k : Nat} {first later : Valuation → List Nat → Prop}
    {joined₁ joined₂ : List (List Nat × Bindings)} (h₁ : Listing b first joined₁)
    (h₂ : Listing b later joined₂) (hlater : ∀ v js, later v js → ∃ j js', js = j :: js' ∧ k < j)
    (hholds : ∀ v js, holds v js ↔ (∃ js', js = k :: js' ∧ first v js') ∨ later v js) :
    Listing b holds (joined₁.map (fun j => (k :: j.1, j.2)) ++ joined₂) := by
  have hfst : (joined₁.map (fun j => (k :: j.1, j.2)) ++ joined₂).map Prod.fst =
      (joined₁.map Prod.fst).map (k :: ·) ++ joined₂.map Prod.fst := by
    simp [Function.comp_def]
  have behind {js : List Nat} (hjs : js ∈ joined₂.map Prod.fst) : ∃ j js', js = j :: js' ∧ k < j := by
    obtain ⟨v, _, hv⟩ := h₂.mem_iff.1 hjs
    exact hlater v js hv
  refine ⟨?_, fun {v js} hv hj => ?_, fun {js c} hc => ?_, fun {js c} hc v => ?_⟩
  · rw [hfst, List.pairwise_append, List.pairwise_map]
    refine ⟨h₁.sorted.imp fun hlt => List.cons_lt_cons_iff.2 (.inr ⟨rfl, hlt⟩), h₂.sorted, ?_⟩
    intro js hjs js' hjs'
    obtain ⟨tuple, _, rfl⟩ := List.mem_map.1 hjs
    obtain ⟨j, rest, rfl, hkj⟩ := behind hjs'
    exact List.cons_lt_cons_iff.2 (.inl hkj)
  · rw [hfst, List.mem_append]
    rcases (hholds v js).1 hj with ⟨js', rfl, hfirst⟩ | hlate
    · exact .inl (List.mem_map_of_mem (h₁.complete hv hfirst))
    · exact .inr (h₂.complete hv hlate)
  · rcases List.mem_append.1 hc with hc | hc
    · obtain ⟨⟨js', c'⟩, hc', ⟨⟩⟩ := List.mem_map.1 hc
      exact h₁.ground hc'
    · exact h₂.ground hc
  · rw [hholds]
    rcases List.mem_append.1 hc with hc | hc
    · obtain ⟨⟨js', c'⟩, hc', ⟨⟩⟩ := List.mem_map.1 hc
      have hnot : ¬later v (k :: js') := by
        intro hj
        obtain ⟨j, _, ⟨⟩, hkj⟩ := hlater v _ hj
        exact lt_irrefl _ hkj
      simpa [hnot] using h₁.solves hc' v
    · obtain ⟨j, rest, rfl, hkj⟩ := behind (List.mem_map_of_mem hc)
      have hnot : ¬∃ js', j :: rest = k :: js' ∧ first v js' := by
        rintro ⟨js', ⟨⟩, _⟩
        exact lt_irrefl _ hkj
      rw [or_iff_right hnot]
      exact h₂.solves hc v

end

/-! ## Enumerations -/

/-- The answers of the tuples, all after `d` draws. -/
def stamped (joined : List (List Nat × Bindings)) (d : Nat) : List (Bindings × Nat) :=
  joined.map fun j => (j.2, d)

/-- From all bindings without variables in their values, the enumeration lists the tuples
for the goals. -/
def ListsJoins (clauses : List Clause) (goals : List Compound) : Prop :=
  ∀ (b : Bindings) (d : Nat), b.Ground → ∃ joined, Listing b (Joins clauses goals) joined ∧
    Enumerates clauses clauses goals b d (stamped joined d) (some d)

section
variable {clauses : List Clause} (goal : Compound) {rest : List Compound} {b : Bindings} (d : Nat)

/-- What one fact contributes: the tuples for the other goals, under the solutions that make
the goal this fact. -/
theorem exists_listing_fact (hrest : ListsJoins clauses rest) (hb : b.Ground) {head : Compound}
    (hhead : head.vars = []) :
    ∃ joined, Listing b (fun v js => v.compound goal = head ∧ Joins clauses rest v js) joined ∧
      ∀ {pending more}, Enumerates clauses pending (goal :: rest) b d more (some d) →
        Enumerates clauses (.fact head :: pending) (goal :: rest) b d
          (stamped joined d ++ more) (some d) := by
  obtain ⟨n, r, hunify, hresult⟩ := unifyCompound_returns goal hb hhead
  have hsolves (v : Valuation) : SolvesResult v b (v.compound goal = head) r := by
    have h := unifyCompound_solves hb.oriented hunify v
    rwa [v.compound_ground hhead] at h
  by_cases hsig : goal.SameSignature (Clause.fact head).head
  · cases r with
    | error clash =>
      refine ⟨[], listing_nil fun v js hv hj => hsolves v ⟨hv, hj.1⟩, fun hnext => ?_⟩
      exact .clash hsig rfl hunify hnext
    | ok b' =>
      obtain ⟨joined, hlisting, hbelow⟩ := hrest b' d hresult
      have hiff (v : Valuation) : v.Solves b' ↔ v.Solves b ∧ v.compound goal = head := hsolves v
      refine ⟨joined, ⟨hlisting.sorted, fun hv hj => ?_, hlisting.ground, fun hc v => ?_⟩,
        fun hnext => .apply hsig rfl hunify hbelow hnext⟩
      · exact hlisting.complete ((hiff _).2 ⟨hv, hj.1⟩) hj.2
      · rw [hlisting.solves hc v, hiff v, and_assoc]
  · refine ⟨[], listing_nil fun v js _ hj => hsig ?_, fun hnext => .skip hsig hnext⟩
    have hhead : v.compound goal = head := hj.1
    rw [Compound.sameSignature_iff, Clause.head, ← hhead]
    exact (Compound.signature_subst _ goal).symm

/-- The facts from the index `k` on, one after another. -/
theorem exists_listing_from (hfacts : ∀ c ∈ clauses, ∃ head, c = .fact head ∧ head.vars = [])
    (hrest : ListsJoins clauses rest) (hb : b.Ground) (pending : List Clause) (k : Nat)
    (hpending : clauses.drop k = pending) :
    ∃ joined, Listing b (fun v js => (∃ j js', js = j :: js' ∧ k ≤ j) ∧
        Joins clauses (goal :: rest) v js) joined ∧
      Enumerates clauses pending (goal :: rest) b d (stamped joined d) (some d) := by
  induction pending generalizing k with
  | nil =>
    refine ⟨[], listing_nil ?_, .exhausted⟩
    rintro v _ _ ⟨⟨j, js, rfl, hkj⟩, hj⟩
    cases hj with
    | cons hj _ =>
      have hlen := List.drop_eq_nil_iff.1 hpending
      simp [List.getElem?_eq_none (hlen.trans hkj)] at hj
  | cons c pending ih =>
    have hk : clauses[k]? = some c := by
      rw [← List.head?_drop, hpending, List.head?_cons]
    obtain ⟨head, rfl, hhead⟩ := hfacts c (List.mem_of_getElem? hk)
    obtain ⟨joined₁, h₁, hfact⟩ := exists_listing_fact goal d hrest hb hhead
    obtain ⟨joined₂, h₂, hnext⟩ := ih (k + 1) (by rw [← List.tail_drop, hpending, List.tail_cons])
    refine ⟨_, h₁.append (k := k) h₂ (fun v js hj => hj.1) fun v js => ?_, ?_⟩
    · constructor
      · rintro ⟨⟨j, js, rfl, hkj⟩, hj⟩
        rcases Nat.eq_or_lt_of_le hkj with rfl | hlt
        · cases hj with
          | cons hj hrest =>
            rw [hk, Option.some.injEq, Clause.fact.injEq] at hj
            exact .inl ⟨js, rfl, hj.symm, hrest⟩
        · exact .inr ⟨⟨j, js, rfl, hlt⟩, hj⟩
      · rintro (⟨js, rfl, hgoal, hrest⟩ | ⟨⟨j, js, rfl, hkj⟩, hj⟩)
        · exact ⟨⟨k, js, rfl, le_refl k⟩, .cons (hgoal ▸ hk) hrest⟩
        · exact ⟨⟨j, js, rfl, by omega⟩, hj⟩
    · have hall := hfact hnext
      simpa [stamped, Function.comp_def] using hall

end

theorem listsJoins {clauses : List Clause}
    (hfacts : ∀ c ∈ clauses, ∃ head, c = .fact head ∧ head.vars = []) (goals : List Compound) :
    ListsJoins clauses goals := by
  induction goals with
  | nil =>
    intro b d hb
    refine ⟨[([], b)], ⟨List.pairwise_singleton _ _, fun _ hj => ?_, fun hc => ?_, fun hc v => ?_⟩,
      .answer⟩
    · cases hj
      exact List.mem_singleton_self _
    · cases List.mem_singleton.1 hc
      exact hb
    · cases List.mem_singleton.1 hc
      simp [Joins]
  | cons goal rest ih =>
    intro b d hb
    obtain ⟨joined, hlisting, h⟩ := exists_listing_from goal d hfacts ih hb clauses 0 rfl
    refine ⟨joined, ⟨hlisting.sorted, fun hv hj => hlisting.complete hv ⟨?_, hj⟩, hlisting.ground,
      fun {js c} hc v => ?_⟩, h⟩
    · cases hj with
      | cons _ _ => exact ⟨_, _, rfl, Nat.zero_le _⟩
    · obtain ⟨_, _, hnonempty, _⟩ := hlisting.mem_iff.1 (List.mem_map_of_mem hc)
      rw [hlisting.solves hc v]
      simp only [hnonempty, true_and]

/-! ## Searches -/

def namesOf (goals : List Compound) : List String := (goals.flatMap Compound.vars).map Var.name

theorem mem_namesOf {goals : List Compound} {x : String} :
    x ∈ namesOf goals ↔ ∃ g ∈ goals, ∃ y ∈ g.vars, y.name = x := by
  simp only [namesOf, List.mem_map, List.mem_flatMap]
  constructor
  · rintro ⟨y, ⟨g, hg, hy⟩, rfl⟩
    exact ⟨g, hg, y, hy, rfl⟩
  · rintro ⟨g, hg, y, hy, rfl⟩
    exact ⟨y, ⟨g, hg, hy⟩, rfl⟩

/-- What nested loops give, one loop for each goal: the search finishes and draws nothing, and
its answers are those of the tuples of indices for which some valuation makes the goals the
facts of these indices, in lexicographic order. An answer binds the variables of the goals
to what the valuation gives them, and nothing else. -/
structure Database.NestedLoops (db : Database) (goals : List Compound)
    (joined : List (List Nat × Bindings)) : Prop where
  finishes : db.Finishes goals (stamped joined db.drawn) db.drawn
  sorted : (joined.map Prod.fst).Pairwise (· < ·)
  tuples : ∀ js, js ∈ joined.map Prod.fst ↔ ∃ v, Joins db.clauses goals v js
  binds : ∀ js b, (js, b) ∈ joined → ∀ v, Joins db.clauses goals v js → ∀ x,
    b.get? x = if x ∈ namesOf goals then some (v.value x) else none

/-- On a database of facts without variables every search is a nested-loop join. -/
theorem exists_nestedLoops {db : Database}
    (hfacts : ∀ c ∈ db.clauses, ∃ head, c = .fact head ∧ head.vars = []) (goals : List Compound) :
    ∃ joined, db.NestedLoops goals joined := by
  obtain ⟨joined, hlisting, h⟩ := listsJoins hfacts goals .empty db.drawn Bindings.ground_empty
  refine ⟨joined, finishes_iff.2 h, hlisting.sorted, fun js => ?_, fun js b hb v hv x => ?_⟩
  · simp [hlisting.mem_iff, Valuation.solves_empty]
  · have hsolves (v : Valuation) : v.Solves b ↔ Joins db.clauses goals v js := by
      simp [hlisting.solves hb v, Valuation.solves_empty]
    refine get?_of_solves_iff (hlisting.ground hb) hsolves (fun v w hvw hv => ?_)
      (fun v w hv hw => ?_) hv x
    · exact hv.of_agree fun g hg y hy => hvw _ (mem_namesOf.2 ⟨g, hg, y, hy, rfl⟩)
    · intro x hx
      obtain ⟨g, hg, y, hy, rfl⟩ := mem_namesOf.1 hx
      exact hv.agree hw g hg y hy

/-- From `1` to the pair of `2` with itself, and from `2` to `3`, by a pattern in which one
variable stands three times. Before, seven variables were drawn. -/
theorem exists_nestedLoops_edges :
    let edge (s t : Term) : Compound := ⟨"edge", [s, t]⟩
    let pair (s t : Term) : Term := .app "pair" [s, t]
    let db : Database := ⟨[.fact (edge (.num 2) (.num 3)),
      .fact (edge (.num 1) (pair (.num 2) (.num 2))), .fact (edge (.num 1) (.num 2))], 7⟩
    let y : Term := .var (.ofName "Y")
    let goals := [edge (.var (.ofName "X")) (pair y y), edge y (.var (.ofName "Z"))]
    (∀ c ∈ db.clauses, ∃ head, c = .fact head ∧ head.vars = []) ∧
    (∃ joined, db.NestedLoops goals joined) ∧
    db.replies 9 2 (db.query goals) = some [(some (.ofList [(.ofName "X", .num 1),
      (.ofName "Y", .num 2), (.ofName "Z", .num 3)]), 7), (none, 7)] := by
  intro edge pair db y goals
  have hfacts : ∀ c ∈ db.clauses, ∃ head, c = .fact head ∧ head.vars = [] := by
    simp [db, edge, pair, Compound.vars, Term.varsAll, Term.vars]
  exact ⟨hfacts, exists_nestedLoops hfacts goals, by decide⟩

end HornSearch
