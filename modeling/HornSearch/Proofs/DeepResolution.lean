import HornSearch.Proofs.Materialization

/-!
# Deep resolution as a substitution

On acyclic bindings deep resolution has a result for every term, and it is a
substitution (`Acyclic.deep_eq_subst`): every variable is replaced by what it
stands for. Two facts make it useful for reasoning about solutions:

* a valuation that solves the bindings absorbs it (`Solves.term_deep`);
* read through the bindings, every valuation becomes one that solves them
  (`Valuation.solves_through`), so acyclic bindings always have solutions.

On oriented bindings no variable is resolved to one of a larger name
(`Acyclic.deep_var_le`). Bindings stay acyclic if a free variable is bound to a
term of which it is no part (`Acyclic.put`).
-/

namespace HornSearch

namespace Term

variable {f : Var → Option Term} {t u : Term}

theorem forall_of_substM (h : t.substM f = some u) : ∀ x ∈ t.vars, ∃ w, f x = some w := by
  induction t generalizing u with
  | num n => simp
  | atom a => simp
  | var x =>
    simp only [substM] at h
    simp [h]
  | app c ts ih =>
    obtain ⟨us, rfl, hus⟩ := substM_app_eq_some_iff.1 h
    intro x hx
    obtain ⟨s, hs, hx⟩ := mem_vars_app.1 hx
    obtain ⟨i, hi, rfl⟩ := List.getElem_of_mem hs
    exact ih _ hs (hus.get hi (hus.length_eq ▸ hi)) x hx

/-- Replacing variables, where it succeeds, is a substitution. -/
theorem eq_subst_of_substM (h : t.substM f = some u) :
    u = t.subst fun x => (f x).getD (.var x) := by
  have hvars : ∀ x ∈ t.vars, f x = some ((f x).getD (.var x)) := by
    intro x hx
    obtain ⟨w, hw⟩ := forall_of_substM h x hx
    simp [hw]
  rw [substM_of_forall hvars] at h
  exact (Option.some.inj h).symm

theorem substM_mono {g : Var → Option Term} (hfg : ∀ x w, f x = some w → g x = some w)
    (h : t.substM f = some u) : t.substM g = some u := by
  rw [eq_subst_of_substM h]
  apply substM_of_forall
  intro x hx
  obtain ⟨w, hw⟩ := forall_of_substM h x hx
  rw [hfg x w hw, hw]
  rfl

end Term

namespace Bindings

variable {b : Bindings}

theorem expand_mono_succ {n : Nat} {t u : Term} (h : b.expand n t = some u) :
    b.expand (n + 1) t = some u := by
  induction n generalizing t u with
  | zero =>
    rw [expand_eq_substM] at h ⊢
    refine Term.substM_mono (fun x w hx => ?_) h
    cases hf : b.follow? (.var x) with
    | none => rw [← hx, expand_free hf, expand_free hf]
    | some s => rw [expand_zero hf] at hx; cases hx
  | succ n ih =>
    rw [expand_eq_substM] at h ⊢
    refine Term.substM_mono (fun x w hx => ?_) h
    cases hf : b.follow? (.var x) with
    | none => rw [← hx, expand_free hf, expand_free hf]
    | some s =>
      rw [expand_succ hf] at hx ⊢
      exact ih hx

theorem expand_mono {n m : Nat} (hnm : n ≤ m) {t u : Term} (h : b.expand n t = some u) :
    b.expand m t = some u := by
  induction hnm with
  | refl => exact h
  | step _ ih => exact expand_mono_succ ih

/-- Values that mention only smaller names make no cycle. -/
theorem acyclic_of_lt (h : ∀ x t, b.get? x = some t → t.Within (· < x)) : b.Acyclic := by
  have hlt {x y : String} (hxy : Relation.TransGen b.Mentions x y) : y < x := by
    induction hxy with
    | single hm =>
      obtain ⟨t, ht, z, hz, rfl⟩ := hm
      exact h _ t ht z hz
    | tail _ hm ih =>
      obtain ⟨t, ht, z, hz, rfl⟩ := hm
      exact (h _ t ht z hz).trans ih
  exact fun x hx => lt_irrefl x (hlt hx)

theorem acyclic_ofList {pairs : List (Var × Term)}
    (h : ∀ p ∈ pairs, p.2.Within (· < p.1.name)) : (ofList pairs).Acyclic := by
  apply acyclic_of_lt
  intro x t hx
  obtain ⟨y, hy, rfl⟩ := mem_of_get?_ofList hx
  exact h _ hy

namespace Acyclic

theorem deep_of_expand (ha : b.Acyclic) {n : Nat} {t u : Term} (h : b.expand n t = some u) :
    b.deep t = u := by
  have hdeep := expand_mono (Nat.le_max_right n b.size) (ha.resolveDeep_eq t)
  rw [expand_mono (Nat.le_max_left n b.size) h] at hdeep
  exact (Option.some.inj hdeep).symm

/-- On acyclic bindings no variable is bound to itself. -/
theorem follow?_var (ha : b.Acyclic) (x : Var) : b.follow? (.var x) = b.get? x.name := by
  simp only [follow?]
  split
  · rename_i y h
    rw [if_neg, h]
    intro e
    exact ha x.name (.single ⟨.var y, h, y, by simp, e⟩)
  · rfl

theorem deep_free (ha : b.Acyclic) {x : Var} (h : b.get? x.name = none) :
    b.deep (.var x) = .var x :=
  ha.deep_of_expand (expand_free (ha.follow?_var x ▸ h) 0)

theorem deep_bound (ha : b.Acyclic) {x : Var} {t : Term} (h : b.get? x.name = some t) :
    b.deep (.var x) = b.deep t := by
  apply ha.deep_of_expand (n := b.size + 1)
  rw [expand_succ (ha.follow?_var x ▸ h)]
  exact ha.resolveDeep_eq t

theorem deep_eq_subst (ha : b.Acyclic) (t : Term) :
    b.deep t = t.subst fun x => b.deep (.var x) := by
  apply ha.deep_of_expand (n := b.size)
  rw [expand_eq_substM]
  exact Term.substM_of_forall fun x _ => ha.resolveDeep_eq (.var x)

theorem deep_num (ha : b.Acyclic) (n : Int64) : b.deep (.num n) = .num n := by
  rw [ha.deep_eq_subst, Term.subst_num]

theorem deep_atom (ha : b.Acyclic) (a : String) : b.deep (.atom a) = .atom a := by
  rw [ha.deep_eq_subst, Term.subst_atom]

theorem deep_app (ha : b.Acyclic) (f : String) (ts : List Term) :
    b.deep (.app f ts) = .app f (ts.map b.deep) := by
  rw [ha.deep_eq_subst, Term.subst_app]
  simp only [Term.app.injEq, true_and]
  exact List.map_congr_left fun t _ => (ha.deep_eq_subst t).symm

/-- Induction along acyclic bindings: from the variables of its value to a bound
variable. -/
@[elab_as_elim]
theorem induct (ha : b.Acyclic) {motive : Var → Prop}
    (free : ∀ x, b.get? x.name = none → motive x)
    (bound : ∀ x t, b.get? x.name = some t → (∀ y ∈ t.vars, motive y) → motive x) (x : Var) :
    motive x := by
  have resolved (n : Nat) : ∀ t u, b.expand n t = some u → ∀ y ∈ t.vars, motive y := by
    induction n with
    | zero =>
      intro t u h y hy
      rw [expand_eq_substM] at h
      obtain ⟨w, hw⟩ := Term.forall_of_substM h y hy
      cases hf : b.follow? (.var y) with
      | none => exact free y (ha.follow?_var y ▸ hf)
      | some s => rw [expand_zero hf] at hw; cases hw
    | succ n ih =>
      intro t u h y hy
      rw [expand_eq_substM] at h
      obtain ⟨w, hw⟩ := Term.forall_of_substM h y hy
      cases hf : b.follow? (.var y) with
      | none => exact free y (ha.follow?_var y ▸ hf)
      | some s =>
        rw [expand_succ hf] at hw
        exact bound y s (ha.follow?_var y ▸ hf) (ih s w hw)
  exact resolved _ _ _ (ha.resolveDeep_eq (.var x)) x (by simp)

/-- A deep result has no variables but those of the term and of the bindings. -/
theorem over_deep (ha : b.Acyclic) {V : Var → Prop} (hb : b.Over V) {t : Term} (ht : t.Over V) :
    (b.deep t).Over V := by
  have hvar (x : Var) : V x → (b.deep (.var x)).Over V := by
    induction x using ha.induct with
    | free x hx =>
      intro hV
      rw [ha.deep_free hx]
      simpa [Term.Over] using hV
    | bound x t hx ih =>
      intro _ y hy
      rw [ha.deep_bound hx, ha.deep_eq_subst] at hy
      obtain ⟨z, hz, hy⟩ := Term.mem_vars_subst.1 hy
      exact ih z hz (hb.value hx z hz) y hy
  intro y hy
  rw [ha.deep_eq_subst] at hy
  obtain ⟨x, hx, hy⟩ := Term.mem_vars_subst.1 hy
  exact hvar x (ht x hx) y hy

/-- What resolves to a variable is one. -/
theorem eq_var_of_deep (ha : b.Acyclic) {t : Term} {y : Var} (h : b.deep t = .var y) :
    ∃ x, t = .var x := by
  cases t with
  | num n => rw [ha.deep_num] at h; cases h
  | atom a => rw [ha.deep_atom] at h; cases h
  | var x => exact ⟨x, rfl⟩
  | app f ts => rw [ha.deep_app] at h; cases h

/-- Every step between variables leads to a smaller name, so a class of linked
variables is represented by the least of them. -/
theorem deep_var_le (ha : b.Acyclic) (ho : b.Oriented) {x y : Var}
    (h : b.deep (.var x) = .var y) : y.name ≤ x.name := by
  induction x using ha.induct with
  | free x hx =>
    rw [ha.deep_free hx] at h
    cases h
    exact le_refl _
  | bound x t hx ih =>
    rw [ha.deep_bound hx] at h
    obtain ⟨z, rfl⟩ := ha.eq_var_of_deep h
    exact (ih z (by simp) h).trans (le_of_lt (ho _ _ hx))

/-- A term stands for what the term stands for that it leads to. -/
theorem deep_of_leads (ha : b.Acyclic) {s t : Term} (h : b.Leads s t) : b.deep s = b.deep t := by
  induction h with
  | stop _ => rfl
  | follow hf _ ih =>
    obtain ⟨x, rfl, hx⟩ := eq_var_of_follow? hf
    rw [ha.deep_bound hx, ih]

/-! ### One more binding -/

/-- A free variable that is mentioned on some way from another one is a part of
what that one stands for. -/
theorem mem_vars_deep_of_mentions (ha : b.Acyclic) {x : String} (hx : b.get? x = none) (y : Var) :
    Relation.ReflTransGen b.Mentions y.name x → ∃ z ∈ (b.deep (.var y)).vars, z.name = x := by
  induction y using ha.induct with
  | free y hy =>
    intro h
    obtain hyx | ⟨_, ⟨t, ht, _⟩, _⟩ := h.cases_head
    · exact ⟨y, by simp [ha.deep_free hy], hyx⟩
    · simp [hy] at ht
  | bound y t hy ih =>
    intro h
    obtain rfl | ⟨_, ⟨t', ht', v, hv, rfl⟩, hrest⟩ := h.cases_head
    · simp [hx] at hy
    · rw [hy] at ht'
      cases ht'
      obtain ⟨z, hz, hname⟩ := ih v hv hrest
      refine ⟨z, ?_, hname⟩
      rw [ha.deep_bound hy, ha.deep_eq_subst]
      exact Term.mem_vars_subst.2 ⟨v, hv, hz⟩

/-- A free variable may be bound to a term unless it is a part of what the term
stands for: then no cycle arises. -/
theorem put (ha : b.Acyclic) {x : Var} {t : Term} (hx : b.get? x.name = none)
    (ht : ∀ y ∈ (b.deep t).vars, y.name ≠ x.name) : (b.put x t).Acyclic := by
  have hback : ∀ y ∈ t.vars, ¬Relation.ReflTransGen b.Mentions y.name x.name := by
    intro y hy h
    obtain ⟨z, hz, hname⟩ := ha.mem_vars_deep_of_mentions hx y h
    refine ht z ?_ hname
    rw [ha.deep_eq_subst]
    exact Term.mem_vars_subst.2 ⟨y, hy, hz⟩
  -- A way in the new bindings is an old one, or goes to `x` and on from its value.
  have hways {u w : String} (h : Relation.TransGen (b.put x t).Mentions u w) :
      Relation.TransGen b.Mentions u w ∨ (Relation.ReflTransGen b.Mentions u x.name ∧
        ∃ y ∈ t.vars, Relation.ReflTransGen b.Mentions y.name w) := by
    induction h using Relation.TransGen.trans_induction_on with
    | @single u w hm =>
      obtain ⟨s, hs, v, hv, rfl⟩ := hm
      rw [get?_put] at hs
      split at hs
      · rename_i hname
        cases hs
        exact .inr ⟨hname ▸ .refl, v, hv, .refl⟩
      · exact .inl (.single ⟨s, hs, v, hv, rfl⟩)
    | trans _ _ left right =>
      rcases left with hold | ⟨hux, y, hy, hym⟩
      · rcases right with hold' | ⟨hmx, hrest⟩
        · exact .inl (hold.trans hold')
        · exact .inr ⟨hold.to_reflTransGen.trans hmx, hrest⟩
      · rcases right with hold' | ⟨_, hrest⟩
        · exact .inr ⟨hux, y, hy, hym.trans hold'.to_reflTransGen⟩
        · exact .inr ⟨hux, hrest⟩
  intro u hu
  rcases hways hu with hold | ⟨hux, y, hy, hyu⟩
  · exact ha u hold
  · exact hback y hy (hyu.trans hux)

end Acyclic

end Bindings

/-! ## Solutions -/

namespace Valuation

variable {v : Valuation} {b : Bindings}

theorem ground_term (v : Valuation) (t : Term) : (v.term t).vars = [] := by
  rw [List.eq_nil_iff_forall_not_mem]
  intro y hy
  obtain ⟨x, _, hy⟩ := Term.mem_vars_subst.1 hy
  rw [v.ground] at hy
  cases hy

theorem term_subst (v : Valuation) (f : Var → Term) (t : Term) :
    v.term (t.subst f) = t.subst fun x => v.term (f x) :=
  Term.subst_subst f _ t

/-- A solution absorbs deep resolution. -/
theorem Solves.term_deep (hv : v.Solves b) (ha : b.Acyclic) (t : Term) :
    v.term (b.deep t) = v.term t := by
  have hvar (x : Var) : v.term (b.deep (.var x)) = v.value x.name := by
    induction x using ha.induct with
    | free x hx => rw [ha.deep_free hx, term_var]
    | bound x t hx ih =>
      calc v.term (b.deep (.var x)) = v.term (b.deep t) := by rw [ha.deep_bound hx]
        _ = t.subst fun y => v.term (b.deep (.var y)) := by rw [ha.deep_eq_subst, term_subst]
        _ = v.term t := Term.subst_congr ih
        _ = v.value x.name := (hv _ _ hx).symm
  rw [ha.deep_eq_subst, term_subst]
  exact Term.subst_congr fun x _ => hvar x

/-- The valuation that reads every variable through the bindings. -/
def through (v : Valuation) (b : Bindings) : Valuation where
  value x := v.term (b.deep (.var (.ofName x)))
  ground _ := v.ground_term _

theorem value_through (v : Valuation) (ha : b.Acyclic) (x : Var) :
    (v.through b).value x.name = v.term (b.deep (.var x)) := by
  cases hx : b.get? x.name with
  | none => simp [through, Var.ofName, ha.deep_free, hx]
  | some t => simp [through, Var.ofName, ha.deep_bound, hx]

theorem term_through (v : Valuation) (ha : b.Acyclic) (t : Term) :
    (v.through b).term t = v.term (b.deep t) := by
  rw [ha.deep_eq_subst, term_subst]
  exact Term.subst_congr fun x _ => v.value_through ha x

theorem solves_through (v : Valuation) (ha : b.Acyclic) : (v.through b).Solves b := by
  intro x t hx
  calc (v.through b).value x = v.term (b.deep (.var (.ofName x))) := rfl
    _ = v.term (b.deep t) := by rw [ha.deep_bound (x := .ofName x) hx]
    _ = (v.through b).term t := (v.term_through ha t).symm

end Valuation

end HornSearch
