import HornSearch.Proofs.FirstClash
import HornSearch.Proofs.Idempotence

/-!
# Solvable equations are solved

On acyclic bindings unification succeeds if the bindings and the equation have a common
solution (`exists_unify_of_solves`). It comes to an end because the occurs check never gives
up then: a variable that is a part of a compound is smaller than it in every solution
(`not_solves_of_occurs`). Without a solution it need not end, but it clashes where both
sides are seen to differ at their roots after the arguments before were unified
(`exists_unifyCompound_clash`).

What all solutions agree on is also seen through the bindings (`deep_eq_of_solves`).
-/

namespace HornSearch

variable {b : Bindings} {v : Valuation} {n : Nat} {s t : Term}

/-! ## The occurs check -/

namespace Valuation

theorem sizeOf_term_lt (v : Valuation) {f : String} {ts : List Term} {t : Term} (ht : t ∈ ts) :
    sizeOf (v.term t) < sizeOf (v.term (.app f ts)) := by
  have hmem := List.sizeOf_lt_of_mem (List.mem_map_of_mem (f := v.term) ht)
  rw [term_app, Term.app.sizeOf_spec]
  omega

theorem sizeOf_value_le (v : Valuation) {x : Var} (hx : x ∈ t.vars) :
    sizeOf (v.value x.name) ≤ sizeOf (v.term t) := by
  induction t with
  | num n => simp at hx
  | atom a => simp at hx
  | var y =>
    obtain rfl : x = y := by simpa using hx
    simp
  | app f ts ih =>
    obtain ⟨t, ht, hx⟩ := Term.mem_vars_app.1 hx
    exact (ih t ht hx).trans (v.sizeOf_term_lt ht).le

/-- Where all values are larger than this one, there is no variable in the term. -/
theorem eq_of_sizeOf_lt (v : Valuation) {u : Term} (hu : v.term u = t)
    (hlarge : ∀ x, sizeOf t < sizeOf (v.value x)) : u = t := by
  have hvars : u.vars = [] := by
    refine List.eq_nil_iff_forall_not_mem.2 fun x hx => ?_
    have hle := v.sizeOf_value_le hx
    rw [hu] at hle
    exact absurd (hlarge x.name) (Nat.not_lt.2 hle)
  rwa [v.term_ground hvars] at hu

/-- A part is smaller than the whole. -/
theorem value_ne_of_mem (v : Valuation) {x : Var} (ht : t.Rigid) (hx : x ∈ t.vars) :
    v.value x.name ≠ v.term t := by
  cases t with
  | num n => simp at hx
  | atom a => simp at hx
  | var y => exact absurd rfl (ht y)
  | app f ts =>
    obtain ⟨t, ht, hx⟩ := Term.mem_vars_app.1 hx
    have hle := v.sizeOf_value_le hx
    have hlt := v.sizeOf_term_lt (f := f) ht
    intro e
    rw [e] at hle
    omega

end Valuation

theorem Bindings.Acyclic.rigid_deep (ha : b.Acyclic) (ht : t.Rigid) : (b.deep t).Rigid := by
  intro y hy
  obtain ⟨x, rfl⟩ := ha.eq_var_of_deep hy
  exact ht x rfl

/-- The check only finds variables that the equation cannot be solved for. -/
theorem not_solves_of_bindChecked (ho : b.Oriented) (ha : b.Acyclic) {x : Var} (ht : t.Rigid)
    (h : b.bindChecked n x t = some .occurs) (hv : v.Solves b) : v.value x.name ≠ v.term t := by
  simp only [Bindings.bindChecked, Option.bind_eq_bind, Option.bind_eq_some_iff] at h
  obtain ⟨found, hfound, h⟩ := h
  cases found with
  | false => cases h
  | true =>
    obtain ⟨y, hy, hname⟩ := List.any_eq_true.1 (occurs_eq ho ha hfound).symm
    rw [← hv.term_deep ha t, ← of_decide_eq_true hname]
    exact v.value_ne_of_mem (ha.rigid_deep ht) hy

theorem not_solves_of_checkedPairs {ss ts : List Term}
    (hcall : ∀ {b s t}, b.Oriented → b.Acyclic → unifyChecked n b s t = some .occurs →
      v.Solves b → v.term s ≠ v.term t)
    (ho : b.Oriented) (ha : b.Acyclic) (h : checkedPairs (unifyChecked n) b ss ts = some .occurs)
    (hv : v.Solves b) : ss.map v.term ≠ ts.map v.term := by
  induction ss generalizing b ts with
  | nil => cases h
  | cons s ss ih =>
    cases ts with
    | nil => cases h
    | cons t ts =>
      intro e
      obtain ⟨hst, e⟩ := List.cons.inj e
      simp only [checkedPairs] at h
      cases hread : unifyChecked n b s t with
      | none => simp [hread] at h
      | some o =>
        cases o with
        | unified b' =>
          have hok := unify_of_unifyChecked ho hread
          have hv' : v.Solves b' := (show _ ↔ _ from unify_solves ho hok v).2 ⟨hv, hst⟩
          simp only [hread] at h
          exact ih (unify_oriented ho hok) (unifyChecked_acyclic ho ha hread) h hv' e
        | clash => simp [hread] at h
        | occurs => exact hcall ho ha hread hv hst

/-- If the check gives up, then the equation has no solution. -/
theorem not_solves_of_occurs (ho : b.Oriented) (ha : b.Acyclic)
    (h : unifyChecked n b s t = some .occurs) (hv : v.Solves b) : v.term s ≠ v.term t := by
  induction n generalizing b s t with
  | zero => cases h
  | succ n ih =>
    obtain ⟨s', t', hs, ht, -, hstep⟩ := unifyChecked_succ ho n s t
    rw [h] at hstep
    rw [hv.resolve hs, hv.resolve ht]
    generalize ho' : some Checked.occurs = o at hstep
    cases hstep with
    | left hrigid => exact not_solves_of_bindChecked ho ha hrigid ho'.symm hv
    | right hrigid => exact (not_solves_of_bindChecked ho ha hrigid ho'.symm hv).symm
    | args _ =>
      have hpairs := not_solves_of_checkedPairs (fun ho ha h => ih ho ha h) ho ha ho'.symm hv
      simpa using hpairs
    | link => cases ho'
    | num => cases ho'
    | atom => cases ho'
    | clash _ => cases ho'

/-! ## Success -/

/-- What unification comes to where there is a solution: bindings with exactly the solutions
that satisfy the equation. -/
structure Unified (b : Bindings) (E : Valuation → Prop) (b' : Bindings) : Prop where
  oriented : b'.Oriented
  acyclic : b'.Acyclic
  solves : ∀ v : Valuation, v.Solves b' ↔ v.Solves b ∧ E v

theorem exists_unify_of_solves (ho : b.Oriented) (ha : b.Acyclic) (hv : v.Solves b)
    (hst : v.term s = v.term t) :
    ∃ n b', unify n b s t = some (.ok b') ∧ Unified b (fun v => v.term s = v.term t) b' := by
  obtain ⟨N, htame, hs, ht⟩ := exists_tame ho ha s t
  obtain ⟨n, r, hr⟩ := unifyChecked_total htame hs ht
  cases r with
  | unified b' =>
    have hok := unify_of_unifyChecked ho hr
    exact ⟨n, b', hok, unify_oriented ho hok, unifyChecked_acyclic ho ha hr, unify_solves ho hok⟩
  | clash =>
    obtain ⟨clash, herror⟩ := agrees_unifyChecked ho hr
    exact absurd ⟨hv, hst⟩ (unify_solves ho herror v)
  | occurs => exact absurd hst (not_solves_of_occurs ho ha hr hv)

theorem exists_unifyPairs_of_solves {ss ts : List Term} (ho : b.Oriented) (ha : b.Acyclic)
    (hv : v.Solves b) (h : ss.map v.term = ts.map v.term) :
    ∃ n b', unifyPairs (unify n) b ss ts = some (.ok b') ∧
      Unified b (fun v => ss.map v.term = ts.map v.term) b' := by
  have hlen : ss.length = ts.length := by simpa using congrArg List.length h
  -- The lists are the arguments of compounds, of any name.
  obtain ⟨n, b', hunify, hb'⟩ :=
    exists_unify_of_solves (s := .app "" ss) (t := .app "" ts) ho ha hv (by simp [h])
  cases n with
  | zero => cases hunify
  | succ n =>
    have hrigid (us : List Term) : b.resolve (.app "" us) = some (.app "" us) :=
      Bindings.resolve_of_rigid (by simp [Term.Rigid])
    rw [unify_args (hrigid ss) (hrigid ts) hlen] at hunify
    exact ⟨n, b', hunify, hb'.oriented, hb'.acyclic, fun w => by simpa using hb'.solves w⟩

theorem exists_unifyCompound_of_solves {c d : Compound} (ho : b.Oriented) (ha : b.Acyclic)
    (hv : v.Solves b) (h : v.compound c = v.compound d) :
    ∃ n b', unifyCompound n b c d = some (.ok b') ∧
      Unified b (fun v => v.compound c = v.compound d) b' := by
  simp only [Valuation.compound_eq, Compound.mk.injEq] at h
  obtain ⟨n, b', hunify, hb'⟩ := exists_unifyPairs_of_solves ho ha hv h.2
  have hsig : c.SameSignature d :=
    ⟨h.1, by simpa [Compound.arity] using congrArg List.length h.2⟩
  refine ⟨n, b', (if_pos hsig).trans hunify, hb'.oriented, hb'.acyclic, fun w => ?_⟩
  simpa [Valuation.compound_eq, h.1] using hb'.solves w

/-! ## Clashes -/

theorem clashes_subst_iff (hs : s.Rigid) (ht : t.Rigid) (f : Var → Term) :
    (s.subst f).Clashes (t.subst f) ↔ s.Clashes t := by
  cases s with
  | var x => exact absurd rfl (hs x)
  | app g ss => cases t <;> simp_all [Term.Clashes, Term.Rigid]
  | _ => cases t <;> simp_all [Term.Clashes, Term.Rigid]

/-- Terms that stand for such with different roots clash at once. -/
theorem exists_unify_clash (ho : b.Oriented) (ha : b.Acyclic)
    (h : (b.deep s).Clashes (b.deep t)) (n : Nat) :
    ∃ clash, unify (n + 1) b s t = some (.error clash) := by
  obtain ⟨s', hs⟩ := Bindings.resolve_total ho s
  obtain ⟨t', ht⟩ := Bindings.resolve_total ho t
  rw [ha.deep_of_leads (Bindings.leads_of_walk hs), ha.deep_of_leads (Bindings.leads_of_walk ht)]
    at h
  have rigid {u : Term} (hu : b.follow? u = none) (hdeep : (b.deep u).Rigid) : u.Rigid := by
    rintro x rfl
    exact hdeep x (ha.deep_free (ha.follow?_var x ▸ hu))
  have hs' := rigid (Bindings.resolve_free hs) h.rigid.1
  have ht' := rigid (Bindings.resolve_free ht) h.rigid.2
  rw [ha.deep_eq_subst s', ha.deep_eq_subst t', clashes_subst_iff hs' ht'] at h
  exact ⟨⟨s', t'⟩, by simp [unify, hs, ht, unifyRoots_of_clashes h]⟩

/-- Compounds clash where a pair of arguments does that differs at the roots already, if the
pairs before it have a common solution. -/
theorem exists_unifyCompound_clash {c d : Compound} {i : Nat} (ho : b.Oriented) (ha : b.Acyclic)
    (hsig : c.SameSignature d) (hs : c.args[i]? = some s) (ht : d.args[i]? = some t)
    (hv : v.Solves b) (hbefore : (c.args.take i).map v.term = (d.args.take i).map v.term)
    (h : (b.deep s).Clashes (b.deep t)) :
    ∃ n clash, unifyCompound n b c d = some (.error clash) := by
  obtain ⟨n, b', hunify, hb'⟩ := exists_unifyPairs_of_solves ho ha hv hbefore
  have hlen : (c.args.take i).length = (d.args.take i).length := by
    simpa using congrArg List.length hbefore
  have hext : b'.Extends b := extendsRules.pairs ho hlen hunify
  have hclash : (b'.deep s).Clashes (b'.deep t) := by
    rw [← ha.deep_deep hb'.acyclic hext s, ← ha.deep_deep hb'.acyclic hext t,
      hb'.acyclic.deep_eq_subst (b.deep s), hb'.acyclic.deep_eq_subst (b.deep t)]
    exact (clashes_subst_iff h.rigid.1 h.rigid.2 _).2 h
  obtain ⟨clash, herror⟩ := exists_unify_clash hb'.oriented hb'.acyclic hclash n
  refine ⟨n + 1, clash, (if_pos hsig).trans ?_⟩
  exact unifyPairs_error_iff.2
    ⟨i, s, t, b', hs, ht, unifyPairs_mono (fun _ _ _ _ => unify_succ) hunify, herror⟩

/-! ## What solutions agree on -/

theorem Term.eq_of_alike_of_ground (h : s.Alike t) (ht : t.vars = []) : s = t := by
  have hs : s.unflagged = t := h.trans (subst_of_ground _ ht)
  have hvars : s.vars = [] := by
    refine List.eq_nil_iff_forall_not_mem.2 fun x hx => ?_
    have hmem : Var.ofName x.name ∈ s.unflagged.vars := mem_vars_subst.2 ⟨x, hx, by simp⟩
    simp [hs, ht] at hmem
  rw [← hs, unflagged, subst_of_ground _ hvars]

/-- A term that has one value in all solutions stands for it. -/
theorem deep_eq_of_solves (ha : b.Acyclic) (ht : t.vars = [])
    (h : ∀ v : Valuation, v.Solves b → v.term s = t) : b.deep s = t := by
  refine Term.eq_of_alike_of_ground (Term.alike_of_term_eq fun v => ?_) ht
  rw [← v.term_through ha, h _ (v.solves_through ha)]
  exact (v.term_ground ht).symm

end HornSearch
