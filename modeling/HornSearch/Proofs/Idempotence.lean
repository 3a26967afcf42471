import HornSearch.Proofs.OccursCheck

/-!
# Resolving and unifying again

Bindings that include others know all that those know. So to resolve a term at every
depth in the smaller ones first makes no difference (`resolveDeep_of_includes`). With
both the same, this says that a resolved term is resolved already.

Likewise unification has nothing to do where both sides stand for the same: it gives
back the bindings as they are, and only then (`unify_unchanged`). It does so after
having succeeded once, unless that made a cycle.

As both sides are compared through the bindings, the induction is on the size of
what the left side stands for, not on the terms (`unify_of_deep_alike`).
-/

namespace HornSearch

namespace Bindings

variable {b c : Bindings}

/-- Every binding of `b` is one of `c`, up to the flags of variables. -/
def Includes (c b : Bindings) : Prop :=
  ∀ x t, b.get? x = some t → ∃ t', c.get? x = some t' ∧ t.Alike t'

theorem Extends.includes (h : c.Extends b) : c.Includes b :=
  fun _ t hx => ⟨t, h.get? hx, rfl⟩

theorem Alike.includes (h : b.Alike c) : c.Includes b := by
  intro x t hx
  obtain ⟨e, he, rfl⟩ := get?_eq_some_iff.1 hx
  have hentries : b.toList.map (fun p => (p.1, p.2.value.unflagged)) =
      c.toList.map (fun p => (p.1, p.2.value.unflagged)) := h
  have hmem : (x, e.value.unflagged) ∈ c.toList.map fun p => (p.1, p.2.value.unflagged) :=
    hentries ▸ List.mem_map.2 ⟨(x, e), mem_toList.2 he, rfl⟩
  obtain ⟨⟨y, e'⟩, he', heq⟩ := List.mem_map.1 hmem
  obtain ⟨rfl, halike⟩ := Prod.mk.inj heq
  exact ⟨e'.value, get?_eq_some_iff.2 ⟨e', mem_toList.1 he', rfl⟩, halike.symm⟩

/-! ## Resolving again -/

namespace Acyclic

theorem deep_subst (ha : b.Acyclic) (f : Var → Term) (t : Term) :
    b.deep (t.subst f) = t.subst fun x => b.deep (f x) := by
  rw [ha.deep_eq_subst, Term.subst_subst]
  exact Term.subst_congr fun x _ => (ha.deep_eq_subst (f x)).symm

/-- No variable that is left is bound. -/
theorem free_of_mem_deep (ha : b.Acyclic) {t : Term} {x : Var} (hx : x ∈ (b.deep t).vars) :
    b.get? x.name = none := by
  have hvar (y : Var) : ∀ x ∈ (b.deep (.var y)).vars, b.get? x.name = none := by
    induction y using ha.induct with
    | free y hy =>
      rw [ha.deep_free hy]
      simpa using hy
    | bound y t hy ih =>
      intro x hx
      rw [ha.deep_bound hy, ha.deep_eq_subst] at hx
      obtain ⟨z, hz, hx⟩ := Term.mem_vars_subst.1 hx
      exact ih z hz x hx
  rw [ha.deep_eq_subst] at hx
  obtain ⟨y, _, hx⟩ := Term.mem_vars_subst.1 hx
  exact hvar y x hx

/-- More bindings resolve what fewer have resolved to what they resolve at once. -/
theorem deep_deep (hb : b.Acyclic) (hc : c.Acyclic) (h : c.Extends b) (t : Term) :
    c.deep (b.deep t) = c.deep t := by
  have hterm (t : Term) (hvars : ∀ y ∈ t.vars, c.deep (b.deep (.var y)) = c.deep (.var y)) :
      c.deep (b.deep t) = c.deep t :=
    calc c.deep (b.deep t) = c.deep (t.subst fun y => b.deep (.var y)) := by
          rw [← hb.deep_eq_subst]
      _ = t.subst fun y => c.deep (b.deep (.var y)) := hc.deep_subst _ t
      _ = t.subst fun y => c.deep (.var y) := Term.subst_congr hvars
      _ = c.deep t := (hc.deep_eq_subst t).symm
  have hvar (x : Var) : c.deep (b.deep (.var x)) = c.deep (.var x) := by
    induction x using hb.induct with
    | free x hx => rw [hb.deep_free hx]
    | bound x u hx ih => rw [hb.deep_bound hx, hc.deep_bound (h.get? hx), hterm u ih]
  exact hterm t fun x _ => hvar x

end Acyclic

end Bindings

theorem Valuation.Solves.of_includes {v : Valuation} {b c : Bindings} (hv : v.Solves c)
    (h : c.Includes b) : v.Solves b := by
  intro x t hx
  obtain ⟨t', hx', halike⟩ := h x t hx
  rw [hv x t' hx', halike.term_eq v]

/-- For acyclic bindings that include others, resolving in the others first makes no
difference, not even to flags if the bindings agree on them; and what results mentions
no variable that is bound. -/
theorem resolveDeep_of_includes {b c : Bindings} (hb : b.Acyclic) (hc : c.Acyclic)
    (h : c.Includes b) (t : Term) :
    ∃ u w w', b.resolveDeep t = some u ∧ c.resolveDeep u = some w ∧ c.resolveDeep t = some w' ∧
      w.Alike w' ∧ (c.Extends b → w = w') ∧ ∀ x ∈ w'.vars, c.get? x.name = none := by
  have halike : (c.deep t).Alike (c.deep (b.deep t)) :=
    deep_alike_deep hc hb (fun _ hv => hv.of_includes h) t
  exact ⟨b.deep t, c.deep (b.deep t), c.deep t, hb.resolveDeep_eq t, hc.resolveDeep_eq _,
    hc.resolveDeep_eq t, halike.symm, fun hext => hb.deep_deep hc hext t,
    fun _ hx => hc.free_of_mem_deep hx⟩

/-- `h(Z)` becomes `h(f(Y))` and then `h(f(g(X)))`, or that at once. -/
theorem resolveDeep_of_includes_chain :
    let fy := Term.app "f" [.var (.ofName "Y")]
    let gx := Term.app "g" [.var (.ofName "X")]
    let b := Bindings.ofList [(.ofName "Z", fy)]
    let c := Bindings.ofList [(.ofName "Z", fy), (.ofName "Y", gx)]
    let t := Term.app "h" [.var (.ofName "Z")]
    (b.Acyclic ∧ c.Acyclic ∧ c.Includes b ∧ c.Extends b ∧ b.resolveDeep t ≠ c.resolveDeep t) ∧
    ∃ u w w', b.resolveDeep t = some u ∧ c.resolveDeep u = some w ∧ c.resolveDeep t = some w' ∧
      w.Alike w' ∧ (c.Extends b → w = w') ∧ ∀ x ∈ w'.vars, c.get? x.name = none := by
  intro fy gx b c t
  have hfy : ∀ x ∈ fy.vars, x.name < "Z" := by decide
  have hgx : ∀ x ∈ gx.vars, x.name < "Y" := by decide
  have hb : b.Acyclic := Bindings.acyclic_ofList (List.forall_mem_singleton.2 hfy)
  have hc : c.Acyclic :=
    Bindings.acyclic_ofList (List.forall_mem_cons.2 ⟨hfy, List.forall_mem_singleton.2 hgx⟩)
  have hbinds : b.Binds (.ofName "Y") gx := ⟨by decide, rfl, by simp [gx]⟩
  have hext : c.Extends b := hbinds.extends
  exact ⟨⟨hb, hc, hext.includes, hext, by decide⟩,
    resolveDeep_of_includes hb hc hext.includes t⟩

/-! ## Unifying again -/

/-- Both terms stand for the same at every depth, up to the flags of variables. -/
def Bindings.Equates (b : Bindings) (s t : Term) : Prop :=
  ∃ u w, b.resolveDeep s = some u ∧ b.resolveDeep t = some w ∧ u.Alike w

section
variable {b : Bindings} {s t : Term}

theorem equates_iff (ha : b.Acyclic) : b.Equates s t ↔ (b.deep s).Alike (b.deep t) := by
  simp [Bindings.Equates, ha.resolveDeep_eq]

/-- Pairs each of which changes nothing change nothing together. -/
theorem unifyPairs_unchanged {u : Bindings → Term → Term → Option (Except Clash Bindings)}
    {ss ts : List Term} (h : List.Forall₂ (fun s t => u b s t = some (.ok b)) ss ts) :
    unifyPairs u b ss ts = some (.ok b) := by
  induction h with
  | nil => rfl
  | cons hst _ ih => simpa only [unifyPairs, hst] using ih

/-- Two resolved terms that stand for the same: one free variable, one constant, or
compounds of one name whose arguments do. -/
inductive AlikeRoots (b : Bindings) : Term → Term → Prop where
  | var {x y : Var} (h : x.name = y.name) : AlikeRoots b (.var x) (.var y)
  | num (n : Int64) : AlikeRoots b (.num n) (.num n)
  | atom (a : String) : AlikeRoots b (.atom a) (.atom a)
  | app {f : String} {ss ts : List Term}
      (h : List.Forall₂ (fun s t => (b.deep s).Alike (b.deep t)) ss ts) :
      AlikeRoots b (.app f ss) (.app f ts)

theorem alikeRoots_of_deep (ha : b.Acyclic) (hs : b.follow? s = none) (ht : b.follow? t = none)
    (h : (b.deep s).Alike (b.deep t)) : AlikeRoots b s t := by
  have free {x : Var} (hx : b.follow? (.var x) = none) : b.deep (.var x) = .var x :=
    ha.deep_free (ha.follow?_var x ▸ hx)
  cases s with
  | var x =>
    rw [free hs] at h
    obtain ⟨y, hy, hname⟩ := Term.eq_var_of_alike h.symm
    obtain ⟨z, rfl⟩ := ha.eq_var_of_deep hy
    rw [free ht] at hy
    cases hy
    exact .var hname.symm
  | num n =>
    rw [ha.deep_num] at h
    cases t with
    | var y => simp [free ht, Term.Alike, Term.unflagged] at h
    | num m =>
      obtain rfl : n = m := by simpa [ha.deep_num, Term.Alike, Term.unflagged] using h
      exact .num n
    | _ => simp [ha.deep_atom, ha.deep_app, Term.Alike, Term.unflagged] at h
  | atom a =>
    rw [ha.deep_atom] at h
    cases t with
    | var y => simp [free ht, Term.Alike, Term.unflagged] at h
    | atom c =>
      obtain rfl : a = c := by simpa [ha.deep_atom, Term.Alike, Term.unflagged] using h
      exact .atom a
    | _ => simp [ha.deep_num, ha.deep_app, Term.Alike, Term.unflagged] at h
  | app f ss =>
    rw [ha.deep_app] at h
    obtain ⟨us, hus, hargs⟩ := Term.eq_app_of_alike h.symm
    cases t with
    | var y => simp [free ht] at hus
    | app g ts =>
      rw [ha.deep_app] at hus
      cases hus
      rw [List.forall₂_map_left_iff, List.forall₂_map_right_iff] at hargs
      exact .app (hargs.flip.imp fun _ _ e => e.symm)
    | _ => simp [ha.deep_num, ha.deep_atom] at hus

/-- Unification looks no deeper than the size of what the left side stands for. -/
theorem unify_of_deep_alike (ho : b.Oriented) (ha : b.Acyclic) {n : Nat}
    (hn : sizeOf (b.deep s) ≤ n) (h : (b.deep s).Alike (b.deep t)) :
    unify n b s t = some (.ok b) := by
  induction n generalizing s t with
  | zero => cases hs : b.deep s <;> simp [hs] at hn
  | succ n ih =>
    obtain ⟨s', hs⟩ := Bindings.resolve_total ho s
    obtain ⟨t', ht⟩ := Bindings.resolve_total ho t
    rw [ha.deep_of_leads (Bindings.leads_of_walk hs)] at h hn
    rw [ha.deep_of_leads (Bindings.leads_of_walk ht)] at h
    cases alikeRoots_of_deep ha (Bindings.resolve_free hs) (Bindings.resolve_free ht) h with
    | var hname => simp [unify, hs, ht, unifyRoots, link_of_eq hname]
    | num k => simp [unify, hs, ht, unifyRoots]
    | atom a => simp [unify, hs, ht, unifyRoots]
    | @app f ss ts hargs =>
      rw [unify_args hs ht hargs.length_eq]
      refine unifyPairs_unchanged (Term.forall₂_of_mem hargs fun u hu w huw => ih ?_ huw)
      have := sizeOf_deep_lt ha (f := f) hu
      omega

/-- A result that is the bindings themselves has told nothing new. -/
theorem equates_of_unify (ho : b.Oriented) (ha : b.Acyclic) {n : Nat} {b' : Bindings}
    (h : unify n b s t = some (.ok b')) (hsame : b.Includes b') : b.Equates s t := by
  rw [equates_iff ha]
  apply deep_alike_of_solves ha
  intro v hv
  exact term_eq_of_unify ho h (hv.of_includes hsame)

/-- In the bindings that result, both sides stand for the same. -/
theorem deep_alike_of_unify (ho : b.Oriented) {n : Nat} {b' : Bindings}
    (h : unify n b s t = some (.ok b')) (ha : b'.Acyclic) : (b'.deep s).Alike (b'.deep t) :=
  deep_alike_of_solves ha fun _ hv => term_eq_of_unify ho h hv

end

/-- On oriented and acyclic bindings, unification gives back the bindings unchanged
exactly if both sides stand for the same. So it does if it has succeeded before, with
a result that is acyclic too. -/
theorem unify_unchanged {b : Bindings} (ho : b.Oriented) (ha : b.Acyclic) (s t : Term) :
    (b.Equates s t → ∃ n, unify n b s t = some (.ok b)) ∧
    (∀ n b', unify n b s t = some (.ok b') → b'.Alike b → b.Equates s t) ∧
    ∀ n b', unify n b s t = some (.ok b') → b'.Acyclic → ∃ m, unify m b' s t = some (.ok b') := by
  refine ⟨fun h => ?_, fun n b' h hsame => ?_, fun n b' h ha' => ?_⟩
  · rw [equates_iff ha] at h
    exact ⟨_, unify_of_deep_alike ho ha (Nat.le_refl _) h⟩
  · exact equates_of_unify ho ha h hsame.includes
  · have halike := deep_alike_of_unify ho h ha'
    exact ⟨_, unify_of_deep_alike (unify_oriented ho h) ha' (Nat.le_refl _) halike⟩

/-- With `Y` linked to `X`, the terms `f(X)` and `f(Y)` are the same, and `p(X, f(W))` and
`p(Y, Z)` are once `Z` is `f(W)`. -/
theorem unify_unchanged_linked :
    let x := Term.var (.ofName "X")
    let y := Term.var (.ofName "Y")
    let fw := Term.app "f" [.var (.ofName "W")]
    let s := Term.app "p" [x, fw]
    let t := Term.app "p" [y, .var (.ofName "Z")]
    let b := Bindings.ofList [(.ofName "Y", x)]
    let c := Bindings.ofList [(.ofName "Y", x), (.ofName "Z", fw)]
    ((b.Oriented ∧ b.Acyclic) ∧ b.Equates (.app "f" [x]) (.app "f" [y]) ∧
      ∃ n, unify n b (.app "f" [x]) (.app "f" [y]) = some (.ok b)) ∧
    (unify 2 b s t = some (.ok c) ∧ c.Acyclic ∧ ∃ m, unify m c s t = some (.ok c)) ∧
    (c.Oriented ∧ unify 3 c s t = some (.ok c) ∧ c.Equates s t) := by
  intro x y fw s t b c
  have hxy : ∀ v ∈ x.vars, v.name < "Y" := by decide
  have hwz : ∀ v ∈ fw.vars, v.name < "Z" := by decide
  have hbo : b.Oriented := by
    apply Bindings.oriented_ofList
    rw [List.forall_mem_singleton]
    rintro _ ⟨⟩
    decide
  have hba : b.Acyclic := Bindings.acyclic_ofList (List.forall_mem_singleton.2 hxy)
  have hca : c.Acyclic :=
    Bindings.acyclic_ofList (List.forall_mem_cons.2 ⟨hxy, List.forall_mem_singleton.2 hwz⟩)
  have hbc : unify 2 b s t = some (.ok c) := by decide
  have hcc : unify 3 c s t = some (.ok c) := by decide
  have hco : c.Oriented := unify_oriented hbo hbc
  have hfxy : b.Equates (.app "f" [x]) (.app "f" [y]) :=
    ⟨.app "f" [x], .app "f" [x], by decide, by decide, rfl⟩
  exact ⟨⟨⟨hbo, hba⟩, hfxy, (unify_unchanged hbo hba _ _).1 hfxy⟩,
    ⟨hbc, hca, (unify_unchanged hbo hba s t).2.2 2 c hbc hca⟩,
    hco, hcc, (unify_unchanged hco hca s t).2.1 3 c hcc rfl⟩

end HornSearch
