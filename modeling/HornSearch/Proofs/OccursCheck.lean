import HornSearch.Proofs.AliasClasses
import HornSearch.Proofs.Equations
import HornSearch.Proofs.Extension
import Mathlib.Data.Finset.Card

/-!
# Unification with an occurs check

`unifyChecked` takes the steps of `unify`, but gives up where a variable would be
bound to a term in which it occurs, as seen through the bindings. From acyclic
bindings it builds acyclic ones only (`unifyChecked_acyclic`), so it always comes
to an end (`unifyChecked_total`): with every binding fewer variables are free, and
between two bindings the terms that the arguments stand for get smaller.

As long as it does not give up it does what `unify` does (`unifyChecked_agrees`). So
on inputs that need no cyclic terms `unify` comes to an end as well.
-/

namespace HornSearch

/-! ## The check -/

/-- Whether `x` occurs in what `t` stands for; `n` bounds the depth. -/
def Bindings.occurs (b : Bindings) (x : Var) : (n : Nat) → Term → Option Bool
  | 0, _ => none
  | n + 1, t => do
    match ← b.resolve t with
    | .var y => pure (y.name = x.name)
    | .app _ ts => ts.anyM (b.occurs x n)
    | _ => pure false

inductive Checked where
  | unified (b : Bindings)
  | clash
  | occurs
deriving DecidableEq

/-- Binds `x` to a term that is no variable, unless `x` occurs in it. -/
def Bindings.bindChecked (b : Bindings) (n : Nat) (x : Var) (t : Term) : Option Checked := do
  if ← b.occurs x n t then pure .occurs else pure (.unified (b.put x t))

/-- Unifies terms pairwise with `unify`, stopping where that fails. -/
def checkedPairs (unify : Bindings → Term → Term → Option Checked) :
    Bindings → List Term → List Term → Option Checked
  | b, s :: ss, t :: ts =>
    match unify b s t with
    | some (.unified b') => checkedPairs unify b' ss ts
    | stopped => stopped
  | b, _, _ => some (.unified b)

def checkedRoots (n : Nat) (unify : Bindings → Term → Term → Option Checked) (b : Bindings) :
    Term → Term → Option Checked
  | .var x, .var y => some (.unified (b.link x y))
  | .var x, t => b.bindChecked n x t
  | s, .var y => b.bindChecked n y s
  | .app f ss, .app g ts =>
    if (Compound.mk f ss).SameSignature ⟨g, ts⟩ then checkedPairs unify b ss ts else some .clash
  | s, t => some (if s = t then .unified b else .clash)

/-- Unification with an occurs check; `n` bounds the nesting of calls. -/
def unifyChecked : (n : Nat) → Bindings → Term → Term → Option Checked
  | 0, _, _, _ => none
  | n + 1, b, s, t => do
    let s ← b.resolve s
    let t ← b.resolve t
    checkedRoots n (unifyChecked n) b s t

section
variable {b : Bindings}

/-! ## What the check finds -/

theorem anyM_mono {α : Type} {p q : α → Option Bool} (h : ∀ a r, p a = some r → q a = some r)
    {l : List α} {r : Bool} (hr : l.anyM p = some r) : l.anyM q = some r := by
  induction l with
  | nil => exact hr
  | cons a l ih =>
    simp only [List.anyM, Option.bind_eq_bind, Option.bind_eq_some_iff] at hr ⊢
    obtain ⟨found, ha, hr⟩ := hr
    refine ⟨found, h a found ha, ?_⟩
    cases found with
    | true => exact hr
    | false => exact ih hr

theorem anyM_of_forall {α : Type} {p : α → Option Bool} {q : α → Bool} {l : List α}
    (h : ∀ a ∈ l, p a = some (q a)) : l.anyM p = some (l.any q) := by
  induction l with
  | nil => rfl
  | cons a l ih =>
    obtain ⟨ha, hl⟩ := List.forall_mem_cons.1 h
    simp only [List.anyM, ha, ih hl, Option.bind_eq_bind, Option.bind_some, List.any_cons]
    cases q a <;> rfl

theorem occurs_mono {n m : Nat} (hnm : n ≤ m) {x : Var} {t : Term} {r : Bool}
    (h : b.occurs x n t = some r) : b.occurs x m t = some r := by
  induction n generalizing m t r with
  | zero => cases h
  | succ n ih =>
    obtain ⟨m, rfl⟩ : ∃ k, m = k + 1 := ⟨m - 1, by omega⟩
    simp only [Bindings.occurs, Option.bind_eq_bind, Option.bind_eq_some_iff] at h ⊢
    obtain ⟨t', ht, h⟩ := h
    refine ⟨t', ht, ?_⟩
    cases t' with
    | app f ts => exact anyM_mono (fun a r => ih (by omega)) h
    | _ => exact h

def Term.hasVar (x : Var) (t : Term) : Bool := t.vars.any fun y => y.name = x.name

theorem Term.hasVar_app {x : Var} {f : String} {ts : List Term} :
    (Term.app f ts).hasVar x = ts.any (Term.hasVar x) := by
  rw [Bool.eq_iff_iff]
  simp only [hasVar, List.any_eq_true, mem_vars_app]
  constructor
  · rintro ⟨y, ⟨t, ht, hy⟩, hname⟩
    exact ⟨t, ht, y, hy, hname⟩
  · rintro ⟨t, ht, y, hy, hname⟩
    exact ⟨y, ⟨t, ht, hy⟩, hname⟩

/-- The arguments of a term stand for less than the term does. -/
theorem sizeOf_deep_lt (ha : b.Acyclic) {f : String} {ts : List Term} {t : Term} (ht : t ∈ ts) :
    sizeOf (b.deep t) < sizeOf (b.deep (.app f ts)) := by
  have hmem := List.sizeOf_lt_of_mem (List.mem_map_of_mem (f := b.deep) ht)
  rw [ha.deep_app, Term.app.sizeOf_spec]
  omega

/-- The check looks no deeper than the size of what the term stands for. -/
theorem occurs_of_size (ho : b.Oriented) (ha : b.Acyclic) (x : Var) {n : Nat} {t : Term}
    (hn : sizeOf (b.deep t) ≤ n) : b.occurs x n t = some ((b.deep t).hasVar x) := by
  induction n generalizing t with
  | zero =>
    cases h : b.deep t <;> simp [h] at hn
  | succ n ih =>
    obtain ⟨t', ht⟩ := Bindings.resolve_total ho t
    have hdeep := ha.deep_of_leads (Bindings.leads_of_walk ht)
    rw [hdeep] at hn ⊢
    simp only [Bindings.occurs, ht, Option.bind_eq_bind, Option.bind_some]
    cases t' with
    | num k => simp [ha.deep_num, Term.hasVar]
    | atom a => simp [ha.deep_atom, Term.hasVar]
    | var y =>
      have hy : b.get? y.name = none := ho.follow?_var y ▸ Bindings.resolve_free ht
      simp [ha.deep_free hy, Term.hasVar]
    | app f ts =>
      rw [ha.deep_app, Term.hasVar_app, List.any_map]
      refine anyM_of_forall fun s hs => ih ?_
      have := sizeOf_deep_lt ha (f := f) hs
      omega

/-- The check finds a variable where it is a part of what the term stands for. -/
theorem occurs_eq (ho : b.Oriented) (ha : b.Acyclic) {x : Var} {n : Nat} {t : Term} {r : Bool}
    (h : b.occurs x n t = some r) : r = (b.deep t).hasVar x := by
  have hsize := occurs_of_size ho ha x (le_max_right n (sizeOf (b.deep t)))
  rw [occurs_mono (le_max_left n _) h] at hsize
  exact Option.some.inj hsize

/-- Binding a free variable that the check does not find makes no cycle. -/
theorem acyclic_of_occurs (ho : b.Oriented) (ha : b.Acyclic) {x : Var} {n : Nat} {t : Term}
    (hx : b.get? x.name = none) (h : b.occurs x n t = some false) : (b.put x t).Acyclic := by
  refine ha.put hx fun y hy hname => ?_
  have hfound : (b.deep t).hasVar x = true := List.any_eq_true.2 ⟨y, hy, by simpa using hname⟩
  rw [← occurs_eq ho ha h] at hfound
  cases hfound

/-- A link makes no cycle. -/
theorem acyclic_link (ho : b.Oriented) (ha : b.Acyclic) {x y : Var}
    (hx : b.follow? (.var x) = none) (hy : b.follow? (.var y) = none) : (b.link x y).Acyclic := by
  rw [ho.follow?_var] at hx hy
  rcases lt_trichotomy x.name y.name with hlt | heq | hgt
  · rw [link_of_lt hlt]
    exact ha.put hy (by simpa [ha.deep_free hx] using hlt.ne)
  · rw [link_of_eq heq]
    exact ha
  · rw [link_of_gt hgt]
    exact ha.put hx (by simpa [ha.deep_free hy] using hgt.ne)

end

/-! ## One call -/

section
variable (n : Nat) (u : Bindings → Term → Term → Option Checked) (b : Bindings)

inductive CheckedStep : Term → Term → Option Checked → Prop where
  | link {x y : Var} : CheckedStep (.var x) (.var y) (some (.unified (b.link x y)))
  | left {x : Var} {t : Term} (ht : t.Rigid) : CheckedStep (.var x) t (b.bindChecked n x t)
  | right {x : Var} {s : Term} (hs : s.Rigid) : CheckedStep s (.var x) (b.bindChecked n x s)
  | num {k : Int64} : CheckedStep (.num k) (.num k) (some (.unified b))
  | atom {a : String} : CheckedStep (.atom a) (.atom a) (some (.unified b))
  | args {f : String} {ss ts : List Term} (hlen : ss.length = ts.length) :
      CheckedStep (.app f ss) (.app f ts) (checkedPairs u b ss ts)
  | clash {s t : Term} (h : s.Clashes t) : CheckedStep s t (some .clash)

theorem checkedStep (s t : Term) : CheckedStep n u b s t (checkedRoots n u b s t) := by
  cases s with
  | var x =>
    cases t with
    | var y => exact .link
    | _ => exact .left (by simp [Term.Rigid])
  | num k =>
    cases t with
    | var y => exact .right (by simp [Term.Rigid])
    | num m =>
      by_cases h : k = m
      · subst h; simpa [checkedRoots] using .num
      · simpa [checkedRoots, h] using .clash h
    | _ => exact .clash trivial
  | atom a =>
    cases t with
    | var y => exact .right (by simp [Term.Rigid])
    | atom c =>
      by_cases h : a = c
      · subst h; simpa [checkedRoots] using .atom
      · simpa [checkedRoots, h] using .clash h
    | _ => exact .clash trivial
  | app f ss =>
    cases t with
    | var y => exact .right (by simp [Term.Rigid])
    | app g ts =>
      simp only [checkedRoots]
      split
      · rename_i h
        obtain ⟨rfl, hlen⟩ := h
        exact .args hlen
      · rename_i h
        exact .clash h
    | _ => exact .clash trivial

end

section
variable {b : Bindings} {n : Nat} {s t : Term} {r : Checked}

/-- A call of either kind goes on with the terms that both sides lead to. -/
theorem unifyChecked_succ (ho : b.Oriented) (n : Nat) (s t : Term) :
    ∃ s' t', b.resolve s = some s' ∧ b.resolve t = some t' ∧
      unify (n + 1) b s t = unifyRoots (unify n) b s' t' ∧
      CheckedStep n (unifyChecked n) b s' t' (unifyChecked (n + 1) b s t) := by
  obtain ⟨s', hs⟩ := Bindings.resolve_total ho s
  obtain ⟨t', ht⟩ := Bindings.resolve_total ho t
  refine ⟨s', t', hs, ht, by simp [unify, hs, ht], ?_⟩
  simpa [unifyChecked, hs, ht] using checkedStep n (unifyChecked n) b s' t'

theorem bindChecked_cases {x : Var} (h : b.bindChecked n x t = some r) :
    r = .occurs ∨ (r = .unified (b.put x t) ∧ b.occurs x n t = some false) := by
  simp only [Bindings.bindChecked, Option.bind_eq_bind, Option.bind_eq_some_iff] at h
  obtain ⟨found, hfound, h⟩ := h
  cases found with
  | true => exact .inl (Option.some.inj h).symm
  | false => exact .inr ⟨(Option.some.inj h).symm, hfound⟩

/-! ## The same without the check -/

/-- Unification without the check has the same result. If the check gives up,
nothing is said. -/
def Checked.Agrees : Checked → Option (Except Clash Bindings) → Prop
  | .unified b, o => o = some (.ok b)
  | .clash, o => ∃ clash, o = some (.error clash)
  | .occurs, _ => True

theorem agrees_bindChecked {x : Var} (ho : b.Oriented) (hx : b.follow? (.var x) = none)
    (ht : t.Rigid) (h : b.bindChecked n x t = some r) : r.Agrees (some (b.bind x t)) := by
  obtain rfl | ⟨rfl, _⟩ := bindChecked_cases h
  · trivial
  · exact congrArg some (rootStep_bind ho hx ht).1

theorem agrees_checkedPairs {ss ts : List Term}
    (hcall : ∀ {b s t r}, b.Oriented → unifyChecked n b s t = some r → r.Agrees (unify n b s t))
    (ho : b.Oriented) (h : checkedPairs (unifyChecked n) b ss ts = some r) :
    r.Agrees (unifyPairs (unify n) b ss ts) := by
  induction ss generalizing b ts with
  | nil =>
    cases h
    rfl
  | cons s ss ih =>
    cases ts with
    | nil => cases h; rfl
    | cons t ts =>
      simp only [checkedPairs] at h
      cases hst : unifyChecked n b s t with
      | none => simp [hst] at h
      | some o =>
        have hfirst := hcall ho hst
        cases o with
        | unified b' =>
          have hok : unify n b s t = some (.ok b') := hfirst
          simp only [hst] at h
          simpa only [unifyPairs, hok] using ih (unify_oriented ho hok) h
        | clash =>
          obtain ⟨clash, herror⟩ := hfirst
          simp only [hst, Option.some.injEq] at h
          subst h
          exact ⟨clash, by simp only [unifyPairs, herror]⟩
        | occurs =>
          simp only [hst, Option.some.injEq] at h
          subst h
          trivial

theorem agrees_unifyChecked (ho : b.Oriented) (h : unifyChecked n b s t = some r) :
    r.Agrees (unify n b s t) := by
  induction n generalizing b s t r with
  | zero => cases h
  | succ n ih =>
    obtain ⟨s', t', hs, ht, hplain, hstep⟩ := unifyChecked_succ ho n s t
    rw [h] at hstep
    rw [hplain]
    generalize ho' : some r = o at hstep
    cases hstep with
    | link => cases ho'; rfl
    | left hrigid =>
      rw [unifyRoots_left hrigid]
      exact agrees_bindChecked ho (Bindings.resolve_free hs) hrigid ho'.symm
    | right hrigid =>
      rw [unifyRoots_right hrigid]
      exact agrees_bindChecked ho (Bindings.resolve_free ht) hrigid ho'.symm
    | num => cases ho'; simp [unifyRoots, Checked.Agrees]
    | atom => cases ho'; simp [unifyRoots, Checked.Agrees]
    | @args f ss ts hlen =>
      have hsig : (Compound.mk f ss).SameSignature ⟨f, ts⟩ := ⟨rfl, hlen⟩
      simp only [unifyRoots, unifyArgs, if_pos hsig]
      exact agrees_checkedPairs (fun ho h => ih ho h) ho ho'.symm
    | clash hclash =>
      cases ho'
      exact ⟨_, unifyRoots_of_clashes hclash⟩

/-- In particular the bindings that result are those that plain unification gives. -/
theorem unify_of_unifyChecked (ho : b.Oriented) {b' : Bindings}
    (h : unifyChecked n b s t = some (.unified b')) : unify n b s t = some (.ok b') :=
  agrees_unifyChecked ho h

/-! ## No cycles -/

theorem checkedPairs_acyclic {ss ts : List Term} {b' : Bindings}
    (hcall : ∀ {b s t b'}, b.Oriented → b.Acyclic → unifyChecked n b s t = some (.unified b') →
      b'.Acyclic)
    (ho : b.Oriented) (ha : b.Acyclic)
    (h : checkedPairs (unifyChecked n) b ss ts = some (.unified b')) : b'.Acyclic := by
  induction ss generalizing b ts with
  | nil =>
    cases h
    exact ha
  | cons s ss ih =>
    cases ts with
    | nil => cases h; exact ha
    | cons t ts =>
      simp only [checkedPairs] at h
      split at h
      · rename_i c hst
        exact ih (unify_oriented ho (unify_of_unifyChecked ho hst)) (hcall ho ha hst) h
      · rename_i hne
        exact absurd h (hne b')

theorem bindChecked_acyclic {x : Var} {b' : Bindings} (ho : b.Oriented) (ha : b.Acyclic)
    (hx : b.follow? (.var x) = none) (h : b.bindChecked n x t = some (.unified b')) :
    b'.Acyclic := by
  obtain h | ⟨h, hfound⟩ := bindChecked_cases h
  · cases h
  · cases h
    exact acyclic_of_occurs ho ha (ho.follow?_var x ▸ hx) hfound

/-- Acyclic bindings stay acyclic. -/
theorem unifyChecked_acyclic {b' : Bindings} (ho : b.Oriented) (ha : b.Acyclic)
    (h : unifyChecked n b s t = some (.unified b')) : b'.Acyclic := by
  induction n generalizing b s t b' with
  | zero => cases h
  | succ n ih =>
    obtain ⟨s', t', hs, ht, -, hstep⟩ := unifyChecked_succ ho n s t
    rw [h] at hstep
    generalize ho' : some (Checked.unified b') = o at hstep
    cases hstep with
    | link =>
      cases ho'
      exact acyclic_link ho ha (Bindings.resolve_free hs) (Bindings.resolve_free ht)
    | left _ => exact bindChecked_acyclic ho ha (Bindings.resolve_free hs) ho'.symm
    | right _ => exact bindChecked_acyclic ho ha (Bindings.resolve_free ht) ho'.symm
    | num => cases ho'; exact ha
    | atom => cases ho'; exact ha
    | args _ => exact checkedPairs_acyclic (fun ho ha h => ih ho ha h) ho ha ho'.symm
    | clash _ => cases ho'

end

/-! ## The end of every call -/

section
variable {n m : Nat} {b : Bindings} {s t : Term} {r : Checked}

theorem bindChecked_mono (hnm : n ≤ m) {x : Var} (h : b.bindChecked n x t = some r) :
    b.bindChecked m x t = some r := by
  simp only [Bindings.bindChecked, Option.bind_eq_bind, Option.bind_eq_some_iff] at h ⊢
  obtain ⟨found, hfound, h⟩ := h
  exact ⟨found, occurs_mono hnm hfound, h⟩

theorem checkedPairs_mono {u w : Bindings → Term → Term → Option Checked}
    (hu : ∀ {b s t r}, u b s t = some r → w b s t = some r) {ss ts : List Term}
    (h : checkedPairs u b ss ts = some r) : checkedPairs w b ss ts = some r := by
  induction ss generalizing b ts with
  | nil => exact h
  | cons s ss ih =>
    cases ts with
    | nil => exact h
    | cons t ts =>
      simp only [checkedPairs] at h ⊢
      cases hst : u b s t with
      | none => simp [hst] at h
      | some o =>
        rw [hu hst]
        cases o with
        | unified b' =>
          simp only [hst] at h ⊢
          exact ih h
        | clash => simpa [hst] using h
        | occurs => simpa [hst] using h

theorem checkedRoots_mono (hnm : n ≤ m) {u w : Bindings → Term → Term → Option Checked}
    (hu : ∀ {b s t r}, u b s t = some r → w b s t = some r)
    (h : checkedRoots n u b s t = some r) : checkedRoots m w b s t = some r := by
  cases s with
  | var x =>
    cases t with
    | var y => exact h
    | _ => exact bindChecked_mono hnm h
  | app f ss =>
    cases t with
    | var y => exact bindChecked_mono hnm h
    | app g ts =>
      simp only [checkedRoots] at h ⊢
      split at h
      · rename_i hsig
        rw [if_pos hsig]
        exact checkedPairs_mono hu h
      · rename_i hsig
        rw [if_neg hsig, h]
    | _ => exact h
  | _ =>
    cases t with
    | var y => exact bindChecked_mono hnm h
    | _ => exact h

/-- A larger bound does not change a result. -/
theorem unifyChecked_mono (hnm : n ≤ m) (h : unifyChecked n b s t = some r) :
    unifyChecked m b s t = some r := by
  induction n generalizing m b s t r with
  | zero => cases h
  | succ n ih =>
    obtain ⟨m, rfl⟩ : ∃ k, m = k + 1 := ⟨m - 1, by omega⟩
    have hnm : n ≤ m := by omega
    simp only [unifyChecked, Option.bind_eq_bind, Option.bind_eq_some_iff] at h ⊢
    obtain ⟨s', hs, t', ht, h⟩ := h
    exact ⟨s', hs, t', ht, checkedRoots_mono hnm (fun h => ih hnm h) h⟩

/-- The number of names in `N` that are free. -/
def Bindings.freeCount (b : Bindings) (N : Finset String) : Nat :=
  (N.filter fun x => b.get? x = none).card

/-- Every binding that is added leaves a name less free. -/
theorem freeCount_lt {N : Finset String} {b' : Bindings} (hext : b'.Extends b)
    (hin : b'.Within (· ∈ N)) (hne : b' ≠ b) : b'.freeCount N < b.freeCount N := by
  have hnone {x : String} (hx : b'.get? x = none) : b.get? x = none := by
    rw [Option.eq_none_iff_forall_ne_some]
    intro t ht
    obtain ⟨e, he, _⟩ := Bindings.get?_eq_some_iff.1 ht
    simp [Bindings.get?, hext x e he] at hx
  obtain ⟨x, t, hx, hfree⟩ : ∃ x t, b'.get? x = some t ∧ b.get? x = none := by
    by_contra hnew
    refine hne (Bindings.ext_binding? fun name => ?_)
    cases he : b.binding? name with
    | some e => exact hext name e he
    | none =>
      cases he' : b'.binding? name with
      | none => rfl
      | some e' =>
        exact absurd ⟨name, e'.value, by simp [Bindings.get?, he'], by simp [Bindings.get?, he]⟩ hnew
  apply Finset.card_lt_card
  rw [Finset.ssubset_iff_of_subset]
  · exact ⟨x, Finset.mem_filter.2 ⟨hin.key hx, hfree⟩, fun hmem => by
      simp [hx] at hmem⟩
  · intro y hy
    obtain ⟨hyN, hy⟩ := Finset.mem_filter.1 hy
    exact Finset.mem_filter.2 ⟨hyN, hnone hy⟩

/-- Oriented and acyclic bindings of variables with names in `N`. -/
structure Tame (N : Finset String) (b : Bindings) : Prop where
  oriented : b.Oriented
  acyclic : b.Acyclic
  within : b.Within (· ∈ N)

theorem Tame.unified {N : Finset String} (h : Tame N b) (hs : s.Within (· ∈ N))
    (ht : t.Within (· ∈ N)) {b' : Bindings} (hr : unifyChecked n b s t = some (.unified b')) :
    Tame N b' ∧ b'.Extends b := by
  have hok := unify_of_unifyChecked h.oriented hr
  have hover : OverResult (fun x => x.name ∈ N) (.ok b') :=
    (overRules fun x => x.name ∈ N).unify h.oriented hok (Bindings.within_iff_over.1 h.within) hs ht
  exact ⟨⟨unify_oriented h.oriented hok, unifyChecked_acyclic h.oriented h.acyclic hr,
    Bindings.within_iff_over.2 hover⟩, unify_extends h.oriented hok⟩

theorem bindChecked_total (ho : b.Oriented) (ha : b.Acyclic) (x : Var) (t : Term) :
    ∃ n r, b.bindChecked n x t = some r := by
  refine ⟨sizeOf (b.deep t), if (b.deep t).hasVar x then .occurs else .unified (b.put x t), ?_⟩
  simp only [Bindings.bindChecked, occurs_of_size ho ha x (Nat.le_refl _), Option.bind_eq_bind,
    Option.bind_some]
  split <;> rfl

/-- Pairs come to an end if each pair does in all bindings that may result from
those before. -/
theorem checkedPairs_total {N : Finset String} {ss ts : List Term}
    (hcall : ∀ b', Tame N b' → b'.Extends b → ∀ s ∈ ss, ∀ t, t.Within (· ∈ N) →
      ∃ n r, unifyChecked n b' s t = some r)
    (hss : ∀ s ∈ ss, s.Within (· ∈ N)) (hts : ∀ t ∈ ts, t.Within (· ∈ N)) {b' : Bindings}
    (h : Tame N b') (hext : b'.Extends b) :
    ∃ n r, checkedPairs (unifyChecked n) b' ss ts = some r := by
  induction ss generalizing b' ts with
  | nil => exact ⟨0, _, rfl⟩
  | cons s ss ih =>
    cases ts with
    | nil => exact ⟨0, _, rfl⟩
    | cons t ts =>
      obtain ⟨hs, hss⟩ := List.forall_mem_cons.1 hss
      obtain ⟨ht, hts⟩ := List.forall_mem_cons.1 hts
      obtain ⟨n, o, hst⟩ := hcall b' h hext s List.mem_cons_self t ht
      simp only [checkedPairs]
      cases o with
      | unified b'' =>
        obtain ⟨h', hext'⟩ := h.unified hs ht hst
        obtain ⟨m, r, hr⟩ := ih (fun b' h hext s hs => hcall b' h hext s (List.mem_cons_of_mem _ hs))
          hss hts h' (hext'.trans hext)
        refine ⟨max n m, r, ?_⟩
        simp only [unifyChecked_mono (le_max_left n m) hst]
        exact checkedPairs_mono (fun h => unifyChecked_mono (le_max_right n m) h) hr
      | clash => exact ⟨n, .clash, by simp only [hst]⟩
      | occurs => exact ⟨n, .occurs, by simp only [hst]⟩

theorem checkedRoots_total (hbind : ∀ x t, ∃ n r, b.bindChecked n x t = some r)
    (hargs : ∀ f ss g ts, s = .app f ss → t = .app g ts →
      ∃ n r, checkedPairs (unifyChecked n) b ss ts = some r) :
    ∃ n r, checkedRoots n (unifyChecked n) b s t = some r := by
  cases s with
  | var x =>
    cases t with
    | var y => exact ⟨0, _, rfl⟩
    | _ => exact hbind x _
  | app f ss =>
    cases t with
    | var y => exact hbind y _
    | app g ts =>
      simp only [checkedRoots]
      split
      · exact hargs f ss g ts rfl rfl
      · exact ⟨0, .clash, rfl⟩
    | _ => exact ⟨0, _, rfl⟩
  | _ =>
    cases t with
    | var y => exact hbind y _
    | _ => exact ⟨0, _, rfl⟩

theorem within_args {N : Finset String} {f : String} {ts : List Term}
    (h : (Term.app f ts).Within (· ∈ N)) : ∀ t ∈ ts, t.Within (· ∈ N) :=
  fun t ht x hx => h x (Term.mem_vars_app.2 ⟨t, ht, hx⟩)

/-- Every call comes to an end. -/
theorem unifyChecked_total {N : Finset String} (h : Tame N b) (hs : s.Within (· ∈ N))
    (ht : t.Within (· ∈ N)) : ∃ n r, unifyChecked n b s t = some r := by
  -- First on the number of free names, then on the size of what the left side stands for.
  induction hk : b.freeCount N using Nat.strongRecOn generalizing b s t with
  | ind k fewer =>
    induction hm : sizeOf (b.deep s) using Nat.strongRecOn generalizing s t with
    | ind m smaller =>
      obtain ⟨s', hs'⟩ := Bindings.resolve_total h.oriented s
      obtain ⟨t', ht'⟩ := Bindings.resolve_total h.oriented t
      have hdeep := h.acyclic.deep_of_leads (Bindings.leads_of_walk hs')
      obtain ⟨n, r, hr⟩ : ∃ n r, checkedRoots n (unifyChecked n) b s' t' = some r := by
        apply checkedRoots_total (bindChecked_total h.oriented h.acyclic)
        rintro f ss g ts rfl rfl
        have hss := within_args (h.within.resolve hs' hs)
        have hts := within_args (h.within.resolve ht' ht)
        refine checkedPairs_total (b := b) (fun b' h' hext s hmem t ht => ?_) hss hts h
          (.refl b)
        by_cases hsame : b' = b
        · subst hsame
          refine smaller _ ?_ (hss s hmem) ht rfl
          rw [← hm, hdeep]
          exact sizeOf_deep_lt h.acyclic hmem
        · refine fewer _ ?_ h' (hss s hmem) ht rfl
          rw [← hk]
          exact freeCount_lt hext h'.within hsame
      exact ⟨n + 1, r, by simpa [unifyChecked, hs', ht'] using hr⟩

/-- Finitely many names occur in bindings and two terms. -/
theorem exists_tame (ho : b.Oriented) (ha : b.Acyclic) (s t : Term) :
    ∃ N, Tame N b ∧ s.Within (· ∈ N) ∧ t.Within (· ∈ N) := by
  let entries := b.toList.flatMap fun p => p.1 :: p.2.value.vars.map Var.name
  let N := (entries ++ (s.vars ++ t.vars).map Var.name).toFinset
  have hentry {x : String} {u : Term} (hx : b.get? x = some u) :
      ∃ e, (x, e) ∈ b.toList ∧ e.value = u := by
    obtain ⟨e, he, rfl⟩ := Bindings.get?_eq_some_iff.1 hx
    exact ⟨e, Bindings.mem_toList.2 he, rfl⟩
  have hentries {x : String} (hx : x ∈ entries) : x ∈ N :=
    List.mem_toFinset.2 (List.mem_append_left _ hx)
  have hterms {x : Var} (hx : x ∈ s.vars ++ t.vars) : x.name ∈ N :=
    List.mem_toFinset.2 (List.mem_append_right _ (List.mem_map_of_mem hx))
  refine ⟨N, ⟨ho, ha, ⟨fun {x u} hx => ?_, fun {x u} hx y hy => ?_⟩⟩,
    fun x hx => hterms (List.mem_append_left _ hx), fun x hx => hterms (List.mem_append_right _ hx)⟩
  · obtain ⟨e, he, -⟩ := hentry hx
    exact hentries (List.mem_flatMap.2 ⟨_, he, List.mem_cons_self⟩)
  · obtain ⟨e, he, rfl⟩ := hentry hx
    exact hentries (List.mem_flatMap.2 ⟨_, he, List.mem_cons_of_mem _ (List.mem_map_of_mem hy)⟩)

end

/-- On oriented and acyclic bindings unification with an occurs check comes to an
end. If it succeeds, plain unification gives the same bindings, which are acyclic
again and resolve both sides alike; if it clashes, so does plain unification. -/
theorem unifyChecked_agrees {b : Bindings} (ho : b.Oriented) (ha : b.Acyclic) (s t : Term) :
    (∃ n r, unifyChecked n b s t = some r) ∧
    (∀ n b', unifyChecked n b s t = some (.unified b') →
      (∃ m, unify m b s t = some (.ok b')) ∧ b'.Acyclic ∧
        ∃ u w, b'.resolveDeep s = some u ∧ b'.resolveDeep t = some w ∧ u.Alike w) ∧
    ∀ n, unifyChecked n b s t = some .clash → ∃ m clash, unify m b s t = some (.error clash) := by
  refine ⟨?_, fun n b' h => ?_, fun n h => ⟨n, agrees_unifyChecked ho h⟩⟩
  · obtain ⟨N, htame, hs, ht⟩ := exists_tame ho ha s t
    exact unifyChecked_total htame hs ht
  · have hok := unify_of_unifyChecked ho h
    have ha' := unifyChecked_acyclic ho ha h
    refine ⟨⟨n, hok⟩, ha', b'.deep s, b'.deep t, ha'.resolveDeep_eq s, ha'.resolveDeep_eq t, ?_⟩
    apply Term.alike_of_term_eq
    intro v
    have hv : (v.through b').term s = (v.through b').term t :=
      ((show _ ↔ _ from unify_solves ho hok (v.through b')).1 (v.solves_through ha')).2
    rwa [v.term_through ha', v.term_through ha'] at hv

example : unifyChecked 3 .empty (.var (.ofName "X")) (.app "f" [.var (.ofName "X")]) =
    some .occurs := by decide

/-- With `Y` linked to `X`, the terms `f(X, Y)` and `f(g(Z), W)` unify, and an atom
in place of `g(Z)` and a compound in place of `W` clash. -/
theorem unifyChecked_agrees_linked :
    let X : Term := .var (.ofName "X")
    let b := Bindings.ofList [(.ofName "Y", X)]
    let s := Term.app "f" [X, .var (.ofName "Y")]
    let t := Term.app "f" [.app "g" [.var (.ofName "Z")], .var (.ofName "W")]
    let k := Term.app "f" [.atom "a", .app "g" [X]]
    (b.Oriented ∧ b.Acyclic) ∧
      (∃ b', unifyChecked 4 b s t = some (.unified b') ∧ (∃ m, unify m b s t = some (.ok b')) ∧
        b'.Acyclic ∧
        ∃ u w, b'.resolveDeep s = some u ∧ b'.resolveDeep t = some w ∧ u.Alike w) ∧
      ∃ m clash, unify m b s k = some (.error clash) := by
  intro X b s t k
  have ho : b.Oriented := by
    intro x y h
    obtain ⟨z, hz, rfl⟩ := Bindings.mem_of_get?_ofList h
    obtain ⟨rfl, h⟩ := Prod.mk.inj (List.mem_singleton.1 hz)
    cases h
    decide
  have ha : b.Acyclic :=
    Bindings.acyclic_ofList (List.forall_mem_singleton.2 (Term.within_var.2 (by decide)))
  refine ⟨⟨ho, ha⟩, ?_, (unifyChecked_agrees ho ha s k).2.2 3 (by decide)⟩
  let b' := (b.put (.ofName "X") (.app "g" [.var (.ofName "Z")])).put (.ofName "W")
    (.app "g" [.var (.ofName "Z")])
  have hstep : unifyChecked 4 b s t = some (.unified b') := by decide
  exact ⟨b', hstep, (unifyChecked_agrees ho ha s t).2.1 4 b' hstep⟩

end HornSearch
