import HornSearch.Proofs.Correspondence

/-!
# Classes of aliases

Variables that lead to the same free variable are aliases. Which of them is the
free one is a matter of their names, since of two linked variables the one with
the larger name is bound. The classes are not.

Two bindings have the same classes (`SameClasses`) if variables that are related
lead to terms of one shape, or to free variables which are shared by the same
related variables on both sides. Linking two variables merges their classes, in
whichever direction it is done (`resolve_link`), and so on both sides.

Unification of terms of one shape then takes the same course on both sides. This
holds also where more is known of the bindings than their classes, provided that
links and bindings keep it (`Coupling`).
-/

namespace HornSearch

variable {b c : Bindings}

/-! ## Links -/

theorem link_of_lt {x y : Var} (h : x.name < y.name) : b.link x y = b.put y (.var x) := by
  simp only [Bindings.link, compare_lt_iff_lt.2 h]

theorem link_of_gt {x y : Var} (h : y.name < x.name) : b.link x y = b.put x (.var y) := by
  simp only [Bindings.link, compare_gt_iff_gt.2 h]

theorem link_of_eq {x y : Var} (h : x.name = y.name) : b.link x y = b := by
  simp only [Bindings.link, compare_eq_iff_eq.2 h]

theorem binds_var (ho : b.Oriented) {x y : Var} (hx : b.follow? (.var x) = none)
    (hy : b.follow? (.var y) = none) (hlt : y.name < x.name) : b.Binds x (.var y) := by
  refine ⟨ho.follow?_var x ▸ hx, hy, ?_⟩
  rintro _ ⟨⟩
  exact hlt

/-- The name that a class leads to once the classes of `x` and `y` are one, if it
leads to `u` before. -/
def merged (x y u : String) : String := if u = x ∨ u = y then min x y else u

theorem merged_eq_iff {x y u v : String} :
    merged x y u = merged x y v ↔ u = v ∨ (u = x ∨ u = y) ∧ (v = x ∨ v = y) := by
  have hmin : min x y = x ∨ min x y = y := min_choice x y
  unfold merged
  grind

section
variable {x y : Var} (ho : b.Oriented) (hx : b.follow? (.var x) = none)
  (hy : b.follow? (.var y) = none)

include ho hx hy

theorem oriented_link : (b.link x y).Oriented := by
  rcases lt_trichotomy x.name y.name with hlt | heq | hgt
  · exact link_of_lt hlt ▸ ho.put (binds_var ho hy hx hlt)
  · exact link_of_eq heq ▸ ho
  · exact link_of_gt hgt ▸ ho.put (binds_var ho hx hy hgt)

/-- What led to a free variable leads to that of the merged class. -/
theorem resolve_link {s : Term} {u : Var} (hs : b.resolve s = some (.var u)) :
    ∃ w, (b.link x y).resolve s = some (.var w) ∧ w.name = merged x.name y.name u.name := by
  unfold merged
  rcases lt_trichotomy x.name y.name with hlt | heq | hgt
  · rw [link_of_lt hlt, resolve_put ho (binds_var ho hy hx hlt) hs, min_eq_left hlt.le]
    simp only [Term.redirect]
    by_cases hu : u.name = y.name
    · exact ⟨x, by rw [if_pos hu], by rw [if_pos (.inr hu)]⟩
    · refine ⟨u, by rw [if_neg hu], ?_⟩
      split <;> simp_all
  · rw [link_of_eq heq, ← heq, min_self]
    refine ⟨u, hs, ?_⟩
    split <;> simp_all
  · rw [link_of_gt hgt, resolve_put ho (binds_var ho hx hy hgt) hs, min_eq_right hgt.le]
    simp only [Term.redirect]
    by_cases hu : u.name = x.name
    · exact ⟨y, by rw [if_pos hu], by rw [if_pos (.inl hu)]⟩
    · refine ⟨u, by rw [if_neg hu], ?_⟩
      split <;> simp_all

theorem resolve_link_rigid {s t : Term} (hs : b.resolve s = some t) (ht : t.Rigid) :
    (b.link x y).resolve s = some t := by
  rcases lt_trichotomy x.name y.name with hlt | heq | hgt
  · rw [link_of_lt hlt, resolve_put ho (binds_var ho hy hx hlt) hs, Term.redirect_rigid ht]
  · rw [link_of_eq heq, hs]
  · rw [link_of_gt hgt, resolve_put ho (binds_var ho hx hy hgt) hs, Term.redirect_rigid ht]

end

/-! ## The same classes -/

/-- Related variables lead to the two terms. -/
def Leading (R : Var → Var → Prop) (b c : Bindings) (s t : Term) : Prop :=
  ∃ x y, R x y ∧ b.resolve (.var x) = some s ∧ c.resolve (.var y) = some t

/-- Two resolved terms: free variables to which related variables lead, or terms
of one shape. -/
inductive SameRoot (R : Var → Var → Prop) (b c : Bindings) : Term → Term → Prop where
  | free {x y : Var} (h : Leading R b c (.var x) (.var y)) : SameRoot R b c (.var x) (.var y)
  | rigid {s t : Term} (hs : s.Rigid) (h : s.Matches R t) : SameRoot R b c s t

/-- Related variables stand for the same on both sides. -/
structure SameClasses (R : Var → Var → Prop) (b c : Bindings) : Prop where
  left : b.Oriented
  right : c.Oriented
  roots : ∀ {s t}, Leading R b c s t → SameRoot R b c s t
  /-- Free variables are shared by the same related variables on both sides. -/
  shared : ∀ {x x' y y'}, Leading R b c (.var x) (.var x') → Leading R b c (.var y) (.var y') →
    (x.name = y.name ↔ x'.name = y'.name)

variable {R : Var → Var → Prop}

theorem Leading.free_left {x x' : Var} (h : Leading R b c (.var x) (.var x')) :
    b.follow? (.var x) = none := by
  obtain ⟨_, _, _, hx, _⟩ := h
  exact Bindings.resolve_free hx

theorem Leading.free_right {x x' : Var} (h : Leading R b c (.var x) (.var x')) :
    c.follow? (.var x') = none := by
  obtain ⟨_, _, _, _, hx'⟩ := h
  exact Bindings.resolve_free hx'

theorem sameClasses_empty
    (hR : ∀ {x x' y y'}, R x x' → R y y' → (x.name = y.name ↔ x'.name = y'.name)) :
    SameClasses R .empty .empty := by
  have hself (x : Var) : Bindings.empty.resolve (.var x) = some (.var x) :=
    Bindings.resolve_of_free (by rw [Bindings.oriented_empty.follow?_var, Bindings.get?_empty])
  have hends {s t : Term} (h : Leading R .empty .empty s t) :
      ∃ x y, R x y ∧ s = .var x ∧ t = .var y := by
    obtain ⟨x, y, hxy, hs, ht⟩ := h
    rw [hself] at hs ht
    exact ⟨x, y, hxy, (Option.some.inj hs).symm, (Option.some.inj ht).symm⟩
  refine ⟨Bindings.oriented_empty, Bindings.oriented_empty, fun h => ?_, fun hx hy => ?_⟩
  · obtain ⟨x, y, hxy, rfl, rfl⟩ := hends h
    exact .free h
  · obtain ⟨_, _, hx, ⟨⟩, ⟨⟩⟩ := hends hx
    obtain ⟨_, _, hy, ⟨⟩, ⟨⟩⟩ := hends hy
    exact hR hx hy

namespace SameClasses

variable (h : SameClasses R b c)

include h

/-- Terms of one shape lead to terms of one shape or to free variables of one
class. -/
theorem resolve {s t s' t' : Term} (hst : s.Matches R t) (hs : b.resolve s = some s')
    (ht : c.resolve t = some t') : SameRoot R b c s' t' := by
  rcases s.rigid_or_var with hr | ⟨x, rfl⟩
  · rw [Bindings.resolve_of_rigid hr] at hs
    rw [Bindings.resolve_of_rigid (hst.rigid hr)] at ht
    cases hs
    cases ht
    exact .rigid hr hst
  · cases hst with
    | var hxy => exact h.roots ⟨x, _, hxy, hs, ht⟩

/-- Where related variables lead after a link on each side. -/
theorem leading_link {x x' y y' : Var} (hx : Leading R b c (.var x) (.var x'))
    (hy : Leading R b c (.var y) (.var y')) {s t : Term}
    (hst : Leading R (b.link x y) (c.link x' y') s t) :
    (s.Rigid ∧ s.Matches R t) ∨
      ∃ u u' w w', Leading R b c (.var u) (.var u') ∧ s = .var w ∧ t = .var w' ∧
        w.name = merged x.name y.name u.name ∧ w'.name = merged x'.name y'.name u'.name := by
  obtain ⟨v, v', hv, hs, ht⟩ := hst
  obtain ⟨s₀, hs₀⟩ := Bindings.resolve_total h.left (.var v)
  obtain ⟨t₀, ht₀⟩ := Bindings.resolve_total h.right (.var v')
  have h₀ : Leading R b c s₀ t₀ := ⟨v, v', hv, hs₀, ht₀⟩
  cases h.roots h₀ with
  | rigid hr hm =>
    rw [resolve_link_rigid h.left hx.free_left hy.free_left hs₀ hr] at hs
    rw [resolve_link_rigid h.right hx.free_right hy.free_right ht₀ (hm.rigid hr)] at ht
    cases hs
    cases ht
    exact .inl ⟨hr, hm⟩
  | @free u u' _ =>
    obtain ⟨w, hw, hname⟩ := resolve_link h.left hx.free_left hy.free_left hs₀
    obtain ⟨w', hw', hname'⟩ := resolve_link h.right hx.free_right hy.free_right ht₀
    rw [hw] at hs
    rw [hw'] at ht
    exact .inr ⟨u, u', w, w', h₀, (Option.some.inj hs).symm, (Option.some.inj ht).symm,
      hname, hname'⟩

/-- Both sides link variables of the same two classes. -/
theorem link {x x' y y' : Var} (hx : Leading R b c (.var x) (.var x'))
    (hy : Leading R b c (.var y) (.var y')) : SameClasses R (b.link x y) (c.link x' y') := by
  refine ⟨oriented_link h.left hx.free_left hy.free_left,
    oriented_link h.right hx.free_right hy.free_right, fun hst => ?_, fun hu hv => ?_⟩
  · obtain ⟨hr, hm⟩ | ⟨_, _, w, w', _, rfl, rfl, _⟩ := h.leading_link hx hy hst
    · exact .rigid hr hm
    · exact .free hst
  · -- Old classes are shared, and `merged` gives one name to the same of them on both sides.
    obtain ⟨hr, _⟩ | ⟨u, u', _, _, hu, ⟨⟩, ⟨⟩, hw, hw'⟩ := h.leading_link hx hy hu
    · exact absurd rfl (hr _)
    obtain ⟨hr, _⟩ | ⟨v, v', _, _, hv, ⟨⟩, ⟨⟩, hz, hz'⟩ := h.leading_link hx hy hv
    · exact absurd rfl (hr _)
    rw [hw, hw', hz, hz', merged_eq_iff, merged_eq_iff, h.shared hu hv, h.shared hu hx,
      h.shared hu hy, h.shared hv hx, h.shared hv hy]

/-- Both sides bind a variable of one class to terms of one shape. -/
theorem bind {x x' : Var} {r r' : Term} (hx : Leading R b c (.var x) (.var x'))
    (hb : b.Binds x r) (hc : c.Binds x' r') (hr : r.Rigid) (hm : r.Matches R r') :
    SameClasses R (b.put x r) (c.put x' r') := by
  -- Only what led to the variable leads elsewhere now, on both sides.
  have old {s t : Term} (hst : Leading R (b.put x r) (c.put x' r') s t) :
      (s.Rigid ∧ s.Matches R t) ∨ Leading R b c s t := by
    obtain ⟨v, v', hv, hs, ht⟩ := hst
    obtain ⟨s₀, hs₀⟩ := Bindings.resolve_total h.left (.var v)
    obtain ⟨t₀, ht₀⟩ := Bindings.resolve_total h.right (.var v')
    have h₀ : Leading R b c s₀ t₀ := ⟨v, v', hv, hs₀, ht₀⟩
    rw [resolve_put h.left hb hs₀] at hs
    rw [resolve_put h.right hc ht₀] at ht
    cases h.roots h₀ with
    | rigid hrigid hmatch =>
      rw [Term.redirect_rigid hrigid] at hs
      rw [Term.redirect_rigid (hmatch.rigid hrigid)] at ht
      cases hs
      cases ht
      exact .inl ⟨hrigid, hmatch⟩
    | @free u u' _ =>
      simp only [Term.redirect, Option.some.injEq] at hs ht
      by_cases hu : u.name = x.name
      · rw [if_pos hu] at hs
        rw [if_pos ((h.shared h₀ hx).1 hu)] at ht
        exact .inl (hs ▸ ht ▸ ⟨hr, hm⟩)
      · rw [if_neg hu] at hs
        rw [if_neg fun e => hu ((h.shared h₀ hx).2 e)] at ht
        exact .inr (hs ▸ ht ▸ h₀)
  refine ⟨h.left.put hb, h.right.put hc, fun {s t} hst => ?_, fun hu hv => ?_⟩
  · obtain ⟨hrigid, hmatch⟩ | h₀ := old hst
    · exact .rigid hrigid hmatch
    · cases h.roots h₀ with
      | free _ => exact .free hst
      | rigid hrigid hmatch => exact .rigid hrigid hmatch
  · obtain ⟨hrigid, _⟩ | hu := old hu
    · exact absurd rfl (hrigid _)
    obtain ⟨hrigid, _⟩ | hv := old hv
    · exact absurd rfl (hrigid _)
    exact h.shared hu hv

end SameClasses

/-! ## Unification -/

/-- Unification runs out of its bound on both sides, clashes on both sides, or
gives bindings that are related again. -/
inductive SameCourse (C : Bindings → Bindings → Prop) :
    Option (Except Clash Bindings) → Option (Except Clash Bindings) → Prop where
  | unfinished : SameCourse C none none
  | clash (k k' : Clash) : SameCourse C (some (.error k)) (some (.error k'))
  | ok {b c : Bindings} (h : C b c) : SameCourse C (some (.ok b)) (some (.ok c))

/-- A relation of bindings with the same classes that unification keeps, since
links and bindings do. -/
structure Coupling (R : Var → Var → Prop) (C : Bindings → Bindings → Prop) : Prop where
  classes : ∀ {b c}, C b c → SameClasses R b c
  link : ∀ {b c x x' y y'}, C b c → Leading R b c (.var x) (.var x') →
    Leading R b c (.var y) (.var y') → C (b.link x y) (c.link x' y')
  bind : ∀ {b c x x' t t'}, C b c → Leading R b c (.var x) (.var x') → b.Binds x t →
    c.Binds x' t' → t.Rigid → t.Matches R t' → C (b.put x t) (c.put x' t')

/-- The classes alone are kept. -/
theorem coupling_sameClasses : Coupling R (SameClasses R) :=
  ⟨id, fun h hx hy => h.link hx hy, fun h hx hb hc ht hm => h.bind hx hb hc ht hm⟩

/-- Compounds of one name with arguments of one shape. -/
def Compound.SameShape (R : Var → Var → Prop) (c d : Compound) : Prop :=
  c.name = d.name ∧ List.Forall₂ (Term.Matches R) c.args d.args

theorem Compound.SameShape.sameSignature_iff {g g' k k' : Compound} (hg : g.SameShape R g')
    (hk : k.SameShape R k') : g.SameSignature k ↔ g'.SameSignature k' := by
  simp only [SameSignature, arity, hg.1, hk.1, hg.2.length_eq, hk.2.length_eq]

variable {u : Bindings → Term → Term → Option (Except Clash Bindings)}

theorem unifyRoots_left {x : Var} {t : Term} (ht : t.Rigid) :
    unifyRoots u b (.var x) t = some (b.bind x t) := by
  cases t with
  | var y => exact absurd rfl (ht y)
  | _ => rfl

theorem unifyRoots_right {s : Term} {y : Var} (hs : s.Rigid) :
    unifyRoots u b s (.var y) = some (b.bind y s) := by
  cases s with
  | var x => exact absurd rfl (hs x)
  | _ => rfl

/-- `u` takes the same course on terms of one shape. -/
def KeepsCourse (R : Var → Var → Prop) (C : Bindings → Bindings → Prop)
    (u : Bindings → Term → Term → Option (Except Clash Bindings)) : Prop :=
  ∀ {b c s s' t t'}, C b c → s.Matches R s' → t.Matches R t' →
    SameCourse C (u b s t) (u c s' t')

namespace Coupling

variable {C : Bindings → Bindings → Prop}

/-- Binding variables of one class to terms of one shape. -/
theorem bind_course (hC : Coupling R C) (h : C b c) {x x' : Var} {t t' : Term}
    (hx : Leading R b c (.var x) (.var x')) (ht : t.Rigid) (hm : t.Matches R t') :
    SameCourse C (some (b.bind x t)) (some (c.bind x' t')) := by
  obtain ⟨e, hb⟩ := rootStep_bind (hC.classes h).left hx.free_left ht
  obtain ⟨e', hc⟩ := rootStep_bind (hC.classes h).right hx.free_right (hm.rigid ht)
  rw [e, e']
  exact .ok (hC.bind h hx hb hc ht hm)

/-- If `u` takes the same course on both sides, so it does on lists. -/
theorem unifyPairs_course (hu : KeepsCourse R C u) {ss ss' ts ts' : List Term} (h : C b c)
    (hs : List.Forall₂ (Term.Matches R) ss ss') (ht : List.Forall₂ (Term.Matches R) ts ts') :
    SameCourse C (unifyPairs u b ss ts) (unifyPairs u c ss' ts') := by
  induction hs generalizing b c ts ts' with
  | nil => exact .ok h
  | cons hst _ ih =>
    cases ht with
    | nil => exact .ok h
    | cons ht hts =>
      have hcourse := hu h hst ht
      simp only [unifyPairs]
      generalize u b _ _ = o, u c _ _ = o' at hcourse
      cases hcourse with
      | unfinished => exact .unfinished
      | clash k k' => exact .clash k k'
      | ok h => exact ih h hts

theorem unifyArgs_course (hu : KeepsCourse R C u) (h : C b c) {g g' k k' : Compound}
    (hg : g.SameShape R g') (hk : k.SameShape R k') :
    SameCourse C (unifyArgs u b g k) (unifyArgs u c g' k') := by
  have hsig := hg.sameSignature_iff hk
  unfold unifyArgs
  by_cases e : g.SameSignature k
  · rw [if_pos e, if_pos (hsig.1 e)]
    exact unifyPairs_course hu h hg.2 hk.2
  · rw [if_neg e, if_neg fun e' => e (hsig.2 e')]
    exact .clash _ _

/-- One call on resolved terms. -/
theorem unifyRoots_course (hC : Coupling R C) (hu : KeepsCourse R C u) (h : C b c)
    {s s' t t' : Term} (hs : SameRoot R b c s s') (ht : SameRoot R b c t t') :
    SameCourse C (unifyRoots u b s t) (unifyRoots u c s' t') := by
  cases hs with
  | free hx =>
    cases ht with
    | free hy => exact .ok (hC.link h hx hy)
    | rigid ht hm =>
      rw [unifyRoots_left ht, unifyRoots_left (hm.rigid ht)]
      exact hC.bind_course h hx ht hm
  | rigid hs hm =>
    cases ht with
    | free hy =>
      rw [unifyRoots_right hs, unifyRoots_right (hm.rigid hs)]
      exact hC.bind_course h hy hs hm
    | rigid ht hm' =>
      cases hm with
      | var _ => exact absurd rfl (hs _)
      | num m =>
        cases hm' with
        | var _ => exact absurd rfl (ht _)
        | num n =>
          by_cases e : m = n
          · simpa [unifyRoots, e] using .ok h
          · simpa [unifyRoots, e] using .clash _ _
        | atom a => exact .clash _ _
        | app _ => exact .clash _ _
      | atom a =>
        cases hm' with
        | var _ => exact absurd rfl (ht _)
        | num n => exact .clash _ _
        | atom a' =>
          by_cases e : a = a'
          · simpa [unifyRoots, e] using .ok h
          · simpa [unifyRoots, e] using .clash _ _
        | app _ => exact .clash _ _
      | app hss =>
        cases hm' with
        | var _ => exact absurd rfl (ht _)
        | num n => exact .clash _ _
        | atom a => exact .clash _ _
        | app hts => exact unifyArgs_course hu h ⟨rfl, hss⟩ ⟨rfl, hts⟩

theorem unify_course (hC : Coupling R C) (n : Nat) : KeepsCourse R C (unify n) := by
  induction n with
  | zero => intro b c s s' t t' _ _ _; exact .unfinished
  | succ n ih =>
    intro b c s s' t t' h hs ht
    have hclasses := hC.classes h
    obtain ⟨s₁, hs₁⟩ := Bindings.resolve_total hclasses.left s
    obtain ⟨t₁, ht₁⟩ := Bindings.resolve_total hclasses.left t
    obtain ⟨s₂, hs₂⟩ := Bindings.resolve_total hclasses.right s'
    obtain ⟨t₂, ht₂⟩ := Bindings.resolve_total hclasses.right t'
    have hroots := hC.unifyRoots_course ih h (hclasses.resolve hs hs₁ hs₂)
      (hclasses.resolve ht ht₁ ht₂)
    simpa [unify, hs₁, ht₁, hs₂, ht₂] using hroots

theorem unifyCompound_course (hC : Coupling R C) (n : Nat) (h : C b c) {g g' k k' : Compound}
    (hg : g.SameShape R g') (hk : k.SameShape R k') :
    SameCourse C (unifyCompound n b g k) (unifyCompound n c g' k') :=
  unifyArgs_course (hC.unify_course n) h hg hk

end Coupling

end HornSearch
