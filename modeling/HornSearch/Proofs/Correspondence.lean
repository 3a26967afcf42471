import Mathlib.Data.List.Forall2
import HornSearch.Proofs.Renaming
import HornSearch.Proofs.Unification

/-!
# Bindings that correspond

Two searches for the same goals that draw different numbers do not build the
same bindings up to names. Of two free variables the one with the larger name
is bound, and `_G10` comes before `_G9`, so one search may bind the variable
that the other one leaves free.

What they agree on is what variables stand for. `Twins` relates the variables
of both searches that play the same part, and bindings correspond
(`Corresponds`) if twins lead to terms of one shape, or to free variables that
are shared by the same twins on both sides. These free variables need not be
twins; they need to be of one kind (`Var.Kin`): a variable that was not drawn
is the same on both sides.

Correspondence survives what a search does: binding the same variables on both
sides (`Corresponds.put`), linking two variables in opposite directions
(`Corresponds.put_cross`) and drawing new ones (`Corresponds.extend`).
-/

namespace HornSearch

/-! ## Names -/

/-- The name begins as the names of draws do. -/
def Reserved (name : String) : Prop := ∃ rest, name = "_G" ++ rest

theorem reserved_iff {name : String} : Reserved name ↔ "_G".toList <+: name.toList := by
  constructor
  · rintro ⟨rest, rfl⟩
    exact ⟨rest.toList, String.toList_append.symm⟩
  · rintro ⟨rest, hrest⟩
    exact ⟨.ofList rest, String.toList_inj.1 (by simp [← hrest])⟩

instance : DecidablePred Reserved := fun _ => decidable_of_iff _ reserved_iff.symm

theorem reserved_fresh (k : Nat) : Reserved (Var.fresh k).name := ⟨_, rfl⟩

/-- Where a name differs from reserved ones, it does so in the first two
characters. -/
theorem lt_reserved_iff {x : String} (hx : ¬Reserved x) (r r' : String) :
    (x < "_G" ++ r ↔ x < "_G" ++ r') ∧ ("_G" ++ r < x ↔ "_G" ++ r' < x) := by
  simp only [String.lt_iff_toList_lt, String.toList_append]
  have hG : "_G".toList = ['_', 'G'] := rfl
  rw [hG]
  match hl : x.toList with
  | [] => simp
  | [a] =>
    simp only [List.cons_append, List.cons_lt_cons_iff]
    simp
  | a :: b :: l =>
    have hne : ¬(a = '_' ∧ b = 'G') := by
      rintro ⟨rfl, rfl⟩
      refine hx ⟨String.ofList l, ?_⟩
      rw [← String.toList_inj, hl, String.toList_append, hG, String.toList_ofList]
      rfl
    simp only [List.cons_append, List.cons_lt_cons_iff, List.nil_append]
    grind

/-! ## Variables and terms -/

/-- Two free variables that may stand in the same place of two answers. -/
inductive Var.Kin : Var → Var → Prop where
  | host {x : Var} (h : ¬Reserved x.name) : Kin x x
  | drawn {x y : Var} (hx : Reserved x.name) (hy : Reserved y.name) (hxi : x.internal = true)
      (hyi : y.internal = true) : Kin x y

/-- Variables that play the same part in two searches: a variable that was not
drawn plays its own, and of the draws those that are listed in pairs. -/
inductive Twins (draws : List (Nat × Nat)) : Var → Var → Prop where
  | host {x : Var} (h : ¬Reserved x.name) : Twins draws x x
  | drawn {i j : Nat} (h : (i, j) ∈ draws) : Twins draws (.fresh i) (.fresh j)

/-- The terms have one shape, and related variables in the same places. -/
inductive Term.Matches (R : Var → Var → Prop) : Term → Term → Prop where
  | num (n : Int64) : Matches R (.num n) (.num n)
  | atom (a : String) : Matches R (.atom a) (.atom a)
  | var {x y : Var} (h : R x y) : Matches R (.var x) (.var y)
  | app {f : String} {ss ts : List Term} (h : List.Forall₂ (Matches R) ss ts) :
      Matches R (.app f ss) (.app f ts)

theorem Var.Kin.internal_eq {x y : Var} (h : x.Kin y) : x.internal = y.internal := by
  cases h with
  | host _ => rfl
  | drawn _ _ hx hy => rw [hx, hy]

/-- The order of two names is the same on both sides, unless both are drawn. -/
theorem Var.Kin.lt_iff {x x' y y' : Var} (hx : x.Kin x') (hy : y.Kin y') :
    (x.name < y.name ↔ x'.name < y'.name) ∨ (Reserved x.name ∧ Reserved y.name) := by
  cases hx with
  | host hx =>
    cases hy with
    | host _ => exact .inl Iff.rfl
    | drawn hy hy' _ _ =>
      obtain ⟨r, hr⟩ := hy
      obtain ⟨r', hr'⟩ := hy'
      rw [hr, hr']
      exact .inl (lt_reserved_iff hx r r').1
  | drawn hx hx' _ _ =>
    cases hy with
    | host hy =>
      obtain ⟨r, hr⟩ := hx
      obtain ⟨r', hr'⟩ := hx'
      rw [hr, hr']
      exact .inl (lt_reserved_iff hy r r').2
    | drawn hy _ _ _ => exact .inr ⟨hx, hy⟩

theorem Twins.kin {draws : List (Nat × Nat)} {x y : Var} (h : Twins draws x y) : x.Kin y := by
  cases h with
  | host h => exact .host h
  | drawn _ => exact .drawn (reserved_fresh _) (reserved_fresh _) rfl rfl

theorem Twins.mono {draws draws' : List (Nat × Nat)} (hsub : draws ⊆ draws') {x y : Var}
    (h : Twins draws x y) : Twins draws' x y := by
  cases h with
  | host h => exact .host h
  | drawn h => exact .drawn (hsub h)

namespace Term

theorem forall₂_of_mem {R S : Term → Term → Prop} {ss ts : List Term}
    (h : List.Forall₂ R ss ts) (hRS : ∀ s ∈ ss, ∀ t, R s t → S s t) : List.Forall₂ S ss ts := by
  induction h with
  | nil => exact .nil
  | cons hst _ ih =>
    exact .cons (hRS _ List.mem_cons_self _ hst) (ih fun s hs => hRS s (List.mem_cons_of_mem _ hs))

theorem Matches.mono {R S : Var → Var → Prop} (hRS : ∀ x y, R x y → S x y) {s t : Term}
    (h : s.Matches R t) : s.Matches S t := by
  induction s generalizing t with
  | num n => cases h; exact .num n
  | atom a => cases h; exact .atom a
  | var x => cases h with | var h => exact .var (hRS _ _ h)
  | app f ss ih => cases h with | app h => exact .app (forall₂_of_mem h fun s hs t => ih s hs)

/-- Two substitutions into one term. -/
theorem matches_subst {R : Var → Var → Prop} {f g : Var → Term} {t : Term}
    (h : ∀ x ∈ t.vars, (f x).Matches R (g x)) : (t.subst f).Matches R (t.subst g) := by
  induction t with
  | num n => simpa using .num n
  | atom a => simpa using .atom a
  | var x => simpa using h x
  | app c args ih =>
    rw [subst_app, subst_app]
    apply Matches.app
    rw [List.forall₂_map_left_iff, List.forall₂_map_right_iff, List.forall₂_same]
    intro t ht
    apply ih t ht
    intro x hx
    exact h x (mem_vars_app.2 ⟨t, ht, hx⟩)

theorem matches_self {R : Var → Var → Prop} {t : Term} (h : ∀ x ∈ t.vars, R x x) :
    t.Matches R t := by
  have := matches_subst (f := .var) (g := .var) (t := t) fun x hx => .var (h x hx)
  rwa [subst_self] at this

theorem Matches.rigid {R : Var → Var → Prop} {s t : Term} (h : s.Matches R t) (hs : s.Rigid) :
    t.Rigid := by
  cases h with
  | var _ => exact absurd rfl (hs _)
  | num _ | atom _ | app _ => simp [Rigid]

end Term

def Compound.Matches (draws : List (Nat × Nat)) (c d : Compound) : Prop :=
  c.name = d.name ∧ List.Forall₂ (Term.Matches (Twins draws)) c.args d.args

namespace Compound

variable {draws : List (Nat × Nat)}

theorem Matches.mono {draws' : List (Nat × Nat)} (hsub : draws ⊆ draws') {c d : Compound}
    (h : c.Matches draws d) : c.Matches draws' d :=
  ⟨h.1, h.2.imp fun _ _ hst => hst.mono fun _ _ => Twins.mono hsub⟩

theorem matches_subst {f g : Var → Term} {c : Compound}
    (h : ∀ x ∈ c.vars, (f x).Matches (Twins draws) (g x)) :
    (c.subst f).Matches draws (c.subst g) := by
  refine ⟨rfl, ?_⟩
  simp only [subst]
  rw [List.forall₂_map_left_iff, List.forall₂_map_right_iff, List.forall₂_same]
  intro t ht
  apply Term.matches_subst
  intro x hx
  exact h x (mem_vars.2 ⟨t, ht, hx⟩)

theorem matches_self {c : Compound} (h : ∀ x ∈ c.vars, ¬Reserved x.name) :
    c.Matches draws c := by
  refine ⟨rfl, List.forall₂_same.2 fun t ht => Term.matches_self fun x hx => ?_⟩
  exact .host (h x (mem_vars.2 ⟨t, ht, hx⟩))

theorem Matches.sameSignature_iff {c c' d : Compound} (h : c.Matches draws c') :
    c.SameSignature d ↔ c'.SameSignature d := by
  simp only [SameSignature, arity, h.1, h.2.length_eq]

end Compound

/-! ## Corresponding bindings -/

/-- Twins lead to the two terms. -/
def Ends (draws : List (Nat × Nat)) (b c : Bindings) (s t : Term) : Prop :=
  ∃ x y, Twins draws x y ∧ b.resolve (.var x) = some s ∧ c.resolve (.var y) = some t

/-- Two resolved terms that twins may lead to: free variables of one kind, or
terms of one shape. -/
inductive Alike (draws : List (Nat × Nat)) : Term → Term → Prop where
  | free {x y : Var} (h : x.Kin y) : Alike draws (.var x) (.var y)
  | rigid {s t : Term} (hs : s.Rigid) (h : s.Matches (Twins draws) t) : Alike draws s t

/-- The variables that were not drawn are bound on both sides or on none, with
one flag; those that were drawn are bound as internal ones. -/
structure Flagged (b c : Bindings) : Prop where
  host : ∀ {name}, ¬Reserved name →
    (b.binding? name).map Binding.internal = (c.binding? name).map Binding.internal
  drawnLeft : ∀ {name e}, Reserved name → b.binding? name = some e → e.internal = true
  drawnRight : ∀ {name e}, Reserved name → c.binding? name = some e → e.internal = true

/-- Twins stand for the same on both sides. -/
structure Corresponds (draws : List (Nat × Nat)) (b c : Bindings) : Prop where
  left : b.Oriented
  right : c.Oriented
  ends : ∀ {s t}, Ends draws b c s t → Alike draws s t
  /-- Free variables are shared by the same twins on both sides. -/
  shared : ∀ {x x' y y'}, Ends draws b c (.var x) (.var x') → Ends draws b c (.var y) (.var y') →
    (x.name = y.name ↔ x'.name = y'.name)
  flagged : Flagged b c

variable {draws : List (Nat × Nat)} {b c : Bindings}

theorem Alike.mono {draws' : List (Nat × Nat)} (hsub : draws ⊆ draws') {s t : Term}
    (h : Alike draws s t) : Alike draws' s t := by
  cases h with
  | free h => exact .free h
  | rigid hs h => exact .rigid hs (h.mono fun _ _ => Twins.mono hsub)

theorem corresponds_empty : Corresponds [] .empty .empty := by
  have hself (x : Var) : Bindings.empty.resolve (.var x) = some (.var x) :=
    Bindings.resolve_of_free (by rw [Bindings.oriented_empty.follow?_var, Bindings.get?_empty])
  have hends {s t : Term} (h : Ends [] .empty .empty s t) :
      ∃ x, ¬Reserved x.name ∧ s = .var x ∧ t = .var x := by
    obtain ⟨x, y, hxy, hs, ht⟩ := h
    rw [hself] at hs ht
    cases hs
    cases ht
    cases hxy with
    | host hx => exact ⟨x, hx, rfl, rfl⟩
    | drawn h => cases h
  refine ⟨Bindings.oriented_empty, Bindings.oriented_empty, ?_, ?_, ⟨?_, ?_, ?_⟩⟩
  · intro s t h
    obtain ⟨x, hx, rfl, rfl⟩ := hends h
    exact .free (.host hx)
  · intro x x' y y' hx hy
    obtain ⟨_, _, hx, hx'⟩ := hends hx
    obtain ⟨_, _, hy, hy'⟩ := hends hy
    cases hx; cases hx'; cases hy; cases hy'
    rfl
  · simp
  · simp
  · simp

theorem Corresponds.kin (h : Corresponds draws b c) {x y : Var}
    (hxy : Ends draws b c (.var x) (.var y)) : x.Kin y := by
  cases h.ends hxy with
  | free h => exact h
  | rigid hs _ => exact absurd rfl (hs x)

/-! ## One more binding -/

/-- What a resolved term is once the variable `x` stands for `r`. -/
def Term.redirect (t : Term) (x : String) (r : Term) : Term :=
  match t with
  | .var u => if u.name = x then r else .var u
  | t => t

theorem Term.redirect_rigid {x : String} {r t : Term} (h : t.Rigid) : t.redirect x r = t := by
  cases t with
  | var u => exact absurd rfl (h u)
  | _ => rfl

theorem resolve_put (ho : b.Oriented) {x : Var} {t s u : Term} (hb : b.Binds x t)
    (hs : b.resolve s = some u) : (b.put x t).resolve s = some (u.redirect x.name t) := by
  cases u with
  | var y =>
    simp only [Term.redirect]
    split
    · rename_i e; exact Bindings.resolve_put_of_eq ho hb hs e
    · rename_i e; exact Bindings.resolve_put_of_ne ho hb hs (by rintro _ ⟨⟩; exact e)
  | _ => exact Bindings.resolve_put_of_ne ho hb hs (by simp [Term.redirect])

/-- Where twins lead after one more binding on each side. -/
theorem Corresponds.ends_put (h : Corresponds draws b c) {x y : Var} {r r' s t : Term}
    (hb : b.Binds x r) (hc : c.Binds y r') (hst : Ends draws (b.put x r) (c.put y r') s t) :
    ∃ s₀ t₀, Ends draws b c s₀ t₀ ∧ s = s₀.redirect x.name r ∧ t = t₀.redirect y.name r' := by
  obtain ⟨v, w, hvw, hs, ht⟩ := hst
  obtain ⟨s₀, hs₀⟩ := Bindings.resolve_total h.left (.var v)
  obtain ⟨t₀, ht₀⟩ := Bindings.resolve_total h.right (.var w)
  rw [resolve_put h.left hb hs₀] at hs
  rw [resolve_put h.right hc ht₀] at ht
  exact ⟨s₀, t₀, ⟨v, w, hvw, hs₀, ht₀⟩, (Option.some.inj hs).symm, (Option.some.inj ht).symm⟩

/-! ### Flags -/

theorem Flagged.put {x y : Var} {s t : Term} (h : Flagged b c) (hxy : x.Kin y) :
    Flagged (b.put x s) (c.put y t) := by
  have drawn {b : Bindings} {x : Var} {s : Term} (hx : Reserved x.name → x.internal = true)
      (h : ∀ {name e}, Reserved name → b.binding? name = some e → e.internal = true)
      {name : String} {e : Binding} (hn : Reserved name)
      (he : (b.put x s).binding? name = some e) : e.internal = true := by
    rw [Bindings.binding?_put] at he
    split at he
    · rename_i hname
      cases he
      exact hx (hname ▸ hn)
    · exact h hn he
  refine ⟨fun {name} hname => ?_, drawn (fun hx => ?_) h.drawnLeft,
    drawn (fun hy => ?_) h.drawnRight⟩
  · rw [Bindings.binding?_put, Bindings.binding?_put]
    cases hxy with
    | host hx =>
      by_cases e : x.name = name
      · rw [if_pos e, if_pos e]; rfl
      · rw [if_neg e, if_neg e, h.host hname]
    | drawn hx hy _ _ =>
      rw [if_neg (by rintro rfl; exact hname hx), if_neg (by rintro rfl; exact hname hy),
        h.host hname]
  · cases hxy with
    | host hx' => exact absurd hx hx'
    | drawn _ _ hxi _ => exact hxi
  · cases hxy with
    | host hy' => exact absurd hy hy'
    | drawn _ _ _ hyi => exact hyi

/-! ### Binding twins' variables -/

/-- Both sides bind the same shared variable. No free variable is left that
was not free before. -/
theorem Corresponds.put (h : Corresponds draws b c) {x y : Var} {r r' : Term}
    (hxy : Ends draws b c (.var x) (.var y)) (hb : b.Binds x r) (hc : c.Binds y r')
    (hr : Alike draws r r') (hrv : ∀ z, r = .var z → Ends draws b c r r') :
    Corresponds draws (b.put x r) (c.put y r') := by
  have old {s t : Term} (hst : Ends draws (b.put x r) (c.put y r') s t) :
      (s = r ∧ t = r') ∨ Ends draws b c s t := by
    obtain ⟨s₀, t₀, h₀, rfl, rfl⟩ := h.ends_put hb hc hst
    cases h.ends h₀ with
    | rigid hs hm =>
      rw [Term.redirect_rigid hs, Term.redirect_rigid (hm.rigid hs)]
      exact .inr h₀
    | @free u u' _ =>
      have hiff := h.shared h₀ hxy
      by_cases hu : u.name = x.name
      · exact .inl ⟨if_pos hu, if_pos (hiff.1 hu)⟩
      · have hs : (Term.var u).redirect x.name r = .var u := if_neg hu
        have ht : (Term.var u').redirect y.name r' = .var u' := if_neg fun e => hu (hiff.2 e)
        rw [hs, ht]
        exact .inr h₀
  refine ⟨h.left.put hb, h.right.put hc, fun hst => ?_, fun hu hv => ?_, h.flagged.put (h.kin hxy)⟩
  · obtain ⟨rfl, rfl⟩ | hst := old hst
    · exact hr
    · exact h.ends hst
  · have free {u u' : Var} (hu : Ends draws (b.put x r) (c.put y r') (.var u) (.var u')) :
        Ends draws b c (.var u) (.var u') := by
      obtain ⟨e, e'⟩ | hu := old hu
      · rw [e, e']
        exact hrv u e.symm
      · exact hu
    exact h.shared (free hu) (free hv)

/-- Of two pairs of shared variables that were drawn, each side binds the one
that the other side leaves free. What is left is shared by the twins of both. -/
theorem Corresponds.put_cross (h : Corresponds draws b c) {x x' y y' : Var}
    (hx : Ends draws b c (.var x) (.var x')) (hy : Ends draws b c (.var y) (.var y'))
    (hxr : Reserved x.name) (hyr : Reserved y.name) (hne : x.name ≠ y.name)
    (hb : b.Binds x (.var y)) (hc : c.Binds y' (.var x')) :
    Corresponds draws (b.put x (.var y)) (c.put y' (.var x')) := by
  have cross {u u' v v' : Var} (hu : u.Kin u') (hv : v.Kin v') (hur : Reserved u.name)
      (hvr : Reserved v.name) : u.Kin v' := by
    cases hu with
    | host hn => exact absurd hur hn
    | drawn _ _ hui _ =>
      cases hv with
      | host hn => exact absurd hvr hn
      | drawn _ hv' _ hvi => exact .drawn hur hv' hui hvi
  -- A pair of ends is an old one away from both, or the one that is left.
  have new {s t : Term} (hst : Ends draws (b.put x (.var y)) (c.put y' (.var x')) s t) :
      (Ends draws b c s t ∧ ∀ u u', s = .var u → t = .var u' →
        u.name ≠ y.name ∧ u'.name ≠ x'.name) ∨
      ∃ u u', s = .var u ∧ t = .var u' ∧ u.Kin u' ∧ u.name = y.name ∧ u'.name = x'.name := by
    obtain ⟨s₀, t₀, h₀, rfl, rfl⟩ := h.ends_put hb hc hst
    cases h.ends h₀ with
    | rigid hs hm =>
      rw [Term.redirect_rigid hs, Term.redirect_rigid (hm.rigid hs)]
      exact .inl ⟨h₀, fun u _ e => absurd e (hs u)⟩
    | @free u u' huk =>
      have hux := h.shared h₀ hx
      have huy := h.shared h₀ hy
      have hxy := h.shared hx hy
      simp only [Term.redirect]
      by_cases ex : u.name = x.name
      · rw [if_pos ex, if_neg (by rw [hux.1 ex]; exact fun e => hne (hxy.2 e))]
        exact .inr ⟨y, u', rfl, rfl, cross (h.kin hy) huk hyr (ex ▸ hxr), rfl, hux.1 ex⟩
      · by_cases ey : u.name = y.name
        · rw [if_neg ex, if_pos (huy.1 ey)]
          exact .inr ⟨u, x', rfl, rfl, cross huk (h.kin hx) (ey ▸ hyr) hxr, ey, rfl⟩
        · rw [if_neg ex, if_neg fun e => ey (huy.2 e)]
          refine .inl ⟨h₀, ?_⟩
          rintro v v' hv hv'
          cases hv
          cases hv'
          exact ⟨ey, fun e => ex (hux.2 e)⟩
  refine ⟨h.left.put hb, h.right.put hc, fun hst => ?_, fun {u u' v v'} hu hv => ?_,
    h.flagged.put (cross (h.kin hx) (h.kin hy) hxr hyr)⟩
  · obtain ⟨hst, _⟩ | ⟨u, u', rfl, rfl, hk, _⟩ := new hst
    · exact h.ends hst
    · exact .free hk
  · obtain ⟨hu, hu'⟩ | ⟨_, _, hu, hu', _, eu, eu'⟩ := new hu
    · obtain ⟨hv, _⟩ | ⟨_, _, hv, hv', _, ev, ev'⟩ := new hv
      · exact h.shared hu hv
      · cases hv
        cases hv'
        obtain ⟨n, n'⟩ := hu' u u' rfl rfl
        exact iff_of_false (ev ▸ n) (ev' ▸ n')
    · cases hu
      cases hu'
      obtain ⟨_, hv'⟩ | ⟨_, _, hv, hv', _, ev, ev'⟩ := new hv
      · obtain ⟨n, n'⟩ := hv' v v' rfl rfl
        exact iff_of_false (eu ▸ n.symm) (eu' ▸ n'.symm)
      · cases hv
        cases hv'
        exact iff_of_true (eu.trans ev.symm) (eu'.trans ev'.symm)

/-! ### New draws -/

/-- Names that the bindings have not seen, neither as bound nor in values, may
become twins. `N` and `N'` are names that were seen, or were not drawn. -/
theorem Corresponds.extend (h : Corresponds draws b c) {N N' : String → Prop} (hb : b.Within N)
    (hc : c.Within N') (hhost : ∀ x, ¬Reserved x → N x ∧ N' x)
    (hold : ∀ {i j}, (i, j) ∈ draws → N (Var.fresh i).name ∧ N' (Var.fresh j).name)
    {new : List (Nat × Nat)}
    (hnew : ∀ {i j}, (i, j) ∈ new → ¬N (Var.fresh i).name ∧ ¬N' (Var.fresh j).name)
    (hinj : ∀ {i j k l}, (i, j) ∈ new → (k, l) ∈ new →
      ((Var.fresh i).name = (Var.fresh k).name ↔ (Var.fresh j).name = (Var.fresh l).name)) :
    Corresponds (draws ++ new) b c := by
  have self {b : Bindings} (ho : b.Oriented) {P : String → Prop} (hP : b.Within P) {k : Nat}
      (hk : ¬P (Var.fresh k).name) : b.resolve (.var (.fresh k)) = some (.var (.fresh k)) := by
    apply Bindings.resolve_of_free
    rw [ho.follow?_var]
    cases hg : b.get? (Var.fresh k).name with
    | none => rfl
    | some t => exact absurd (hP.key hg) hk
  have oldOrNew {s t : Term} (hst : Ends (draws ++ new) b c s t) :
      Ends draws b c s t ∨
      ∃ i j, (i, j) ∈ new ∧ s = .var (.fresh i) ∧ t = .var (.fresh j) := by
    obtain ⟨x, y, hxy, hs, ht⟩ := hst
    cases hxy with
    | host hx => exact .inl ⟨x, x, .host hx, hs, ht⟩
    | @drawn i j hmem =>
      rcases List.mem_append.1 hmem with hmem | hmem
      · exact .inl ⟨_, _, .drawn hmem, hs, ht⟩
      · obtain ⟨hi, hj⟩ := hnew hmem
        rw [self h.left hb hi] at hs
        rw [self h.right hc hj] at ht
        exact .inr ⟨i, j, hmem, (Option.some.inj hs).symm, (Option.some.inj ht).symm⟩
  have seen {u u' : Var} (hu : Ends draws b c (.var u) (.var u')) : N u.name ∧ N' u'.name := by
    obtain ⟨x, y, hxy, hs, ht⟩ := hu
    have hxN : N x.name ∧ N' y.name := by
      cases hxy with
      | host hx => exact hhost _ hx
      | drawn hmem => exact hold hmem
    have hx : (Term.var x).Within N := Term.within_var.2 hxN.1
    have hy : (Term.var y).Within N' := Term.within_var.2 hxN.2
    exact ⟨hb.resolve hs hx u (by simp), hc.resolve ht hy u' (by simp)⟩
  refine ⟨h.left, h.right, fun hst => ?_, fun hu hv => ?_, h.flagged⟩
  · obtain hst | ⟨i, j, _, rfl, rfl⟩ := oldOrNew hst
    · exact (h.ends hst).mono (List.subset_append_left _ _)
    · exact .free (.drawn (reserved_fresh i) (reserved_fresh j) rfl rfl)
  · obtain hu | ⟨i, j, hij, hu, hu'⟩ := oldOrNew hu
    · obtain hv | ⟨k, l, hkl, hv, hv'⟩ := oldOrNew hv
      · exact h.shared hu hv
      · cases hv
        cases hv'
        obtain ⟨hk, hl⟩ := hnew hkl
        obtain ⟨hN, hN'⟩ := seen hu
        exact iff_of_false (fun e => hk (e ▸ hN)) fun e => hl (e ▸ hN')
    · cases hu
      cases hu'
      obtain hv | ⟨k, l, hkl, hv, hv'⟩ := oldOrNew hv
      · obtain ⟨hi, hj⟩ := hnew hij
        obtain ⟨hN, hN'⟩ := seen hv
        exact iff_of_false (fun e => hi (e ▸ hN)) fun e => hj (e ▸ hN')
      · cases hv
        cases hv'
        exact hinj hij hkl

end HornSearch
