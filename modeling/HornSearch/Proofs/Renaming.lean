import Mathlib.Data.String.Basic
import Std.Data.String.ToNat
import HornSearch.Proofs.Substitution

/-!
# What renaming apart does

A rule is renamed by a traversal that carries the names met so far. The result
is a substitution (`Rule.instantiate_eq`): the name that is met as the `i`-th
one, counted from zero, becomes the variable that the draw after `d + i` draws
gives, everywhere in the rule.

Names of draws repeat with period 2^64 only (`fresh_name_eq_iff`). `Later d e`
are the names that draws from `d` on and before `e` give: within one period
none of them was given before (`not_later_fresh`).
-/

namespace HornSearch

/-! ## Names of draws -/

theorem fresh_name_eq_iff {i j : Nat} :
    (Var.fresh i).name = (Var.fresh j).name ↔ i % 2 ^ 64 = j % 2 ^ 64 := by
  constructor
  · intro h
    have h := congrArg String.toList h
    simp only [Var.fresh, String.toList_append] at h
    exact Nat.repr_injective (String.toList_inj.1 (List.append_cancel_left h))
  · intro h
    exact congrArg (fun n => "_G" ++ toString n) h

/-- The name is given by a draw before which at least `d` and less than `e`
draws were made. -/
def Later (d e : Nat) (name : String) : Prop := ∃ k, d ≤ k ∧ k < e ∧ (Var.fresh k).name = name

theorem not_later_fresh {d e k : Nat} (hk : k < d) (he : e ≤ k + 2 ^ 64) :
    ¬Later d e (Var.fresh k).name := by
  rintro ⟨j, hj, hje, h⟩
  have := fresh_name_eq_iff.1 h
  omega

theorem not_later_mono {d d' e : Nat} (h : d ≤ d') {name : String} (hn : ¬Later d e name) :
    ¬Later d' e name := by
  rintro ⟨k, hk, hke, rfl⟩
  exact hn ⟨k, by omega, hke, rfl⟩

/-! ## Names met -/

namespace Renaming

/-- A name joins those met, behind them, unless it was met before. -/
def meet (met : List String) (x : String) : List String := if x ∈ met then met else met ++ [x]

def meetAll (met names : List String) : List String := names.foldl meet met

theorem prefix_meet (met : List String) (x : String) : met <+: meet met x := by
  unfold meet
  split
  · exact List.prefix_refl _
  · exact List.prefix_append _ _

theorem mem_meet {met : List String} {x y : String} : y ∈ meet met x ↔ y ∈ met ∨ y = x := by
  unfold meet
  split
  · rename_i h
    constructor
    · exact .inl
    · rintro (h' | rfl) <;> assumption
  · simp

theorem nodup_meet {met : List String} (h : met.Nodup) (x : String) : (meet met x).Nodup := by
  unfold meet
  split
  · exact h
  · rename_i hx
    rw [List.nodup_append]
    refine ⟨h, by simp, ?_⟩
    rintro a ha b hb rfl
    exact hx (List.mem_singleton.1 hb ▸ ha)

theorem prefix_meetAll (met names : List String) : met <+: meetAll met names := by
  induction names generalizing met with
  | nil => exact List.prefix_refl _
  | cons x names ih => exact (prefix_meet met x).trans (ih _)

theorem mem_meetAll {met names : List String} {y : String} :
    y ∈ meetAll met names ↔ y ∈ met ∨ y ∈ names := by
  induction names generalizing met with
  | nil => simp [meetAll]
  | cons x names ih =>
    have h : y ∈ meetAll (meet met x) names ↔ y ∈ meet met x ∨ y ∈ names := ih
    rw [mem_meet] at h
    simpa [meetAll, or_assoc] using h

theorem nodup_meetAll {met : List String} (h : met.Nodup) (names : List String) :
    (meetAll met names).Nodup := by
  induction names generalizing met with
  | nil => exact h
  | cons x names ih => exact ih (nodup_meet h x)

theorem meetAll_append (met xs ys : List String) :
    meetAll met (xs ++ ys) = meetAll (meetAll met xs) ys := by
  simp [meetAll]

theorem idxOf_of_prefix {met met' : List String} (h : met <+: met') {x : String} (hx : x ∈ met) :
    met'.idxOf x = met.idxOf x := by
  obtain ⟨rest, rfl⟩ := h
  exact List.idxOf_append_of_mem hx

/-- The variable that stands for `x` if the names `met` are numbered from `d`. -/
def numbered (d : Nat) (met : List String) (x : Var) : Term :=
  .var (.fresh (d + met.idxOf x.name))

theorem numbered_of_prefix {d : Nat} {met met' : List String} (h : met <+: met') {x : Var}
    (hx : x.name ∈ met) : numbered d met' x = numbered d met x := by
  simp only [numbered, idxOf_of_prefix h hx]

/-! ## The traversal -/

/-- The variables that were drawn for a renaming, in the order of the draws. -/
def given (r : Renaming) : List Var := r.names.reverse.map Prod.snd

/-- The renaming that began after `d` draws and has met the names `met`. -/
structure Met (d : Nat) (met : List String) (r : Renaming) : Prop where
  drawn : r.drawn = d + met.length
  lookup : ∀ x, r.names.lookup x =
    if x ∈ met then some (Var.fresh (d + met.idxOf x)) else none
  given : r.given = (List.range' d met.length).map Var.fresh

theorem met_start (d : Nat) : Met d [] (.start d) := ⟨rfl, fun _ => rfl, rfl⟩

theorem met_rename {d : Nat} {met : List String} {r : Renaming} (h : Met d met r) (x : Var) :
    ∃ r', rename x r = (numbered d (meet met x.name) x, r') ∧ Met d (meet met x.name) r' := by
  by_cases hx : x.name ∈ met
  · refine ⟨r, ?_, ?_⟩
    · simp only [rename, h.lookup, if_pos hx, meet, numbered]
    · simpa only [meet, if_pos hx] using h
  · refine ⟨⟨r.drawn + 1, (x.name, Var.fresh r.drawn) :: r.names⟩, ?_, ?_⟩
    · simp only [rename, h.lookup, if_neg hx, meet, numbered, h.drawn]
      simp [List.idxOf_append, hx]
    · have hgiven : given ⟨r.drawn + 1, (x.name, Var.fresh r.drawn) :: r.names⟩ =
          (List.range' d (meet met x.name).length).map Var.fresh := by
        calc given ⟨r.drawn + 1, (x.name, Var.fresh r.drawn) :: r.names⟩
            = r.given ++ [Var.fresh r.drawn] := by simp [given]
          _ = (List.range' d (met.length + 1)).map Var.fresh := by
            rw [h.given, h.drawn, List.range'_1_concat, List.map_append]; rfl
          _ = _ := by simp [meet, hx]
      refine ⟨by simp [meet, hx, h.drawn, Nat.add_assoc], fun y => ?_, hgiven⟩
      by_cases hy : y = x.name
      · subst hy
        simp [meet, hx, h.drawn, List.idxOf_append]
      · have hy' : (y == x.name) = false := by simpa using hy
        rw [List.lookup_cons, hy', h.lookup]
        by_cases hm : y ∈ met
        · simp [meet, hx, hm, List.idxOf_append]
        · simp [meet, hx, hm, hy]

/-- Renaming meets `names` and gives `out` of all names met by then, which does
not change when more names are met later. -/
structure Renames (d : Nat) {α : Type} (names : List String) (act : StateM Renaming α)
    (out : List String → α) : Prop where
  run : ∀ {met r}, Met d met r →
    ∃ r', act.run r = (out (meetAll met names), r') ∧ Met d (meetAll met names) r'
  stable : ∀ {met met'}, met <+: met' → (∀ x ∈ names, x ∈ met) → out met' = out met

theorem renames_pure (d : Nat) {α : Type} (a : α) : Renames d [] (pure a) fun _ => a :=
  ⟨fun h => ⟨_, rfl, h⟩, fun _ _ => rfl⟩

theorem renames_rename (d : Nat) (x : Var) :
    Renames d [x.name] (rename x : StateM Renaming Term) fun met => numbered d met x :=
  ⟨fun h => met_rename h x, fun h hx => numbered_of_prefix h (hx _ (by simp))⟩

/-- One renaming after another meets the names of both. -/
theorem Renames.pair {d : Nat} {α β γ : Type} {xs ys : List String} {a : StateM Renaming α}
    {b : StateM Renaming β} {f : List String → α} {g : List String → β} (ha : Renames d xs a f)
    (hb : Renames d ys b g) (k : α → β → γ) :
    Renames d (xs ++ ys) (do let x ← a; let y ← b; pure (k x y)) fun met => k (f met) (g met) := by
  constructor
  · intro met r h
    obtain ⟨r₁, h₁, hm₁⟩ := ha.run h
    obtain ⟨r₂, h₂, hm₂⟩ := hb.run hm₁
    have hf : f (meetAll (meetAll met xs) ys) = f (meetAll met xs) :=
      ha.stable (prefix_meetAll _ _) fun x hx => mem_meetAll.2 (.inr hx)
    rw [meetAll_append]
    refine ⟨r₂, ?_, hm₂⟩
    calc StateT.run (do let x ← a; let y ← b; pure (k x y)) r
        = StateT.run (do let y ← b; pure (k (f (meetAll met xs)) y)) r₁ := by
          rw [StateT.run_bind, h₁]; rfl
      _ = (k (f (meetAll met xs)) (g (meetAll (meetAll met xs) ys)), r₂) := by
          rw [StateT.run_bind, h₂]; rfl
      _ = _ := by rw [hf]
  · intro met met' hp hmem
    rw [ha.stable hp fun x hx => hmem x (by simp [hx]),
      hb.stable hp fun x hx => hmem x (by simp [hx])]

theorem Renames.map {d : Nat} {α β : Type} {xs : List String} {a : StateM Renaming α}
    {f : List String → α} (ha : Renames d xs a f) (k : α → β) :
    Renames d xs (do let x ← a; pure (k x)) fun met => k (f met) := by
  have := ha.pair (renames_pure d ()) fun x _ => k x
  rwa [List.append_nil] at this

theorem renames_terms {d : Nat} (ts : List Term)
    (h : ∀ t ∈ ts, Renames d (t.vars.map Var.name) (t.substM rename)
      fun met => t.subst (numbered d met)) :
    Renames d ((Term.varsAll ts).map Var.name) (Term.substAllM rename ts)
      fun met => ts.map (Term.subst (numbered d met)) := by
  induction ts with
  | nil => exact renames_pure d []
  | cons t ts ih =>
    have := (h t (by simp)).pair (ih fun t ht => h t (by simp [ht])) List.cons
    simpa only [Term.varsAll, List.map_append, Term.substAllM, List.map_cons] using this

/-- Every variable of a term becomes the one that its name is numbered with. -/
theorem renames_term (d : Nat) (t : Term) :
    Renames d (t.vars.map Var.name) (t.substM rename) fun met => t.subst (numbered d met) := by
  induction t with
  | num n =>
    simpa only [Term.vars, Term.substM, Term.subst_num, List.map_nil] using
      renames_pure d (Term.num n)
  | atom a =>
    simpa only [Term.vars, Term.substM, Term.subst_atom, List.map_nil] using
      renames_pure d (Term.atom a)
  | var x =>
    simpa only [Term.vars, Term.substM, Term.subst_var, List.map_cons, List.map_nil] using
      renames_rename d x
  | app f args ih =>
    simpa only [Term.vars, Term.substM, Term.subst_app] using
      (renames_terms args ih).map (Term.app f)

theorem renames_compound (d : Nat) (c : Compound) :
    Renames d (c.vars.map Var.name) (compound c) fun met => c.subst (numbered d met) :=
  (renames_terms c.args fun t _ => renames_term d t).map (Compound.mk c.name)

theorem renames_compounds (d : Nat) (cs : List Compound) :
    Renames d ((cs.flatMap Compound.vars).map Var.name) (compounds cs)
      fun met => cs.map (Compound.subst (numbered d met)) := by
  induction cs with
  | nil => exact renames_pure d []
  | cons c cs ih =>
    have := (renames_compound d c).pair ih List.cons
    simpa only [List.flatMap_cons, List.map_append, compounds, List.map_cons] using this

/-! ## Reading numbered names -/

/-- The name among `met` that was numbered with this one. -/
def unnumbered (d : Nat) (met : List String) (x : String) : Option String :=
  met.find? fun y => (Var.fresh (d + met.idxOf y)).name = x

theorem unnumbered_fresh {d : Nat} {met : List String} (hlen : met.length ≤ 2 ^ 64) {y : String}
    (hy : y ∈ met) : unnumbered d met (Var.fresh (d + met.idxOf y)).name = some y := by
  cases hf : unnumbered d met (Var.fresh (d + met.idxOf y)).name with
  | none =>
    have := List.find?_eq_none.1 hf y hy
    simp at this
  | some z =>
    have hz := List.mem_of_find?_eq_some hf
    have he := fresh_name_eq_iff.1 (by simpa using List.find?_some hf)
    have hly := List.idxOf_lt_length_of_mem hy
    have hlz := List.idxOf_lt_length_of_mem hz
    have hidx : met.idxOf z = met.idxOf y := by omega
    rw [(List.idxOf_inj hz).1 hidx]

theorem unnumbered_eq_none {d : Nat} {met : List String} {x : String}
    (hx : ¬Later d (d + met.length) x) : unnumbered d met x = none := by
  rw [unnumbered, List.find?_eq_none]
  intro y hy e
  have := List.idxOf_lt_length_of_mem hy
  exact hx ⟨d + met.idxOf y, by omega, by omega, by simpa using e⟩

end Renaming

/-! ## Rules -/

namespace Rule

def names (r : Rule) : List String := Renaming.meetAll [] (r.vars.map Var.name)

theorem mem_names {r : Rule} {x : String} : x ∈ r.names ↔ ∃ y ∈ r.vars, y.name = x := by
  simp [names, Renaming.mem_meetAll]

theorem nodup_names (r : Rule) : r.names.Nodup :=
  Renaming.nodup_meetAll List.nodup_nil _

/-- The renaming of a rule when its head and its body are renamed. -/
def renamer (r : Rule) (d : Nat) : Renaming :=
  ((Renaming.compounds r.body).run ((Renaming.compound r.head).run (.start d)).2).2

theorem instantiate_run (r : Rule) (d : Nat) :
    (r.instantiate d).1 = r.subst (Renaming.numbered d r.names) ∧
      Renaming.Met d r.names (r.renamer d) := by
  have h := (Renaming.renames_compound d r.head).pair (Renaming.renames_compounds d r.body) Rule.mk
  obtain ⟨met, hrun, hmet⟩ := h.run (Renaming.met_start d)
  rw [← List.map_append] at hrun hmet
  have hpair : ((r.instantiate d).1, r.renamer d) =
      StateT.run (do
        let head ← Renaming.compound r.head
        let body ← Renaming.compounds r.body
        pure (Rule.mk head body)) (Renaming.start d) := rfl
  obtain ⟨hcopy, rfl⟩ := Prod.mk.inj (hpair.trans hrun)
  exact ⟨hcopy, hmet⟩

/-- Renaming a rule apart is a substitution: its names are numbered from the
draws made before, in the order in which they occur first. -/
theorem instantiate_eq (r : Rule) (d : Nat) :
    r.instantiate d = (r.subst (Renaming.numbered d r.names), d + r.names.length) := by
  obtain ⟨hcopy, hmet⟩ := r.instantiate_run d
  exact Prod.ext hcopy hmet.drawn

/-- A copy has the variables that were drawn for it, and no others. -/
theorem mem_vars_instantiate {r r' : Rule} {d d' : Nat} (h : r.instantiate d = (r', d'))
    {x : Var} : x ∈ r'.vars ↔ ∃ k, d ≤ k ∧ k < d' ∧ x = Var.fresh k := by
  rw [instantiate_eq] at h
  cases h
  rw [mem_vars_subst]
  constructor
  · rintro ⟨y, hy, hx⟩
    obtain rfl : x = Var.fresh (d + r.names.idxOf y.name) := by
      simpa [Renaming.numbered] using hx
    have hidx := List.idxOf_lt_length_of_mem (mem_names.2 ⟨y, hy, rfl⟩)
    exact ⟨_, by omega, by omega, rfl⟩
  · rintro ⟨k, hk, hkd, rfl⟩
    have hlt : k - d < r.names.length := by omega
    obtain ⟨y, hy, hname⟩ := mem_names.1 (List.getElem_mem hlt)
    have hidx : r.names.idxOf y.name = k - d := by
      rw [hname]
      exact r.nodup_names.idxOf_getElem _ hlt
    refine ⟨y, hy, ?_⟩
    simp [Renaming.numbered, hidx, Nat.add_sub_cancel' hk]

end Rule

/-! ## Clauses -/

namespace Clause

/-- A fact is used as it stands, so it must not have variables if its uses are
to be independent. -/
def Closed : Clause → Prop
  | .fact head => head.vars = []
  | .rule _ => True

def names : Clause → List String
  | .fact _ => []
  | .rule r => r.names

theorem nodup_names (c : Clause) : c.names.Nodup := by
  cases c with
  | fact head => exact List.nodup_nil
  | rule r => exact r.nodup_names

theorem mem_names {c : Clause} (hc : c.Closed) {x : Var}
    (hx : x ∈ c.head.vars ∨ ∃ g ∈ c.body, x ∈ g.vars) : x.name ∈ c.names := by
  cases c with
  | fact head =>
    have hnil : head.vars = [] := hc
    simp [Clause.head, Clause.body, hnil] at hx
  | rule r => exact Rule.mem_names.2 ⟨x, by simpa [Rule.vars, Clause.head, Clause.body] using hx, rfl⟩

/-- Every copy has other variables in the places of the clause's. Facts, which may have
variables here, keep theirs. -/
theorem exists_renaming {c : Clause} {d d' : Nat} {r : Rule} (h : c.instantiate d = (r, d')) :
    ∃ ρ : Var → Var, r.head = c.head.subst (fun x => .var (ρ x)) ∧
      r.body = c.body.map (Compound.subst fun x => .var (ρ x)) := by
  cases c with
  | fact head =>
    cases h
    exact ⟨id, (Compound.subst_self head).symm, rfl⟩
  | rule r₀ =>
    rw [instantiate, Rule.instantiate_eq] at h
    cases h
    exact ⟨fun x => .fresh (d + r₀.names.idxOf x.name), rfl, rfl⟩

/-- What a valuation makes of the copy that is used, some valuation makes of the
clause itself. Facts may have variables here. -/
theorem instantiate_ground {c : Clause} {d d' : Nat} {r : Rule} (h : c.instantiate d = (r, d'))
    (v : Valuation) : ∃ w : Valuation,
      v.compound r.head = w.compound c.head ∧ r.body.map v.compound = c.body.map w.compound := by
  cases c with
  | fact head =>
    cases h
    exact ⟨v, rfl, rfl⟩
  | rule r₀ =>
    rw [instantiate, Rule.instantiate_eq] at h
    cases h
    let w : Valuation := ⟨fun x => v.value (Var.fresh (d + r₀.names.idxOf x)).name,
      fun x => v.ground _⟩
    have hw (c : Compound) :
        v.compound (c.subst (Renaming.numbered d r₀.names)) = w.compound c :=
      Valuation.compound_subst fun x _ => by simp [Renaming.numbered, w]
    refine ⟨w, hw r₀.head, ?_⟩
    simp [Rule.subst, Clause.body, hw]

/-- If facts have no variables, every clause is used as its renamed copy. -/
theorem instantiate_eq {c : Clause} (hc : c.Closed) (d : Nat) :
    c.instantiate d = (⟨c.head.subst (Renaming.numbered d c.names),
      c.body.map (Compound.subst (Renaming.numbered d c.names))⟩, d + c.names.length) := by
  cases c with
  | fact head =>
    simp [instantiate, Clause.head, Clause.body, names, Compound.subst_of_ground _ hc]
  | rule r =>
    simp [instantiate, Rule.instantiate_eq, Rule.subst, Clause.head, Clause.body, names]

/-- Every variable of a copy was drawn for it. -/
theorem fresh_of_instantiate {c : Clause} {d d' : Nat} {r : Rule} (hc : c.Closed)
    (h : c.instantiate d = (r, d')) {x : Var} (hx : x ∈ r.vars) :
    ∃ k, d ≤ k ∧ k < d' ∧ x = Var.fresh k := by
  cases c with
  | fact head =>
    cases h
    have hnil : head.vars = [] := hc
    simp [Rule.vars, hnil] at hx
  | rule rule => exact Rule.mem_vars_instantiate h |>.1 hx

/-- Every ground instance of a clause is one of its copy, under a valuation that
agrees with a given one on all names that were not drawn for the copy. -/
theorem instantiate_lift {c : Clause} {d d' : Nat} {r : Rule} (hc : c.Closed)
    (h : c.instantiate d = (r, d')) (hd : d' ≤ d + 2 ^ 64) (v w : Valuation) : ∃ s : Valuation,
      (∀ x, ¬Later d d' x → s.value x = v.value x) ∧
      s.compound r.head = w.compound c.head ∧ r.body.map s.compound = c.body.map w.compound := by
  rw [instantiate_eq hc] at h
  cases h
  have hlen : c.names.length ≤ 2 ^ 64 := by omega
  let s := v.override w (Renaming.unnumbered d c.names)
  have hs (g : Compound) (hg : g = c.head ∨ g ∈ c.body) :
      s.compound (g.subst (Renaming.numbered d c.names)) = w.compound g := by
    apply Valuation.compound_subst
    intro x hx
    have hmem : x.name ∈ c.names := by
      rcases hg with rfl | hg
      · exact mem_names hc (.inl hx)
      · exact mem_names hc (.inr ⟨g, hg, hx⟩)
    simp [s, Renaming.numbered, Valuation.override, Renaming.unnumbered_fresh hlen hmem]
  refine ⟨s, fun x hx => ?_, hs c.head (.inl rfl), ?_⟩
  · simp [s, Valuation.override, Renaming.unnumbered_eq_none hx]
  · rw [List.map_map]
    exact List.map_congr_left fun g hg => hs g (.inr hg)

theorem drawn_le_instantiate {c : Clause} {d d' : Nat} {r : Rule}
    (h : c.instantiate d = (r, d')) : d ≤ d' := by
  cases c with
  | fact head =>
    cases h
    exact Nat.le_refl d
  | rule r =>
    rw [instantiate, Rule.instantiate_eq] at h
    cases h
    exact Nat.le_add_right d _

end Clause

end HornSearch
