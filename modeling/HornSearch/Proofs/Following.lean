import Mathlib.Data.String.Basic
import Mathlib.Data.List.Perm.Subperm
import HornSearch.Bindings
import HornSearch.Proofs.Substitution

/-!
# Following bindings

Bindings are *oriented* if a variable is bound to another variable only when
that one has a smaller name. Unification builds no others, and on them
following variables always comes to an end (`resolve_total`), also where terms
are cyclic.

* `Leads` is following bindings as a relation, without a bound on the steps;
  `resolve_eq_some_iff` says that the bound does not matter;
* `resolve_put_of_eq` and `resolve_put_of_ne` say what one more binding changes;
* a valuation *solves* bindings if it gives every bound variable and its value
  the same term, and then following bindings keeps the term
  (`Solves.resolve`).
-/

namespace HornSearch

def Term.Rigid (t : Term) : Prop := ∀ x, t ≠ .var x

theorem Term.rigid_or_var (t : Term) : t.Rigid ∨ ∃ x, t = .var x := by
  cases t with
  | var x => exact .inr ⟨x, rfl⟩
  | _ => exact .inl (by simp [Term.Rigid])

def Term.Over (V : Var → Prop) (t : Term) : Prop := ∀ x ∈ t.vars, V x

def Term.Within (P : String → Prop) (t : Term) : Prop := ∀ x ∈ t.vars, P x.name

theorem Term.within_var {P : String → Prop} {x : Var} : (Term.var x).Within P ↔ P x.name := by
  simp [Term.Within]

namespace Bindings

/-- A variable is bound to another variable only if that one has a smaller
name. -/
def Oriented (b : Bindings) : Prop := ∀ x y, b.get? x = some (.var y) → y.name < x

/-- All variables that are bound, with the flag they are bound under, or occur
in a value, satisfy `V`. -/
structure Over (V : Var → Prop) (b : Bindings) : Prop where
  key : ∀ {x e}, b.binding? x = some e → V ⟨x, e.internal⟩
  value : ∀ {x t}, b.get? x = some t → t.Over V

/-- All names that are bound, or occur in a value, satisfy `P`. -/
structure Within (P : String → Prop) (b : Bindings) : Prop where
  key : ∀ {x t}, b.get? x = some t → P x
  value : ∀ {x t}, b.get? x = some t → t.Within P

theorem get?_eq_some_iff {b : Bindings} {x : String} {t : Term} :
    b.get? x = some t ↔ ∃ e, b.binding? x = some e ∧ e.value = t :=
  Option.map_eq_some_iff

theorem mem_of_get?_foldl_put {pairs : List (Var × Term)} {b : Bindings} {x : String} {t : Term}
    (h : (pairs.foldl (fun b p => b.put p.1 p.2) b).get? x = some t) :
    b.get? x = some t ∨ ∃ y, (y, t) ∈ pairs ∧ y.name = x := by
  induction pairs generalizing b with
  | nil => exact .inl h
  | cons p pairs ih =>
    obtain hput | ⟨y, hy, hname⟩ := ih h
    · rw [get?_put] at hput
      split at hput
      · rename_i hname
        cases hput
        exact .inr ⟨p.1, List.mem_cons_self, hname⟩
      · exact .inl hput
    · exact .inr ⟨y, List.mem_cons_of_mem _ hy, hname⟩

/-- Bindings that are listed bind nothing else. -/
theorem mem_of_get?_ofList {pairs : List (Var × Term)} {x : String} {t : Term}
    (h : (ofList pairs).get? x = some t) : ∃ y, (y, t) ∈ pairs ∧ y.name = x := by
  obtain hempty | hmem := mem_of_get?_foldl_put h
  · rw [get?_empty] at hempty
    cases hempty
  · exact hmem

theorem oriented_empty : empty.Oriented := by
  intro x y h
  simp at h

theorem oriented_ofList {pairs : List (Var × Term)}
    (h : ∀ p ∈ pairs, ∀ y, p.2 = .var y → y.name < p.1.name) : (ofList pairs).Oriented := by
  intro x y hx
  obtain ⟨z, hz, rfl⟩ := mem_of_get?_ofList hx
  exact h _ hz y rfl

theorem over_empty (V : Var → Prop) : empty.Over V :=
  ⟨fun h => by simp at h, fun h => by simp at h⟩

theorem Over.mono {V W : Var → Prop} {b : Bindings} (hb : b.Over V) (h : ∀ x, V x → W x) :
    b.Over W :=
  ⟨fun hx => h _ (hb.key hx), fun hx y hy => h _ (hb.value hx y hy)⟩

/-- What holds of the values and of the new one holds of all values. -/
theorem forall_get?_put {P : Term → Prop} {b : Bindings} {x : Var} {t : Term}
    (hb : ∀ y u, b.get? y = some u → P u) (ht : P t) :
    ∀ y u, (b.put x t).get? y = some u → P u := by
  intro y u h
  rw [get?_put] at h
  split at h
  · cases h
    exact ht
  · exact hb y u h

theorem Over.put {V : Var → Prop} {b : Bindings} {x : Var} {t : Term} (hb : b.Over V)
    (hx : V x) (ht : t.Over V) : (b.put x t).Over V := by
  constructor
  · intro y e h
    rw [binding?_put] at h
    split at h
    · rename_i hname
      cases h
      exact hname ▸ hx
    · exact hb.key h
  · intro y u h
    exact forall_get?_put (fun _ _ => hb.value) ht y u h

/-- Names are the part of variables that ignores flags. -/
theorem within_iff_over {P : String → Prop} {b : Bindings} :
    b.Within P ↔ b.Over fun x => P x.name := by
  constructor
  · intro h
    refine ⟨fun {x e} hx => h.key (t := e.value) ?_, h.value⟩
    exact get?_eq_some_iff.2 ⟨e, hx, rfl⟩
  · intro h
    refine ⟨fun hx => ?_, h.value⟩
    obtain ⟨e, he, _⟩ := get?_eq_some_iff.1 hx
    exact h.key he

/-- Distinct bound names, such as those met on the way along bindings. -/
structure Trail (b : Bindings) (names : List String) : Prop where
  nodup : names.Nodup
  bound : ∀ x ∈ names, b.get? x ≠ none

theorem Trail.nil (b : Bindings) : b.Trail [] := ⟨List.nodup_nil, by simp⟩

theorem Trail.cons {b : Bindings} {names : List String} {x : String} {t : Term}
    (h : b.Trail names) (hx : b.get? x = some t) (hn : x ∉ names) : b.Trail (x :: names) :=
  ⟨List.nodup_cons.2 ⟨hn, h.nodup⟩, by simpa [hx] using h.bound⟩

/-- No trail is longer than the bindings. -/
theorem Trail.length_le {b : Bindings} {names : List String} (h : b.Trail names) :
    names.length ≤ b.size := by
  have hsub : names ⊆ b.entries.keys := by
    intro x hx
    have := h.bound x hx
    simp only [get?, binding?, ne_eq, Option.map_eq_none_iff] at this
    rw [Std.ExtTreeMap.mem_keys, Std.ExtTreeMap.mem_iff_isSome_getElem?]
    exact Option.isSome_iff_ne_none.2 this
  have hle := (h.nodup.subperm hsub).length_le
  rwa [Std.ExtTreeMap.length_keys] at hle

/-! ## One step -/

theorem follow?_of_rigid {b : Bindings} {t : Term} (h : t.Rigid) : b.follow? t = none := by
  cases t with
  | var x => exact absurd rfl (h x)
  | _ => rfl

theorem Oriented.follow?_var {b : Bindings} (ho : b.Oriented) (x : Var) :
    b.follow? (.var x) = b.get? x.name := by
  simp only [follow?]
  split
  · rename_i y h
    have := ho _ _ h
    rw [if_neg (by rintro e; exact absurd (e ▸ this) (lt_irrefl _)), h]
  · rfl

theorem eq_var_of_follow? {b : Bindings} {t u : Term} (h : b.follow? t = some u) :
    ∃ x, t = .var x ∧ b.get? x.name = some u := by
  cases t with
  | var x =>
    refine ⟨x, rfl, ?_⟩
    simp only [follow?] at h
    split at h
    · split at h
      · cases h
      · rename_i hx _; rw [hx, h]
    · exact h
  | _ => cases h

/-! ## Many steps -/

/-- Following bindings from one term ends at the other. -/
inductive Leads (b : Bindings) : Term → Term → Prop where
  | stop {t : Term} : b.follow? t = none → Leads b t t
  | follow {t u w : Term} : b.follow? t = some u → Leads b u w → Leads b t w

theorem Leads.free {b : Bindings} {t u : Term} (h : b.Leads t u) : b.follow? u = none := by
  induction h with
  | stop h => exact h
  | follow _ _ ih => exact ih

theorem Leads.unique {b : Bindings} {t u w : Term} (h : b.Leads t u) (h' : b.Leads t w) :
    u = w := by
  induction h with
  | stop h =>
    cases h' with
    | stop => rfl
    | follow h' => simp [h] at h'
  | follow h _ ih =>
    cases h' with
    | stop h' => simp [h] at h'
    | follow h' hl =>
      rw [h] at h'
      cases h'
      exact ih hl

theorem leads_of_walk {b : Bindings} {n : Nat} {t u : Term} (h : b.walk n t = some u) :
    b.Leads t u := by
  induction n generalizing t with
  | zero =>
    simp only [walk, Option.isNone_iff_eq_none] at h
    split at h
    · rename_i hf; cases h; exact .stop hf
    · cases h
  | succ n ih =>
    simp only [walk] at h
    split at h
    · rename_i hf; cases h; exact .stop hf
    · rename_i hf; exact .follow hf (ih h)

/-- Every variable that is followed is new, being smaller than those before, so
the trail of names never gets longer than the bindings. -/
theorem Oriented.walk_total {b : Bindings} (ho : b.Oriented) (n : Nat) (seen : List String)
    (t : Term) (hs : b.Trail seen) (hlt : ∀ x ∈ seen, ∀ y, t = .var y → y.name < x)
    (hsize : b.size ≤ seen.length + n) : ∃ u, b.walk n t = some u := by
  induction n generalizing seen t with
  | zero =>
    cases hf : b.follow? t with
    | none => exact ⟨t, by simp [walk, hf]⟩
    | some u =>
      obtain ⟨x, rfl, hx⟩ := eq_var_of_follow? hf
      have := (hs.cons hx fun hm => lt_irrefl _ (hlt _ hm x rfl)).length_le
      simp only [List.length_cons] at this
      omega
  | succ n ih =>
    cases hf : b.follow? t with
    | none => exact ⟨t, by simp [walk, hf]⟩
    | some u =>
      obtain ⟨x, rfl, hx⟩ := eq_var_of_follow? hf
      have hs' := hs.cons hx fun hm => lt_irrefl _ (hlt _ hm x rfl)
      have hlt' : ∀ y ∈ x.name :: seen, ∀ z, u = .var z → z.name < y := by
        rintro y hy z rfl
        have hz := ho _ _ hx
        rcases List.mem_cons.1 hy with rfl | hy
        · exact hz
        · exact lt_trans hz (hlt y hy x rfl)
      obtain ⟨w, hw⟩ := ih (x.name :: seen) u hs' hlt' (by simp only [List.length_cons]; omega)
      exact ⟨w, by simp [walk, hf, hw]⟩

/-- On oriented bindings every term leads somewhere. -/
theorem resolve_total {b : Bindings} (ho : b.Oriented) (t : Term) : ∃ u, b.resolve t = some u :=
  ho.walk_total b.size [] t (.nil b) (by simp) (by simp)

theorem resolve_eq_some_iff {b : Bindings} (ho : b.Oriented) {t u : Term} :
    b.resolve t = some u ↔ b.Leads t u := by
  constructor
  · exact leads_of_walk
  · intro h
    obtain ⟨w, hw⟩ := resolve_total ho t
    rw [hw, h.unique (leads_of_walk hw)]

theorem resolve_free {b : Bindings} {t u : Term} (h : b.resolve t = some u) :
    b.follow? u = none :=
  (leads_of_walk h).free

theorem resolve_of_free {b : Bindings} {t : Term} (h : b.follow? t = none) :
    b.resolve t = some t := by
  unfold resolve
  cases b.size <;> simp [walk, h]

theorem resolve_of_rigid {b : Bindings} {t : Term} (h : t.Rigid) : b.resolve t = some t :=
  resolve_of_free (follow?_of_rigid h)

theorem Over.leads {V : Var → Prop} {b : Bindings} (hb : b.Over V) {t u : Term}
    (h : b.Leads t u) (ht : t.Over V) : u.Over V := by
  induction h with
  | stop _ => exact ht
  | follow hf _ ih =>
    obtain ⟨x, rfl, hx⟩ := eq_var_of_follow? hf
    exact ih (hb.value hx)

theorem Over.resolve {V : Var → Prop} {b : Bindings} (hb : b.Over V) {t u : Term}
    (h : b.resolve t = some u) (ht : t.Over V) : u.Over V :=
  hb.leads (leads_of_walk h) ht

theorem Within.resolve {P : String → Prop} {b : Bindings} (hb : b.Within P) {t u : Term}
    (h : b.resolve t = some u) (ht : t.Within P) : u.Within P :=
  (within_iff_over.1 hb).resolve h ht

/-! ## One more binding -/

/-- `x` may be bound to `t`: `x` is free, and `t` is resolved and no variable of
a name that is not smaller. -/
structure Binds (b : Bindings) (x : Var) (t : Term) : Prop where
  unbound : b.get? x.name = none
  free : b.follow? t = none
  smaller : ∀ y, t = .var y → y.name < x.name

theorem Oriented.put {b : Bindings} {x : Var} {t : Term} (ho : b.Oriented) (h : b.Binds x t) :
    (b.put x t).Oriented := by
  intro y z hy
  rw [get?_put] at hy
  split at hy
  · rename_i e
    rw [← e]
    exact h.smaller z (Option.some.inj hy)
  · exact ho _ _ hy

/-- A binding that is added leaves all earlier ones in place. -/
theorem Binds.get? {b : Bindings} {x : Var} {t u : Term} {y : String} (h : b.Binds x t)
    (hy : b.get? y = some u) : (b.put x t).get? y = some u := by
  rw [get?_put, if_neg (by rintro rfl; simp [h.unbound] at hy), hy]

section
variable {b : Bindings} {x : Var} {t : Term}

theorem Binds.free_put (ho : b.Oriented) (h : b.Binds x t) : (b.put x t).follow? t = none := by
  cases t with
  | var y =>
    have hlt := h.smaller y rfl
    have hy := h.free
    rw [ho.follow?_var] at hy
    rw [(ho.put h).follow?_var, get?_put, if_neg (by rintro e; simp [e] at hlt), hy]
  | _ => rfl

theorem Binds.leads_of_eq (ho : b.Oriented) (h : b.Binds x t) {s : Term} {y : Var}
    (hs : b.Leads s (.var y)) (hy : y.name = x.name) : (b.put x t).Leads s t := by
  generalize hu : Term.var y = u at hs
  induction hs with
  | stop _ =>
    subst hu
    refine .follow ?_ (.stop (h.free_put ho))
    rw [(ho.put h).follow?_var, get?_put, if_pos hy.symm]
  | follow hf _ ih =>
    obtain ⟨z, rfl, hz⟩ := eq_var_of_follow? hf
    refine .follow ?_ (ih hu)
    rw [(ho.put h).follow?_var, h.get? hz]

theorem Binds.leads_of_ne (ho : b.Oriented) (h : b.Binds x t) {s u : Term}
    (hs : b.Leads s u) (hu : ∀ y, u = .var y → y.name ≠ x.name) : (b.put x t).Leads s u := by
  induction hs with
  | @stop s hf =>
    apply Leads.stop
    cases s with
    | var y =>
      rw [ho.follow?_var] at hf
      rw [(ho.put h).follow?_var, get?_put, if_neg (hu y rfl).symm, hf]
    | _ => rfl
  | follow hf _ ih =>
    obtain ⟨z, rfl, hz⟩ := eq_var_of_follow? hf
    refine .follow ?_ (ih hu)
    rw [(ho.put h).follow?_var, h.get? hz]

/-- What led to `x` leads to its value now. -/
theorem resolve_put_of_eq (ho : b.Oriented) (h : b.Binds x t) {s : Term} {y : Var}
    (hs : b.resolve s = some (.var y)) (hy : y.name = x.name) :
    (b.put x t).resolve s = some t :=
  (resolve_eq_some_iff (ho.put h)).2 (h.leads_of_eq ho (leads_of_walk hs) hy)

/-- What led elsewhere still does. -/
theorem resolve_put_of_ne (ho : b.Oriented) (h : b.Binds x t) {s u : Term}
    (hs : b.resolve s = some u) (hu : ∀ y, u = .var y → y.name ≠ x.name) :
    (b.put x t).resolve s = some u :=
  (resolve_eq_some_iff (ho.put h)).2 (h.leads_of_ne ho (leads_of_walk hs) hu)

end

end Bindings

/-! ## Solutions -/

/-- The valuation gives every bound variable the term that its value is. -/
def Valuation.Solves (v : Valuation) (b : Bindings) : Prop :=
  ∀ x t, b.get? x = some t → v.value x = v.term t

namespace Valuation

theorem solves_empty (v : Valuation) : v.Solves .empty := by
  intro x t h
  simp at h

theorem Solves.resolve {v : Valuation} {b : Bindings} {s u : Term} (hv : v.Solves b)
    (h : b.resolve s = some u) : v.term s = v.term u := by
  have hl := Bindings.leads_of_walk h
  clear h
  induction hl with
  | stop _ => rfl
  | follow hf _ ih =>
    obtain ⟨x, rfl, hx⟩ := Bindings.eq_var_of_follow? hf
    rw [term_var, hv _ _ hx, ih]

theorem solves_put {v : Valuation} {b : Bindings} {x : Var} {t : Term}
    (hx : b.get? x.name = none) :
    v.Solves (b.put x t) ↔ v.Solves b ∧ v.value x.name = v.term t := by
  constructor
  · intro h
    refine ⟨fun y u hy => h y u ?_, h _ _ (by simp)⟩
    rw [Bindings.get?_put, if_neg (by rintro rfl; simp [hx] at hy), hy]
  · rintro ⟨hb, hxt⟩ y u hy
    rw [Bindings.get?_put] at hy
    split at hy
    · rename_i e
      cases hy
      rw [← e, hxt]
    · exact hb y u hy

end Valuation

end HornSearch
