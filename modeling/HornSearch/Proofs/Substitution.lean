import HornSearch.Renaming

/-!
# Substitution

`Term.subst` is given as a traversal. Here it gets its equations, one for each
kind of term, and the few laws that everything else uses: it depends only on
the variables that occur (`subst_congr`), and one substitution after another is
one substitution (`subst_subst`).

A `Valuation` gives every variable a term without variables. It reads variables
by name, as the program does, so the flags of variables play no part.
-/

namespace HornSearch

namespace Term

/-- Induction over terms, with the hypothesis for every argument. -/
@[elab_as_elim, induction_eliminator]
theorem induct {motive : Term → Prop} (num : ∀ n, motive (.num n)) (atom : ∀ a, motive (.atom a))
    (var : ∀ x, motive (.var x))
    (app : ∀ f args, (∀ t ∈ args, motive t) → motive (.app f args)) (t : Term) : motive t :=
  @Term.rec motive (fun ts => ∀ t ∈ ts, motive t) num atom var app
    (by simp) (fun t ts ht hts => by simpa using ⟨ht, hts⟩) t

theorem varsAll_eq_flatMap (ts : List Term) : varsAll ts = ts.flatMap vars := by
  induction ts with
  | nil => simp only [varsAll, List.flatMap_nil]
  | cons t ts ih => simp only [varsAll, List.flatMap_cons, ih]

theorem mem_varsAll {x : Var} {ts : List Term} : x ∈ varsAll ts ↔ ∃ t ∈ ts, x ∈ t.vars := by
  rw [varsAll_eq_flatMap, List.mem_flatMap]

@[simp] theorem vars_num (n : Int64) : (Term.num n).vars = [] := by simp only [vars]

@[simp] theorem vars_atom (a : String) : (Term.atom a).vars = [] := by simp only [vars]

@[simp] theorem vars_var (x : Var) : (Term.var x).vars = [x] := by simp only [vars]

@[simp] theorem mem_vars_app {x : Var} {f : String} {args : List Term} :
    x ∈ (Term.app f args).vars ↔ ∃ t ∈ args, x ∈ t.vars := by
  simp only [vars, mem_varsAll]

/-! ## Equations -/

@[simp] theorem subst_num (f : Var → Term) (n : Int64) : (Term.num n).subst f = .num n := by
  simp only [subst, substM]; rfl

@[simp] theorem subst_atom (f : Var → Term) (a : String) : (Term.atom a).subst f = .atom a := by
  simp only [subst, substM]; rfl

@[simp] theorem subst_var (f : Var → Term) (x : Var) : (Term.var x).subst f = f x := by
  simp only [subst, substM]; rfl

/-- Where nothing but the terms is carried along, the traversal of a list is a map. -/
theorem substAllM_pure (f : Var → Term) (ts : List Term) :
    Id.run (substAllM (fun x => pure (f x)) ts) = ts.map (subst f) := by
  induction ts with
  | nil => simp only [substAllM, List.map_nil]; rfl
  | cons t ts ih =>
    simp only [substAllM, List.map_cons, ← ih]
    rfl

@[simp] theorem subst_app (f : Var → Term) (g : String) (args : List Term) :
    (Term.app g args).subst f = .app g (args.map (subst f)) := by
  rw [← substAllM_pure]
  simp only [subst, substM]
  rfl

/-! ## Laws -/

/-- A substitution matters only at the variables that occur. -/
theorem subst_congr {f g : Var → Term} {t : Term} (h : ∀ x ∈ t.vars, f x = g x) :
    t.subst f = t.subst g := by
  induction t with
  | num n => simp
  | atom a => simp
  | var x => simpa using h x
  | app c args ih =>
    have hargs : args.map (subst f) = args.map (subst g) :=
      List.map_congr_left fun t ht => ih t ht fun x hx => h x (mem_vars_app.2 ⟨t, ht, hx⟩)
    simp [hargs]

theorem subst_self (t : Term) : t.subst .var = t := by
  induction t with
  | num n => simp
  | atom a => simp
  | var x => simp
  | app c args ih =>
    have hargs : args.map (subst .var) = args.map id := List.map_congr_left ih
    simp [hargs]

/-- Nothing is put into a term without variables. -/
theorem subst_of_ground {t : Term} (f : Var → Term) (h : t.vars = []) : t.subst f = t := by
  calc t.subst f = t.subst .var := subst_congr (by simp [h])
    _ = t := subst_self t

/-- One substitution after another is one: the first, with the second carried out in what
it puts. -/
theorem subst_subst (f g : Var → Term) (t : Term) :
    (t.subst f).subst g = t.subst fun x => (f x).subst g := by
  induction t with
  | num n => simp
  | atom a => simp
  | var x => simp
  | app c args ih => simpa using ih

/-- The occurrences in a copy, in their order. -/
theorem vars_subst (f : Var → Term) (t : Term) :
    (t.subst f).vars = t.vars.flatMap fun x => (f x).vars := by
  induction t with
  | num n => simp
  | atom a => simp
  | var x => simp
  | app c args ih =>
    have hargs : (args.map (subst f)).flatMap vars =
        args.flatMap fun t => t.vars.flatMap fun x => (f x).vars := by
      rw [List.flatMap_map, List.flatMap_def, List.flatMap_def, List.map_congr_left ih]
    simp only [subst_app, vars, varsAll_eq_flatMap, List.flatMap_assoc, hargs]

theorem mem_vars_subst {f : Var → Term} {t : Term} {y : Var} :
    y ∈ (t.subst f).vars ↔ ∃ x ∈ t.vars, y ∈ (f x).vars := by
  rw [vars_subst, List.mem_flatMap]

end Term

/-! ## Compounds and rules -/

namespace Compound

def subst (f : Var → Term) (c : Compound) : Compound := ⟨c.name, c.args.map (Term.subst f)⟩

@[simp] theorem arity_subst (f : Var → Term) (c : Compound) : (c.subst f).arity = c.arity := by
  simp [arity, subst]

/-- What a clause is chosen by: the name and the number of arguments. -/
def signature (c : Compound) : String × Nat := (c.name, c.arity)

/-- Signatures are compared as pairs, as the sets and ranks of signatures need it. -/
theorem sameSignature_iff {c d : Compound} : c.SameSignature d ↔ c.signature = d.signature := by
  simp only [SameSignature, signature, Prod.mk.injEq]

@[simp] theorem signature_subst (f : Var → Term) (c : Compound) :
    (c.subst f).signature = c.signature := by
  simp only [signature, arity_subst]
  rfl

theorem mem_vars {x : Var} {c : Compound} : x ∈ c.vars ↔ ∃ t ∈ c.args, x ∈ t.vars :=
  Term.mem_varsAll

theorem subst_congr {f g : Var → Term} {c : Compound} (h : ∀ x ∈ c.vars, f x = g x) :
    c.subst f = c.subst g := by
  have hargs : c.args.map (Term.subst f) = c.args.map (Term.subst g) :=
    List.map_congr_left fun t ht => Term.subst_congr fun x hx => h x (mem_vars.2 ⟨t, ht, hx⟩)
  simp [subst, hargs]

theorem subst_self (c : Compound) : c.subst .var = c := by
  have hargs : c.args.map (Term.subst .var) = c.args.map id :=
    List.map_congr_left fun t _ => Term.subst_self t
  simp [subst, hargs]

theorem subst_of_ground {c : Compound} (f : Var → Term) (h : c.vars = []) : c.subst f = c := by
  calc c.subst f = c.subst .var := subst_congr (by simp [h])
    _ = c := subst_self c

theorem subst_subst (f g : Var → Term) (c : Compound) :
    (c.subst f).subst g = c.subst fun x => (f x).subst g := by
  simp [subst, Term.subst_subst, Function.comp_def]

theorem vars_subst (f : Var → Term) (c : Compound) :
    (c.subst f).vars = c.vars.flatMap fun x => (f x).vars := by
  have h := Term.vars_subst f (.app c.name c.args)
  simpa only [Term.subst_app, Term.vars, vars, subst] using h

theorem mem_vars_subst {f : Var → Term} {c : Compound} {y : Var} :
    y ∈ (c.subst f).vars ↔ ∃ x ∈ c.vars, y ∈ (f x).vars := by
  rw [vars_subst, List.mem_flatMap]

end Compound

namespace Rule

def subst (f : Var → Term) (r : Rule) : Rule := ⟨r.head.subst f, r.body.map (Compound.subst f)⟩

theorem subst_congr {f g : Var → Term} {r : Rule} (h : ∀ x ∈ r.vars, f x = g x) :
    r.subst f = r.subst g := by
  have hhead : r.head.subst f = r.head.subst g :=
    Compound.subst_congr fun x hx => h x (List.mem_append_left _ hx)
  have hbody : r.body.map (Compound.subst f) = r.body.map (Compound.subst g) :=
    List.map_congr_left fun goal hgoal => Compound.subst_congr fun x hx =>
      h x (List.mem_append_right _ (List.mem_flatMap.2 ⟨goal, hgoal, hx⟩))
  simp only [subst, hhead, hbody]

theorem subst_subst (f g : Var → Term) (r : Rule) :
    (r.subst f).subst g = r.subst fun x => (f x).subst g := by
  simp only [subst, Compound.subst_subst, List.map_map, Function.comp_def]

theorem vars_subst (f : Var → Term) (r : Rule) :
    (r.subst f).vars = r.vars.flatMap fun x => (f x).vars := by
  simp only [vars, subst, Compound.vars_subst, List.flatMap_append, List.flatMap_map,
    List.flatMap_assoc]

theorem mem_vars_subst {f : Var → Term} {r : Rule} {y : Var} :
    y ∈ (r.subst f).vars ↔ ∃ x ∈ r.vars, y ∈ (f x).vars := by
  rw [vars_subst, List.mem_flatMap]

end Rule

/-! ## Valuations -/

/-- A ground substitution: a term without variables for every name. -/
structure Valuation where
  value : String → Term
  ground : ∀ x, (value x).vars = []

namespace Valuation

def term (v : Valuation) (t : Term) : Term := t.subst fun x => v.value x.name

def compound (v : Valuation) (c : Compound) : Compound := c.subst fun x => v.value x.name

@[simp] theorem term_num (v : Valuation) (n : Int64) : v.term (.num n) = .num n :=
  Term.subst_num _ n

@[simp] theorem term_atom (v : Valuation) (a : String) : v.term (.atom a) = .atom a :=
  Term.subst_atom _ a

@[simp] theorem term_var (v : Valuation) (x : Var) : v.term (.var x) = v.value x.name :=
  Term.subst_var _ x

@[simp] theorem term_app (v : Valuation) (f : String) (args : List Term) :
    v.term (.app f args) = .app f (args.map v.term) :=
  Term.subst_app _ f args

theorem term_ground (v : Valuation) {t : Term} (h : t.vars = []) : v.term t = t :=
  Term.subst_of_ground _ h

theorem compound_ground (v : Valuation) {c : Compound} (h : c.vars = []) : v.compound c = c :=
  Compound.subst_of_ground _ h

theorem compound_eq (v : Valuation) (c : Compound) : v.compound c = ⟨c.name, c.args.map v.term⟩ :=
  rfl

/-- A valuation after a substitution is a valuation of the variables. -/
theorem compound_subst {v w : Valuation} {f : Var → Term} {c : Compound}
    (h : ∀ x ∈ c.vars, v.term (f x) = w.value x.name) :
    v.compound (c.subst f) = w.compound c := by
  rw [compound, Compound.subst_subst]
  exact Compound.subst_congr h

/-- A valuation matters only at the names that occur; flags are not looked at. -/
theorem term_congr {v w : Valuation} {t : Term} (h : ∀ x ∈ t.vars, v.value x.name = w.value x.name) :
    v.term t = w.term t :=
  Term.subst_congr h

theorem compound_congr {v w : Valuation} {c : Compound}
    (h : ∀ x ∈ c.vars, v.value x.name = w.value x.name) : v.compound c = w.compound c :=
  Compound.subst_congr h

/-- The valuation that reads the names of `f` through it, by `u`, and all
others as `v` does. -/
def override (v u : Valuation) (f : String → Option String) : Valuation where
  value x := ((f x).map u.value).getD (v.value x)
  ground x := by cases h : f x <;> simp [v.ground, u.ground]

end Valuation

/-! ## Lists -/

theorem mapM_some_of_forall {α β : Type} {f : α → Option β} {g : α → β} {l : List α}
    (h : ∀ a ∈ l, f a = some (g a)) : l.mapM f = some (l.map g) := by
  induction l with
  | nil => rfl
  | cons a l ih =>
    rw [List.mapM_cons, h a List.mem_cons_self, ih fun a ha => h a (List.mem_cons_of_mem _ ha)]
    rfl

end HornSearch
