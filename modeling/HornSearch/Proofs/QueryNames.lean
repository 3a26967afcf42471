import HornSearch.Proofs.AliasClasses
import HornSearch.Proofs.Completeness
import HornSearch.Proofs.Enumeration

/-!
# The names in a query do not matter

A query and a renaming of it are searched in lockstep. Both searches draw the
same variables, so a variable of the query is related to its new name, and every
draw to itself (`Renamed`). The names decide which of two linked variables is
bound, hence the bindings of both searches are different, but they have the same
classes. That is all that a step depends on (`step_agree_sameShape`): in particular
it draws equally many variables, whatever becomes of unification.
-/

namespace HornSearch

/-! ## Choice points -/

/-- Choice points with goals of one shape, and with bindings of the same classes. -/
structure Frame.SameShape (R : Var → Var → Prop) (f f' : Frame) : Prop where
  goals : List.Forall₂ (Compound.SameShape R) f.goals f'.goals
  bindings : SameClasses R f.bindings f'.bindings
  pending : f.pending = f'.pending
  closed : ∀ c ∈ f.pending, c.Closed

theorem Compound.sameShape_self {R : Var → Var → Prop} {c : Compound} (h : ∀ x ∈ c.vars, R x x) :
    c.SameShape R c :=
  ⟨rfl, List.forall₂_same.2 fun t ht =>
    Term.matches_self fun x hx => h x (mem_vars.2 ⟨t, ht, hx⟩)⟩

section
variable {R : Var → Var → Prop} {clauses : List Clause} {n d : Nat}

/-- Both searches use one and the same copy of a clause, and all its variables
are draws. -/
theorem sameShape_instantiate (hdraws : ∀ k, R (.fresh k) (.fresh k)) {c : Clause}
    (hclosed : c.Closed) :
    (c.instantiate d).1.head.SameShape R (c.instantiate d).1.head ∧
      ∀ g ∈ (c.instantiate d).1.body, g.SameShape R g := by
  have hself {x : Var} (hx : x ∈ (c.instantiate d).1.vars) : R x x := by
    obtain ⟨k, _, _, rfl⟩ := Clause.fresh_of_instantiate hclosed rfl hx
    exact hdraws k
  refine ⟨Compound.sameShape_self fun x hx => hself (List.mem_append_left _ hx), fun g hg => ?_⟩
  refine Compound.sameShape_self fun x hx => hself ?_
  exact List.mem_append_right _ (List.mem_flatMap.2 ⟨g, hg, hx⟩)

theorem sameShape_retry {goal goal' : Compound} {rest rest' : List Compound} {b b' : Bindings}
    {c : Clause} {pending : List Clause} {stack stack' : List Frame}
    (hf : Frame.SameShape R ⟨goal :: rest, b, c :: pending⟩ ⟨goal' :: rest', b', c :: pending⟩)
    (hs : List.Forall₂ (Frame.SameShape R) stack stack') :
    List.Forall₂ (Frame.SameShape R) (retry goal rest b pending stack)
      (retry goal' rest' b' pending stack') := by
  unfold retry
  split
  · exact hs
  · exact .cons ⟨hf.goals, hf.bindings, rfl, (List.forall_mem_cons.1 hf.closed).2⟩ hs

/-- Searches with choice points of one shape take the same step. -/
theorem step_agree_sameShape (hdraws : ∀ k, R (.fresh k) (.fresh k))
    (hclauses : ∀ c ∈ clauses, c.Closed) {stack stack' : List Frame}
    (h : List.Forall₂ (Frame.SameShape R) stack stack') :
    Option.Rel (Step.Agree Option.isSome (List.Forall₂ (Frame.SameShape R)))
      (step clauses n d stack) (step clauses n d stack') := by
  cases h with
  | nil => exact .some .finished
  | @cons f f' stack stack' hf hs =>
    obtain ⟨goals, b, pending⟩ := f
    obtain ⟨goals', b', pending'⟩ := f'
    obtain ⟨hgoals, hb, rfl, hclosed⟩ := id hf
    cases hgoals with
    | nil => exact .some (.answer rfl hs)
    | @cons goal goal' rest rest' hgoal hrest =>
      match pending with
      | [] => exact .some (.moved d hs)
      | c :: pending =>
        have hretry := sameShape_retry hf hs
        have hsig : goal.SameSignature c.head ↔ goal'.SameSignature c.head := by
          simp only [Compound.SameSignature, Compound.arity, hgoal.1, hgoal.2.length_eq]
        by_cases e : goal.SameSignature c.head
        -- Both have drawn equally many variables, so they get the same copy of the clause.
        · obtain ⟨hhead, hbody⟩ :=
            sameShape_instantiate (d := d) hdraws (hclosed c List.mem_cons_self)
          have hcourse := coupling_sameClasses.unifyCompound_course n hb hgoal hhead
          simp only [step, tryClause, if_pos e, if_pos (hsig.1 e)]
          generalize unifyCompound n b goal _ = o, unifyCompound n b' goal' _ = o' at hcourse
          cases hcourse with
          | unfinished => exact .none
          | clash k k' => exact .some (.moved _ hretry)
          | ok hb =>
            refine .some (.moved _ (.cons ⟨?_, hb, rfl, hclauses⟩ hretry))
            exact List.rel_append (List.forall₂_same.2 hbody) hrest
        · simp only [step, tryClause, if_neg e, if_neg fun e' => e (hsig.2 e')]
          exact .some (.moved d hretry)

/-- What a host sees of replies besides the bindings: whether there is an answer,
and the draws made by then. -/
def outlines (replies : List (Option Bindings × Nat)) : List (Bool × Nat) :=
  replies.map fun reply => (reply.1.isSome, reply.2)

/-- Searches with choice points of one shape give the same replies. -/
theorem outlines_replies_eq {db : Database} {k : Nat} (hdraws : ∀ k, R (.fresh k) (.fresh k))
    (hclauses : ∀ c ∈ db.clauses, c.Closed) {cursor cursor' : Cursor}
    (h : List.Forall₂ (Frame.SameShape R) cursor.stack cursor'.stack) :
    (db.replies n k cursor).map outlines = (db.replies n k cursor').map outlines :=
  have hsim : Bisimulation Option.isSome (List.Forall₂ (Frame.SameShape R)) db.clauses db.clauses :=
    ⟨.nil, step_agree_sameShape hdraws hclauses⟩
  hsim.replies h

end

/-! ## Renamed queries -/

/-- Variables that play the same part in the search for a query and in that for
the renamed query: a variable of the query and its new name, and each draw. -/
inductive Renamed (query : List Compound) (σ : Var → Var) : Var → Var → Prop where
  | host {g : Compound} {x : Var} (hg : g ∈ query) (hx : x ∈ g.vars) : Renamed query σ x (σ x)
  | drawn (k : Nat) : Renamed query σ (.fresh k) (.fresh k)

def Compound.renamed (σ : Var → Var) (c : Compound) : Compound := c.subst fun x => .var (σ x)

theorem Compound.sameShape_renamed {R : Var → Var → Prop} {σ : Var → Var} {c : Compound}
    (h : ∀ x ∈ c.vars, R x (σ x)) : c.SameShape R (c.renamed σ) := by
  refine ⟨rfl, List.forall₂_map_right_iff.2 (List.forall₂_same.2 fun t ht => ?_)⟩
  have hsubst := Term.matches_subst (R := R) (f := .var) (g := fun x => .var (σ x)) (t := t)
    fun x hx => .var (h x (mem_vars.2 ⟨t, ht, hx⟩))
  rwa [Term.subst_self] at hsubst

theorem Compound.mem_vars_renamed {σ : Var → Var} {c : Compound} {x : Var} (hx : x ∈ c.vars) :
    σ x ∈ (c.renamed σ).vars := by
  obtain ⟨t, ht, hx⟩ := mem_vars.1 hx
  exact mem_vars.2 ⟨_, List.mem_map_of_mem ht, Term.mem_vars_subst.2 ⟨x, hx, by simp⟩⟩

variable {query : List Compound} {σ : Var → Var}

/-- No two variables of the query, and no variable of it and no draw, have one
name on one side only. -/
theorem Renamed.name_eq_iff
    (hσ : ∀ g ∈ query, ∀ x ∈ g.vars, ∀ h ∈ query, ∀ y ∈ h.vars,
      ((σ x).name = (σ y).name ↔ x.name = y.name))
    (hold : Undrawn query) (hnew : Undrawn (query.map (Compound.renamed σ)))
    {x x' y y' : Var} (hx : Renamed query σ x x') (hy : Renamed query σ y y') :
    x.name = y.name ↔ x'.name = y'.name := by
  have undrawn {g : Compound} {x : Var} (hg : g ∈ query) (hx : x ∈ g.vars) (k : Nat) :
      x.name ≠ (Var.fresh k).name ∧ (σ x).name ≠ (Var.fresh k).name :=
    ⟨hold g hg x hx k, hnew _ (List.mem_map_of_mem hg) _ (Compound.mem_vars_renamed hx) k⟩
  cases hx with
  | host hg hx =>
    cases hy with
    | host hh hy => exact (hσ _ hg _ hx _ hh _ hy).symm
    | drawn k => exact iff_of_false (undrawn hg hx k).1 (undrawn hg hx k).2
  | drawn k =>
    cases hy with
    | host hh hy => exact iff_of_false (undrawn hh hy k).1.symm (undrawn hh hy k).2.symm
    | drawn j => exact Iff.rfl

/-- If the variables of a query are renamed, so that distinct ones stay distinct
and no old or new name is that of a draw, then pulls of the search give answers
as before, come to its end as before, and draw as many variables as before. Also
those do that run out of their bound. -/
theorem replies_renamed {db : Database} (hfacts : ∀ c ∈ db.clauses, c.Closed)
    (hσ : ∀ g ∈ query, ∀ x ∈ g.vars, ∀ h ∈ query, ∀ y ∈ h.vars,
      ((σ x).name = (σ y).name ↔ x.name = y.name))
    (hold : Undrawn query) (hnew : Undrawn (query.map (Compound.renamed σ))) (n k : Nat) :
    (db.replies n k (db.query query)).map outlines =
      (db.replies n k (db.query (query.map (Compound.renamed σ)))).map outlines := by
  have hbindings : SameClasses (Renamed query σ) .empty .empty :=
    sameClasses_empty fun hx hy => hx.name_eq_iff hσ hold hnew hy
  have hgoals : List.Forall₂ (Compound.SameShape (Renamed query σ)) query
      (query.map (Compound.renamed σ)) :=
    List.forall₂_map_right_iff.2 (List.forall₂_same.2 fun g hg =>
      Compound.sameShape_renamed fun x hx => .host hg hx)
  exact outlines_replies_eq .drawn hfacts (.cons ⟨hgoals, hbindings, rfl, hfacts⟩ .nil)

/-- A draw comes after `Who` and before `who`, so in one search the draw is bound
and in the other one the variable of the query is. -/
theorem replies_renamed_lowerCase :
    birds.replies 9 2 (birds.query whoFlies) ≠
      birds.replies 9 2 (birds.query (whoFlies.map (Compound.renamed fun _ => .ofName "who"))) ∧
    (birds.replies 9 2 (birds.query (whoFlies.map (Compound.renamed fun _ => .ofName "who")))).map
      outlines = some [(true, 1), (false, 1)] := by
  have hσ : ∀ g ∈ whoFlies, ∀ x ∈ g.vars, ∀ h ∈ whoFlies, ∀ y ∈ h.vars,
      ((Var.ofName "who").name = (Var.ofName "who").name ↔ x.name = y.name) := by
    intro g hg x hx h hh y hy
    simp [name_of_whoFlies hg hx, name_of_whoFlies hh hy]
  have undrawn {goals : List Compound} (name : String) (hname : name.toList.head? ≠ some '_')
      (h : ∀ g ∈ goals, ∀ x ∈ g.vars, x.name = name) : Undrawn goals := by
    intro g hg x hx k e
    refine hname ?_
    rw [← h g hg x hx, e]
    simp [Var.fresh]
  have hold : Undrawn whoFlies := undrawn "Who" (by decide) fun _ => name_of_whoFlies
  have hnew : Undrawn (whoFlies.map (Compound.renamed fun _ => .ofName "who")) := by
    refine undrawn "who" (by decide) fun g hg x hx => ?_
    simp_all [whoFlies, Compound.renamed, Compound.subst, Compound.vars, Term.varsAll, Var.ofName]
  refine ⟨by decide, ?_⟩
  rw [← replies_renamed closed_birds hσ hold hnew 9 2]
  decide

end HornSearch
