import HornSearch.Proofs.Stepping

/-!
# The variables of a search

A step of a search adds no variables but those that are drawn in it: what holds
of all variables of a choice point and of the new ones holds of all variables
of the choice points after the step (`over_move`). Facts must have no variables
for this, since they are used without a renaming.

Names are never given twice within 2^64 draws. So as long as no more than these
are made, a choice point only has names that the draws still to come do not
give (`Frame.Apart`). At first this holds of a query without names of draws;
a renamed clause only brings names of draws that are over, and unification
brings none.
-/

namespace HornSearch

structure Frame.Over (clauses : List Clause) (V : Var → Prop) (f : Frame) : Prop where
  oriented : f.bindings.Oriented
  pending : ∀ c ∈ f.pending, c ∈ clauses
  bindings : f.bindings.Over V
  goals : ∀ g ∈ f.goals, ∀ x ∈ g.vars, V x

/-- Choice points have only names that no draw from `d` on and before `e` gives. -/
structure Frame.Apart (clauses : List Clause) (d e : Nat) (f : Frame) : Prop where
  oriented : f.bindings.Oriented
  pending : ∀ c ∈ f.pending, c ∈ clauses
  bindings : f.bindings.Within fun x => ¬Later d e x
  goals : ∀ g ∈ f.goals, ∀ x ∈ g.vars, ¬Later d e x.name

/-- No variable of the goals has the name of a draw. -/
def Undrawn (goals : List Compound) : Prop :=
  ∀ g ∈ goals, ∀ x ∈ g.vars, ∀ k, x.name ≠ (Var.fresh k).name

variable {clauses : List Clause}

/-! ## What a step adds -/

section
variable {V W : Var → Prop}

theorem Frame.over_start {query : List Compound} (hquery : ∀ g ∈ query, ∀ x ∈ g.vars, V x) :
    Frame.Over clauses V ⟨query, .empty, clauses⟩ :=
  ⟨Bindings.oriented_empty, fun _ h => h, Bindings.over_empty _, hquery⟩

theorem Frame.Over.mono {f : Frame} (h : Frame.Over clauses V f) (hVW : ∀ x, V x → W x) :
    Frame.Over clauses W f :=
  ⟨h.oriented, h.pending, h.bindings.mono hVW, fun g hg x hx => hVW x (h.goals g hg x hx)⟩

theorem Frame.Over.skip {goals : List Compound} {b : Bindings} {c : Clause}
    {pending : List Clause} (h : Frame.Over clauses V ⟨goals, b, c :: pending⟩) :
    Frame.Over clauses V ⟨goals, b, pending⟩ :=
  ⟨h.oriented, fun c hc => h.pending c (List.mem_cons_of_mem _ hc), h.bindings, h.goals⟩

/-- A clause that applies brings the variables that were drawn for its copy. -/
theorem Frame.Over.apply {d d' n : Nat} {goal : Compound} {rest : List Compound}
    {b b' : Bindings} {c : Clause} {r : Rule} {pending : List Clause}
    (hfacts : ∀ c ∈ clauses, c.Closed) (hVW : ∀ x, V x → W x)
    (hnew : ∀ k, d ≤ k → k < d' → W (.fresh k))
    (h : Frame.Over clauses V ⟨goal :: rest, b, c :: pending⟩)
    (huse : c.instantiate d = (r, d')) (hunify : unifyCompound n b goal r.head = some (.ok b')) :
    Frame.Over clauses W ⟨r.body ++ rest, b', clauses⟩ := by
  have hclosed := hfacts c (h.pending c List.mem_cons_self)
  have hcopy {x : Var} (hx : x ∈ r.vars) : W x := by
    obtain ⟨k, hk, hkd, rfl⟩ := Clause.fresh_of_instantiate hclosed huse hx
    exact hnew k hk hkd
  have h' := h.mono hVW
  refine ⟨unifyCompound_oriented h.oriented hunify, fun _ hc => hc, ?_, ?_⟩
  · refine unifyCompound_over h.oriented hunify h'.bindings (h'.goals _ List.mem_cons_self) ?_
    intro x hx
    exact hcopy (List.mem_append_left _ hx)
  · intro g hg x hx
    rcases List.mem_append.1 hg with hg | hg
    · exact hcopy (List.mem_append_right _ (List.mem_flatMap.2 ⟨g, hg, hx⟩))
    · exact h'.goals g (List.mem_cons_of_mem _ hg) x hx

theorem over_move {n d d' : Nat} {stack stack' : List Frame}
    (hfacts : ∀ c ∈ clauses, c.Closed) (hVW : ∀ x, V x → W x)
    (hnew : ∀ k, d ≤ k → k < d' → W (.fresh k))
    (h : ∀ f ∈ stack, Frame.Over clauses V f)
    (hm : Move clauses n d stack (.moved d' stack')) :
    ∀ f ∈ stack', Frame.Over clauses W f :=
  forall_of_move hm h (fun _ hf => hf.mono hVW) (fun hf => hf.skip)
    fun hf huse hunify => hf.apply hfacts hVW hnew huse hunify

end

/-! ## The draws to come -/

theorem Frame.apart_iff_over {d e : Nat} {f : Frame} :
    Frame.Apart clauses d e f ↔ Frame.Over clauses (fun x => ¬Later d e x.name) f :=
  ⟨fun h => ⟨h.oriented, h.pending, Bindings.within_iff_over.1 h.bindings, h.goals⟩,
    fun h => ⟨h.oriented, h.pending, Bindings.within_iff_over.2 h.bindings, h.goals⟩⟩

theorem Frame.apart_start {query : List Compound} {d e : Nat} (hquery : Undrawn query) :
    Frame.Apart clauses d e ⟨query, .empty, clauses⟩ := by
  refine Frame.apart_iff_over.2 (Frame.over_start ?_)
  rintro g hg x hx ⟨k, _, _, hk⟩
  exact hquery g hg x hx k hk.symm

theorem Frame.Apart.mono {d d' e : Nat} {f : Frame} (h : Frame.Apart clauses d e f)
    (hd : d ≤ d') : Frame.Apart clauses d' e f :=
  Frame.apart_iff_over.2 ((Frame.apart_iff_over.1 h).mono fun _ => not_later_mono hd)

theorem Frame.Apart.skip {d e : Nat} {goals : List Compound} {b : Bindings} {c : Clause}
    {pending : List Clause} (h : Frame.Apart clauses d e ⟨goals, b, c :: pending⟩) :
    Frame.Apart clauses d e ⟨goals, b, pending⟩ :=
  Frame.apart_iff_over.2 (Frame.apart_iff_over.1 h).skip

/-- Which clauses are left to try makes no difference. -/
theorem Frame.Apart.only {d e : Nat} {goals : List Compound} {b : Bindings} {c : Clause}
    {pending : List Clause} (h : Frame.Apart clauses d e ⟨goals, b, pending⟩) (hc : c ∈ clauses) :
    Frame.Apart clauses d e ⟨goals, b, [c]⟩ :=
  ⟨h.oriented, List.forall_mem_singleton.2 hc, h.bindings, h.goals⟩

/-- The variables of a copy are named by draws that are over. -/
theorem Frame.Apart.apply {d d' e n : Nat} {goal : Compound} {rest : List Compound}
    {b b' : Bindings} {c : Clause} {r : Rule} {pending : List Clause}
    (hfacts : ∀ c ∈ clauses, c.Closed) (he : e ≤ d + 2 ^ 64)
    (h : Frame.Apart clauses d e ⟨goal :: rest, b, c :: pending⟩)
    (huse : c.instantiate d = (r, d')) (hunify : unifyCompound n b goal r.head = some (.ok b')) :
    Frame.Apart clauses d' e ⟨r.body ++ rest, b', clauses⟩ := by
  refine Frame.apart_iff_over.2 ((Frame.apart_iff_over.1 h).apply hfacts ?_ ?_ huse hunify)
  · intro x
    exact not_later_mono (Clause.drawn_le_instantiate huse)
  · intro k hk hkd
    exact not_later_fresh hkd (by omega)

theorem apart_move {n d d' e : Nat} {stack stack' : List Frame}
    (hfacts : ∀ c ∈ clauses, c.Closed) (he : e ≤ d + 2 ^ 64)
    (h : ∀ f ∈ stack, Frame.Apart clauses d e f)
    (hm : Move clauses n d stack (.moved d' stack')) :
    ∀ f ∈ stack', Frame.Apart clauses d' e f :=
  forall_of_move hm h (fun _ hf => hf.mono (drawn_le_of_move hm)) (fun hf => hf.skip)
    fun hf huse hunify => hf.apply hfacts he huse hunify

end HornSearch
