import Mathlib.Data.Finset.Card
import HornSearch.Proofs.Enumeration
import HornSearch.Proofs.Soundness

/-!
# Searches that come to an end

A search has no guard against going round in circles. It ends if the program has no
recursion, that is if signatures have ranks and every clause needs only goals of a lower
rank than its head, and if no term in it has arguments.

Without arguments one call unifies two terms, in whatever bindings the search comes to
(`unify_flat`). And the answers to a goal end when those to the bodies of its clauses do,
whatever the goals behind it are, provided that these end in all bindings
(`EndsFrom.cons`). So by induction on ranks every goal may be put in front
(`endsFrom_cons_of_level`), and the search finishes (`exists_finishes`). Names may come
again in this, since nothing depends on them.
-/

namespace HornSearch

/-! ## Terms without arguments -/

def Term.Flat : Term → Prop
  | .app _ _ => False
  | _ => True

def Compound.Flat (c : Compound) : Prop := ∀ t ∈ c.args, t.Flat

def Clause.Flat (c : Clause) : Prop := c.head.Flat ∧ ∀ g ∈ c.body, g.Flat

/-- All values are numbers, atoms and variables. -/
def Bindings.Flat (b : Bindings) : Prop := ∀ x t, b.get? x = some t → t.Flat

theorem Term.Flat.rename {t : Term} (h : t.Flat) (ρ : Var → Var) :
    (t.subst fun x => .var (ρ x)).Flat := by
  cases t with
  | num n => simp [Flat]
  | atom a => simp [Flat]
  | var x => simp [Flat]
  | app f ts => exact absurd h id

theorem Compound.Flat.rename {c : Compound} (h : c.Flat) (ρ : Var → Var) :
    (c.subst fun x => .var (ρ x)).Flat := by
  intro t ht
  obtain ⟨t₀, ht₀, rfl⟩ := List.mem_map.1 ht
  exact (h t₀ ht₀).rename ρ

/-- Copies of such clauses are again of this kind. -/
theorem Clause.Flat.instantiate {c : Clause} {r : Rule} {d d' : Nat} (h : c.Flat)
    (huse : c.instantiate d = (r, d')) : r.head.Flat ∧ ∀ g ∈ r.body, g.Flat := by
  obtain ⟨ρ, hhead, hbody⟩ := Clause.exists_renaming huse
  rw [hhead, hbody]
  refine ⟨h.1.rename ρ, fun g hg => ?_⟩
  obtain ⟨g₀, hg₀, rfl⟩ := List.mem_map.1 hg
  exact (h.2 g₀ hg₀).rename ρ

/-! ## Unification -/

section
variable {b : Bindings}

theorem Bindings.flat_empty : Bindings.empty.Flat := by
  intro x t h
  simp at h

theorem Bindings.Flat.put (hb : b.Flat) {x : Var} {t : Term} (ht : t.Flat) :
    (b.put x t).Flat :=
  forall_get?_put hb ht

theorem Bindings.Flat.resolve (hb : b.Flat) {s t : Term} (h : b.resolve s = some t)
    (hs : s.Flat) : t.Flat := by
  have hl := leads_of_walk h
  clear h
  induction hl with
  | stop _ => exact hs
  | follow hf _ ih =>
    obtain ⟨x, rfl, hx⟩ := eq_var_of_follow? hf
    exact ih (hb _ _ hx)

theorem flatRules : UnifyRules
    (fun b s t r => b.Flat → s.Flat → t.Flat → ResultHas Bindings.Flat r)
    (fun b ss ts r => b.Flat → (∀ s ∈ ss, s.Flat) → (∀ t ∈ ts, t.Flat) →
      ResultHas Bindings.Flat r) :=
  keepsRules (fun hb h hs => hb.resolve h hs) (fun h => absurd h id) fun hb _ ht => hb.put ht

/-- On such terms one call is enough, and no arguments are looked at. -/
theorem unify_flat (ho : b.Oriented) (hb : b.Flat) {s t : Term} (hs : s.Flat) (ht : t.Flat) :
    ∃ r, unify 1 b s t = some r := by
  obtain ⟨s', hs'⟩ := Bindings.resolve_total ho s
  obtain ⟨t', ht'⟩ := Bindings.resolve_total ho t
  have hsf := hb.resolve hs' hs
  have htf := hb.resolve ht' ht
  simp only [unify, hs', ht', Option.bind_eq_bind, Option.bind_some]
  cases s' with
  | app f ss => exact absurd hsf id
  | _ =>
    cases t' with
    | app g ts => exact absurd htf id
    | _ => exact ⟨_, rfl⟩

theorem unifyPairs_flat {ss ts : List Term} (ho : b.Oriented) (hb : b.Flat)
    (hs : ∀ s ∈ ss, s.Flat) (ht : ∀ t ∈ ts, t.Flat) :
    ∃ r, unifyPairs (unify 1) b ss ts = some r := by
  induction ss generalizing b ts with
  | nil => exact ⟨_, rfl⟩
  | cons s ss ih =>
    cases ts with
    | nil => exact ⟨_, rfl⟩
    | cons t ts =>
      obtain ⟨hs, hss⟩ := List.forall_mem_cons.1 hs
      obtain ⟨ht, hts⟩ := List.forall_mem_cons.1 ht
      obtain ⟨r, hr⟩ := unify_flat ho hb hs ht
      simp only [unifyPairs, hr]
      cases r with
      | error clash => exact ⟨_, rfl⟩
      | ok b' => exact ih (unify_oriented ho hr) (flatRules.unify ho hr hb hs ht) hss hts

theorem unifyCompound_flat {g h : Compound} (ho : b.Oriented) (hb : b.Flat) (hg : g.Flat)
    (hh : h.Flat) : ∃ r, unifyCompound 1 b g h = some r ∧ ResultHas Bindings.Flat r := by
  by_cases hsig : g.SameSignature h
  · obtain ⟨r, hr⟩ := unifyPairs_flat ho hb hg hh
    refine ⟨r, ?_, flatRules.pairs ho hsig.2 hr hb hg hh⟩
    simpa [unifyCompound, unifyArgs, hsig] using hr
  · exact ⟨_, if_neg hsig, trivial⟩

end

/-! ## Runs -/

/-- The goals and the values of the choice point have no arguments. -/
structure Frame.Flat (clauses : List Clause) (f : Frame) : Prop where
  oriented : f.bindings.Oriented
  pending : ∀ c ∈ f.pending, c ∈ clauses
  bindings : f.bindings.Flat
  goals : ∀ g ∈ f.goals, g.Flat

section
variable {clauses : List Clause} (hflat : ∀ c ∈ clauses, c.Flat)
include hflat

theorem Frame.Flat.apply {n d d' : Nat} {goal : Compound} {rest : List Compound}
    {b b' : Bindings} {c : Clause} {pending : List Clause} {r : Rule}
    (hf : Frame.Flat clauses ⟨goal :: rest, b, c :: pending⟩)
    (huse : c.instantiate d = (r, d')) (hunify : unifyCompound n b goal r.head = some (.ok b')) :
    Frame.Flat clauses ⟨r.body ++ rest, b', clauses⟩ := by
  obtain ⟨hhead, hbody⟩ := (hflat c (hf.pending c List.mem_cons_self)).instantiate huse
  obtain ⟨hgoal, hrest⟩ := List.forall_mem_cons.1 hf.goals
  refine ⟨unifyCompound_oriented hf.oriented hunify, fun _ hc => hc, ?_, fun g hg => ?_⟩
  · obtain ⟨hsig, hpairs⟩ | ⟨_, hclash⟩ := unifyCompound_cases hunify
    · exact flatRules.pairs hf.oriented hsig.2 hpairs hf.bindings hgoal hhead
    · cases hclash
  · exact (List.mem_append.1 hg).elim (hbody g) (hrest g)

/-- What a search binds is flat if the program and the query are. -/
theorem flat_of_run {d e : Nat} {goals : List Compound} {answers : List Bindings} {last : Cursor}
    (hgoals : ∀ g ∈ goals, g.Flat)
    (hrun : Run clauses d (.start clauses goals) answers e last) :
    ∀ b ∈ answers, b.Oriented ∧ b.Flat := by
  have hmove {n d d' : Nat} {stack stack' : List Frame} (h : ∀ f ∈ stack, Frame.Flat clauses f)
      (hm : Move clauses n d stack (.moved d' stack')) : ∀ f ∈ stack', Frame.Flat clauses f :=
    forall_of_move hm h (fun _ hf => hf)
      (fun hf => ⟨hf.oriented, fun c hc => hf.pending c (List.mem_cons_of_mem _ hc), hf.bindings,
        hf.goals⟩) fun hf huse hunify => hf.apply hflat huse hunify
  have hstart : ∀ f ∈ (Cursor.start clauses goals).stack, Frame.Flat clauses f := by
    intro f hf
    cases List.mem_singleton.1 hf
    exact ⟨Bindings.oriented_empty, fun _ hc => hc, Bindings.flat_empty, hgoals⟩
  intro b hb
  obtain ⟨_, hf⟩ := run_keeps hmove hrun hstart b hb
  exact ⟨hf.oriented, hf.bindings⟩

end

/-! ## Enumerations that end -/

/-- In whatever bindings of this kind, and after however many draws, the answers of the
goals come to an end. -/
def EndsFrom (clauses : List Clause) (goals : List Compound) : Prop :=
  ∀ (b : Bindings) (d : Nat), b.Oriented → b.Flat →
    ∃ answers d', Enumerates clauses clauses goals b d answers (some d')

section
variable {clauses : List Clause}

theorem EndsFrom.nil : EndsFrom clauses [] := fun b d _ _ => ⟨[(b, d)], d, .answer⟩

/-- One clause is tried. Either it clashes, there being no solution under which the goal is
its head, and nothing is drawn after its copy, or what is asked of the answers below it holds of
them. In both cases the next clause is tried behind. -/
theorem exists_tried {c : Clause} {goal : Compound} {rest : List Compound} {b : Bindings}
    {d d' : Nat} {r : Rule} {Q : List (Bindings × Nat) → Nat → Prop} (ho : b.Oriented)
    (hb : b.Flat) (hgoal : goal.Flat) (hc : c.Flat) (hsig : goal.SameSignature c.head)
    (huse : c.instantiate d = (r, d'))
    (hbelow : ∀ n b', unifyCompound n b goal r.head = some (.ok b') → b'.Oriented → b'.Flat →
      ∃ answers d'', Enumerates clauses clauses (r.body ++ rest) b' d' answers (some d'') ∧
        Q answers d'') :
    ∃ answers d'', d' ≤ d'' ∧
      ((answers = [] ∧ d'' = d' ∧
          ∀ v : Valuation, v.Solves b → v.compound goal ≠ v.compound r.head) ∨ Q answers d'') ∧
      ∀ {pending more ending}, Enumerates clauses pending (goal :: rest) b d'' more ending →
        Enumerates clauses (c :: pending) (goal :: rest) b d (answers ++ more) ending := by
  obtain ⟨hhead, -⟩ := hc.instantiate huse
  obtain ⟨result, hunify, hflat⟩ := unifyCompound_flat ho hb hgoal hhead
  cases result with
  | error clash =>
    refine ⟨[], d', Nat.le_refl d', .inl ⟨rfl, rfl, fun v hv e => ?_⟩, .clash hsig huse hunify⟩
    exact unifyCompound_solves ho hunify v ⟨hv, e⟩
  | ok b' =>
    have ho' := unifyCompound_oriented ho hunify
    obtain ⟨answers, d'', henum, hQ⟩ := hbelow _ b' hunify ho' hflat
    exact ⟨answers, d'', henum.drawn_le, .inr hQ, .apply hsig huse hunify henum⟩

/-- Clauses are tried one after another, and the answers below each of them end. -/
theorem EndsFrom.cons {goal : Compound} {rest : List Compound} (hflat : ∀ c ∈ clauses, c.Flat)
    (hgoal : goal.Flat)
    (h : ∀ c ∈ clauses, goal.SameSignature c.head → ∀ d r d', c.instantiate d = (r, d') →
      EndsFrom clauses (r.body ++ rest)) : EndsFrom clauses (goal :: rest) := by
  have pass (pending : List Clause) : pending ⊆ clauses → ∀ (b : Bindings) (d : Nat),
      b.Oriented → b.Flat →
      ∃ answers d', Enumerates clauses pending (goal :: rest) b d answers (some d') := by
    induction pending with
    | nil => exact fun _ b d _ _ => ⟨[], d, .exhausted⟩
    | cons c pending ih =>
      intro hsub b d ho hb
      obtain ⟨hc, hsub⟩ := List.cons_subset.1 hsub
      by_cases hsig : goal.SameSignature c.head
      · obtain ⟨r, d', huse⟩ : ∃ r d', c.instantiate d = (r, d') := ⟨_, _, rfl⟩
        obtain ⟨below, d'', -, -, htried⟩ := exists_tried (Q := fun _ _ => True) ho hb hgoal
          (hflat c hc) hsig huse fun _ b' _ ho' hb' =>
            (h c hc hsig d r d' huse b' d' ho' hb').imp fun _ ⟨d'', henum⟩ => ⟨d'', henum, trivial⟩
        obtain ⟨answers, d₃, hnext⟩ := ih hsub b d'' ho hb
        exact ⟨below ++ answers, d₃, htried hnext⟩
      · obtain ⟨answers, d', hnext⟩ := ih hsub b d ho hb
        exact ⟨answers, d', .skip hsig hnext⟩
  exact pass clauses (List.Subset.refl _)

end

/-! ## Ranks -/

section
variable {α : Type*} [Preorder α] (rank : String × Nat → α) (clauses : List Clause)

open Classical in
/-- Ranks counted from zero: how many clauses are for signatures of no higher rank. -/
noncomputable def level (signature : String × Nat) : Nat :=
  (clauses.toFinset.filter fun c => rank c.head.signature ≤ rank signature).card

variable {rank clauses}

/-- A clause counts for its own head, and not for what is lower. -/
theorem level_lt {c : Clause} (hc : c ∈ clauses) {signature : String × Nat}
    (h : rank signature < rank c.head.signature) :
    level rank clauses signature < level rank clauses c.head.signature := by
  classical
  apply Finset.card_lt_card
  refine Finset.ssubset_iff_subset_ne.2 ⟨fun c' hc' => ?_, fun e => ?_⟩
  · obtain ⟨hmem, hle⟩ := Finset.mem_filter.1 hc'
    exact Finset.mem_filter.2 ⟨hmem, hle.trans h.le⟩
  · have hself : c ∈ clauses.toFinset.filter
        fun c' => rank c'.head.signature ≤ rank c.head.signature :=
      Finset.mem_filter.2 ⟨List.mem_toFinset.2 hc, le_refl _⟩
    rw [← e] at hself
    exact absurd (Finset.mem_filter.1 hself).2 h.not_ge

/-- Any goal may stand in front of goals whose answers end. -/
theorem endsFrom_cons_of_level (hflat : ∀ c ∈ clauses, c.Flat)
    (hrank : ∀ c ∈ clauses, ∀ g ∈ c.body, rank g.signature < rank c.head.signature) (l : Nat) :
    ∀ (goal : Compound) (rest : List Compound), goal.Flat →
      level rank clauses goal.signature < l → EndsFrom clauses rest →
      EndsFrom clauses (goal :: rest) := by
  induction l with
  | zero => intro goal rest _ hl; omega
  | succ l ih =>
    intro goal rest hgoal hl hrest
    refine .cons hflat hgoal fun c hc hsig d r d' huse => ?_
    rw [Compound.sameSignature_iff.1 hsig] at hl
    have hlower {g : Compound} (hg : g ∈ r.body) : level rank clauses g.signature < l := by
      obtain ⟨ρ, _, hbody⟩ := Clause.exists_renaming huse
      rw [hbody] at hg
      obtain ⟨g₀, hg₀, rfl⟩ := List.mem_map.1 hg
      have hlt := level_lt hc (hrank c hc g₀ hg₀)
      rw [Compound.signature_subst]
      omega
    -- The goals of the body are put in front one by one, the last one first.
    have hfront (body : List Compound) (hsub : body ⊆ r.body) : EndsFrom clauses (body ++ rest) := by
      induction body with
      | nil => exact hrest
      | cons g body ihbody =>
        obtain ⟨hg, hsub⟩ := List.cons_subset.1 hsub
        exact ih g _ (((hflat c hc).instantiate huse).2 g hg) (hlower hg) (ihbody hsub)
    exact hfront r.body (List.Subset.refl _)

end

/-! ## Searches -/

/-- Let no term have arguments, and let every clause need only goals of a lower rank than
its head. Then every search has finitely many answers and, pulled again, gives its end.
All pulls return. -/
theorem exists_finishes {db : Database} {goals : List Compound} {α : Type*} [Preorder α]
    {rank : String × Nat → α} (hflat : ∀ c ∈ db.clauses, c.Flat)
    (hrank : ∀ c ∈ db.clauses, ∀ g ∈ c.body, rank g.signature < rank c.head.signature)
    (hgoals : ∀ g ∈ goals, g.Flat) : ∃ answers d, db.Finishes goals answers d := by
  have hends : EndsFrom db.clauses goals := by
    induction goals with
    | nil => exact .nil
    | cons goal goals ih =>
      obtain ⟨hgoal, hgoals⟩ := List.forall_mem_cons.1 hgoals
      exact endsFrom_cons_of_level hflat hrank _ goal goals hgoal (Nat.lt_succ_self _) (ih hgoals)
  obtain ⟨answers, d, h⟩ := hends .empty db.drawn Bindings.oriented_empty Bindings.flat_empty
  exact ⟨answers, d, finishes_iff.2 h⟩

/-- Flying is ranked above being a bird. -/
theorem exists_finishes_birds :
    let rank : String × Nat → Nat := fun s => if s = ("flies", 1) then 1 else 0
    (∀ c ∈ birds.clauses, c.Flat) ∧
    (∀ c ∈ birds.clauses, ∀ g ∈ c.body, rank g.signature < rank c.head.signature) ∧
    (∀ g ∈ whoFlies, g.Flat) ∧ ∃ answers d, birds.Finishes whoFlies answers d := by
  intro rank
  have hflat : ∀ c ∈ birds.clauses, c.Flat := by
    simp [birds, Database.ofClauses, Clause.Flat, Clause.head, Clause.body, Compound.Flat,
      Term.Flat]
  have hrank : ∀ c ∈ birds.clauses, ∀ g ∈ c.body, rank g.signature < rank c.head.signature := by
    simp [birds, Database.ofClauses, Clause.head, Clause.body, Compound.signature, rank,
      Compound.arity]
  have hgoals : ∀ g ∈ whoFlies, g.Flat := by
    simp [whoFlies, Compound.Flat, Term.Flat]
  exact ⟨hflat, hrank, hgoals, exists_finishes hflat hrank hgoals⟩

end HornSearch
