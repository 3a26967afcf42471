import HornSearch.Proofs.Completeness
import HornSearch.Proofs.Paths
import HornSearch.Proofs.Reachability
import Mathlib.Algebra.BigOperators.Ring.List

/-!
# Searching along the paths of a graph

If no cycle can be reached from `s`, the search for `path(s, T)` follows the paths from `s`.
The first rule gives an answer for each edge (`tries_pathOfEdge`). The second one takes each
edge in turn, and then searches in the same way from its end (`tries_pathThroughEdge`). So the
search ends, and the answers come in the order of `PathsFrom` (`PathsFrom.follows`).

That the search ends does not depend on names, nor does a bound on its draws. That no answer is
missed does: the variables of a rule must be new where it is used (`Ready`), and they are as long
as no more than 2^64 variables are drawn. The number of draws is then exact (`Traced`).
-/

namespace HornSearch.Graph

open Relation

section
variable {g : Graph}

/-! ## Trying a clause -/

theorem compound_eq_iff {v w : Valuation} {p : String} {x y x' y' : Term} :
    v.compound ⟨p, [x, y]⟩ = w.compound ⟨p, [x', y']⟩ ↔
      v.term x = w.term x' ∧ v.term y = w.term y' := by
  simp [Valuation.compound_eq]

/-- From goals and bindings the search has come to others: these have the solutions that
satisfy `E`, and are apart from the draws to come if those were. -/
structure Narrows (g : Graph) (E : Valuation → Prop) (goals : List Compound) (b : Bindings)
    (d : Nat) (goals' : List Compound) (b' : Bindings) (d' : Nat) : Prop where
  oriented : b'.Oriented
  flat : b'.Flat
  solves : ∀ v : Valuation, v.Solves b' ↔ v.Solves b ∧ E v
  drawn : d ≤ d'
  apart : Frame.Apart g.reachabilityProgram d (2 ^ 64) ⟨goals, b, g.reachabilityProgram⟩ →
    Frame.Apart g.reachabilityProgram d' (2 ^ 64) ⟨goals', b', g.reachabilityProgram⟩

section
variable {E E' : Valuation → Prop} {goals goals' goals'' rest : List Compound} {goal : Compound}
  {b b' b'' : Bindings} {c : Clause} {r : Rule} {d d' d'' k : Nat}

theorem Narrows.congr (h : g.Narrows E goals b d goals' b' d')
    (hE : ∀ v : Valuation, v.Solves b → (E v ↔ E' v)) : g.Narrows E' goals b d goals' b' d' :=
  ⟨h.oriented, h.flat, fun v => (h.solves v).trans (and_congr_right (hE v)), h.drawn, h.apart⟩

theorem Narrows.trans (h : g.Narrows E goals b d goals' b' d')
    (h' : g.Narrows E' goals' b' d' goals'' b'' d'') :
    g.Narrows (fun v => E v ∧ E' v) goals b d goals'' b'' d'' where
  oriented := h'.oriented
  flat := h'.flat
  solves v := by rw [h'.solves, h.solves, and_assoc]
  drawn := h.drawn.trans h'.drawn
  apart hapart := h'.apart (h.apart hapart)

/-- The draws may have been made before. -/
theorem Narrows.earlier (h : g.Narrows E goals b d' goals' b' d'') (hd : d ≤ d') :
    g.Narrows E goals b d goals' b' d'' :=
  ⟨h.oriented, h.flat, h.solves, hd.trans h.drawn, fun hapart => h.apart (hapart.mono hd)⟩

theorem narrows_of_unify {n : Nat} (ho : b.Oriented) (hc : c ∈ g.reachabilityProgram)
    (huse : c.instantiate d = (r, d + k))
    (hunify : unifyCompound n b goal r.head = some (.ok b')) (hb' : b'.Flat) :
    g.Narrows (fun v => v.compound goal = v.compound r.head) (goal :: rest) b d
      (r.body ++ rest) b' (d + k) where
  oriented := unifyCompound_oriented ho hunify
  flat := hb'
  solves := unifyCompound_solves ho hunify
  drawn := Nat.le_add_right d k
  apart hapart :=
    (hapart.only hc).apply closed_reachabilityProgram (Nat.le_add_left _ _) huse hunify

/-- One clause of the program is tried. What holds of the answers below it, and of none at all if
no solution makes the goal its head, holds of those it is tried for. -/
theorem exists_tried_narrows {Q : List (Bindings × Nat) → Nat → Prop} (rest : List Compound)
    (ho : b.Oriented) (hb : b.Flat) (hgoal : goal.Flat) (hc : c ∈ g.reachabilityProgram)
    (hsig : goal.SameSignature c.head) (huse : c.instantiate d = (r, d + k))
    (hnone : (∀ v : Valuation, v.Solves b → v.compound goal ≠ v.compound r.head) → Q [] (d + k))
    (hbelow : ∀ b', g.Narrows (fun v => v.compound goal = v.compound r.head) (goal :: rest) b d
      (r.body ++ rest) b' (d + k) →
      ∃ answers d', Enumerates g.reachabilityProgram g.reachabilityProgram (r.body ++ rest) b'
        (d + k) answers (some d') ∧ Q answers d') :
    ∃ answers d', d + k ≤ d' ∧ Q answers d' ∧
      ∀ {pending more ending},
        Enumerates g.reachabilityProgram pending (goal :: rest) b d' more ending →
        Enumerates g.reachabilityProgram (c :: pending) (goal :: rest) b d (answers ++ more)
          ending := by
  obtain ⟨answers, d', hle, ⟨rfl, rfl, hclash⟩ | hQ, htried⟩ := exists_tried (Q := Q) ho hb hgoal
    (flat_reachabilityProgram c hc) hsig huse fun _ b' hunify _ hb' =>
      hbelow b' (narrows_of_unify ho hc huse hunify hb')
  · exact ⟨[], d + k, hle, hnone hclash, htried⟩
  · exact ⟨answers, d', hle, hQ, htried⟩

/-! ## Searches that follow paths -/

/-- In every solution of the answer, `T` is the last node of the path. -/
def EndsAt (path : List Int64) (answer : Bindings × Nat) : Prop :=
  ∃ n, path.getLast? = some n ∧ ∀ v : Valuation, v.Solves answer.1 → v.value "T" = .num n

/-- At most `cost` draws are made. If `free` holds and no name comes twice, they are exactly
these, and there is an answer for each of the paths, in their order. -/
structure Traced (d cost : Nat) (free : Prop) (paths : List (List Int64))
    (answers : List (Bindings × Nat)) (d' : Nat) : Prop where
  bounded : d' ≤ d + cost
  tight : d' ≤ 2 ^ 64 → free → d' = d + cost ∧ List.Forall₂ EndsAt paths answers

/-- The search for the goals ends, and traces the paths. -/
def Follows (g : Graph) (goals : List Compound) (b : Bindings) (d cost : Nat) (free : Prop)
    (paths : List (List Int64)) : Prop :=
  ∃ answers d', Enumerates g.reachabilityProgram g.reachabilityProgram goals b d answers
    (some d') ∧ Traced d cost free paths answers d'

/-- Trying these clauses for the first goal traces the paths; then come the clauses behind. -/
def Tries (g : Graph) (clauses : List Clause) (goals : List Compound) (b : Bindings)
    (d cost : Nat) (free : Prop) (paths : List (List Int64)) : Prop :=
  ∃ answers d', d ≤ d' ∧ Traced d cost free paths answers d' ∧
    ∀ {pending more ending}, Enumerates g.reachabilityProgram pending goals b d' more ending →
      Enumerates g.reachabilityProgram (clauses ++ pending) goals b d (answers ++ more) ending

variable {clauses clauses' : List Clause} {cost cost' : Nat} {free free' : Prop}
  {paths more : List (List Int64)} {answers answers' : List (Bindings × Nat)}

theorem Traced.append (h : Traced d cost free paths answers d')
    (h' : Traced d' cost' free more answers' d'') (hle : d' ≤ d'') :
    Traced d (cost + cost') free (paths ++ more) (answers ++ answers') d'' where
  bounded := by
    have hd := h.bounded
    have hd' := h'.bounded
    omega
  tight hd hfree := by
    obtain ⟨hd', hpaths⟩ := h.tight (hle.trans hd) hfree
    obtain ⟨hd'', hmore⟩ := h'.tight hd hfree
    exact ⟨by omega, List.rel_append hpaths hmore⟩

theorem Follows.imp (h : g.Follows goals b d cost free paths)
    (hfree : d ≤ 2 ^ 64 → free' → free)
    (hpaths : ∀ answers, List.Forall₂ EndsAt paths answers → List.Forall₂ EndsAt more answers) :
    g.Follows goals b d cost free' more := by
  obtain ⟨answers, d', henum, hbounded, htight⟩ := h
  refine ⟨answers, d', henum, hbounded, fun hd h => ?_⟩
  exact (htight hd (hfree (henum.drawn_le.trans hd) h)).imp_right (hpaths answers)

theorem Tries.append (h : g.Tries clauses goals b d cost free paths)
    (h' : ∀ d', d ≤ d' → g.Tries clauses' goals b d' cost' free more) :
    g.Tries (clauses ++ clauses') goals b d (cost + cost') free (paths ++ more) := by
  obtain ⟨answers, d', hle, htraced, htry⟩ := h
  obtain ⟨answers', d'', hle', htraced', htry'⟩ := h' d' hle
  refine ⟨answers ++ answers', d'', hle.trans hle', htraced.append htraced' hle', fun henum => ?_⟩
  rw [List.append_assoc, List.append_assoc]
  exact htry (htry' henum)

theorem Tries.follows (h : g.Tries g.reachabilityProgram (goal :: rest) b d cost free paths) :
    g.Follows (goal :: rest) b d cost free paths := by
  obtain ⟨answers, d', -, htraced, htry⟩ := h
  refine ⟨answers, d', ?_, htraced⟩
  simpa using htry .exhausted

/-- Clauses that give no answer and draw nothing. -/
theorem tries_none (h : ∀ {pending more ending},
    Enumerates g.reachabilityProgram pending goals b d more ending →
      Enumerates g.reachabilityProgram (clauses ++ pending) goals b d more ending) :
    g.Tries clauses goals b d 0 free [] :=
  ⟨[], d, Nat.le_refl d, ⟨Nat.le_refl d, fun _ _ => ⟨rfl, .nil⟩⟩, h⟩

/-- A clause of the program is tried. If it applies, the solutions that are left make the goal
its head. -/
theorem tries_clause (ho : b.Oriented) (hb : b.Flat) (hgoal : goal.Flat)
    (hc : c ∈ g.reachabilityProgram) (hsig : goal.SameSignature c.head)
    (huse : c.instantiate d = (r, d + k))
    (happlies : d + k ≤ 2 ^ 64 → free →
      ∃ v : Valuation, v.Solves b ∧ v.compound goal = v.compound r.head)
    (hbelow : ∀ b', g.Narrows (fun v => v.compound goal = v.compound r.head)
      (goal :: rest) b d (r.body ++ rest) b' (d + k) →
      g.Follows (r.body ++ rest) b' (d + k) cost free paths) :
    g.Tries [c] (goal :: rest) b d (k + cost) free paths := by
  obtain ⟨answers, d', hle, htraced, htried⟩ := exists_tried_narrows
    (Q := fun answers d' => Traced (d + k) cost free paths answers d') rest ho hb hgoal hc hsig huse
    (fun hclash => ⟨Nat.le_add_right _ _, fun hd hfree => by
      obtain ⟨v, hv, heq⟩ := happlies hd hfree
      exact absurd heq (hclash v hv)⟩) hbelow
  refine ⟨answers, d', by omega, ⟨?_, fun hd hfree => ?_⟩, htried⟩
  · exact htraced.bounded.trans_eq (Nat.add_assoc d k cost)
  · exact (htraced.tight hd hfree).imp_left (·.trans (Nat.add_assoc d k cost))

end

/-! ## Following edges -/

/-- A goal on `x` and `y` that the search comes to, and in which `x` is `a`. -/
structure StartsAt (a : Int64) (x y : Term) (b : Bindings) : Prop where
  oriented : b.Oriented
  flat : b.Flat
  left : x.Flat
  right : y.Flat
  source : ∀ v : Valuation, v.Solves b → v.term x = .num a

theorem StartsAt.behind {a : Int64} {x y : Term} {x' y' z : Var} {b b' : Bindings} {d d' : Nat}
    {rest : List Compound} (h : StartsAt a x y b)
    (hb' : g.Narrows
      (fun v => v.compound ⟨"path", [x, y]⟩ = v.compound ⟨"path", [.var x', .var y']⟩)
      [⟨"path", [x, y]⟩] b d rest b' d') : StartsAt a (.var x') (.var z) b' := by
  refine ⟨hb'.oriented, hb'.flat, trivial, trivial, fun v hv => ?_⟩
  obtain ⟨hv, heq⟩ := (hb'.solves v).1 hv
  exact (compound_eq_iff.1 heq).1.symm.trans (h.source v hv)

theorem StartsAt.goal {a : Int64} {x y : Term} {b : Bindings} (h : StartsAt a x y b) (p : String) :
    Compound.Flat ⟨p, [x, y]⟩ := by
  simp [Compound.Flat, h.left, h.right]

theorem edgeFact_mem {e : Int64 × Int64} (he : e ∈ g.edges) :
    edgeFact e ∈ g.reachabilityProgram :=
  mem_reachabilityProgram.2 (.inl ⟨e.1, e.2, g.mem_edges.1 he, rfl⟩)

section
variable {a : Int64} {x y : Term} {rest : List Compound} {b : Bindings} {d : Nat}
  {free : Prop} {cost : Int64 → Nat} {paths : Int64 → List (List Int64)}

/-- Edges that begin elsewhere clash: in a solution of their bindings they would begin at `a`. -/
theorem tries_otherEdge (hstarts : StartsAt a x y b) {e : Int64 × Int64} (he : e ∈ g.edges)
    (hne : e.1 ≠ a) : g.Tries [edgeFact e] (⟨"edge", [x, y]⟩ :: rest) b d 0 free [] := by
  obtain ⟨answers, d', -, ⟨rfl, rfl⟩, htried⟩ := exists_tried_narrows (k := 0)
    (Q := fun answers d' => answers = [] ∧ d' = d) rest hstarts.oriented hstarts.flat
    (hstarts.goal "edge") (edgeFact_mem he) ⟨rfl, rfl⟩ rfl (fun _ => ⟨rfl, rfl⟩) fun b' hb' => by
      have hv := Valuation.atoms.solves_through (hb'.flat.acyclic hb'.oriented)
      obtain ⟨hv, heq⟩ := (hb'.solves _).1 hv
      have hstart := (hstarts.source _ hv).symm.trans (compound_eq_iff.1 heq).1
      exact absurd (Term.num.inj hstart).symm hne
  exact tries_none htried

/-- An edge from `a` is followed by the goals behind it. -/
theorem tries_edge (hstarts : StartsAt a x y b) {n : Int64} (hedge : g.Edge a n)
    (hfree : d ≤ 2 ^ 64 → free → ∃ v : Valuation, v.Solves b ∧ v.term y = .num n)
    (hrest : ∀ b', g.Narrows (fun v => v.term y = .num n) (⟨"edge", [x, y]⟩ :: rest) b d rest b' d →
      g.Follows rest b' d (cost n) free (paths n)) :
    g.Tries [edgeFact (a, n)] (⟨"edge", [x, y]⟩ :: rest) b d (cost n) free (paths n) := by
  have htries : g.Tries [edgeFact (a, n)] (⟨"edge", [x, y]⟩ :: rest) b d (0 + cost n) free
      (paths n) := by
    refine tries_clause hstarts.oriented hstarts.flat (hstarts.goal "edge")
      (edgeFact_mem (g.mem_edges.2 hedge)) ⟨rfl, rfl⟩ rfl (fun hd h => ?_) fun b' hb' => ?_
    · obtain ⟨v, hv, hy⟩ := hfree hd h
      exact ⟨v, hv, compound_eq_iff.2 ⟨hstarts.source v hv, hy⟩⟩
    · refine hrest b' (hb'.congr fun v hv => ?_)
      exact compound_eq_iff.trans (and_iff_right (hstarts.source v hv))
  rwa [Nat.zero_add] at htries

/-- A goal `edge(x, y)` in which `x` is `a` goes through the edges from `a`. For each of them
the goals behind it trace `paths`, provided that `y` is free. -/
theorem tries_edges (hstarts : StartsAt a x y b) {d₀ : Nat} (hd : d ≤ d₀)
    {edges : List (Int64 × Int64)} (hsub : edges ⊆ g.edges)
    (hfree : d ≤ 2 ^ 64 → free → ∀ n, ∃ v : Valuation, v.Solves b ∧ v.term y = .num n)
    (hrest : ∀ n, g.Edge a n → ∀ b' d',
      g.Narrows (fun v => v.term y = .num n) (⟨"edge", [x, y]⟩ :: rest) b d rest b' d' →
      g.Follows rest b' d' (cost n) free (paths n)) :
    g.Tries (edges.map edgeFact) (⟨"edge", [x, y]⟩ :: rest) b d₀
      ((edges.filter fun e => e.1 = a).map fun e => cost e.2).sum free
      ((edges.filter fun e => e.1 = a).flatMap fun e => paths e.2) := by
  induction edges generalizing d₀ with
  | nil => exact tries_none id
  | cons e edges ih =>
    obtain ⟨he, hbehind⟩ := List.cons_subset.1 hsub
    by_cases hn₀ : e.1 = a
    · obtain ⟨n₀, n⟩ := e
      subst hn₀
      rw [List.filter_cons_of_pos (by simp)]
      refine Tries.append (tries_edge hstarts (g.mem_edges.1 he) ?_ fun b' hb' => ?_)
        fun d' hd' => ih (hd.trans hd') hbehind
      · exact fun hd₀ h => hfree (hd.trans hd₀) h n
      · exact hrest n (g.mem_edges.1 he) b' d₀ (hb'.earlier hd)
    · rw [List.filter_cons_of_neg (by simpa using hn₀)]
      have htries := (tries_otherEdge hstarts he hn₀).append
        fun d' (hd' : d₀ ≤ d') => ih (hd.trans hd') hbehind
      rwa [Nat.zero_add] at htries

/-- The rules are not tried for edges. -/
theorem skip_rules {pending : List Clause} {more : List (Bindings × Nat)} {ending : Option Nat}
    (h : Enumerates g.reachabilityProgram pending (⟨"edge", [x, y]⟩ :: rest) b d more ending) :
    Enumerates g.reachabilityProgram ([.rule pathOfEdge, .rule pathThroughEdge] ++ pending)
      (⟨"edge", [x, y]⟩ :: rest) b d more ending := by
  have hname : ¬"edge" = "path" := by decide
  exact .skip (fun hsig => hname hsig.1) (.skip (fun hsig => hname hsig.1) h)

theorem follows_edges (hstarts : StartsAt a x y b)
    (hfree : d ≤ 2 ^ 64 → free → ∀ n, ∃ v : Valuation, v.Solves b ∧ v.term y = .num n)
    (hrest : ∀ n, g.Edge a n → ∀ b' d',
      g.Narrows (fun v => v.term y = .num n) (⟨"edge", [x, y]⟩ :: rest) b d rest b' d' →
      g.Follows rest b' d' (cost n) free (paths n)) :
    g.Follows (⟨"edge", [x, y]⟩ :: rest) b d ((g.neighbours a).map cost).sum free
      ((g.neighbours a).flatMap paths) := by
  have htries := (tries_edges hstarts (Nat.le_refl d) (List.Subset.refl _) hfree hrest).append
    fun _ _ => tries_none skip_rules
  rw [List.append_nil, Nat.add_zero, filter_edges, List.map_map, List.flatMap_map] at htries
  exact htries.follows

end

/-! ## Searching for paths -/

/-- Where `path(x, y)` is searched for, `y` stands for `T`, which may still be every node, and
the draws to come give new variables. -/
structure Ready (g : Graph) (x y : Term) (b : Bindings) (d : Nat) : Prop where
  apart : Frame.Apart g.reachabilityProgram d (2 ^ 64)
    ⟨[⟨"path", [x, y]⟩], b, g.reachabilityProgram⟩
  target : ∀ v : Valuation, v.Solves b → v.term y = v.value "T"
  free : ∀ n, ∃ v : Valuation, v.Solves b ∧ v.value "T" = .num n

section
variable {a : Int64} {x y : Term} {b : Bindings} {d d' : Nat}

theorem Ready.mono (h : g.Ready x y b d) (hd : d ≤ d') : g.Ready x y b d' :=
  ⟨h.apart.mono hd, h.target, h.free⟩

/-- In a rule, `X` is where an edge begins, `Y` is where it ends, and `Z` is the last node of a
path behind it. -/
def ruleValues (a n m : Int64) : Valuation :=
  ⟨fun x => .num (if x = "X" then a else if x = "Y" then n else m), fun _ => Term.vars_num _⟩

/-- There is a solution that gives the variables of the copy of a rule such values. -/
theorem Ready.extend (h : g.Ready x y b d) (hstarts : StartsAt a x y b) {c : Clause}
    {x' y' z : Var} {rest : List Compound} (hc : c ∈ g.reachabilityProgram)
    (huse : c.instantiate d =
      (⟨⟨"path", [.var x', .var y']⟩, ⟨"edge", [.var x', .var z]⟩ :: rest⟩, d'))
    (hd : d' ≤ 2 ^ 64) {n m : Int64}
    (hhead : (ruleValues a n m).compound c.head = ⟨"path", [.num a, .num m]⟩)
    (hfirst : ∃ more, c.body = ⟨"edge", [.var (.ofName "X"), .var (.ofName "Y")]⟩ :: more) :
    ∃ s : Valuation, s.Solves b ∧ s.value "T" = .num m ∧
      s.compound ⟨"path", [x, y]⟩ = s.compound ⟨"path", [.var x', .var y']⟩ ∧
      s.value z.name = .num n := by
  obtain ⟨v, hv, hm⟩ := h.free m
  obtain ⟨s, hs, -, hgoals, hcopy, hbody⟩ := (h.apart.only hc).extend
    closed_reachabilityProgram hd (Nat.le_add_left _ _) huse hv (ruleValues a n m)
  have hy : s.term y = v.term y := (compound_eq_iff.1 (hgoals _ List.mem_cons_self)).2
  have htarget : s.value "T" = .num m := by rw [← h.target s hs, hy, h.target v hv, hm]
  refine ⟨s, hs, htarget, ?_, ?_⟩
  · rw [hcopy, hhead]
    simp [Valuation.compound_eq, hstarts.source s hs, h.target s hs, htarget]
  · obtain ⟨more, hfirst⟩ := hfirst
    rw [hfirst] at hbody
    exact (compound_eq_iff.1 (List.cons.inj hbody).1).2

/-- A rule is tried whose first goal is an edge from the source. -/
theorem tries_rule {c : Clause} {x' y' z : Var} {rest : List Compound} {k : Nat} {free : Prop}
    {cost : Int64 → Nat} {paths : Int64 → List (List Int64)} (hstarts : StartsAt a x y b)
    (hc : c ∈ g.reachabilityProgram) (hsig : Compound.SameSignature ⟨"path", [x, y]⟩ c.head)
    (huse : c.instantiate d =
      (⟨⟨"path", [.var x', .var y']⟩, ⟨"edge", [.var x', .var z]⟩ :: rest⟩, d + k))
    (hfree : d + k ≤ 2 ^ 64 → free → ∀ n, ∃ v : Valuation, v.Solves b ∧
      v.compound ⟨"path", [x, y]⟩ = v.compound ⟨"path", [.var x', .var y']⟩ ∧
      v.value z.name = .num n)
    (hrest : ∀ n, g.Edge a n → ∀ b' d', d + k ≤ d' → g.Narrows
      (fun v => v.compound ⟨"path", [x, y]⟩ = v.compound ⟨"path", [.var x', .var y']⟩ ∧
        v.value z.name = .num n) [⟨"path", [x, y]⟩] b d rest b' d' →
      g.Follows rest b' d' (cost n) free (paths n)) :
    g.Tries [c] [⟨"path", [x, y]⟩] b d (k + ((g.neighbours a).map cost).sum) free
      ((g.neighbours a).flatMap paths) := by
  refine tries_clause hstarts.oriented hstarts.flat (hstarts.goal "path") hc hsig huse
    (fun hd h => ?_) fun b₁ hb₁ => ?_
  · obtain ⟨v, hv, heq, -⟩ := hfree hd h a
    exact ⟨v, hv, heq⟩
  · rw [List.append_nil] at hb₁ ⊢
    refine follows_edges (hstarts.behind hb₁) (fun hd h n => ?_) fun n hedge b₂ d₂ hb₂ =>
      hrest n hedge b₂ d₂ hb₂.drawn (hb₁.trans hb₂)
    obtain ⟨v, hv, heq, hz⟩ := hfree hd h n
    exact ⟨v, (hb₁.solves v).2 ⟨hv, heq⟩, hz⟩

/-! ## What the answers of a rule say -/

section
variable (hstarts : StartsAt a x y b)
include hstarts

theorem edge_of_holds {v : Valuation} {x' y' z : Var} (hv : v.Solves b)
    (heq : v.compound ⟨"path", [x, y]⟩ = v.compound ⟨"path", [.var x', .var y']⟩)
    (h : Holds g.reachabilityProgram (v.compound ⟨"edge", [.var x', .var z]⟩)) :
    ∃ n, g.Edge a n ∧ v.value z.name = .num n := by
  rw [Valuation.compound_eq] at h
  obtain ⟨a', n, hedge, ha, hn⟩ := derived_edge_iff.1 (derived_of_holds h)
  have hx := hstarts.source v hv
  rw [(compound_eq_iff.1 heq).1, ha] at hx
  obtain rfl := Term.num.inj hx
  exact ⟨n, hedge, hn⟩

/-- Whatever the names are, the answers of a rule make `y` its second variable, and the variable
behind its first goal the end of an edge. -/
theorem exists_tried_rule {c : Clause} {x' y' z : Var} {rest : List Compound} {k : Nat}
    (cost : Int64 → Nat) (paths : Int64 → List (List Int64)) (hc : c ∈ g.reachabilityProgram)
    (hsig : Compound.SameSignature ⟨"path", [x, y]⟩ c.head)
    (huse : c.instantiate d =
      (⟨⟨"path", [.var x', .var y']⟩, ⟨"edge", [.var x', .var z]⟩ :: rest⟩, d + k))
    (hrest : ∀ n, g.Edge a n → ∀ b' d', b'.Oriented → b'.Flat →
      (∀ v : Valuation, v.Solves b' → v.value z.name = .num n) →
      g.Follows rest b' d' (cost n) False (paths n)) :
    ∃ answers d', d + k ≤ d' ∧ d' ≤ d + k + ((g.neighbours a).map cost).sum ∧
      (∀ a' ∈ answers, ∀ v : Valuation, v.Solves a'.1 → v.Solves b ∧
        v.term y = v.value y'.name ∧ ∃ n, g.Edge a n ∧ v.value z.name = .num n) ∧
      ∀ {pending more ending},
        Enumerates g.reachabilityProgram pending [⟨"path", [x, y]⟩] b d' more ending →
        Enumerates g.reachabilityProgram (c :: pending) [⟨"path", [x, y]⟩] b d (answers ++ more)
          ending := by
  obtain ⟨answers, d', hle, ⟨hbounded, hsays⟩, htried⟩ := exists_tried_narrows
    (Q := fun answers d' => d' ≤ d + k + ((g.neighbours a).map cost).sum ∧
      ∀ a' ∈ answers, ∀ v : Valuation, v.Solves a'.1 → v.Solves b ∧
        v.term y = v.value y'.name ∧ ∃ n, g.Edge a n ∧ v.value z.name = .num n)
    [] hstarts.oriented hstarts.flat (hstarts.goal "path") hc hsig huse (fun _ => by simp)
    fun b' hb' => by
      rw [List.append_nil] at hb' ⊢
      obtain ⟨answers, d', henum, htraced⟩ := follows_edges (d := d + k)
        (hstarts.behind hb') (fun _ (h : False) => h.elim) fun n hn b'' d'' hb'' =>
          hrest n hn b'' d'' hb''.oriented hb''.flat fun v hv => ((hb''.solves v).1 hv).2
      refine ⟨answers, d', henum, htraced.bounded, fun a' ha v hv => ?_⟩
      obtain ⟨hv', hbody⟩ := says_of_enumerates hb'.oriented (List.Subset.refl _) henum a' ha v hv
      obtain ⟨hv, heq⟩ := (hb'.solves v).1 hv'
      exact ⟨hv, (compound_eq_iff.1 heq).2,
        edge_of_holds hstarts hv heq (hbody _ List.mem_cons_self)⟩
  exact ⟨answers, d', hle, hbounded, hsays, htried⟩

end

/-! ## The two rules -/

theorem instantiate_pathOfEdge (d : Nat) :
    let x := Term.var (.fresh d)
    let y := Term.var (.fresh (d + 1))
    (Clause.rule pathOfEdge).instantiate d = (⟨⟨"path", [x, y]⟩, [⟨"edge", [x, y]⟩]⟩, d + 2) :=
  rfl

theorem instantiate_pathThroughEdge (d : Nat) :
    let x := Term.var (.fresh d)
    let z := Term.var (.fresh (d + 1))
    let y := Term.var (.fresh (d + 2))
    (Clause.rule pathThroughEdge).instantiate d =
      (⟨⟨"path", [x, z]⟩, [⟨"edge", [x, y]⟩, ⟨"path", [y, z]⟩]⟩, d + 3) :=
  rfl

/-- By the first rule every edge from the source is a path. -/
theorem tries_pathOfEdge {free : Prop} (hstarts : StartsAt a x y b)
    (hready : free → g.Ready x y b d) :
    g.Tries [.rule pathOfEdge] [⟨"path", [x, y]⟩] b d 2 free
      ((g.neighbours a).map fun n => [n]) := by
  have huse := instantiate_pathOfEdge d
  have htries : g.Tries [.rule pathOfEdge] _ b d (2 + ((g.neighbours a).map fun _ => 0).sum) free
      ((g.neighbours a).flatMap fun n => [[n]]) :=
    tries_rule hstarts pathOfEdge_mem ⟨rfl, rfl⟩ huse (fun hd h n => ?_) fun n _ b' d' _ hb' => ?_
  · simpa [← List.map_eq_flatMap] using htries
  · obtain ⟨s, hs, -, heq, hn⟩ := (hready h).extend hstarts pathOfEdge_mem huse hd rfl ⟨_, rfl⟩
    exact ⟨s, hs, heq, hn⟩
  · refine ⟨[(b', d')], d', .answer, Nat.le_refl d', fun _ h => ⟨rfl, .cons ⟨n, rfl, ?_⟩ .nil⟩⟩
    intro v hv
    obtain ⟨hv, heq, hn⟩ := (hb'.solves v).1 hv
    rw [← (hready h).target v hv, (compound_eq_iff.1 heq).2]
    exact hn

theorem EndsAt.cons {path : List Int64} {answer : Bindings × Nat} (h : EndsAt path answer)
    (n : Int64) : EndsAt (n :: path) answer := by
  obtain ⟨m, hlast, hvalue⟩ := h
  refine ⟨m, ?_, hvalue⟩
  rw [List.getLast?_cons_of_ne_nil, hlast]
  rintro rfl
  cases hlast

/-- The second rule has used an edge to `n`, and the search goes on from there. -/
theorem follows_behind {x' y' z : Var} {d₁ d' : Nat} {b' : Bindings} {n : Int64} {cost : Nat}
    {free : Prop} {paths : List (List Int64)} (hstarts : StartsAt a x y b)
    (hready : free → g.Ready x y b d)
    (huse : (Clause.rule pathThroughEdge).instantiate d =
      (⟨⟨"path", [.var x', .var z]⟩,
        [⟨"edge", [.var x', .var y']⟩, ⟨"path", [.var y', .var z]⟩]⟩, d₁)) (hd : d₁ ≤ d')
    (hb' : g.Narrows (fun v =>
      v.compound ⟨"path", [x, y]⟩ = v.compound ⟨"path", [.var x', .var z]⟩ ∧
        v.value y'.name = .num n) [⟨"path", [x, y]⟩] b d [⟨"path", [.var y', .var z]⟩] b' d')
    (hbelow : ∀ {x y b d}, StartsAt n x y b →
      g.Follows [⟨"path", [x, y]⟩] b d cost (g.Ready x y b d) paths) :
    g.Follows [⟨"path", [.var y', .var z]⟩] b' d' cost free (paths.map (n :: ·)) := by
  have hstarts' : StartsAt n (.var y') (.var z) b' :=
    ⟨hb'.oriented, hb'.flat, trivial, trivial, fun v hv => ((hb'.solves v).1 hv).2.2⟩
  refine (hbelow hstarts').imp (fun hd' h => ?_) fun answers h => ?_
  · refine ⟨hb'.apart (hready h).apart, fun v hv => ?_, fun m => ?_⟩
    · obtain ⟨hv, heq, -⟩ := (hb'.solves v).1 hv
      rw [← (hready h).target v hv, (compound_eq_iff.1 heq).2]
    · obtain ⟨s, hs, hm, heq, hn⟩ := (hready h).extend (n := n) (m := m) hstarts
        pathThroughEdge_mem huse (hd.trans hd') rfl ⟨_, rfl⟩
      exact ⟨s, (hb'.solves s).2 ⟨hs, heq, hn⟩, hm⟩
  · exact List.forall₂_map_left_iff.2 (h.imp fun _ _ hends => hends.cons n)

/-- By the second rule every edge from the source is followed by the paths from its end. -/
theorem tries_pathThroughEdge {free : Prop} {cost : Int64 → Nat}
    {below : Int64 → List (List Int64)} (hstarts : StartsAt a x y b)
    (hready : free → g.Ready x y b d)
    (hbelow : ∀ n, g.Edge a n → ∀ {x y b d}, StartsAt n x y b →
      g.Follows [⟨"path", [x, y]⟩] b d (cost n) (g.Ready x y b d) (below n)) :
    g.Tries [.rule pathThroughEdge] [⟨"path", [x, y]⟩] b d (3 + ((g.neighbours a).map cost).sum)
      free ((g.neighbours a).flatMap fun n => (below n).map (n :: ·)) := by
  have huse := instantiate_pathThroughEdge d
  refine tries_rule hstarts pathThroughEdge_mem ⟨rfl, rfl⟩ huse (fun hd h n => ?_)
    fun n hedge b' d' hd' hb' => follows_behind hstarts hready huse hd' hb' (hbelow n hedge)
  obtain ⟨s, hs, -, heq, hn⟩ :=
    (hready h).extend (n := n) (m := n) hstarts pathThroughEdge_mem huse hd rfl ⟨_, rfl⟩
  exact ⟨s, hs, heq, hn⟩

/-- The facts are not tried for paths. -/
theorem skip_facts {pending : List Clause} {more : List (Bindings × Nat)} {ending : Option Nat}
    (h : Enumerates g.reachabilityProgram pending [⟨"path", [x, y]⟩] b d more ending) :
    Enumerates g.reachabilityProgram (g.edges.map edgeFact ++ pending) [⟨"path", [x, y]⟩] b d more
      ending := by
  refine .skip_all (fun c hc hsig => ?_) h
  obtain ⟨e, -, rfl⟩ := List.mem_map.1 hc
  exact absurd hsig.1 (by decide : ¬"path" = "edge")

/-- The search from a node follows the paths from there: it ends, after five draws for each of
them and for the node, and gives the answers in their order. -/
theorem PathsFrom.follows {paths : List (List Int64)} (h : g.PathsFrom a paths)
    (hstarts : StartsAt a x y b) :
    g.Follows [⟨"path", [x, y]⟩] b d (5 * (paths.length + 1)) (g.Ready x y b d) paths := by
  induction h generalizing x y b d with
  | @intro a below _ ih =>
    have htries := (tries_none skip_facts).append fun d₁ (hd₁ : d ≤ d₁) =>
      (tries_pathOfEdge hstarts fun h : g.Ready x y b d => h.mono hd₁).append fun d₂ hd₂ =>
        tries_pathThroughEdge hstarts (fun h => h.mono (hd₁.trans hd₂)) ih
    have hcost (m : Nat) : 0 + (2 + (3 + 5 * m)) = 5 * (m + 1) := by omega
    rw [List.sum_map_mul_left, hcost, ← length_paths] at htries
    simpa using htries.follows

end

end

end HornSearch.Graph
