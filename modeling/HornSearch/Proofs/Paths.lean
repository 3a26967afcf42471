import HornSearch.Proofs.DepthFirst
import Mathlib.Data.List.Chain
import Mathlib.Order.WellFounded

/-!
# Paths in a graph

A path is told by the nodes behind its first one. From a node that reaches no cycle no path
meets a node twice (`AcyclicFrom.nodup`), and there are finitely many (`exists_pathsFrom`): those
of one edge, and behind each successor those from there. They are listed in this order
(`PathsFrom`), each of them once.
-/

namespace HornSearch.Graph

open Relation

section
variable {g : Graph} {a c n s : Int64} {path : List Int64}

/-- From `a` the edges lead through the nodes of `path`, of which there is at least one. -/
def IsPath (g : Graph) (a : Int64) (path : List Int64) : Prop :=
  path ≠ [] ∧ (a :: path).IsChain g.Edge

/-- No cycle can be reached from `s`. -/
def AcyclicFrom (g : Graph) (s : Int64) : Prop :=
  ∀ n, ReflTransGen g.Edge s n → ¬TransGen g.Edge n n

theorem isPath_cons :
    g.IsPath a (c :: path) ↔ g.Edge a c ∧ (path = [] ∨ g.IsPath c path) := by
  cases path with
  | nil => simp [IsPath]
  | cons d path => simp [IsPath]

theorem exists_isPath_iff :
    (∃ path, g.IsPath a path ∧ path.getLast? = some n) ↔ TransGen g.Edge a n := by
  constructor
  · rintro ⟨path, hpath, hlast⟩
    induction path generalizing a with
    | nil => exact absurd rfl hpath.1
    | cons c path ih =>
      obtain ⟨hedge, rfl | hpath⟩ := isPath_cons.1 hpath
      · obtain rfl : c = n := by simpa using hlast
        exact .single hedge
      · refine (TransGen.single hedge).trans (ih hpath ?_)
        rwa [List.getLast?_cons_of_ne_nil hpath.1] at hlast
  · intro h
    induction h using TransGen.head_induction_on with
    | single hedge => exact ⟨[n], isPath_cons.2 ⟨hedge, .inl rfl⟩, rfl⟩
    | @head a c hedge _ ih =>
      obtain ⟨path, hpath, hlast⟩ := ih
      refine ⟨c :: path, isPath_cons.2 ⟨hedge, .inr hpath⟩, ?_⟩
      rw [List.getLast?_cons_of_ne_nil hpath.1, hlast]

section
variable {rank : Int64 → ℤ} (h : ∀ a b, g.Edge a b → rank a < rank b)
include h

theorem rank_lt_of_transGen (hpath : TransGen g.Edge a c) : rank a < rank c := by
  induction hpath with
  | single hedge => exact h _ _ hedge
  | tail _ hedge ih => exact ih.trans (h _ _ hedge)

/-- Along edges that lead upwards no way leads back. -/
theorem acyclicFrom_of_rank : g.AcyclicFrom s :=
  fun _ _ hcycle => lt_irrefl _ (rank_lt_of_transGen h hcycle)

end

/-- Where no cycle is reached a path meets no node twice. -/
theorem AcyclicFrom.nodup (h : g.AcyclicFrom a) (hpath : g.IsPath a path) :
    (a :: path).Nodup := by
  have hchain : (a :: path).IsChain (TransGen g.Edge) := hpath.2.imp fun _ _ => .single
  have hpairs : (a :: path).Pairwise (TransGen g.Edge) := List.isChain_iff_pairwise.1 hchain
  obtain ⟨hbehind, -⟩ := List.pairwise_cons.1 hpairs
  refine hpairs.imp_of_mem fun {b c} hb _ hbc => ?_
  rintro rfl
  rcases List.mem_cons.1 hb with rfl | hb
  · exact h b .refl hbc
  · exact h b (hbehind b hb).to_reflTransGen hbc

/-- The paths from a node: first those of one edge, then for each successor those through
it that go on. -/
inductive PathsFrom (g : Graph) : Int64 → List (List Int64) → Prop
  | intro {a : Int64} {below : Int64 → List (List Int64)}
      (h : ∀ c ∈ g.neighbours a, PathsFrom g c (below c)) :
      PathsFrom g a ((g.neighbours a).map (fun c => [c]) ++
        (g.neighbours a).flatMap fun c => (below c).map (c :: ·))

theorem PathsFrom.mem_iff {paths : List (List Int64)} (h : g.PathsFrom a paths) :
    path ∈ paths ↔ g.IsPath a path := by
  induction h generalizing path with
  | @intro a below _ ih =>
    cases path with
    | nil => simp [IsPath]
    | cons c path =>
      rw [isPath_cons, List.mem_append, List.mem_map, List.mem_flatMap]
      constructor
      · rintro (⟨d, hd, e⟩ | ⟨d, hd, hmore⟩)
        · obtain ⟨rfl, rfl⟩ := List.cons.inj e
          exact ⟨hd, .inl rfl⟩
        · obtain ⟨_, hpath, e⟩ := List.mem_map.1 hmore
          obtain ⟨rfl, rfl⟩ := List.cons.inj e
          exact ⟨hd, .inr ((ih d hd).1 hpath)⟩
      · rintro ⟨hc, rfl | hpath⟩
        · exact .inl ⟨c, hc, rfl⟩
        · exact .inr ⟨c, hc, List.mem_map_of_mem ((ih c hc).2 hpath)⟩

/-- Each successor is the end of one path, and every path from it goes on from here. -/
theorem length_paths (successors : List Int64) (below : Int64 → List (List Int64)) :
    (successors.map (fun c => [c]) ++
        successors.flatMap fun c => (below c).map (c :: ·)).length =
      (successors.map fun c => (below c).length + 1).sum := by
  induction successors with
  | nil => rfl
  | cons c successors ih =>
    simp only [List.length_append, List.length_map, List.length_flatMap, List.map_cons,
      List.sum_cons, List.length_cons] at ih ⊢
    omega

theorem PathsFrom.nodup {paths : List (List Int64)} (h : g.PathsFrom a paths) :
    paths.Nodup := by
  induction h with
  | @intro a below h ih =>
    have hsuccessors := g.nodup_neighbours a
    rw [List.nodup_append']
    refine ⟨hsuccessors.map fun _ _ e => (List.cons.inj e).1, ?_, ?_⟩
    · rw [List.nodup_flatMap]
      refine ⟨fun c hc => (ih c hc).map fun _ _ e => (List.cons.inj e).2, ?_⟩
      refine hsuccessors.imp fun {c d} hne => ?_
      intro path hc hd
      obtain ⟨_, _, rfl⟩ := List.mem_map.1 hc
      obtain ⟨_, _, e⟩ := List.mem_map.1 hd
      exact hne (List.cons.inj e).1.symm
    · -- A path that goes on has more than one node.
      intro path hone hmore
      obtain ⟨d, _, rfl⟩ := List.mem_map.1 hone
      obtain ⟨c, hc, hpath⟩ := List.mem_flatMap.1 hmore
      obtain ⟨path, hpath, e⟩ := List.mem_map.1 hpath
      obtain ⟨rfl, rfl⟩ := List.cons.inj e
      exact ((h c hc).mem_iff.1 hpath).1 rfl

theorem PathsFrom.countP_eq {paths : List (List Int64)} (h : g.PathsFrom a paths)
    (p : List Int64 → Bool) :
    (paths.countP p : ℕ∞) = {path | g.IsPath a path ∧ p path}.encard := by
  have hset : {path | g.IsPath a path ∧ p path} = (paths.filter p).toFinset := by
    ext path
    simp [h.mem_iff]
  rw [hset, Set.encard_coe_eq_coe_finsetCard, List.toFinset_card_of_nodup (h.nodup.filter _),
    List.countP_eq_length_filter]

theorem PathsFrom.length_eq {paths : List (List Int64)} (h : g.PathsFrom a paths) :
    (paths.length : ℕ∞) = {path | g.IsPath a path}.encard := by
  simpa using h.countP_eq fun _ => true

/-- From a node on, an edge leads to fewer nodes, since none leads back. -/
theorem exists_pathsFrom (h : g.AcyclicFrom s) : ∃ paths, g.PathsFrom s paths := by
  let Reached := {n : Int64 // ReflTransGen g.Edge s n}
  let back : Reached → Reached → Prop := fun c a => TransGen g.Edge a.1 c.1
  have htrans : IsTrans Reached back := ⟨fun _ _ _ hba hcb => hcb.trans hba⟩
  have hirrefl : Std.Irrefl back := ⟨fun a => h a.1 a.2⟩
  have hwf : WellFounded back := Finite.wellFounded_of_trans_of_irrefl back
  have hall (a : Reached) : ∃ paths, g.PathsFrom a.1 paths := by
    induction a using hwf.induction with
    | _ a ih =>
      have hbelow (c : Int64) : ∃ paths, g.Edge a.1 c → g.PathsFrom c paths := by
        by_cases hc : g.Edge a.1 c
        · obtain ⟨paths, hpaths⟩ := ih ⟨c, a.2.tail hc⟩ (.single hc)
          exact ⟨paths, fun _ => hpaths⟩
        · exact ⟨[], fun hedge => absurd hedge hc⟩
      choose below hbelow using hbelow
      exact ⟨_, .intro hbelow⟩
  exact hall ⟨s, .refl⟩

end

end HornSearch.Graph
