import Mathlib.Data.Finset.Dedup
import HornSearch.Proofs.DepthFirst
import HornSearch.Proofs.Numbering

/-!
# Graphs as ordered sets of edges

A graph that is built edge by edge keeps two orders: sources stand in the order in which
they occur first as a source, and the successors of one source in the order in which they
occur first behind it (`Graph.Lists`). An edge that is added once more changes neither.

Main statements: `Graph.lists_ofEdges` for the graph of any list of edges, and
`Graph.ofEdges_orderedSet`, which says what can be observed of it. Equality of graphs
forgets both orders, so it is that of the sets of edges.
-/

namespace HornSearch.Graph

/-! ## Edges by source -/

section
variable (g : Graph)

theorem edges_eq_flatMap :
    g.edges = g.nodes.flatMap fun a => (g.neighbours a).map fun b => (a, b) := by
  simp only [edges, nodes, List.flatMap_map]
  refine List.flatMap_congr fun e he => ?_
  rw [g.neighbours_of_mem he]

theorem nodup_edges : g.edges.Nodup := by
  rw [edges_eq_flatMap, List.nodup_flatMap]
  refine ⟨fun a _ => (g.nodup_neighbours a).map fun b b' e => (Prod.mk.inj e).2, ?_⟩
  refine g.nodup_nodes.imp fun {a a'} hne => ?_
  rintro e he he'
  obtain ⟨b, -, rfl⟩ := List.mem_map.1 he
  obtain ⟨b', -, e⟩ := List.mem_map.1 he'
  exact hne (Prod.mk.inj e).1.symm

end

/-! ## Adding edges -/

/-- The edges of a list, each once: by source, the sources and the successors of each in
the order of their first occurrence. -/
def grouped (es : List (Int64 × Int64)) : List (Int64 × Int64) :=
  (es.map Prod.fst).eraseDups.flatMap fun a =>
    ((es.filter fun e => e.1 = a).map Prod.snd).eraseDups.map fun b => (a, b)

/-- The graph lists the edges that were added, with sources and successors in the order in
which they occur first. -/
structure Lists (g : Graph) (added : List (Int64 × Int64)) : Prop where
  nodes : g.nodes = (added.map Prod.fst).eraseDups
  neighbours : ∀ n, g.neighbours n = ((added.filter fun e => e.1 = n).map Prod.snd).eraseDups

theorem lists_empty : Lists empty [] := ⟨rfl, fun _ => rfl⟩

section
variable {g h : Graph} {added added' : List (Int64 × Int64)}

theorem Lists.mem_nodes (hg : Lists g added) {n : Int64} : n ∈ g.nodes ↔ ∃ b, (n, b) ∈ added := by
  simp [hg.nodes, List.mem_eraseDups]

theorem Lists.edge_iff (hg : Lists g added) {a b : Int64} : g.Edge a b ↔ (a, b) ∈ added := by
  simp [Edge, hg.neighbours, List.mem_eraseDups]

theorem Lists.mem_edges (hg : Lists g added) (e : Int64 × Int64) : e ∈ g.edges ↔ e ∈ added :=
  g.mem_edges.trans hg.edge_iff

/-- An addition is told to be new when its edge was not added before. -/
theorem Lists.new_iff (hg : Lists g added) (a b : Int64) :
    (g.addEdge a b).2 = true ↔ (a, b) ∉ added := by
  rw [← hg.edge_iff, Edge, addEdge]
  split <;> simp_all

/-- One more edge is listed behind the others, or was listed already. -/
theorem Lists.addEdge (hg : Lists g added) (a b : Int64) :
    Lists (g.addEdge a b).1 (added ++ [(a, b)]) := by
  have hnodes : ((added ++ [(a, b)]).map Prod.fst).eraseDups =
      if a ∈ g.nodes then g.nodes else g.nodes ++ [a] := by
    simp only [List.map_append, List.map_cons, List.map_nil, eraseDups_concat, hg.nodes,
      List.mem_eraseDups]
  have hneighbours (n : Int64) :
      (((added ++ [(a, b)]).filter fun e => e.1 = n).map Prod.snd).eraseDups =
        if n = a ∧ b ∉ g.neighbours a then g.neighbours n ++ [b] else g.neighbours n := by
    by_cases hn : n = a
    · subst hn
      simp [hg.neighbours, eraseDups_concat, List.mem_eraseDups]
    · have hn' : ¬ a = n := fun e => hn e.symm
      simp [hg.neighbours, hn, hn']
  by_cases hb : b ∈ g.neighbours a
  · have ha : a ∈ g.nodes := hg.mem_nodes.2 ⟨b, hg.edge_iff.1 hb⟩
    rw [Graph.addEdge, dif_pos hb]
    exact ⟨by rw [hnodes, if_pos ha], fun n => by rw [hneighbours, if_neg fun h => h.2 hb]⟩
  · rw [Graph.addEdge, dif_neg hb]
    refine ⟨by rw [nodes_set, hnodes], fun n => ?_⟩
    rw [neighbours_set, hneighbours]
    by_cases hn : n = a <;> simp [hn, hb]

theorem lists_ofEdges (es : List (Int64 × Int64)) : Lists (ofEdges es) es := by
  induction es using List.reverseRecOn with
  | nil => exact lists_empty
  | append_singleton es e ih =>
    rw [ofEdges, List.foldl_append]
    exact ih.addEdge e.1 e.2

theorem Lists.edges_eq (hg : Lists g added) : g.edges = grouped added := by
  simp only [edges_eq_flatMap, hg.nodes, hg.neighbours, grouped]

theorem Lists.edgeCount_eq (hg : Lists g added) : g.edgeCount = added.toFinset.card := by
  have hset : added.toFinset = g.edges.toFinset := by
    ext e
    simp [hg.mem_edges]
  rw [hset, List.toFinset_card_of_nodup g.nodup_edges, length_edges]

/-- Sources without successors apart, which adding edges does not leave, equal graphs are
those with the same edges. -/
theorem Lists.alike_iff (hg : Lists g added) (hh : Lists h added') :
    g.Alike h ↔ ∀ e, e ∈ added ↔ e ∈ added' := by
  have hgn (n b : Int64) : b ∈ g.neighbours n ↔ (n, b) ∈ added := hg.edge_iff
  have hhn (n b : Int64) : b ∈ h.neighbours n ↔ (n, b) ∈ added' := hh.edge_iff
  simp only [Alike, SameMembers, hg.mem_nodes, hh.mem_nodes, hgn, hhn]
  constructor
  · rintro ⟨⟨hto, hfrom⟩, hsame⟩ ⟨a, b⟩
    constructor
    · exact fun hab => (hsame a ⟨b, hab⟩).1 b hab
    · exact fun hab => (hsame a (hfrom a ⟨b, hab⟩)).2 b hab
  · intro hsame
    refine ⟨⟨?_, ?_⟩, fun n _ => ⟨fun b => (hsame (n, b)).1, fun b => (hsame (n, b)).2⟩⟩
    · exact fun n ⟨b, hb⟩ => ⟨b, (hsame (n, b)).1 hb⟩
    · exact fun n ⟨b, hb⟩ => ⟨b, (hsame (n, b)).2 hb⟩

end

/-- What adding edges to the empty graph, one after another, leads to. The `i`-th addition
is told to be new when it is the first one of its pair; the distinct pairs are listed, each
once, by source and in the order of first occurrence, and are counted; and two graphs are
equal when the same pairs were added, in whatever order and however often. -/
theorem ofEdges_orderedSet (es : List (Int64 × Int64)) :
    (∀ i : Fin es.length, ((ofEdges (es.take i)).addEdge es[i].1 es[i].2).2 = true ↔
      es[i] ∉ es.take i) ∧
    ((ofEdges es).edges.Nodup ∧ (∀ e, e ∈ (ofEdges es).edges ↔ e ∈ es) ∧
      (ofEdges es).edges = grouped es) ∧
    (ofEdges es).edgeCount = es.toFinset.card ∧
    ∀ es', (ofEdges es).Alike (ofEdges es') ↔ ∀ e, e ∈ es ↔ e ∈ es' := by
  have hes := lists_ofEdges es
  refine ⟨fun i => ?_, ⟨nodup_edges _, hes.mem_edges, hes.edges_eq⟩, hes.edgeCount_eq, ?_⟩
  · exact (lists_ofEdges (es.take i)).new_iff es[i].1 es[i].2
  · exact fun es' => hes.alike_iff (lists_ofEdges es')

example : (ofEdges [(2, 7), (1, 3), (2, 5), (1, 3), (2, 7)]).edges = [(2, 7), (2, 5), (1, 3)] := by
  decide

end HornSearch.Graph
