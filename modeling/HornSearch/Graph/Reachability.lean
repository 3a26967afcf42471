import HornSearch.Clause
import HornSearch.Graph.Basic

/-!
# Reachability as a program

A graph as a program: one fact per edge, and two rules by which `path` holds
of every two nodes that are joined by one edge or more. The rules recur on the
right, so a query ends on a graph without cycles.
-/

namespace HornSearch.Graph

/-- One fact `predicate(a, b)` for every edge. -/
def edgeFacts (g : Graph) (predicate : String) : List Clause :=
  g.edges.map fun (a, b) => .classify ⟨predicate, [.num a, .num b]⟩

/-- An edge is a path: `path(X, Y) :- edge(X, Y).` -/
def pathOfEdge : Rule :=
  ⟨⟨"path", [.var (.ofName "X"), .var (.ofName "Y")]⟩,
    [⟨"edge", [.var (.ofName "X"), .var (.ofName "Y")]⟩]⟩

/-- A path may begin with any edge: `path(X, Z) :- edge(X, Y), path(Y, Z).` -/
def pathThroughEdge : Rule :=
  ⟨⟨"path", [.var (.ofName "X"), .var (.ofName "Z")]⟩,
    [⟨"edge", [.var (.ofName "X"), .var (.ofName "Y")]⟩,
      ⟨"path", [.var (.ofName "Y"), .var (.ofName "Z")]⟩]⟩

/-- The program that answers `path` over the edges of the graph. -/
def reachabilityProgram (g : Graph) : List Clause :=
  g.edgeFacts "edge" ++ [.rule pathOfEdge, .rule pathThroughEdge]

end HornSearch.Graph
