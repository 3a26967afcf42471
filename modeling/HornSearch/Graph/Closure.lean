import HornSearch.Graph.Basic

/-!
# Transitive closure

The nodes that can be reached from a start, depth first, each once. The
traversal keeps a stack of nodes still to visit; a node counts as seen when it
is taken from the stack, so it may stand there more than once. The successors
of a node are visited from the last to the first.
-/

namespace HornSearch

/-- A traversal under way: the nodes still to visit, the next one first, and
those seen. -/
structure Traversal where
  stack : List Int64
  seen : List Int64
deriving DecidableEq

namespace Traversal

def start (node : Int64) : Traversal := ⟨[node], []⟩

/-- The next node that was not seen, and the traversal after it. -/
def next (g : Graph) (t : Traversal) : Option (Int64 × Traversal) :=
  go t.stack
where
  go : List Int64 → Option (Int64 × Traversal)
    | [] => none
    | node :: stack =>
      if node ∈ t.seen then go stack
      else some (node, ⟨(g.neighbours node).reverse ++ stack, node :: t.seen⟩)

/-- The next `n` nodes, or fewer if the traversal ends before. -/
def take (g : Graph) : Nat → Traversal → List Int64
  | 0, _ => []
  | n + 1, t =>
    match t.next g with
    | none => []
    | some (node, t) => node :: take g n t

end Traversal

namespace Graph

/-- The nodes reached from `start`, itself included, in the order of the
traversal. Apart from the start every one ends an edge of its own, so no
traversal is longer than this. -/
def closure (g : Graph) (start : Int64) : List Int64 :=
  (Traversal.start start).take g (g.edgeCount + 1)

end Graph

end HornSearch
