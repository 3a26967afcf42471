import HornSearch.Graph.Basic
import HornSearch.Json.Term

/-!
# Graphs as JSON

A graph is a structure with the one field `adjacency`, an object from nodes to
arrays of their successors. A key is a node as an integer literal without
escapes. A key that comes again keeps its first place and takes its later
successors; a successor that comes again is dropped.
-/

namespace HornSearch

/-- A graph with its sources and their successors in order. -/
def Graph.toJson (g : Graph) : Json :=
  .ofFields [("adjacency", .ofFields (g.adjacency.map fun (node, successors) =>
    (toString node.toInt, .array (successors.map fun n => .integer n.toInt))))]

/-- The node that a key writes. -/
def Json.nodeOfKey (written : String) : Option Int64 :=
  match Json.readNumber written.toList with
  | some (n, []) => n.toInt64?
  | _ => none

/-- The first occurrence of every item. -/
def distinct (items : List Int64) : List Int64 :=
  items.foldl (fun seen n => if n ∈ seen then seen else seen ++ [n]) []

theorem nodup_foldl_distinct {items seen : List Int64} (h : seen.Nodup) :
    (items.foldl (fun seen n => if n ∈ seen then seen else seen ++ [n]) seen).Nodup := by
  induction items generalizing seen with
  | nil => exact h
  | cons n items ih =>
    rw [List.foldl_cons]
    apply ih
    split
    · exact h
    · rename_i hn
      rw [List.nodup_append]
      exact ⟨h, by simp, fun a ha b hb hab => hn (by simp_all)⟩

theorem nodup_distinct (items : List Int64) : (distinct items).Nodup :=
  nodup_foldl_distinct List.nodup_nil

def Graph.ofJson? : JsonReader Graph
  | _ + 3, j => do
    match ← j.toFields? ["adjacency"] with
    | [.object entries] =>
      entries.foldlM (fun g (key, successors) => do
        let node ← Json.nodeOfKey key
        let successors ← (← successors.toItems?).mapM Json.toInt64?
        pure (g.set node (distinct successors) (nodup_distinct successors))) Graph.empty
    | _ => none
  | _, _ => none

end HornSearch
