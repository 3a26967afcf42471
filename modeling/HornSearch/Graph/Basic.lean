/-!
# Directed graphs

A graph over 64-bit integer nodes. Sources stand in the order in which they
got their first edge, and the successors of one source in the order in which
they were added; no source is listed twice, and no successor of one source.

Main statements: `Graph.neighbours_set` and `Graph.nodes_set` say what storing
the successors of one node changes.
-/

namespace HornSearch

/-- Puts `v` under the key `k`: in the place of an earlier value, or else
behind all entries. -/
def putEntry {α β : Type} [DecidableEq α] (k : α) (v : β) : List (α × β) → List (α × β)
  | [] => [(k, v)]
  | (k', v') :: entries =>
    if k' = k then (k', v) :: entries else (k', v') :: putEntry k v entries

theorem keys_putEntry {α β : Type} [DecidableEq α] (k : α) (v : β) (entries : List (α × β)) :
    (putEntry k v entries).map Prod.fst =
      if k ∈ entries.map Prod.fst then entries.map Prod.fst
      else entries.map Prod.fst ++ [k] := by
  induction entries with
  | nil => rfl
  | cons e entries ih =>
    obtain ⟨k', v'⟩ := e
    by_cases h : k' = k
    · simp [putEntry, h]
    · have h' : ¬ k = k' := fun e => h e.symm
      simp only [putEntry, if_neg h, List.map_cons, ih, List.mem_cons, h', false_or]
      split <;> simp

theorem mem_putEntry {α β : Type} [DecidableEq α] {k : α} {v : β} {entries : List (α × β)}
    {e : α × β} (h : e ∈ putEntry k v entries) : e = (k, v) ∨ e ∈ entries := by
  induction entries with
  | nil => exact .inl (by simpa [putEntry] using h)
  | cons f entries ih =>
    obtain ⟨k', v'⟩ := f
    by_cases hk : k' = k
    · simp only [putEntry, hk, if_true, List.mem_cons] at h
      exact h.imp id (List.mem_cons_of_mem _)
    · simp only [putEntry, if_neg hk, List.mem_cons] at h
      rcases h with h | h
      · exact .inr (h ▸ List.mem_cons_self)
      · exact (ih h).imp id (List.mem_cons_of_mem _)

theorem nodup_keys_putEntry {α β : Type} [DecidableEq α] (k : α) (v : β)
    {entries : List (α × β)} (h : (entries.map Prod.fst).Nodup) :
    ((putEntry k v entries).map Prod.fst).Nodup := by
  rw [keys_putEntry]
  split
  · exact h
  · rename_i hk
    rw [List.nodup_append]
    exact ⟨h, by simp, fun a ha b hb hab => hk (by simp_all)⟩

theorem lookup_cons_if {α β : Type} [DecidableEq α] (k : α) (v : β) (entries : List (α × β))
    (a : α) :
    ((k, v) :: entries).lookup a = if a = k then some v else entries.lookup a := by
  rw [List.lookup_cons]
  by_cases ha : a = k
  · simp [ha]
  · rw [beq_false_of_ne ha, if_neg ha]

theorem lookup_putEntry {α β : Type} [DecidableEq α] (k : α) (v : β) (entries : List (α × β))
    (a : α) :
    (putEntry k v entries).lookup a = if a = k then some v else entries.lookup a := by
  induction entries with
  | nil => exact lookup_cons_if k v [] a
  | cons e entries ih =>
    obtain ⟨k', v'⟩ := e
    by_cases hk : k' = k
    · simp only [putEntry, hk, if_true, lookup_cons_if]
      split <;> rfl
    · by_cases ha : a = k'
      · simp [putEntry, hk, ha]
      · simp only [putEntry, if_neg hk, lookup_cons_if, if_neg ha, ih]

theorem mem_of_lookup {α β : Type} [DecidableEq α] {k : α} {v : β} {entries : List (α × β)}
    (h : entries.lookup k = some v) : (k, v) ∈ entries := by
  obtain ⟨before, behind, rfl, -⟩ := List.lookup_eq_some_iff.1 h
  simp

/-- Of distinct keys each is found with its own value. -/
theorem lookup_of_mem {α β : Type} [DecidableEq α] {k : α} {v : β} {entries : List (α × β)}
    (hkeys : (entries.map Prod.fst).Nodup) (h : (k, v) ∈ entries) :
    entries.lookup k = some v := by
  obtain ⟨before, behind, rfl⟩ := List.append_of_mem h
  rw [List.lookup_eq_some_iff]
  refine ⟨before, behind, rfl, fun e he => ?_⟩
  rw [List.map_append, List.nodup_append] at hkeys
  exact bne_iff_ne.2 (hkeys.2.2 e.1 (List.mem_map_of_mem he) k (by simp)).symm

/-- A directed graph, as the successors of every source. -/
structure Graph where
  adjacency : List (Int64 × List Int64)
  nodup_nodes : (adjacency.map Prod.fst).Nodup
  nodup_successors : ∀ e ∈ adjacency, e.2.Nodup

namespace Graph

def empty : Graph := ⟨[], by simp, by simp⟩

/-- The nodes that are listed as sources, also those without successors. -/
def nodes (g : Graph) : List Int64 := g.adjacency.map Prod.fst

/-- The successors of a node, in the order in which they were added. -/
def neighbours (g : Graph) (node : Int64) : List Int64 :=
  (g.adjacency.lookup node).getD []

/-- Lists `successors`, which are distinct, as the successors of a node. -/
def set (g : Graph) (node : Int64) (successors : List Int64) (h : successors.Nodup) : Graph where
  adjacency := putEntry node successors g.adjacency
  nodup_nodes := nodup_keys_putEntry node successors g.nodup_nodes
  nodup_successors e he := by
    rcases mem_putEntry he with rfl | he
    · exact h
    · exact g.nodup_successors e he

theorem nodes_set (g : Graph) (node : Int64) (successors : List Int64) (h : successors.Nodup) :
    (g.set node successors h).nodes =
      if node ∈ g.nodes then g.nodes else g.nodes ++ [node] :=
  keys_putEntry node successors g.adjacency

theorem neighbours_set (g : Graph) (node : Int64) (successors : List Int64)
    (h : successors.Nodup) (n : Int64) :
    (g.set node successors h).neighbours n =
      if n = node then successors else g.neighbours n := by
  simp only [neighbours, set, lookup_putEntry]
  split <;> simp

theorem neighbours_of_mem (g : Graph) {a : Int64} {successors : List Int64}
    (h : (a, successors) ∈ g.adjacency) : g.neighbours a = successors := by
  rw [neighbours, lookup_of_mem g.nodup_nodes h, Option.getD_some]

theorem nodup_neighbours (g : Graph) (node : Int64) : (g.neighbours node).Nodup := by
  cases h : g.adjacency.lookup node with
  | none => simp [neighbours, h]
  | some successors =>
    have hmem := mem_of_lookup h
    rw [g.neighbours_of_mem hmem]
    exact g.nodup_successors _ hmem

/-- Adds the edge from `a` to `b`, and says whether it is new. -/
def addEdge (g : Graph) (a b : Int64) : Graph × Bool :=
  if h : b ∈ g.neighbours a then (g, false)
  else
    (g.set a (g.neighbours a ++ [b]) (by
      rw [List.nodup_append]
      exact ⟨g.nodup_neighbours a, by simp, fun x hx y hy hxy => h (by simp_all)⟩), true)

def ofEdges (edges : List (Int64 × Int64)) : Graph :=
  edges.foldl (fun g e => (g.addEdge e.1 e.2).1) empty

/-- All edges, grouped by source. -/
def edges (g : Graph) : List (Int64 × Int64) :=
  g.adjacency.flatMap fun (a, successors) => successors.map fun b => (a, b)

def edgeCount (g : Graph) : Nat := g.adjacency.foldl (fun n e => n + e.2.length) 0

def SameMembers (l l' : List Int64) : Prop := (∀ a ∈ l, a ∈ l') ∧ ∀ a ∈ l', a ∈ l

instance (l l' : List Int64) : Decidable (SameMembers l l') :=
  inferInstanceAs (Decidable (_ ∧ _))

/-- The same sources with the same successors, in whatever order. -/
def Alike (g h : Graph) : Prop :=
  SameMembers g.nodes h.nodes ∧ ∀ n ∈ g.nodes, SameMembers (g.neighbours n) (h.neighbours n)

instance (g h : Graph) : Decidable (g.Alike h) :=
  inferInstanceAs (Decidable (_ ∧ _))

/-- The edges as pairs, between brackets. -/
def text (g : Graph) : String :=
  let pair : Int64 × Int64 → String := fun (a, b) =>
    "(" ++ toString a.toInt ++ ", " ++ toString b.toInt ++ ")"
  "[" ++ ", ".intercalate (g.edges.map pair) ++ "]"

end Graph

end HornSearch
