import HornSearch.Graph.Closure
import Mathlib.Logic.Relation
import Mathlib.Data.Set.Card
import Mathlib.Data.List.Perm.Subperm

/-!
# The traversal is depth first

A traversal marks a node when it takes it from the stack, so the stack may hold a node
several times, and nodes that were seen since. What holds after every pull is that an edge
from a seen node leads to a seen node or to one that is still on the stack
(`Traversal.Rooted`). At the end the stack adds nothing, so all that can be reached is seen.

The stack is also a sequence of recursive calls that share what is visited: from
`nodes ++ stack` a traversal yields the preorder of `nodes` first and goes on with `stack`
(`Traversal.Yields.preorder`). The recursion ends because 64 bits give finitely many nodes,
and so the traversal ends, too.
-/

namespace HornSearch

namespace Graph

/-! ## Edges -/

/-- Of pairs that are grouped by their first part, one group holds those of one first part. -/
theorem filter_flatMap_pairs {entries : List (Int64 × List Int64)}
    (h : (entries.map Prod.fst).Nodup) (a : Int64) :
    (entries.flatMap fun e => e.2.map fun b => (e.1, b)).filter (fun e => e.1 = a) =
      ((entries.lookup a).getD []).map fun b => (a, b) := by
  induction entries with
  | nil => rfl
  | cons e entries ih =>
    obtain ⟨k, successors⟩ := e
    obtain ⟨hk, hrest⟩ := List.nodup_cons.1 h
    rw [List.flatMap_cons, List.filter_append, ih hrest, lookup_cons_if]
    by_cases hak : a = k
    · subst hak
      have hnone : entries.lookup a = none :=
        List.lookup_eq_none_iff.2 fun p hp =>
          bne_iff_ne.2 fun e => hk (List.mem_map.2 ⟨p, hp, e.symm⟩)
      simp [hnone, List.filter_map, Function.comp_def]
    · have hka : k ≠ a := fun e => hak e.symm
      simp [hak, hka, List.filter_map, Function.comp_def]

theorem foldl_length (entries : List (Int64 × List Int64)) (m : Nat) :
    entries.foldl (fun n e => n + e.2.length) m =
      m + (entries.flatMap fun e => e.2.map fun b => (e.1, b)).length := by
  induction entries generalizing m with
  | nil => simp
  | cons e entries ih =>
    simp only [List.foldl_cons, ih, List.flatMap_cons, List.length_append, List.length_map]
    omega

section
variable (g : Graph)

def Edge (a b : Int64) : Prop := b ∈ g.neighbours a

/-- The edges from one node lead to its successors in their order. -/
theorem filter_edges (a : Int64) :
    g.edges.filter (fun e => e.1 = a) = (g.neighbours a).map fun b => (a, b) :=
  filter_flatMap_pairs g.nodup_nodes a

theorem mem_edges {a b : Int64} : (a, b) ∈ g.edges ↔ g.Edge a b := by
  have hfilter : (a, b) ∈ g.edges ↔ (a, b) ∈ g.edges.filter (fun e => e.1 = a) := by simp
  rw [hfilter, filter_edges, List.mem_map]
  exact ⟨fun ⟨_, hb, e⟩ => (Prod.mk.inj e).2 ▸ hb, fun hb => ⟨b, hb, rfl⟩⟩

theorem length_edges : g.edges.length = g.edgeCount := by
  rw [edgeCount, foldl_length, Nat.zero_add, edges]

end

/-! ## The recursion -/

instance : Finite Int64 :=
  Finite.of_injective (fun n => n.toBitVec.toFin) fun _ _ h =>
    Int64.toBitVec_inj.1 (BitVec.toFin_inj.1 h)

/-- The nodes of a list and what lies below them, depth first, without those that were
visited before. The successors of a node come from the last to the first, and what one
node visits the nodes behind it pass over. -/
def preorder (g : Graph) : List Int64 → List Int64 → List Int64
  | _, [] => []
  | visited, node :: nodes =>
    if node ∈ visited then preorder g visited nodes
    else
      let below := preorder g (node :: visited) (g.neighbours node).reverse
      node :: below ++ preorder g (below.reverse ++ node :: visited) nodes
termination_by visited nodes => ({n | n ∉ visited}.ncard, nodes.length)
decreasing_by
  -- A node that is passed over makes the list shorter; one that is visited leaves fewer
  -- nodes, whatever its own call returns.
  · exact Prod.Lex.right _ (Nat.lt_succ_self _)
  all_goals
    rename_i hnode
    refine Prod.Lex.left _ _ (Set.ncard_lt_ncard ⟨fun n hn hv => hn (by simp [hv]), ?_⟩)
    exact fun hsub => hsub hnode (by simp)

end Graph

namespace Traversal

open Relation

/-! ## Single pulls -/

section
variable {g : Graph} {t t' : Traversal} {n : Int64} {stack seen : List Int64}

theorem next_go_congr (h : t.seen = t'.seen) (stack : List Int64) :
    next.go g t stack = next.go g t' stack := by
  induction stack with
  | nil => rfl
  | cons node stack ih => simp only [next.go, h, ih]

@[simp] theorem next_nil : next g ⟨[], seen⟩ = none := rfl

@[simp] theorem next_of_mem (h : n ∈ seen) :
    next g ⟨n :: stack, seen⟩ = next g ⟨stack, seen⟩ := by
  rw [next, next.go, if_pos h, next]
  exact next_go_congr (by rfl) stack

@[simp] theorem next_of_notMem (h : n ∉ seen) :
    next g ⟨n :: stack, seen⟩ =
      some (n, ⟨(g.neighbours n).reverse ++ stack, n :: seen⟩) := by
  rw [next, next.go, if_neg h]

theorem next_eq_none_iff : next g ⟨stack, seen⟩ = none ↔ ∀ a ∈ stack, a ∈ seen := by
  induction stack with
  | nil => simp
  | cons node stack ih =>
    by_cases h : node ∈ seen
    · simp [h, ih]
    · simp [h]

/-- A pull takes the first node that was not seen from the stack, and all before it. -/
theorem next_eq_some (h : next g ⟨stack, seen⟩ = some (n, t')) :
    ∃ passed rest, stack = passed ++ n :: rest ∧ (∀ a ∈ passed, a ∈ seen) ∧ n ∉ seen ∧
      t' = ⟨(g.neighbours n).reverse ++ rest, n :: seen⟩ := by
  induction stack with
  | nil => simp at h
  | cons node stack ih =>
    by_cases hnode : node ∈ seen
    · rw [next_of_mem hnode] at h
      obtain ⟨passed, rest, rfl, hpassed, hn, ht⟩ := ih h
      exact ⟨node :: passed, rest, rfl, List.forall_mem_cons.2 ⟨hnode, hpassed⟩, hn, ht⟩
    · rw [next_of_notMem hnode] at h
      obtain ⟨rfl, rfl⟩ := Prod.mk.inj (Option.some.inj h)
      exact ⟨[], stack, rfl, by simp, hnode, rfl⟩

end

/-! ## Whole traversals -/

/-- Pulled one after another a traversal yields `order`, and then its end. -/
inductive Yields (g : Graph) : Traversal → List Int64 → Prop
  | ended {t} : t.next g = none → Yields g t []
  | node {t t' n order} : t.next g = some (n, t') → Yields g t' order → Yields g t (n :: order)

section
variable {g : Graph} {t : Traversal} {order order' : List Int64}

theorem Yields.unique (h : Yields g t order) (h' : Yields g t order') : order = order' := by
  induction h generalizing order' with
  | ended hnone =>
    cases h' with
    | ended => rfl
    | node hsome => simp [hnone] at hsome
  | node hsome _ ih =>
    cases h' with
    | ended hnone => simp [hsome] at hnone
    | node hsome' hrest =>
      obtain ⟨rfl, rfl⟩ := Prod.mk.inj (Option.some.inj (hsome.symm.trans hsome'))
      exact congrArg _ (ih hrest)

/-- All nodes are taken by so many pulls, and no other ones. -/
theorem Yields.take_eq (h : Yields g t order) {k : Nat} (hk : order.length ≤ k) :
    t.take g k = order := by
  induction h generalizing k with
  | ended hnone =>
    cases k with
    | zero => rfl
    | succ k => simp [take, hnone]
  | node hsome _ ih =>
    cases k with
    | zero => simp at hk
    | succ k => simp [take, hsome, ih (Nat.le_of_succ_le_succ hk)]

/-- Only the next pull counts. -/
theorem Yields.congr {t' : Traversal} (h : t.next g = t'.next g) (hyields : Yields g t order) :
    Yields g t' order := by
  cases hyields with
  | ended hnone => exact .ended (h ▸ hnone)
  | node hsome hrest => exact .node (h ▸ hsome) hrest

/-- The nodes in front on the stack are visited by the recursion. The traversal then goes
on with the rest of the stack, and has seen more. -/
theorem Yields.preorder {visited nodes rest later : List Int64}
    (h : Yields g ⟨rest, (g.preorder visited nodes).reverse ++ visited⟩ later) :
    Yields g ⟨nodes ++ rest, visited⟩ (g.preorder visited nodes ++ later) := by
  fun_induction Graph.preorder g visited nodes generalizing rest later with
  | case1 visited => exact h
  | case2 visited node nodes hnode ih => exact (ih h).congr (next_of_mem hnode).symm
  | case3 visited node nodes hnode =>
    rename_i below ihbelow ihnodes
    have hnodes : Yields g ⟨nodes ++ rest, below.reverse ++ node :: visited⟩
        (g.preorder (below.reverse ++ node :: visited) nodes ++ later) :=
      ihnodes (by simpa using h)
    have hbelow := ihbelow hnodes
    rw [List.cons_append, List.append_assoc]
    exact .node (next_of_notMem hnode) hbelow

theorem yields_preorder (g : Graph) (s : Int64) : Yields g (.start s) (g.preorder [] [s]) := by
  have h : Yields g ⟨[s] ++ [], []⟩ (g.preorder [] [s] ++ []) := .preorder (.ended next_nil)
  rw [List.append_nil, List.append_nil] at h
  exact h

/-! ## What is seen -/

/-- What holds of a traversal from `s` after every pull: what it has seen and what it keeps
can be reached, `s` is among it, and so is all that an edge from a seen node leads to. -/
structure Rooted (g : Graph) (s : Int64) (t : Traversal) : Prop where
  nodup : t.seen.Nodup
  reached : ∀ n ∈ t.seen ++ t.stack, ReflTransGen g.Edge s n
  root : s ∈ t.seen ++ t.stack
  closed : ∀ a ∈ t.seen, ∀ b, g.Edge a b → b ∈ t.seen ++ t.stack

variable {s n : Int64} {t' : Traversal}

theorem rooted_start (g : Graph) (s : Int64) : Rooted g s (.start s) where
  nodup := List.nodup_nil
  reached n hn := by
    obtain rfl : n = s := by simpa [start] using hn
    exact .refl
  root := by simp [start]
  closed a ha := by simp [start] at ha

/-- What the pull passes over is seen, and the successors of the node are put on the stack. -/
theorem Rooted.next (h : Rooted g s t) (hnext : t.next g = some (n, t')) : Rooted g s t' := by
  obtain ⟨stack, seen⟩ := t
  obtain ⟨passed, rest, rfl, hpassed, hn, rfl⟩ := next_eq_some hnext
  have hkept {a : Int64} (ha : a ∈ seen ++ (passed ++ n :: rest)) :
      a ∈ n :: seen ++ ((g.neighbours n).reverse ++ rest) := by
    simp only [List.mem_append, List.mem_cons] at ha ⊢
    rcases ha with ha | ha | rfl | ha
    · exact .inl (.inr ha)
    · exact .inl (.inr (hpassed a ha))
    · exact .inl (.inl rfl)
    · exact .inr (.inr ha)
  have hreach : ReflTransGen g.Edge s n := h.reached n (by simp)
  refine ⟨List.nodup_cons.2 ⟨hn, h.nodup⟩, fun a ha => ?_, hkept h.root, fun a ha b hb => ?_⟩
  · simp only [List.mem_append, List.mem_cons, List.mem_reverse] at ha
    rcases ha with (rfl | ha) | ha | ha
    · exact hreach
    · exact h.reached a (by simp [ha])
    · exact hreach.tail ha
    · exact h.reached a (by simp [ha])
  · rcases List.mem_cons.1 ha with rfl | ha
    · have hmem : b ∈ (g.neighbours a).reverse := List.mem_reverse.2 hb
      simp [hmem]
    · exact hkept (h.closed a ha b hb)

/-- When the stack is of no use any more, what is seen is closed under edges. -/
theorem Rooted.mem_seen_iff (h : Rooted g s t) (hnone : t.next g = none) {n : Int64} :
    n ∈ t.seen ↔ ReflTransGen g.Edge s n := by
  have hstack : ∀ a ∈ t.seen ++ t.stack, a ∈ t.seen := fun a ha =>
    (List.mem_append.1 ha).elim id (next_eq_none_iff.1 hnone a)
  refine ⟨fun hn => h.reached n (List.mem_append_left _ hn), fun hreach => ?_⟩
  induction hreach with
  | refl => exact hstack s h.root
  | tail _ hedge ih => exact hstack _ (h.closed _ ih _ hedge)

theorem Rooted.yields (h : Rooted g s t) (hyields : Yields g t order) :
    (order.reverse ++ t.seen).Nodup ∧
      ∀ n, n ∈ order.reverse ++ t.seen ↔ ReflTransGen g.Edge s n := by
  induction hyields with
  | ended hnone => exact ⟨h.nodup, fun n => h.mem_seen_iff hnone⟩
  | @node t t' n order hnext _ ih =>
    obtain ⟨stack, seen⟩ := t
    obtain ⟨_, _, _, _, _, rfl⟩ := next_eq_some hnext
    simpa using ih (h.next hnext)

theorem reached_of_yields (h : Yields g (.start s) order) :
    order.Nodup ∧ ∀ n, n ∈ order ↔ ReflTransGen g.Edge s n := by
  simpa [start] using (rooted_start g s).yields h

end

end Traversal

/-! ## The closure -/

namespace Graph

open Relation

/-- Apart from the start every node that is reached ends an edge, so all are taken. -/
theorem yields_closure (g : Graph) (s : Int64) :
    (Traversal.start s).Yields g (g.closure s) := by
  have hyields := Traversal.yields_preorder g s
  obtain ⟨hnodup, hreached⟩ := Traversal.reached_of_yields hyields
  have hsub : g.preorder [] [s] ⊆ s :: g.edges.map Prod.snd := fun n hn => by
    rcases ((hreached n).1 hn).cases_tail with rfl | ⟨a, _, hedge⟩
    · exact List.mem_cons_self
    · exact List.mem_cons_of_mem _ (List.mem_map.2 ⟨(a, n), g.mem_edges.2 hedge, rfl⟩)
  have hlength : (g.preorder [] [s]).length ≤ g.edgeCount + 1 := by
    simpa [length_edges] using (hnodup.subperm hsub).length_le
  rw [closure, hyields.take_eq hlength]
  exact hyields

/-- Whatever the graph and the start, the traversal comes to an end. It yields the nodes
that can be reached by no edge or by more, each of them once. -/
theorem closure_reaches (g : Graph) (s : Int64) :
    (Traversal.start s).Yields g (g.closure s) ∧ (g.closure s).Nodup ∧
      ∀ n, n ∈ g.closure s ↔ ReflTransGen g.Edge s n :=
  ⟨yields_closure g s, Traversal.reached_of_yields (yields_closure g s)⟩

/-- The traversal yields the nodes in the order in which the recursion visits them. -/
theorem closure_eq_preorder (g : Graph) (s : Int64) :
    (Traversal.start s).Yields g (g.preorder [] [s]) ∧ g.closure s = g.preorder [] [s] :=
  ⟨Traversal.yields_preorder g s, (yields_closure g s).unique (Traversal.yields_preorder g s)⟩

example : (ofEdges [(1, 2), (1, 3), (3, 2), (2, 1)]).closure 1 = [1, 3, 2] := by decide

end Graph

end HornSearch
