import HornSearch.Proofs.PathSearch
import Mathlib.Tactic.NormNum
import Mathlib.Tactic.Ring

/-!
# Reachability is answered once for each path

Where no cycle is reached, the search for `path(s, T)` makes five draws for every path from `s`
and five more. As long as these are at most 2^64, each node is an answer as often as paths lead
to it, and so the answers are what the closure visits behind `s` (`answers_count_paths`).

Beyond, names begin again, and a variable of a rule may be taken for one that is still in use.
In the graph `crowded` an answer is lost in this way (`answers_lost`).
-/

namespace HornSearch.Graph

open Relation

/-! ## The answers -/

section
variable {g : Graph}

theorem ready_start (g : Graph) (s : Int64) :
    g.Ready (.num s) (.var (.ofName "T")) .empty 0 where
  apart := Frame.apart_start (hosted_pathsFrom s).undrawn
  target v _ := v.term_var _
  free n := ⟨⟨fun _ => .num n, fun _ => Term.vars_num n⟩, Valuation.solves_empty _, rfl⟩

theorem starts_query (s : Int64) : StartsAt s (.num s) (.var (.ofName "T")) .empty :=
  ⟨Bindings.oriented_empty, Bindings.flat_empty, trivial, trivial, fun v _ => v.term_num s⟩

/-- The answers show the ends of the paths. -/
theorem map_materialize {paths : List (List Int64)} {answers : List (Bindings × Nat)}
    (h : List.Forall₂ EndsAt paths answers)
    (hshown : ∀ a ∈ answers, ∃ n, a.1.materialize = some (reached n) ∧
      ∃ v : Valuation, v.Solves a.1 ∧ v.value "T" = .num n) :
    answers.map (fun a => a.1.materialize) = paths.map fun path => path.getLast?.map reached := by
  induction h with
  | nil => rfl
  | cons hends _ ih =>
    obtain ⟨⟨n, hn, v, hv, hvalue⟩, hshown⟩ := List.forall_mem_cons.1 hshown
    obtain ⟨m, hlast, hends⟩ := hends
    obtain rfl : m = n := Term.num.inj ((hends v hv).symm.trans hvalue)
    rw [List.map_cons, List.map_cons, ih hshown, hn, hlast, Option.map_some]

theorem map_reached_eq_some_iff {path : List Int64} {n : Int64} :
    path.getLast?.map reached = some (reached n) ↔ path.getLast? = some n := by
  rw [Option.map_eq_some_iff]
  constructor
  · rintro ⟨m, hlast, hm⟩
    rw [hlast, reached_injective hm]
  · intro hlast
    exact ⟨n, hlast, rfl⟩

/-- Every answer shows one node, which `T` is in a solution. -/
theorem shown_of_finishes {s : Int64} {answers : List (Bindings × Nat)} {d : Nat}
    (h : (Database.ofClauses g.reachabilityProgram).Finishes (pathsFrom s) answers d) :
    ∀ a ∈ answers, ∃ n, a.1.materialize = some (reached n) ∧
      ∃ v : Valuation, v.Solves a.1 ∧ v.value "T" = .num n := by
  obtain ⟨e, last, hrun⟩ := h.run
  intro a ha
  obtain ⟨n, hn, -, hvalue⟩ := materialize_of_run hrun (List.mem_map_of_mem ha)
  exact ⟨n, hn, hvalue⟩

/-- Where no cycle is reached, all but the start are reached by a path. -/
theorem AcyclicFrom.mem_closure_iff {s n : Int64} (h : g.AcyclicFrom s) :
    n ∈ g.closure s ∧ n ≠ s ↔ TransGen g.Edge s n := by
  rw [(Traversal.reached_of_yields (yields_closure g s)).2 n, reflTransGen_iff_eq_or_transGen]
  constructor
  · rintro ⟨rfl | hpath, hne⟩
    · exact absurd rfl hne
    · exact hpath
  · intro hpath
    refine ⟨.inr hpath, ?_⟩
    rintro rfl
    exact h n .refl hpath

end

/-- On whatever graph, every answer to `path(s, T)` says that `T` is a node to which edges lead
from `s`. If no cycle can be reached from `s`, then the search ends, after at most five draws for
every path and five more. If these are at most 2^64, they are all made, and for each node there
are as many answers as there are paths to it; so the answers are the nodes of the closure
without `s`. -/
theorem answers_count_paths (g : Graph) (s : Int64) :
    let db := Database.ofClauses g.reachabilityProgram
    (∀ {answers : List Bindings} {e : Nat} {last : Cursor},
      Run db.clauses db.drawn (db.query (pathsFrom s)) answers e last →
      ∀ b ∈ answers, ∃ n, b.materialize = some (reached n) ∧ TransGen g.Edge s n) ∧
    (g.AcyclicFrom s → ∃ answers d, db.Finishes (pathsFrom s) answers d ∧
      (∀ a ∈ answers, ∃ n, a.1.materialize = some (reached n)) ∧
      (d : ℕ∞) ≤ 5 * ({path | g.IsPath s path}.encard + 1) ∧
      (5 * ({path | g.IsPath s path}.encard + 1) ≤ 2 ^ 64 →
        (d : ℕ∞) = 5 * ({path | g.IsPath s path}.encard + 1) ∧
        (∀ n, ((answers.map fun a => a.1.materialize).count (some (reached n)) : ℕ∞) =
          {path | g.IsPath s path ∧ path.getLast? = some n}.encard) ∧
        ∀ n, (∃ a ∈ answers, a.1.materialize = some (reached n)) ↔ n ∈ g.closure s ∧ n ≠ s)) := by
  intro db
  refine ⟨fun hrun b hb => ?_, fun hacyclic => ?_⟩
  · obtain ⟨n, hn, hpath, -⟩ := materialize_of_run hrun hb
    exact ⟨n, hn, hpath⟩
  obtain ⟨paths, hpaths⟩ := exists_pathsFrom hacyclic
  obtain ⟨answers, d, henum, htraced⟩ := hpaths.follows (d := 0) (starts_query s)
  have hfinishes : db.Finishes (pathsFrom s) answers d := finishes_iff.2 henum
  have hshown := shown_of_finishes hfinishes
  have hbounded : d ≤ 5 * (paths.length + 1) := htraced.bounded.trans_eq (Nat.zero_add _)
  rw [← hpaths.length_eq]
  refine ⟨answers, d, hfinishes, fun a ha => (hshown a ha).imp fun _ => And.left,
    by exact_mod_cast hbounded, fun hroom => ?_⟩
  have hroom : 5 * (paths.length + 1) ≤ 2 ^ 64 := by exact_mod_cast hroom
  obtain ⟨hdraws, hends⟩ := htraced.tight (hbounded.trans hroom) (ready_start g s)
  have hmap := map_materialize hends hshown
  refine ⟨?_, fun n => ?_, fun n => ?_⟩
  · rw [hdraws]
    push_cast
    ring
  · rw [hmap, List.count_eq_countP, List.countP_map]
    have hcount := hpaths.countP_eq fun path => path.getLast?.map reached == some (reached n)
    simp only [beq_iff_eq, map_reached_eq_some_iff] at hcount
    exact hcount
  · calc (∃ a ∈ answers, a.1.materialize = some (reached n))
      _ ↔ some (reached n) ∈ answers.map fun a => a.1.materialize := by simp
      _ ↔ ∃ path ∈ paths, path.getLast? = some n := by
        rw [hmap, List.mem_map]
        exact exists_congr fun path => and_congr_right fun _ => map_reached_eq_some_iff
      _ ↔ TransGen g.Edge s n := by simp [hpaths.mem_iff, ← exists_isPath_iff]
      _ ↔ n ∈ g.closure s ∧ n ≠ s := hacyclic.mem_closure_iff.symm

/-- Two paths lead from 1 to 3, so this answer comes twice. The loop has an answer too, though its
search never ends. -/
theorem answers_count_paths_triangle :
    (let g := ofEdges [(1, 2), (1, 3), (2, 3)]
      let db := Database.ofClauses g.reachabilityProgram
      g.AcyclicFrom 1 ∧
      (∃ answers d, 5 * ({path | g.IsPath 1 path}.encard + 1) ≤ 2 ^ 64 ∧
        db.Finishes (pathsFrom 1) answers d ∧ d = 20 ∧
        (answers.map fun a => a.1.materialize).count (some (reached 3)) = 2 ∧
        ∀ n, (∃ a ∈ answers, a.1.materialize = some (reached n)) ↔ n ∈ g.closure 1 ∧ n ≠ 1) ∧
      (db.replies 100 4 (db.query (pathsFrom 1))).map
          (fun replies => replies.map fun a => a.1.bind Bindings.materialize) =
        some [some (reached 2), some (reached 3), some (reached 3), none]) ∧
    (let g := ofEdges [(1, 1)]
      let db := Database.ofClauses g.reachabilityProgram
      ∃ b e last, Run db.clauses db.drawn (db.query (pathsFrom 1)) [b] e last ∧
        ∃ n, b.materialize = some (reached n) ∧ TransGen g.Edge 1 n) := by
  constructor
  · intro g db
    have hup : ∀ a b, g.Edge a b → a.toInt < b.toInt := by
      have hedges : g.edges.all (fun e => e.1.toInt < e.2.toInt) = true := by decide
      exact fun a b h => of_decide_eq_true (List.all_eq_true.1 hedges (a, b) (g.mem_edges.2 h))
    have hacyclic : g.AcyclicFrom 1 := acyclicFrom_of_rank hup
    have hthree : g.PathsFrom 3 [] := @PathsFrom.intro g 3 (fun _ => []) fun _ hn => nomatch hn
    have htwo : g.PathsFrom 2 [[3]] :=
      @PathsFrom.intro g 2 (fun _ => []) (List.forall_mem_singleton.2 hthree)
    have hpaths : g.PathsFrom 1 [[2], [3], [2, 3]] :=
      @PathsFrom.intro g 1 (fun n => if n = 2 then [[3]] else [])
        (List.forall_mem_cons.2 ⟨htwo, List.forall_mem_singleton.2 hthree⟩)
    have hroom : 5 * ({path | g.IsPath 1 path}.encard + 1) ≤ 2 ^ 64 := by
      rw [← hpaths.length_eq]
      norm_num
    obtain ⟨answers, d, hfinishes, -, -, hcounts⟩ := (answers_count_paths g 1).2 hacyclic
    obtain ⟨hdraws, hcount, hset⟩ := hcounts hroom
    have hd : d = 20 := by
      rw [← hpaths.length_eq] at hdraws
      exact_mod_cast hdraws
    have htwice : (2 : ℕ∞) = {path | g.IsPath 1 path ∧ path.getLast? = some 3}.encard := by
      simpa using hpaths.countP_eq fun path => path.getLast? = some 3
    have hanswers := (hcount 3).trans htwice.symm
    exact ⟨hacyclic, ⟨answers, d, hroom, hfinishes, hd, by exact_mod_cast hanswers, hset⟩,
      by decide +kernel⟩
  · intro g db
    have hpull : ((pull db.clauses 20 db.drawn (db.query (pathsFrom 1))).bind
        (·.answer)).isSome := by decide
    obtain ⟨b, hb⟩ := Option.isSome_iff_exists.1 hpull
    obtain ⟨⟨answer, e, last⟩, hp, hb⟩ := Option.bind_eq_some_iff.1 hb
    cases hb
    have hrun := Run.answer hp .refl
    exact ⟨b, e, last, hrun, (answers_count_paths g 1).1 hrun b List.mem_cons_self⟩

/-! ## A graph with many paths -/

theorem ofNat_inj {i j : Nat} (hi : i < 2 ^ 63) (hj : j < 2 ^ 63)
    (h : Int64.ofNat i = Int64.ofNat j) : i = j := by
  have htoInt := congrArg Int64.toInt h
  rw [Int64.toInt_ofNat_of_lt hi, Int64.toInt_ofNat_of_lt hj] at htoInt
  exact_mod_cast htoInt

theorem nodup_map_ofNat {l : List Nat} (h : l.Nodup) (hl : ∀ i ∈ l, i < 62) :
    (l.map Int64.ofNat).Nodup :=
  h.map_on fun i hi j hj => ofNat_inj ((hl i hi).trans (by decide)) ((hl j hj).trans (by decide))

/-- The places at which 0x3333333333333331 has the digit one in base two. -/
def places : List Nat := (List.range 62).filter (Nat.testBit 0x3333333333333331)

/-- What the nodes from 62 on lead to. -/
def upper : List (Int64 × List Int64) :=
  [(62, places.map Int64.ofNat), (64, [63]), (65, [64]), (66, [62, 65])]

/-- Each node below 62 leads to all that are smaller, and 62 to some of these. From 66 one comes
to 62 first, and by 65 and 64 to 63. -/
def crowded : Graph where
  adjacency :=
    ((List.range 62).map fun i => (Int64.ofNat i, (List.range i).map Int64.ofNat)) ++ upper
  nodup_nodes := by decide +kernel
  nodup_successors e he := by
    rcases List.mem_append.1 he with he | he
    · obtain ⟨i, hi, rfl⟩ := List.mem_map.1 he
      refine nodup_map_ofNat List.nodup_range fun j hj => ?_
      exact (List.mem_range.1 hj).trans (List.mem_range.1 hi)
    · simp only [upper, List.mem_cons, List.not_mem_nil, or_false] at he
      obtain rfl | rfl | rfl | rfl := he
      · refine nodup_map_ofNat (List.nodup_range.filter _) fun j hj => ?_
        exact List.mem_range.1 (List.mem_filter.1 hj).1
      all_goals decide

theorem neighbours_lower {i : Nat} (hi : i < 62) :
    crowded.neighbours (Int64.ofNat i) = (List.range i).map Int64.ofNat :=
  crowded.neighbours_of_mem
    (List.mem_append_left _ (List.mem_map.2 ⟨i, List.mem_range.2 hi, rfl⟩))

theorem neighbours_upper {a : Int64} {successors : List Int64} (h : (a, successors) ∈ upper) :
    crowded.neighbours a = successors :=
  crowded.neighbours_of_mem (List.mem_append_right _ h)

theorem neighbours_62 : crowded.neighbours 62 = places.map Int64.ofNat :=
  neighbours_upper (by simp [upper])

theorem neighbours_65 : crowded.neighbours 65 = [64] := neighbours_upper (by simp [upper])

theorem neighbours_66 : crowded.neighbours 66 = [62, 65] := neighbours_upper (by simp [upper])

theorem crowded_down {a b : Int64} (h : crowded.Edge a b) : -a.toInt < -b.toInt := by
  have hedges : crowded.edges.all (fun e => -e.1.toInt < -e.2.toInt) = true := by decide +kernel
  exact of_decide_eq_true (List.all_eq_true.1 hedges (a, b) (crowded.mem_edges.2 h))

theorem acyclicFrom_crowded (s : Int64) : crowded.AcyclicFrom s :=
  acyclicFrom_of_rank fun _ _ => crowded_down

theorem isPath_crowded : crowded.IsPath 66 [65, 64, 63] := by
  have h64 : crowded.neighbours 64 = [63] := neighbours_upper (by simp [upper])
  refine ⟨List.cons_ne_nil _ _, ?_⟩
  simp [Edge, neighbours_66, neighbours_65, h64]

/-- The edge to 65 is the last of all. -/
theorem edges_crowded : ∃ front, crowded.edges = front ++ [(66, 65)] ∧
    front.filter (fun e => e.1 = 66) = [(66, 62)] := by
  refine ⟨crowded.edges.dropLast, ?_, ?_⟩
  · decide +kernel
  · decide +kernel

theorem sum_two_pow (n : Nat) : ((List.range n).map (2 ^ ·)).sum + 1 = 2 ^ n := by
  induction n with
  | zero => rfl
  | succ n ih =>
    rw [List.range_succ, List.map_append, List.sum_append, List.map_singleton,
      List.sum_singleton, pow_succ]
    omega

theorem length_paths_onto {a : Int64} {below : List Nat} {paths : List (List Int64)}
    (hnext : crowded.neighbours a = below.map Int64.ofNat)
    (hbelow : ∀ j ∈ below, ∀ {paths}, crowded.PathsFrom (Int64.ofNat j) paths →
      paths.length + 1 = 2 ^ j)
    (h : crowded.PathsFrom a paths) : paths.length = (below.map (2 ^ ·)).sum := by
  cases h with
  | @intro _ pathsBelow h =>
    rw [length_paths]
    rw [hnext] at h ⊢
    rw [List.map_map]
    exact congrArg List.sum (List.map_congr_left fun j hj =>
      hbelow j hj (h _ (List.mem_map_of_mem hj)))

/-- A path from `i` goes through some of the smaller nodes, whichever these are. -/
theorem length_paths_lower {i : Nat} (hi : i < 62) {paths : List (List Int64)}
    (h : crowded.PathsFrom (Int64.ofNat i) paths) : paths.length + 1 = 2 ^ i := by
  induction i using Nat.strong_induction_on generalizing paths with
  | _ i ih =>
    rw [length_paths_onto (neighbours_lower hi) (fun j hj _ hpaths => ?_) h, sum_two_pow]
    have hlt := List.mem_range.1 hj
    exact ih j hlt (hlt.trans hi) hpaths

/-- The search from 62 starts after five draws. When it has ended, one number is left. -/
theorem draws_62 {paths : List (List Int64)} (h : crowded.PathsFrom 62 paths) :
    5 + 5 * (paths.length + 1) = 2 ^ 64 - 1 := by
  rw [length_paths_onto neighbours_62 (fun j hj _ hpaths => ?_) h]
  · decide
  · exact length_paths_lower (List.mem_range.1 (List.mem_filter.1 hj).1) hpaths

/-! ## Names that begin again -/

/-- In no solution of the answer `T` is the node. -/
def Avoids (n : Int64) (answer : Bindings × Nat) : Prop :=
  ∀ v : Valuation, v.Solves answer.1 → v.value "T" ≠ .num n

theorem avoids_of_ends {paths : List (List Int64)} {answers : List (Bindings × Nat)} {n : Int64}
    (h : List.Forall₂ EndsAt paths answers) (hpaths : ∀ path ∈ paths, path.getLast? ≠ some n) :
    ∀ a ∈ answers, Avoids n a := by
  induction h with
  | nil => simp
  | cons hends _ ih =>
    obtain ⟨hlast, hpaths⟩ := List.forall_mem_cons.1 hpaths
    refine List.forall_mem_cons.2 ⟨?_, ih hpaths⟩
    obtain ⟨m, hm, hvalue⟩ := hends
    intro v hv hn
    obtain rfl := Term.num.inj ((hvalue v hv).symm.trans hn)
    exact hlast hm

section
variable {b : Bindings}

/-- The search goes on from 65 when the counter stands at its last number. The first rule is still
given a new name. The copy of the second one is named by `_G1`, `_G2` and `_G3`, so its head makes
`T` the node that `_G2` has been from the start, and its first goal asks for an edge to there. -/
theorem enumerates_from65 (ho : b.Oriented) (hb : b.Flat)
    (hvalues : ∀ v : Valuation, v.Solves b → v.value (Var.fresh 2).name = .num 66 ∧
      v.value "T" = v.value (Var.fresh 3).name ∧ v.value (Var.fresh 4).name = .num 65) :
    ∃ answers d, Enumerates crowded.reachabilityProgram crowded.reachabilityProgram
      [⟨"path", [.var (.fresh 4), .var (.fresh 3)]⟩] b (2 ^ 64 - 1) answers (some d) ∧
      ∀ a ∈ answers, Avoids 63 a := by
  have hstarts : StartsAt 65 (.var (.fresh 4)) (.var (.fresh 3)) b :=
    ⟨ho, hb, trivial, trivial, fun v hv => (hvalues v hv).2.2⟩
  have hnext {n : Int64} (hn : crowded.Edge 65 n) : n = 64 := by
    rw [Edge, neighbours_65] at hn
    exact List.mem_singleton.1 hn
  obtain ⟨first, d, hle, hbounded, hfirst, htried⟩ := exists_tried_rule (g := crowded)
    hstarts (fun _ => 0) (fun _ => []) pathOfEdge_mem ⟨rfl, rfl⟩
    (instantiate_pathOfEdge (2 ^ 64 - 1)) fun n _ b' d' _ _ _ =>
      ⟨[(b', d')], d', .answer, Nat.le_refl d', fun _ h => h.elim⟩
  obtain rfl : d = 2 ^ 64 + 1 := by
    simp only [neighbours_65, List.map_cons, List.map_nil, List.sum_cons, List.sum_nil] at hbounded
    omega
  obtain ⟨paths, hpaths⟩ := exists_pathsFrom (acyclicFrom_crowded 64)
  obtain ⟨second, d', -, -, hsecond, htried'⟩ := exists_tried_rule
    hstarts (fun _ => 5 * (paths.length + 1)) (fun _ => paths) pathThroughEdge_mem ⟨rfl, rfl⟩
    (instantiate_pathThroughEdge (2 ^ 64 + 1))
    fun n hn b' d' ho' hb' hv => by
      obtain rfl := hnext hn
      have hbehind : StartsAt 64 (.var (.fresh (2 ^ 64 + 3))) (.var (.fresh (2 ^ 64 + 2))) b' :=
        ⟨ho', hb', trivial, trivial, hv⟩
      exact (hpaths.follows hbehind).imp (fun _ h => h.elim) fun _ => id
  refine ⟨first ++ (second ++ []), d', skip_facts (htried (htried' .exhausted)), ?_⟩
  rw [List.append_nil]
  refine List.forall_mem_append.2 ⟨fun a ha v hv hT => ?_, fun a ha v hv => ?_⟩
  · obtain ⟨hv, hlast, n, hedge, hn⟩ := hfirst a ha v hv
    obtain rfl := hnext hedge
    have h63 := hT.symm.trans ((hvalues v hv).2.1.trans (hlast.trans hn))
    exact absurd (Term.num.inj h63) (by decide)
  · obtain ⟨hv, hlast, n, hedge, hn⟩ := hsecond a ha v hv
    obtain rfl := hnext hedge
    have hagain : v.value (Var.fresh 3).name = v.value (Var.fresh 2).name := hlast
    have h66 := hn.symm.trans (hagain.trans (hvalues v hv).1)
    exact absurd (Term.num.inj h66) (by decide)

variable (hnarrows : crowded.Narrows
  (fun v => v.compound ⟨"path", [.num 66, .var (.ofName "T")]⟩ =
    v.compound ⟨"path", [.var (.fresh 2), .var (.fresh 3)]⟩)
  [⟨"path", [.num 66, .var (.ofName "T")]⟩] .empty 2
  [⟨"edge", [.var (.fresh 2), .var (.fresh 4)]⟩, ⟨"path", [.var (.fresh 4), .var (.fresh 3)]⟩] b 5)
include hnarrows

/-- Before the edge to 65 the search follows the paths from 62, which takes all numbers but one. -/
theorem exists_tried_front {front : List (Int64 × Int64)} (hsub : front ⊆ crowded.edges)
    (hfilter : front.filter (fun e => e.1 = 66) = [(66, 62)]) :
    ∃ answers, (∀ a ∈ answers, Avoids 63 a) ∧
      ∀ {pending more ending}, Enumerates crowded.reachabilityProgram pending
        [⟨"edge", [.var (.fresh 2), .var (.fresh 4)]⟩,
          ⟨"path", [.var (.fresh 4), .var (.fresh 3)]⟩] b (2 ^ 64 - 1) more ending →
        Enumerates crowded.reachabilityProgram (front.map edgeFact ++ pending)
          [⟨"edge", [.var (.fresh 2), .var (.fresh 4)]⟩,
            ⟨"path", [.var (.fresh 4), .var (.fresh 3)]⟩] b 5 (answers ++ more) ending := by
  have hstarts := starts_query 66
  have hready := (ready_start crowded 66).mono (Nat.zero_le 2)
  obtain ⟨paths, hpaths⟩ := exists_pathsFrom (acyclicFrom_crowded 66)
  cases hpaths with
  | @intro _ below hbelow =>
    have htries := tries_edges (hstarts.behind hnarrows) (Nat.le_refl 5) hsub
      (fun hd (_ : True) n => by
        obtain ⟨s, hs, -, heq, hn⟩ := hready.extend (n := n) (m := n) hstarts pathThroughEdge_mem
          (instantiate_pathThroughEdge 2) hd rfl ⟨_, rfl⟩
        exact ⟨s, (hnarrows.solves s).2 ⟨hs, heq⟩, hn⟩)
      fun n hn b' d' hb' => follows_behind hstarts (fun _ => hready)
        (instantiate_pathThroughEdge 2) hb'.drawn (hnarrows.trans hb') (hbelow n hn).follows
    rw [hfilter, List.flatMap_singleton, List.map_singleton, List.sum_singleton] at htries
    obtain ⟨answers, d, -, htraced, htried⟩ := htries
    have h62 : crowded.PathsFrom 62 (below 62) := hbelow 62 (by simp [neighbours_66])
    have hdraws : 5 + 5 * ((below 62).length + 1) = 2 ^ 64 - 1 := draws_62 h62
    have hbounded := htraced.bounded.trans_eq hdraws
    obtain ⟨hd, hends⟩ := htraced.tight (hbounded.trans (by decide)) trivial
    obtain rfl : d = 2 ^ 64 - 1 := hd.trans hdraws
    refine ⟨answers, avoids_of_ends hends fun path hpath hlast => ?_, htried⟩
    obtain ⟨onward, honward, rfl⟩ := List.mem_map.1 hpath
    have hpath : crowded.IsPath 62 onward := h62.mem_iff.1 honward
    rw [List.getLast?_cons_of_ne_nil hpath.1] at hlast
    have hlt := rank_lt_of_transGen (fun _ _ => crowded_down)
      (exists_isPath_iff.1 ⟨onward, hpath, hlast⟩)
    exact absurd hlt (by decide)

/-- The second rule takes the edge to 62, and then that to 65. -/
theorem enumerates_edges : ∃ answers d,
    Enumerates crowded.reachabilityProgram crowded.reachabilityProgram
      [⟨"edge", [.var (.fresh 2), .var (.fresh 4)]⟩, ⟨"path", [.var (.fresh 4), .var (.fresh 3)]⟩]
      b 5 answers (some d) ∧ ∀ a ∈ answers, Avoids 63 a := by
  have hsource : StartsAt 66 (.var (.fresh 2)) (.var (.fresh 4)) b :=
    (starts_query 66).behind hnarrows
  obtain ⟨front, hfront, hfilter⟩ := edges_crowded
  obtain ⟨by62, h62, htried⟩ := exists_tried_front hnarrows (by simp [hfront]) hfilter
  obtain ⟨by65, d, -, h65, htried'⟩ := exists_tried_narrows (g := crowded) (k := 0)
    (d := 2 ^ 64 - 1)
    (Q := fun answers _ => ∀ a ∈ answers, Avoids 63 a)
    [⟨"path", [.var (.fresh 4), .var (.fresh 3)]⟩] hsource.oriented hsource.flat
    (hsource.goal "edge") (edgeFact_mem (e := (66, 65)) (by simp [hfront])) ⟨rfl, rfl⟩ rfl
    (fun _ => by simp) fun b' hb' => by
      refine enumerates_from65 hb'.oriented hb'.flat fun v hv => ?_
      obtain ⟨hv, hedge⟩ := (hb'.solves v).1 hv
      obtain ⟨hfrom, hto⟩ := compound_eq_iff.1 hedge
      obtain ⟨-, hpath⟩ := (hnarrows.solves v).1 hv
      exact ⟨hfrom, (compound_eq_iff.1 hpath).2, hto⟩
  have hprogram : crowded.reachabilityProgram = front.map edgeFact ++
      (edgeFact (66, 65) :: ([.rule pathOfEdge, .rule pathThroughEdge] ++ [])) := by
    rw [reachabilityProgram_eq, hfront, List.map_append, List.append_assoc]
    rfl
  have henum := htried (htried' (skip_rules .exhausted))
  rw [← hprogram, List.append_nil] at henum
  exact ⟨by62 ++ by65, d, henum, List.forall_mem_append.2 ⟨h62, h65⟩⟩

end

theorem enumerates_from66 : ∃ answers d,
    Enumerates crowded.reachabilityProgram crowded.reachabilityProgram (pathsFrom 66) .empty 0
      answers (some d) ∧ ∀ a ∈ answers, Avoids 63 a := by
  have hstarts := starts_query 66
  obtain ⟨first, d, -, htraced, htried⟩ := tries_pathOfEdge (g := crowded) hstarts id
  obtain ⟨rfl, hends⟩ := htraced.tight (htraced.bounded.trans (by decide)) (ready_start crowded 66)
  have hfirst : ∀ a ∈ first, Avoids 63 a := avoids_of_ends hends (by rw [neighbours_66]; decide)
  obtain ⟨second, d, -, hsecond, htried'⟩ := exists_tried_narrows
    (Q := fun answers _ => ∀ a ∈ answers, Avoids 63 a) [] hstarts.oriented hstarts.flat
    (hstarts.goal "path") (pathThroughEdge_mem (g := crowded)) ⟨rfl, rfl⟩
    (instantiate_pathThroughEdge 2) (fun _ => by simp) fun b hb => enumerates_edges hb
  refine ⟨first ++ (second ++ []), d, skip_facts (htried (htried' .exhausted)), ?_⟩
  rw [List.append_nil]
  exact List.forall_mem_append.2 ⟨hfirst, hsecond⟩

/-- Beyond 2^64 draws answers are lost: a path leads from 66 to 63, and the search ends without
this answer. -/
theorem answers_lost :
    let db := Database.ofClauses crowded.reachabilityProgram
    crowded.AcyclicFrom 66 ∧ ∃ answers d, db.Finishes (pathsFrom 66) answers d ∧
      ((answers.map fun a => a.1.materialize).count (some (reached 63)) : ℕ∞) ≠
        {path | crowded.IsPath 66 path ∧ path.getLast? = some 63}.encard ∧
      (63 ∈ crowded.closure 66 ∧ (63 : Int64) ≠ 66) ∧
      ∀ a ∈ answers, a.1.materialize ≠ some (reached 63) := by
  intro db
  have hacyclic := acyclicFrom_crowded 66
  obtain ⟨answers, d, henum, havoids⟩ := enumerates_from66
  have hfinishes : db.Finishes (pathsFrom 66) answers d := finishes_iff.2 henum
  have hlost : ∀ a ∈ answers, a.1.materialize ≠ some (reached 63) := by
    intro a ha h
    obtain ⟨n, hn, v, hv, hvalue⟩ := shown_of_finishes hfinishes a ha
    obtain rfl : n = 63 := reached_injective (Option.some.inj (hn.symm.trans h))
    exact havoids a ha v hv hvalue
  refine ⟨hacyclic, answers, d, hfinishes, ?_, ?_, hlost⟩
  · have hpaths : {path | crowded.IsPath 66 path ∧ path.getLast? = some 63}.encard ≠ 0 :=
      Set.encard_ne_zero.2 ⟨[65, 64, 63], isPath_crowded, rfl⟩
    rw [List.count_eq_zero_of_not_mem (by simpa using hlost)]
    exact hpaths.symm
  · exact hacyclic.mem_closure_iff.2 (exists_isPath_iff.1 ⟨_, isPath_crowded, rfl⟩)

end HornSearch.Graph
