import HornSearch.Graph.Reachability
import HornSearch.Proofs.DepthFirst
import HornSearch.Proofs.QueryAliases
import HornSearch.Proofs.Termination

/-!
# What the program of a graph answers

The program of a graph derives `path(a, n)` only if edges lead from `a` to `n`
(`derived_of_holds`). So on whatever graph an answer to `path(s, T)` makes `T` a node that can
be reached from `s`, and shows nothing else (`materialize_of_run`).
-/

namespace HornSearch

/-- Variables are bound to smaller ones, and no other value mentions a variable. -/
theorem Bindings.Flat.acyclic {b : Bindings} (hb : b.Flat) (ho : b.Oriented) : b.Acyclic := by
  refine acyclic_of_lt fun x t h y hy => ?_
  have hflat := hb x t h
  cases t with
  | num n => simp at hy
  | atom a => simp at hy
  | var z =>
    obtain rfl : y = z := by simpa using hy
    exact ho x y h
  | app f ts => exact absurd hflat id

namespace Graph

open Relation

/-! ## The program -/

section
variable {g : Graph}

def edgeFact (e : Int64 × Int64) : Clause := .fact ⟨"edge", [.num e.1, .num e.2]⟩

theorem reachabilityProgram_eq (g : Graph) : g.reachabilityProgram =
    g.edges.map edgeFact ++ [.rule pathOfEdge, .rule pathThroughEdge] :=
  rfl

theorem mem_reachabilityProgram {c : Clause} : c ∈ g.reachabilityProgram ↔
    (∃ a b, g.Edge a b ∧ c = .fact ⟨"edge", [.num a, .num b]⟩) ∨
      c = .rule pathOfEdge ∨ c = .rule pathThroughEdge := by
  rw [reachabilityProgram_eq, List.mem_append, List.mem_map]
  refine or_congr ⟨?_, ?_⟩ (by simp)
  · rintro ⟨⟨a, b⟩, he, rfl⟩
    exact ⟨a, b, g.mem_edges.1 he, rfl⟩
  · rintro ⟨a, b, he, rfl⟩
    exact ⟨(a, b), g.mem_edges.2 he, rfl⟩

theorem pathOfEdge_mem : .rule pathOfEdge ∈ g.reachabilityProgram :=
  mem_reachabilityProgram.2 (.inr (.inl rfl))

theorem pathThroughEdge_mem : .rule pathThroughEdge ∈ g.reachabilityProgram :=
  mem_reachabilityProgram.2 (.inr (.inr rfl))

theorem flat_reachabilityProgram : ∀ c ∈ g.reachabilityProgram, c.Flat := by
  intro c hc
  obtain ⟨a, b, -, rfl⟩ | rfl | rfl := mem_reachabilityProgram.1 hc
  all_goals
    simp [Clause.Flat, Clause.head, Clause.body, Compound.Flat, Term.Flat, pathOfEdge,
      pathThroughEdge]

theorem closed_reachabilityProgram : ∀ c ∈ g.reachabilityProgram, c.Closed := by
  intro c hc
  obtain ⟨a, b, -, rfl⟩ | rfl | rfl := mem_reachabilityProgram.1 hc
  · rfl
  · trivial
  · trivial

/-! ## What the program derives -/

/-- An edge of the graph, or a path along its edges. -/
def Derived (g : Graph) (c : Compound) : Prop :=
  (∃ a b, g.Edge a b ∧ c = ⟨"edge", [.num a, .num b]⟩) ∨
    ∃ a b, TransGen g.Edge a b ∧ c = ⟨"path", [.num a, .num b]⟩

theorem derived_edge_iff {x y : Term} : g.Derived ⟨"edge", [x, y]⟩ ↔
    ∃ a b, g.Edge a b ∧ x = .num a ∧ y = .num b := by
  simp [Derived]

theorem derived_path_iff {x y : Term} : g.Derived ⟨"path", [x, y]⟩ ↔
    ∃ a b, TransGen g.Edge a b ∧ x = .num a ∧ y = .num b := by
  simp [Derived]

theorem derived_of_holds {c : Compound} (h : Holds g.reachabilityProgram c) : g.Derived c := by
  induction h with
  | @intro c hc v _ ih =>
    obtain ⟨a, b, he, rfl⟩ | rfl | rfl := mem_reachabilityProgram.1 hc
    · exact derived_edge_iff.2 ⟨a, b, he, v.term_num a, v.term_num b⟩
    · obtain ⟨hedge, -⟩ := List.forall_mem_cons.1 ih
      obtain ⟨a, b, he, ha, hb⟩ := derived_edge_iff.1 hedge
      exact derived_path_iff.2 ⟨a, b, .single he, ha, hb⟩
    · obtain ⟨hedge, hrest⟩ := List.forall_mem_cons.1 ih
      obtain ⟨hpath, -⟩ := List.forall_mem_cons.1 hrest
      obtain ⟨a, b, he, ha, hb⟩ := derived_edge_iff.1 hedge
      obtain ⟨b', c, hreach, hb', hc⟩ := derived_path_iff.1 hpath
      obtain rfl : b = b' := Term.num.inj (hb.symm.trans hb')
      exact derived_path_iff.2 ⟨a, c, .head he hreach, ha, hc⟩

/-! ## Answers -/

def pathsFrom (s : Int64) : List Compound := [⟨"path", [.num s, .var (.ofName "T")]⟩]

def reached (n : Int64) : Bindings := .ofList [(.ofName "T", .num n)]

theorem binding?_reached (n : Int64) (x : String) :
    (reached n).binding? x = if "T" = x then some ⟨false, .num n⟩ else none := by
  simp [reached, Bindings.ofList, Var.ofName]

theorem reached_injective {m n : Int64} (h : reached m = reached n) : m = n := by
  have hT := congrArg (·.binding? "T") h
  simpa [binding?_reached] using hT

theorem vars_pathsFrom {s : Int64} : ∀ g ∈ pathsFrom s, ∀ x ∈ g.vars, x = .ofName "T" := by
  simp [pathsFrom, Compound.vars, Term.varsAll, Term.vars]

theorem hosted_pathsFrom (s : Int64) : Hosted (pathsFrom s) := by
  intro g hg x hx
  rw [vars_pathsFrom g hg x hx]
  exact ⟨rfl, by decide⟩

/-- The query has one variable, so an answer that makes it a number shows this alone. -/
theorem materialize_eq_reached {s n : Int64} {b : Bindings}
    (h : HostAnswer (pathsFrom s) b) (hdeep : b.deep (.var (.ofName "T")) = .num n) :
    b.materialize = some (reached n) := by
  refine h.materialize_of_ground rfl (List.pairwise_singleton _ _) ?_
  exact List.forall_mem_singleton.2 ⟨Term.vars_num n, hdeep⟩

/-- On every graph, an answer binds `T` to a node that edges lead to. -/
theorem materialize_of_run {s : Int64} {d e : Nat} {answers : List Bindings} {last : Cursor}
    (hrun : Run g.reachabilityProgram d (.start g.reachabilityProgram (pathsFrom s)) answers e last)
    {b : Bindings} (hb : b ∈ answers) :
    ∃ n, b.materialize = some (reached n) ∧ TransGen g.Edge s n ∧
      ∃ v : Valuation, v.Solves b ∧ v.value "T" = .num n := by
  have hgoals : ∀ goal ∈ pathsFrom s, goal.Flat := by
    simp [pathsFrom, Compound.Flat, Term.Flat]
  obtain ⟨ho, hflat⟩ := flat_of_run flat_reachabilityProgram hgoals hrun b hb
  have ha := hflat.acyclic ho
  have hsound := sound_run hrun (List.forall_mem_singleton.2 Frame.sound_start) b hb
  have hreach {v : Valuation} (hv : v.Solves b) :
      ∃ n, TransGen g.Edge s n ∧ v.value "T" = .num n := by
    have hholds := hsound.promise v hv (by simp) _ List.mem_cons_self
    obtain ⟨a, n, hpath, hs, hn⟩ := derived_path_iff.1 (derived_of_holds hholds)
    cases hs
    exact ⟨n, hpath, hn⟩
  -- The solution that tells all free variables apart sees what `T` stands for.
  have hatoms := Valuation.atoms.solves_through ha
  obtain ⟨n, hpath, hn⟩ := hreach hatoms
  have hdeep : b.deep (.var (.ofName "T")) = .num n := by
    have hn : Valuation.atoms.term (b.deep (.var (.ofName "T"))) = .num n := hn
    cases h : b.deep (.var (.ofName "T")) <;> simp_all [Valuation.atoms]
  have hanswer := hostAnswer_of_run closed_reachabilityProgram (hosted_pathsFrom s) hrun hb ha
  exact ⟨n, materialize_eq_reached hanswer hdeep, hpath, _, hatoms, hn⟩

end

end Graph

end HornSearch
