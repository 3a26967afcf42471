import HornSearch.Proofs.Stepping

/-!
# Bindings are only added to

Unification in oriented bindings gives oriented bindings again and leaves every
binding that was there in place (`unify_extends`). What it binds was unbound:
wherever it comes to a variable at a root (`Call`), that variable has no value,
so no name is bound twice and binding it meets no conflict (`ready_of_call`).

A search starts with no bindings. So the bindings of all its choice points are
oriented, those of a choice point extend those of every choice point below it,
and following a variable comes to an end under each of them
(`reachable_extending`).
-/

namespace HornSearch

namespace Bindings

/-- Every binding of `b` is one of `c`, with the same flag and value. -/
def Extends (c b : Bindings) : Prop :=
  ∀ name e, b.binding? name = some e → c.binding? name = some e

theorem Extends.refl (b : Bindings) : b.Extends b := fun _ _ h => h

theorem Extends.trans {a b c : Bindings} (h : c.Extends b) (h' : b.Extends a) : c.Extends a :=
  fun name e he => h name e (h' name e he)

theorem Extends.get? {c b : Bindings} (h : c.Extends b) {x : String} {t : Term}
    (hx : b.get? x = some t) : c.get? x = some t := by
  obtain ⟨e, he, rfl⟩ := get?_eq_some_iff.1 hx
  exact get?_eq_some_iff.2 ⟨e, h x e he, rfl⟩

/-- What leads to a term that is no variable still does under more bindings. -/
theorem Extends.resolve_rigid {c b : Bindings} (h : c.Extends b) (hb : b.Oriented)
    (hc : c.Oriented) {s t : Term} (hs : b.resolve s = some t) (ht : t.Rigid) :
    c.resolve s = some t := by
  rw [resolve_eq_some_iff hb] at hs
  rw [resolve_eq_some_iff hc]
  induction hs with
  | stop _ => exact .stop (follow?_of_rigid ht)
  | follow hf _ ih =>
    obtain ⟨x, rfl, hx⟩ := eq_var_of_follow? hf
    exact .follow (hc.follow?_var x ▸ h.get? hx) (ih ht)

theorem Binds.extends {b : Bindings} {x : Var} {t : Term} (h : b.Binds x t) :
    (b.put x t).Extends b := by
  intro name e he
  have hunbound : b.binding? x.name = none := Option.map_eq_none_iff.1 h.unbound
  rw [binding?_put, if_neg (by rintro rfl; simp [hunbound] at he), he]

/-- A variable on either side is unbound, and binding it meets no conflict. -/
def Ready (b : Bindings) (s t : Term) : Prop :=
  ∀ x, s = .var x ∨ t = .var x → b.get? x.name = none ∧ ∀ u, b.bind x u = .ok (b.put x u)

end Bindings

/-! ## Unification -/

section
variable (c : Bindings) (s' t' : Term)

mutual
/-- Unifying two terms in some bindings comes to the roots `s'` and `t'` in the
bindings `c`. -/
inductive Call : Nat → Bindings → Term → Term → Prop where
  | here {n : Nat} {s t : Term} (hs : c.resolve s = some s') (ht : c.resolve t = some t') :
      Call (n + 1) c s t
  | args {n : Nat} {b : Bindings} {s t : Term} {f : String} {ss ts : List Term}
      (hs : b.resolve s = some (.app f ss)) (ht : b.resolve t = some (.app f ts))
      (hlen : ss.length = ts.length) (h : CallAmong n b ss ts) : Call (n + 1) b s t

/-- Unifying terms pairwise comes to these roots: in the first pair, or behind it
if it unifies. -/
inductive CallAmong : Nat → Bindings → List Term → List Term → Prop where
  | first {n : Nat} {b : Bindings} {s t : Term} {ss ts : List Term} (h : Call n b s t) :
      CallAmong n b (s :: ss) (t :: ts)
  | later {n : Nat} {b b' : Bindings} {s t : Term} {ss ts : List Term}
      (hst : unify n b s t = some (.ok b')) (h : CallAmong n b' ss ts) :
      CallAmong n b (s :: ss) (t :: ts)
end

end

/-- Resolved variables of oriented bindings are unbound. -/
theorem ready_of_resolve {b : Bindings} (ho : b.Oriented) {s t s' t' : Term}
    (hs : b.resolve s = some s') (ht : b.resolve t = some t') : b.Ready s' t' := by
  rintro x hx
  have hunbound : b.get? x.name = none := by
    rw [← ho.follow?_var]
    rcases hx with rfl | rfl
    · exact Bindings.resolve_free hs
    · exact Bindings.resolve_free ht
  exact ⟨hunbound, fun u => by simp [Bindings.bind, hunbound]⟩

theorem ready_of_callAmong {c : Bindings} {s' t' : Term} {n : Nat}
    (hcall : ∀ {b s t}, b.Oriented → Call c s' t' n b s t → c.Ready s' t') {b : Bindings}
    {ss ts : List Term} (ho : b.Oriented) (h : CallAmong c s' t' n b ss ts) : c.Ready s' t' := by
  induction ss generalizing b ts with
  | nil => cases h
  | cons s ss ih =>
    cases h with
    | first h => exact hcall ho h
    | later hst h => exact ih (unify_oriented ho hst) h

theorem ready_of_call {c : Bindings} {s' t' : Term} {n : Nat} {b : Bindings} {s t : Term}
    (ho : b.Oriented) (h : Call c s' t' n b s t) : c.Ready s' t' := by
  induction n generalizing b s t with
  | zero => cases h
  | succ n ih =>
    cases h with
    | here hs ht => exact ready_of_resolve ho hs ht
    | args _ _ _ h => exact ready_of_callAmong (fun ho h => ih ho h) ho h

/-- Bindings that are a result extend `b`. -/
def ExtendsResult (b : Bindings) : Except Clash Bindings → Prop
  | .ok b' => b'.Extends b
  | .error _ => True

theorem extendsRules :
    UnifyRules (fun b _ _ r => ExtendsResult b r) (fun b _ _ r => ExtendsResult b r) where
  same _ _ _ _ := Bindings.Extends.refl _
  left _ _ _ hb := hb.extends
  right _ _ _ hb := hb.extends
  constant _ _ _ := Bindings.Extends.refl _
  args _ _ _ hQ := hQ
  clash _ _ _ _ := trivial
  nil := Bindings.Extends.refl _
  cons hP hQ := by
    rename_i r
    cases r with
    | ok b'' => exact Bindings.Extends.trans hQ hP
    | error _ => trivial
  stop _ := trivial

theorem unify_extends {n : Nat} {b b' : Bindings} {s t : Term} (ho : b.Oriented)
    (h : unify n b s t = some (.ok b')) : b'.Extends b :=
  extendsRules.unify ho h

theorem unifyCompound_extends {n : Nat} {b b' : Bindings} {c d : Compound} (ho : b.Oriented)
    (h : unifyCompound n b c d = some (.ok b')) : b'.Extends b := by
  obtain ⟨hsig, h⟩ | ⟨_, h⟩ := unifyCompound_cases h
  · exact extendsRules.pairs ho hsig.2 h
  · cases h

/-! ## Searches -/

/-- A state that a search for the goals comes to: the draws made by then, by the
search or by others, and the choice points. -/
inductive Reachable (clauses : List Clause) (goals : List Compound) : Nat → List Frame → Prop where
  | start {d : Nat} : Reachable clauses goals d (Cursor.start clauses goals).stack
  | others {d d' : Nat} {stack : List Frame} (h : d ≤ d') (hs : Reachable clauses goals d stack) :
      Reachable clauses goals d' stack
  | moved {n d d' : Nat} {stack stack' : List Frame} (hs : Reachable clauses goals d stack)
      (h : step clauses n d stack = some (.moved d' stack')) : Reachable clauses goals d' stack'
  | answer {n d : Nat} {b : Bindings} {stack stack' : List Frame}
      (hs : Reachable clauses goals d stack)
      (h : step clauses n d stack = some (.answer b stack')) : Reachable clauses goals d stack'

section
variable {clauses : List Clause} {goals : List Compound}

theorem reachable_of_pull {n d : Nat} {cursor : Cursor} {p : Pulled}
    (hs : Reachable clauses goals d cursor.stack) (h : pull clauses n d cursor = some p) :
    Reachable clauses goals p.drawn p.cursor.stack := by
  obtain ⟨_, hnil, hI⟩ | ⟨b, pending, _, hI⟩ := pull_keeps (I := Reachable clauses goals)
    (fun hI hm => hI.moved (step_eq_some_iff.2 hm)) hs h
  · rwa [hnil]
  · exact hI.answer (n := 0) (step_eq_some_iff.2 .answer)

/-- Between pulls, a search is in a state that it comes to by steps. -/
theorem reachable_of_run {d e : Nat} {cursor last : Cursor} {answers : List Bindings}
    (hrun : Run clauses d cursor answers e last) (hs : Reachable clauses goals d cursor.stack) :
    Reachable clauses goals e last.stack := by
  induction hrun with
  | refl => exact hs
  | others h _ ih => exact ih (hs.others h)
  | answer h _ ih => exact ih (reachable_of_pull hs h)

/-- The choice points have oriented bindings, each those of all choice points
below it and perhaps more. -/
structure Extending (stack : List Frame) : Prop where
  oriented : ∀ f ∈ stack, f.bindings.Oriented
  above : stack.Pairwise fun f g => f.bindings.Extends g.bindings

theorem Extending.tail {f : Frame} {stack : List Frame} (h : Extending (f :: stack)) :
    Extending stack :=
  ⟨fun g hg => h.oriented g (List.mem_cons_of_mem _ hg), (List.pairwise_cons.1 h.above).2⟩

/-- A choice point that stays keeps its bindings. -/
theorem Extending.retry {goal : Compound} {rest : List Compound} {b : Bindings} {c : Clause}
    {pending : List Clause} {stack : List Frame}
    (h : Extending (⟨goal :: rest, b, c :: pending⟩ :: stack)) :
    Extending (retry goal rest b pending stack) ∧
      ∀ f ∈ HornSearch.retry goal rest b pending stack, b.Extends f.bindings := by
  have hbelow := (List.pairwise_cons.1 h.above).1
  constructor
  · unfold HornSearch.retry
    split
    · exact h.tail
    · refine ⟨fun f hf => ?_, List.pairwise_cons.2 ⟨hbelow, h.tail.above⟩⟩
      rcases List.mem_cons.1 hf with rfl | hf
      · exact h.oriented ⟨goal :: rest, b, c :: pending⟩ List.mem_cons_self
      · exact h.tail.oriented f hf
  · intro f hf
    rcases mem_retry hf with rfl | hf
    · exact Bindings.Extends.refl b
    · exact hbelow f hf

theorem extending_move {n d d' : Nat} {stack stack' : List Frame} (h : Extending stack)
    (hm : Move clauses n d stack (.moved d' stack')) : Extending stack' := by
  cases hm with
  | exhausted => exact h.tail
  | skipped _ => exact h.retry.1
  | clashed _ _ _ => exact h.retry.1
  | @applied goal rest b b' c r _ pending stack _ _ hunify =>
    have ho : b.Oriented := h.oriented _ List.mem_cons_self
    obtain ⟨hstays, hbelow⟩ := h.retry
    constructor
    · intro f hf
      rcases List.mem_cons.1 hf with rfl | hf
      · exact unifyCompound_oriented ho hunify
      · exact hstays.oriented f hf
    · refine List.pairwise_cons.2 ⟨fun f hf => ?_, hstays.above⟩
      exact (unifyCompound_extends ho hunify).trans (hbelow f hf)

theorem extending_start : Extending (Cursor.start clauses goals).stack := by
  refine ⟨fun f hf => ?_, List.pairwise_singleton _ _⟩
  cases List.mem_singleton.1 hf
  exact Bindings.oriented_empty

theorem reachable_extending {d : Nat} {stack : List Frame} (h : Reachable clauses goals d stack) :
    Extending stack := by
  induction h with
  | start => exact extending_start
  | others _ _ ih => exact ih
  | moved _ h ih => exact extending_move ih (step_eq_some_iff.1 h)
  | answer _ h ih =>
    cases step_eq_some_iff.1 h
    exact ih.tail

end

/-! ## Orientation and extension -/

/-- In oriented bindings, unification gives oriented bindings that extend them,
binds only what is unbound and meets no conflict. So wherever a search comes to,
its choice points have oriented bindings, each extends those below it, and every
term can be resolved in them. -/
theorem orientation_extension :
    (∀ b : Bindings, b.Oriented →
      (∀ n s t b', unify n b s t = some (.ok b') → b'.Oriented ∧ b'.Extends b) ∧
      (∀ n g h b', unifyCompound n b g h = some (.ok b') → b'.Oriented ∧ b'.Extends b) ∧
      (∀ n s t c s' t', Call c s' t' n b s t → c.Ready s' t') ∧
      (∀ (n : Nat) (g h : Compound) c s' t', g.SameSignature h →
        CallAmong c s' t' n b g.args h.args → c.Ready s' t')) ∧
    ∀ clauses goals,
      (∀ d stack, Reachable clauses goals d stack →
        (∀ f ∈ stack, f.bindings.Oriented ∧ ∀ t, ∃ u, f.bindings.resolve t = some u) ∧
        stack.Pairwise fun above below => above.bindings.Extends below.bindings) ∧
      ∀ d answers e last, Run clauses d (.start clauses goals) answers e last →
        Reachable clauses goals e last.stack := by
  constructor
  · intro b ho
    refine ⟨fun n s t b' h => ⟨unify_oriented ho h, unify_extends ho h⟩,
      fun n g h b' hu => ⟨unifyCompound_oriented ho hu, unifyCompound_extends ho hu⟩,
      fun n s t c s' t' h => ready_of_call ho h, fun n g h c s' t' _ hcall => ?_⟩
    exact ready_of_callAmong (fun ho h => ready_of_call ho h) ho hcall
  · intro clauses goals
    refine ⟨fun d stack h => ?_, fun d answers e last hrun => reachable_of_run hrun .start⟩
    have hext := reachable_extending h
    exact ⟨fun f hf => ⟨hext.oriented f hf, Bindings.resolve_total (hext.oriented f hf)⟩,
      hext.above⟩

/-- `p(A, A)` against the head `p(X, f(X))` binds `A` in a cycle, and the clause `p(X, X)` is
left to try. -/
theorem orientation_extension_cycle :
    let x : Term := .var (.ofName "X")
    let a : Term := .var (.ofName "A")
    let g : Term := .var (.fresh 0)
    let clauses : List Clause :=
      [.rule ⟨⟨"p", [x, .app "f" [x]]⟩, []⟩, .rule ⟨⟨"p", [x, x]⟩, []⟩]
    let goal : Compound := ⟨"p", [a, a]⟩
    let b := Bindings.ofList [(.fresh 0, a), (.ofName "A", .app "f" [g])]
    let stack : List Frame := [⟨[], b, clauses⟩, ⟨[goal], .empty, clauses.tail⟩]
    let b' := b.put (.ofName "B") (.app "f" [g])
    (Reachable clauses [goal] 1 stack ∧
      (∀ f ∈ stack, f.bindings.Oriented ∧ ∀ t, ∃ u, f.bindings.resolve t = some u) ∧
      stack.Pairwise fun above below => above.bindings.Extends below.bindings) ∧
    (b.Oriented ∧ unify 1 b (.var (.ofName "B")) g = some (.ok b') ∧ b'.Oriented ∧ b'.Extends b) ∧
    Call b (.var (.ofName "B")) (.app "f" [g]) 1 b (.var (.ofName "B")) g ∧
      b.Ready (.var (.ofName "B")) (.app "f" [g]) := by
  intro x a g clauses goal b stack b'
  have hreach : Reachable clauses [goal] 1 stack :=
    .moved (n := 9) (.start (d := 0)) (by rfl)
  have hstack := (orientation_extension.2 clauses [goal]).1 1 stack hreach
  have ho : b.Oriented := (hstack.1 _ List.mem_cons_self).1
  have hok : unify 1 b (.var (.ofName "B")) g = some (.ok b') := by rfl
  have hcall : Call b (.var (.ofName "B")) (.app "f" [g]) 1 b (.var (.ofName "B")) g :=
    .here (by rfl) (by rfl)
  have hunify := orientation_extension.1 b ho
  exact ⟨⟨hreach, hstack⟩, ⟨ho, hok, hunify.1 _ _ _ _ hok⟩, hcall,
    hunify.2.2.1 _ _ _ _ _ _ hcall⟩

end HornSearch
