import HornSearch.Proofs.Following
import HornSearch.Unify

/-!
# What unification computes

Unification runs on resolved terms and does one of six things (`RootStep`):
nothing, because both sides are one variable or one constant; bind a free
variable that stands on the left or on the right; go on with the arguments; or
report a clash. `UnifyRules` is the induction that follows from it: whatever
holds of the six cases and of lists of pairs holds of every call that returns.

* `unify_oriented`: oriented bindings stay oriented;
* `unifyCompound_over`: no variable appears that was not there before;
* `unify_solves`: the valuations that solve the result are those that solved
  the bindings before and make both sides equal, and a clash means that there
  are none (`unify_common_solutions`). Nothing is assumed about cycles;
* `unify_mono`: a larger bound does not change an answer.
-/

namespace HornSearch

/-- No valuation makes the terms equal, as their outermost layers show. -/
def Term.Clashes : Term → Term → Prop
  | .var _, _ | _, .var _ => False
  | .num m, .num n => m ≠ n
  | .atom a, .atom c => a ≠ c
  | .app f ss, .app g ts => ¬(f = g ∧ ss.length = ts.length)
  | _, _ => True

theorem Term.Clashes.term_ne {s t : Term} (h : s.Clashes t) (v : Valuation) :
    v.term s ≠ v.term t := by
  intro e
  cases s with
  | app f ss =>
    cases t with
    | app g ts =>
      simp only [Valuation.term_app, Term.app.injEq] at e
      exact h ⟨e.1, by simpa using congrArg List.length e.2⟩
    | _ => simp_all [Term.Clashes]
  | _ => cases t <;> simp_all [Term.Clashes]

/-! ## One call -/

section
variable (u : Bindings → Term → Term → Option (Except Clash Bindings)) (b : Bindings)

/-- What unifying two resolved terms does, with `u` for their arguments. -/
inductive RootStep : Term → Term → Option (Except Clash Bindings) → Prop where
  | same {x y : Var} : x.name = y.name → RootStep (.var x) (.var y) (some (.ok b))
  | left {x : Var} {t : Term} : b.Binds x t → RootStep (.var x) t (some (.ok (b.put x t)))
  | right {x : Var} {s : Term} : b.Binds x s → RootStep s (.var x) (some (.ok (b.put x s)))
  | constant {t : Term} : t.Rigid → RootStep t t (some (.ok b))
  | args {f : String} {ss ts : List Term} : ss.length = ts.length →
      RootStep (.app f ss) (.app f ts) (unifyPairs u b ss ts)
  | clash {s t : Term} : s.Clashes t → RootStep s t (some (.error ⟨s, t⟩))

variable {u b}

theorem rootStep_link (ho : b.Oriented) {x y : Var} (hx : b.follow? (.var x) = none)
    (hy : b.follow? (.var y) = none) :
    RootStep u b (.var x) (.var y) (some (.ok (b.link x y))) := by
  have hx' := ho.follow?_var x ▸ hx
  have hy' := ho.follow?_var y ▸ hy
  unfold Bindings.link
  split
  · rename_i h
    exact .right ⟨hy', hx, fun z hz => by cases hz; exact compare_lt_iff_lt.1 h⟩
  · rename_i h
    exact .left ⟨hx', hy, fun z hz => by cases hz; exact compare_gt_iff_gt.1 h⟩
  · rename_i h
    exact .same (compare_eq_iff_eq.1 h)

theorem rootStep_bind (ho : b.Oriented) {x : Var} {t : Term} (hx : b.follow? (.var x) = none)
    (ht : t.Rigid) : b.bind x t = .ok (b.put x t) ∧ b.Binds x t := by
  have hx' := ho.follow?_var x ▸ hx
  refine ⟨by simp [Bindings.bind, hx'], hx', Bindings.follow?_of_rigid ht, ?_⟩
  intro y hy
  exact absurd hy (ht y)

/-- Every call of `unifyRoots` on resolved terms is one of the steps. -/
theorem rootStep (ho : b.Oriented) {s t : Term} (hs : b.follow? s = none)
    (ht : b.follow? t = none) : RootStep u b s t (unifyRoots u b s t) := by
  have bindLeft (x : Var) (t : Term) (hx : b.follow? (.var x) = none) (ht : t.Rigid) :
      RootStep u b (.var x) t (some (b.bind x t)) := by
    obtain ⟨e, hb⟩ := rootStep_bind ho hx ht
    exact e ▸ .left hb
  have bindRight (x : Var) (s : Term) (hx : b.follow? (.var x) = none) (hs : s.Rigid) :
      RootStep u b s (.var x) (some (b.bind x s)) := by
    obtain ⟨e, hb⟩ := rootStep_bind ho hx hs
    exact e ▸ .right hb
  cases s with
  | var x =>
    cases t with
    | var y => exact rootStep_link ho hs ht
    | num n => exact bindLeft x _ hs (by simp [Term.Rigid])
    | atom a => exact bindLeft x _ hs (by simp [Term.Rigid])
    | app f ts => exact bindLeft x _ hs (by simp [Term.Rigid])
  | num m =>
    cases t with
    | var y => exact bindRight y _ ht (by simp [Term.Rigid])
    | num n =>
      simp only [unifyRoots]
      split
      · rename_i h; subst h; exact .constant (by simp [Term.Rigid])
      · rename_i h; exact .clash h
    | atom a => exact .clash trivial
    | app f ts => exact .clash trivial
  | atom a =>
    cases t with
    | var y => exact bindRight y _ ht (by simp [Term.Rigid])
    | num n => exact .clash trivial
    | atom c =>
      simp only [unifyRoots]
      split
      · rename_i h; subst h; exact .constant (by simp [Term.Rigid])
      · rename_i h; exact .clash h
    | app f ts => exact .clash trivial
  | app f ss =>
    cases t with
    | var y => exact bindRight y _ ht (by simp [Term.Rigid])
    | num n => exact .clash trivial
    | atom a => exact .clash trivial
    | app g ts =>
      simp only [unifyRoots, unifyArgs]
      split
      · rename_i h
        obtain ⟨rfl, hlen⟩ := h
        exact .args hlen
      · rename_i h
        exact .clash h

theorem unifyRoots_of_clashes {s t : Term} (h : s.Clashes t) :
    unifyRoots u b s t = some (.error ⟨s, t⟩) := by
  cases s with
  | var x => cases t <;> exact absurd h id
  | num k => cases t <;> simp_all [unifyRoots, Term.Clashes]
  | atom a => cases t <;> simp_all [unifyRoots, Term.Clashes]
  | app f ss =>
    cases t with
    | var y => exact absurd h id
    | num k => rfl
    | atom a => rfl
    | app g ts => exact if_neg h

end

/-- A call that returns is one step on the terms that its two sides stand for. -/
theorem rootStep_of_unify {n : Nat} {b : Bindings} {s t : Term} {r : Except Clash Bindings}
    (ho : b.Oriented) (h : unify (n + 1) b s t = some r) :
    ∃ s' t', b.resolve s = some s' ∧ b.resolve t = some t' ∧
      RootStep (unify n) b s' t' (some r) := by
  obtain ⟨s', hs⟩ := Bindings.resolve_total ho s
  obtain ⟨t', ht⟩ := Bindings.resolve_total ho t
  have hr : unifyRoots (unify n) b s' t' = some r := by
    simpa [unify, hs, ht] using h
  refine ⟨s', t', hs, ht, ?_⟩
  have := rootStep (u := unify n) ho (Bindings.resolve_free hs) (Bindings.resolve_free ht)
  rwa [hr] at this

/-- Compounds of one signature are unified by their arguments. -/
theorem unify_args {n : Nat} {b : Bindings} {s t : Term} {f : String} {ss ts : List Term}
    (hs : b.resolve s = some (.app f ss)) (ht : b.resolve t = some (.app f ts))
    (hlen : ss.length = ts.length) : unify (n + 1) b s t = unifyPairs (unify n) b ss ts := by
  have hsig : (Compound.mk f ss).SameSignature ⟨f, ts⟩ := ⟨rfl, hlen⟩
  simp [unify, hs, ht, unifyRoots, unifyArgs, hsig]

/-! ## Induction over calls -/

/-- What has to be shown of the six cases, and of lists of pairs, for `P` to
hold of every call and `Q` of every list of calls. -/
structure UnifyRules (P : Bindings → Term → Term → Except Clash Bindings → Prop)
    (Q : Bindings → List Term → List Term → Except Clash Bindings → Prop) : Prop where
  same : ∀ {b s t x y}, b.Oriented → b.resolve s = some (.var x) →
    b.resolve t = some (.var y) → x.name = y.name → P b s t (.ok b)
  left : ∀ {b s t x t'}, b.Oriented → b.resolve s = some (.var x) → b.resolve t = some t' →
    b.Binds x t' → P b s t (.ok (b.put x t'))
  right : ∀ {b s t x s'}, b.Oriented → b.resolve s = some s' → b.resolve t = some (.var x) →
    b.Binds x s' → P b s t (.ok (b.put x s'))
  constant : ∀ {b s t u}, b.Oriented → b.resolve s = some u → b.resolve t = some u →
    P b s t (.ok b)
  args : ∀ {b s t f ss ts r}, b.Oriented → b.resolve s = some (.app f ss) →
    b.resolve t = some (.app f ts) → Q b ss ts r → P b s t r
  clash : ∀ {b s t s' t'}, b.Oriented → b.resolve s = some s' → b.resolve t = some t' →
    s'.Clashes t' → P b s t (.error ⟨s', t'⟩)
  nil : ∀ {b}, Q b [] [] (.ok b)
  cons : ∀ {b b' s t ss ts r}, P b s t (.ok b') → Q b' ss ts r → Q b (s :: ss) (t :: ts) r
  stop : ∀ {b s t ss ts c}, P b s t (.error c) → Q b (s :: ss) (t :: ts) (.error c)

namespace UnifyRules

def OrientedResult : Except Clash Bindings → Prop
  | .ok b => b.Oriented
  | .error _ => True

variable {P : Bindings → Term → Term → Except Clash Bindings → Prop}
  {Q : Bindings → List Term → List Term → Except Clash Bindings → Prop}

theorem pairs_of (hR : UnifyRules P Q)
    {u : Bindings → Term → Term → Option (Except Clash Bindings)}
    (hu : ∀ b s t r, b.Oriented → u b s t = some r → OrientedResult r ∧ P b s t r)
    (ss : List Term) : ∀ (b : Bindings) (ts : List Term) (r : Except Clash Bindings),
      b.Oriented → ss.length = ts.length → unifyPairs u b ss ts = some r →
      OrientedResult r ∧ Q b ss ts r := by
  induction ss with
  | nil =>
    intro b ts r ho hlen h
    obtain rfl : ts = [] := List.length_eq_zero_iff.1 hlen.symm
    cases h
    exact ⟨ho, hR.nil⟩
  | cons s ss ih =>
    intro b ts r ho hlen h
    cases ts with
    | nil => cases hlen
    | cons t ts =>
      simp only [unifyPairs] at h
      split at h
      · rename_i b' hst
        obtain ⟨ho', hP⟩ := hu _ _ _ _ ho hst
        obtain ⟨hor, hQ⟩ := ih b' ts r ho' (by simpa using hlen) h
        exact ⟨hor, hR.cons hP hQ⟩
      · rename_i hne
        cases r with
        | ok b' => exact absurd h (hne b')
        | error c =>
          exact ⟨trivial, hR.stop (hu _ _ _ _ ho h).2⟩

theorem unify_of (hR : UnifyRules P Q) (n : Nat) : ∀ (b : Bindings) (s t : Term)
    (r : Except Clash Bindings), b.Oriented → unify n b s t = some r →
    OrientedResult r ∧ P b s t r := by
  induction n with
  | zero => intro b s t r _ h; cases h
  | succ n ih =>
    intro b s t r ho h
    obtain ⟨s', t', hs, ht, hstep⟩ := rootStep_of_unify ho h
    generalize hr : some r = o at hstep
    cases hstep with
    | same e =>
      cases hr
      exact ⟨ho, hR.same ho hs ht e⟩
    | left hb =>
      cases hr
      exact ⟨ho.put hb, hR.left ho hs ht hb⟩
    | right hb =>
      cases hr
      exact ⟨ho.put hb, hR.right ho hs ht hb⟩
    | constant _ =>
      cases hr
      exact ⟨ho, hR.constant ho hs ht⟩
    | args hlen =>
      obtain ⟨hor, hQ⟩ := hR.pairs_of ih _ b _ r ho hlen hr.symm
      exact ⟨hor, hR.args ho hs ht hQ⟩
    | clash hc =>
      cases hr
      exact ⟨trivial, hR.clash ho hs ht hc⟩

theorem unify (hR : UnifyRules P Q) {n : Nat} {b : Bindings} {s t : Term}
    {r : Except Clash Bindings} (ho : b.Oriented) (h : unify n b s t = some r) : P b s t r :=
  (hR.unify_of n b s t r ho h).2

theorem pairs (hR : UnifyRules P Q) {n : Nat} {b : Bindings} {ss ts : List Term}
    {r : Except Clash Bindings} (ho : b.Oriented) (hlen : ss.length = ts.length)
    (h : unifyPairs (HornSearch.unify n) b ss ts = some r) : Q b ss ts r :=
  (hR.pairs_of (hR.unify_of n) ss b ts r ho hlen h).2

end UnifyRules

/-! ## The bindings that result -/

/-- The rules of nothing: used for what the induction gives by itself. -/
theorem trivialRules : UnifyRules (fun _ _ _ _ => True) (fun _ _ _ _ => True) := by
  constructor <;> intros <;> trivial

theorem unify_oriented {n : Nat} {b b' : Bindings} {s t : Term} (ho : b.Oriented)
    (h : unify n b s t = some (.ok b')) : b'.Oriented :=
  (trivialRules.unify_of n b s t _ ho h).1

theorem unifyPairs_oriented {n : Nat} {b b' : Bindings} {ss ts : List Term} (ho : b.Oriented)
    (hlen : ss.length = ts.length) (h : unifyPairs (unify n) b ss ts = some (.ok b')) :
    b'.Oriented :=
  (trivialRules.pairs_of (trivialRules.unify_of n) _ b _ _ ho hlen h).1

def ResultHas (I : Bindings → Prop) : Except Clash Bindings → Prop
  | .ok b => I b
  | .error _ => True

/-- Unification of terms that satisfy `T` keeps `I`, if binding such terms does, and
if `T` passes to arguments and along bindings. -/
theorem keepsRules {I : Bindings → Prop} {T : Term → Prop}
    (hresolve : ∀ {b s u}, I b → b.resolve s = some u → T s → T u)
    (hargs : ∀ {f us}, T (.app f us) → ∀ u ∈ us, T u)
    (hput : ∀ {b x u}, I b → T (.var x) → T u → I (b.put x u)) : UnifyRules
      (fun b s t r => I b → T s → T t → ResultHas I r)
      (fun b ss ts r => I b → (∀ s ∈ ss, T s) → (∀ t ∈ ts, T t) → ResultHas I r) where
  same _ _ _ _ hb _ _ := hb
  left _ hs ht _ hb hsT htT := hput hb (hresolve hb hs hsT) (hresolve hb ht htT)
  right _ hs ht _ hb hsT htT := hput hb (hresolve hb ht htT) (hresolve hb hs hsT)
  constant _ _ _ hb _ _ := hb
  args _ hs ht hQ hb hsT htT := hQ hb (hargs (hresolve hb hs hsT)) (hargs (hresolve hb ht htT))
  clash _ _ _ _ _ _ _ := trivial
  nil hb _ _ := hb
  cons hP hQ hb hss hts :=
    hQ (hP hb (hss _ List.mem_cons_self) (hts _ List.mem_cons_self))
      (fun s hs => hss s (List.mem_cons_of_mem _ hs))
      (fun t ht => hts t (List.mem_cons_of_mem _ ht))
  stop _ _ _ _ := trivial

/-- All variables in the bindings of a result satisfy `V`. -/
def OverResult (V : Var → Prop) : Except Clash Bindings → Prop
  | .ok b => b.Over V
  | .error _ => True

theorem overRules (V : Var → Prop) : UnifyRules
    (fun b s t r => b.Over V → s.Over V → t.Over V → OverResult V r)
    (fun b ss ts r => b.Over V → (∀ s ∈ ss, s.Over V) → (∀ t ∈ ts, t.Over V) →
      OverResult V r) :=
  keepsRules (fun hb h ht => hb.resolve h ht)
    (fun h u hu x hx => h x (Term.mem_vars_app.2 ⟨u, hu, hx⟩))
    fun hb hx ht => hb.put (hx _ (by simp)) ht

/-! ## Common solutions -/

/-- What a result says about the valuations that solve `b` and satisfy `e`. -/
def SolvesResult (v : Valuation) (b : Bindings) (e : Prop) : Except Clash Bindings → Prop
  | .ok b' => v.Solves b' ↔ v.Solves b ∧ e
  | .error _ => ¬(v.Solves b ∧ e)

theorem SolvesResult.congr {v : Valuation} {b : Bindings} {e e' : Prop}
    {r : Except Clash Bindings} (h : SolvesResult v b e r) (he : v.Solves b → (e ↔ e')) :
    SolvesResult v b e' r := by
  have hiff : (v.Solves b ∧ e) ↔ (v.Solves b ∧ e') := and_congr_right he
  cases r with
  | ok b' => exact h.trans hiff
  | error c => exact fun h' => h (hiff.2 h')

/-- Following both sides keeps the equation. -/
theorem solves_resolved {v : Valuation} {b : Bindings} {s t s' t' : Term}
    (hs : b.resolve s = some s') (ht : b.resolve t = some t') (hv : v.Solves b) :
    v.term s' = v.term t' ↔ v.term s = v.term t := by
  rw [hv.resolve hs, hv.resolve ht]

theorem solvesRules (v : Valuation) : UnifyRules
    (fun b s t r => SolvesResult v b (v.term s = v.term t) r)
    (fun b ss ts r => SolvesResult v b (ss.map v.term = ts.map v.term) r) where
  same _ hs ht e := by
    refine SolvesResult.congr (e := True) (by simp [SolvesResult]) fun hv => ?_
    rw [← solves_resolved hs ht hv, Valuation.term_var, Valuation.term_var, e]
    simp
  left _ hs ht hb := by
    refine SolvesResult.congr ?_ (solves_resolved hs ht)
    exact Valuation.solves_put hb.unbound
  right _ hs ht hb := by
    refine SolvesResult.congr ?_ (solves_resolved hs ht)
    exact (Valuation.solves_put hb.unbound).trans (and_congr_right fun _ => eq_comm)
  constant _ hs ht := by
    refine SolvesResult.congr (e := True) (by simp [SolvesResult]) fun hv => ?_
    rw [← solves_resolved hs ht hv]
    simp
  args _ hs ht hQ := by
    refine SolvesResult.congr hQ fun hv => ?_
    rw [← solves_resolved hs ht hv]
    simp
  clash _ hs ht hc := by
    rintro ⟨hv, e⟩
    exact hc.term_ne v ((solves_resolved hs ht hv).2 e)
  nil := by simp [SolvesResult]
  cons hP hQ := by
    rename_i r
    cases r with
    | ok b'' => exact hQ.trans (by rw [show v.Solves _ ↔ _ from hP]; simp [and_assoc])
    | error c =>
      rintro ⟨hv, e⟩
      simp only [List.map_cons, List.cons.injEq] at e
      exact hQ ⟨hP.2 ⟨hv, e.1⟩, e.2⟩
  stop hP := by
    rintro ⟨hv, e⟩
    simp only [List.map_cons, List.cons.injEq] at e
    exact hP ⟨hv, e.1⟩

/-- A result is solved by exactly those valuations that solved the bindings and
make both sides equal. -/
theorem unify_solves {n : Nat} {b : Bindings} {s t : Term} {r : Except Clash Bindings}
    (ho : b.Oriented) (h : unify n b s t = some r) (v : Valuation) :
    SolvesResult v b (v.term s = v.term t) r :=
  (solvesRules v).unify ho h

/-- A solution of what results makes both sides equal. -/
theorem term_eq_of_unify {n : Nat} {b b' : Bindings} {s t : Term} (ho : b.Oriented)
    (h : unify n b s t = some (.ok b')) {v : Valuation} (hv : v.Solves b') :
    v.term s = v.term t := by
  have hsolves : v.Solves b' ↔ v.Solves b ∧ v.term s = v.term t := unify_solves ho h v
  exact (hsolves.1 hv).2

/-! ## Compounds -/

theorem unifyCompound_cases {n : Nat} {b : Bindings} {c d : Compound} {r : Except Clash Bindings}
    (h : unifyCompound n b c d = some r) :
    (c.SameSignature d ∧ unifyPairs (unify n) b c.args d.args = some r) ∨
      (¬c.SameSignature d ∧ r = .error ⟨c.toTerm, d.toTerm⟩) := by
  simp only [unifyCompound, unifyArgs] at h
  split at h
  · rename_i hsig; exact .inl ⟨hsig, h⟩
  · rename_i hsig; exact .inr ⟨hsig, (Option.some.inj h).symm⟩

theorem unifyCompound_oriented {n : Nat} {b b' : Bindings} {c d : Compound} (ho : b.Oriented)
    (h : unifyCompound n b c d = some (.ok b')) : b'.Oriented := by
  obtain ⟨hsig, h⟩ | ⟨_, h⟩ := unifyCompound_cases h
  · exact unifyPairs_oriented ho hsig.2 h
  · cases h

theorem unifyCompound_over {V : Var → Prop} {n : Nat} {b b' : Bindings} {c d : Compound}
    (ho : b.Oriented) (h : unifyCompound n b c d = some (.ok b')) (hb : b.Over V)
    (hc : ∀ x ∈ c.vars, V x) (hd : ∀ x ∈ d.vars, V x) : b'.Over V := by
  obtain ⟨hsig, h⟩ | ⟨_, h⟩ := unifyCompound_cases h
  · exact (overRules V).pairs ho hsig.2 h hb
      (fun s hs x hx => hc x (Compound.mem_vars.2 ⟨s, hs, hx⟩))
      (fun t ht x hx => hd x (Compound.mem_vars.2 ⟨t, ht, hx⟩))
  · cases h

theorem unifyCompound_solves {n : Nat} {b : Bindings} {c d : Compound}
    {r : Except Clash Bindings} (ho : b.Oriented) (h : unifyCompound n b c d = some r)
    (v : Valuation) : SolvesResult v b (v.compound c = v.compound d) r := by
  obtain ⟨hsig, h⟩ | ⟨hsig, rfl⟩ := unifyCompound_cases h
  · refine ((solvesRules v).pairs ho hsig.2 h).congr fun _ => ?_
    simp [Valuation.compound_eq, hsig.1]
  · rintro ⟨_, e⟩
    simp only [Valuation.compound_eq, Compound.mk.injEq] at e
    exact hsig ⟨e.1, by simpa [Compound.arity] using congrArg List.length e.2⟩

/-! ## Exactly the common solutions -/

/-- On oriented bindings, such as unification builds from none, a result has
exactly the common solutions of the bindings and of the equation, and is
oriented again; a clash means that there are none. -/
theorem unify_common_solutions {b : Bindings} (ho : b.Oriented) :
    (∀ (n : Nat) (s t : Term),
      (∀ b', unify n b s t = some (.ok b') →
        b'.Oriented ∧ ∀ v : Valuation, v.Solves b' ↔ v.Solves b ∧ v.term s = v.term t) ∧
      ∀ clash, unify n b s t = some (.error clash) →
        ∀ v : Valuation, v.Solves b → v.term s ≠ v.term t) ∧
    ∀ (n : Nat) (c d : Compound),
      (∀ b', unifyCompound n b c d = some (.ok b') →
        b'.Oriented ∧ ∀ v : Valuation, v.Solves b' ↔ v.Solves b ∧ v.compound c = v.compound d) ∧
      ∀ clash, unifyCompound n b c d = some (.error clash) →
        ∀ v : Valuation, v.Solves b → v.compound c ≠ v.compound d := by
  constructor
  · intro n s t
    refine ⟨fun b' h => ⟨unify_oriented ho h, unify_solves ho h⟩, fun clash h v hv e => ?_⟩
    exact unify_solves ho h v ⟨hv, e⟩
  · intro n c d
    refine ⟨fun b' h => ⟨unifyCompound_oriented ho h, unifyCompound_solves ho h⟩,
      fun clash h v hv e => ?_⟩
    exact unifyCompound_solves ho h v ⟨hv, e⟩

/-- Through `Y = X`, the pair `p(Y, Z)` and `p(1, X)` has a solution, but `p(Y, X)` and
`p(1, 2)` has none. -/
theorem unify_common_solutions_chain :
    let x : Term := .var (.ofName "X")
    let y : Term := .var (.ofName "Y")
    let z : Term := .var (.ofName "Z")
    let b := Bindings.ofList [(.ofName "Y", x)]
    let b' := Bindings.ofList [(.ofName "Y", x), (.ofName "X", .num 1), (.ofName "Z", .num 1)]
    b.Oriented ∧
    (unify 2 b (.app "p" [y, z]) (.app "p" [.num 1, x]) = some (.ok b') ∧
      ∀ v : Valuation, v.Solves b' ↔
        v.Solves b ∧ v.term (.app "p" [y, z]) = v.term (.app "p" [.num 1, x])) ∧
    (unifyCompound 1 b ⟨"p", [y, x]⟩ ⟨"p", [.num 1, .num 2]⟩ =
        some (.error ⟨.num 1, .num 2⟩) ∧
      ∀ v : Valuation, v.Solves b →
        v.compound ⟨"p", [y, x]⟩ ≠ v.compound ⟨"p", [.num 1, .num 2]⟩) := by
  intro x y z b b'
  have ho : b.Oriented := by
    intro u w h
    obtain ⟨y, hy, rfl⟩ := Bindings.mem_of_get?_ofList h
    simp only [List.mem_singleton, Prod.mk.injEq, x, Term.var.injEq] at hy
    obtain ⟨rfl, rfl⟩ := hy
    decide
  have hok : unify 2 b (.app "p" [y, z]) (.app "p" [.num 1, x]) = some (.ok b') := by decide
  have herror : unifyCompound 1 b ⟨"p", [y, x]⟩ ⟨"p", [.num 1, .num 2]⟩ =
      some (.error ⟨.num 1, .num 2⟩) := by decide
  exact ⟨ho, ⟨hok, (((unify_common_solutions ho).1 _ _ _).1 _ hok).2⟩,
    herror, ((unify_common_solutions ho).2 _ _ _).2 _ herror⟩

/-! ## The bound -/

theorem unifyPairs_mono {u w : Bindings → Term → Term → Option (Except Clash Bindings)}
    (h : ∀ b s t r, u b s t = some r → w b s t = some r) {b : Bindings} {ss ts : List Term}
    {r : Except Clash Bindings} (hr : unifyPairs u b ss ts = some r) :
    unifyPairs w b ss ts = some r := by
  induction ss generalizing b ts with
  | nil => simpa [unifyPairs] using hr
  | cons s ss ih =>
    cases ts with
    | nil => simpa [unifyPairs] using hr
    | cons t ts =>
      simp only [unifyPairs] at hr ⊢
      cases hu : u b s t with
      | none => simp [hu] at hr
      | some o =>
        rw [h _ _ _ _ hu]
        cases o with
        | ok b' =>
          simp only [hu] at hr ⊢
          exact ih hr
        | error c => simpa [hu] using hr

theorem unifyRoots_mono {u w : Bindings → Term → Term → Option (Except Clash Bindings)}
    (h : ∀ b s t r, u b s t = some r → w b s t = some r) {b : Bindings} {s t : Term}
    {r : Except Clash Bindings} (hr : unifyRoots u b s t = some r) :
    unifyRoots w b s t = some r := by
  cases s with
  | app f ss =>
    cases t with
    | app g ts =>
      simp only [unifyRoots, unifyArgs] at hr ⊢
      split at hr
      · rename_i hsig
        rw [if_pos hsig]
        exact unifyPairs_mono h hr
      · rename_i hsig
        rw [if_neg hsig, hr]
    | _ => exact hr
  | _ => cases t <;> exact hr

theorem unify_succ {n : Nat} {b : Bindings} {s t : Term} {r : Except Clash Bindings}
    (h : unify n b s t = some r) : unify (n + 1) b s t = some r := by
  induction n generalizing b s t r with
  | zero => cases h
  | succ n ih =>
    rw [unify] at h ⊢
    simp only [Option.bind_eq_bind, Option.bind_eq_some_iff] at h ⊢
    obtain ⟨s', hs, t', ht, h⟩ := h
    exact ⟨s', hs, t', ht, unifyRoots_mono (fun b s t r => ih) h⟩

/-- A larger bound does not change an answer. -/
theorem unify_mono {n m : Nat} (hnm : n ≤ m) {b : Bindings} {s t : Term}
    {r : Except Clash Bindings} (h : unify n b s t = some r) : unify m b s t = some r := by
  induction hnm with
  | refl => exact h
  | step _ ih => exact unify_succ ih

theorem unifyCompound_mono {n m : Nat} (hnm : n ≤ m) {b : Bindings} {c d : Compound}
    {r : Except Clash Bindings} (h : unifyCompound n b c d = some r) :
    unifyCompound m b c d = some r := by
  simp only [unifyCompound, unifyArgs] at h ⊢
  split at h
  · rename_i hsig
    rw [if_pos hsig]
    exact unifyPairs_mono (fun b s t r => unify_mono hnm) h
  · rename_i hsig
    rw [if_neg hsig, h]

end HornSearch
