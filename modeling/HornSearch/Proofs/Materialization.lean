import Mathlib.Data.Set.Function
import Mathlib.Logic.Relation
import HornSearch.Proofs.Correspondence

/-!
# Answers as the host sees them

Bindings are *acyclic* if no variable reaches itself through them, also inside
terms. Then everything can be resolved at every depth (`resolveDeep_total`),
and materialization has a result.

Where bindings correspond, deep resolution gives terms of one shape, whose
variables are the free ones that twins share (`Corresponds.expand_matches`). So
the materialized forms are equal up to a bijective renaming of internal
variables (`Corresponds.materialize`).
-/

namespace HornSearch

/-! ## Replacing variables, where it may fail -/

namespace Term

theorem substAllM_eq_some_iff {f : Var → Option Term} {ss us : List Term} :
    substAllM f ss = some us ↔ List.Forall₂ (fun s u => s.substM f = some u) ss us := by
  induction ss generalizing us with
  | nil =>
    simp only [substAllM, List.forall₂_nil_left_iff]
    exact ⟨fun h => (Option.some.inj h).symm, fun h => h ▸ rfl⟩
  | cons s ss ih =>
    simp only [substAllM, List.forall₂_cons_left_iff, Option.bind_eq_bind, Option.bind_eq_some_iff]
    constructor
    · rintro ⟨u, hu, us, hus, h⟩
      exact ⟨u, us, hu, ih.1 hus, (Option.some.inj h).symm⟩
    · rintro ⟨u, us, hu, hus, rfl⟩
      exact ⟨u, hu, us, ih.2 hus, rfl⟩

theorem substM_app_eq_some_iff {f : Var → Option Term} {g : String} {ss : List Term} {u : Term} :
    (Term.app g ss).substM f = some u ↔
      ∃ us, u = .app g us ∧ List.Forall₂ (fun s u => s.substM f = some u) ss us := by
  simp only [substM, Option.bind_eq_bind, Option.bind_eq_some_iff, substAllM_eq_some_iff]
  constructor
  · rintro ⟨us, hus, h⟩
    exact ⟨us, (Option.some.inj h).symm, hus⟩
  · rintro ⟨us, rfl, hus⟩
    exact ⟨us, hus, rfl⟩

/-- If every variable has a replacement, so has the term. -/
theorem substM_of_forall {f : Var → Option Term} {g : Var → Term} {t : Term}
    (h : ∀ x ∈ t.vars, f x = some (g x)) : t.substM f = some (t.subst g) := by
  induction t with
  | num n => simp only [substM, subst_num]; rfl
  | atom a => simp only [substM, subst_atom]; rfl
  | var x => simpa only [substM, subst_var] using h x (by simp)
  | app c args ih =>
    rw [subst_app, substM_app_eq_some_iff]
    refine ⟨_, rfl, ?_⟩
    rw [List.forall₂_map_right_iff, List.forall₂_same]
    exact fun t ht => ih t ht fun x hx => h x (mem_vars_app.2 ⟨t, ht, hx⟩)

theorem exists_substM {f : Var → Option Term} {t : Term} (h : ∀ x ∈ t.vars, ∃ u, f x = some u) :
    ∃ u, t.substM f = some u := by
  refine ⟨_, substM_of_forall (g := fun x => (f x).getD (.var x)) fun x hx => ?_⟩
  obtain ⟨u, hu⟩ := h x hx
  simp [hu]

end Term

/-! ## Deep resolution -/

namespace Bindings

/-- The value of `x` mentions `y`. -/
def Mentions (b : Bindings) (x y : String) : Prop :=
  ∃ t, b.get? x = some t ∧ ∃ v ∈ t.vars, v.name = y

/-- No variable reaches itself. -/
def Acyclic (b : Bindings) : Prop := ∀ x, ¬Relation.TransGen b.Mentions x x

variable {b : Bindings}

/-- `expand` is a replacement of variables. -/
theorem expand_eq_substM (n : Nat) (t : Term) :
    b.expand n t = t.substM fun x => b.expand n (.var x) := by
  cases n <;> simp only [expand, Term.substM]

theorem expand_zero {t u : Term} (h : b.follow? t = some u) : b.expand 0 t = none := by
  obtain ⟨x, rfl, _⟩ := eq_var_of_follow? h
  simp [expand, Term.substM, h]

theorem expand_succ {t u : Term} (h : b.follow? t = some u) (n : Nat) :
    b.expand (n + 1) t = b.expand n u := by
  obtain ⟨x, rfl, _⟩ := eq_var_of_follow? h
  simp [expand, Term.substM, h]

theorem expand_free {x : Var} (h : b.follow? (.var x) = none) (n : Nat) :
    b.expand n (.var x) = some (.var x) := by
  cases n <;> simp [expand, Term.substM, h]

/-- The names on the way to a part of the result are distinct, or one of them
would reach itself; so the way is no longer than the bindings. -/
theorem Acyclic.expand_total (ha : b.Acyclic) (n : Nat) (path : List String) (t : Term)
    (hs : b.Trail path) (hreach : ∀ p ∈ path, ∀ x ∈ t.vars, Relation.TransGen b.Mentions p x.name)
    (hsize : b.size ≤ path.length + n) : ∃ u, b.expand n t = some u := by
  induction n generalizing path t with
  | zero =>
    rw [expand_eq_substM]
    apply Term.exists_substM
    intro x hx
    cases hf : b.follow? (.var x) with
    | none => exact ⟨.var x, expand_free hf 0⟩
    | some w =>
      obtain ⟨_, ⟨⟩, hw⟩ := eq_var_of_follow? hf
      have := (hs.cons hw fun hm => ha _ (hreach _ hm x hx)).length_le
      simp only [List.length_cons] at this
      omega
  | succ n ih =>
    rw [expand_eq_substM]
    apply Term.exists_substM
    intro x hx
    cases hf : b.follow? (.var x) with
    | none => exact ⟨.var x, expand_free hf _⟩
    | some w =>
      obtain ⟨_, ⟨⟩, hw⟩ := eq_var_of_follow? hf
      rw [expand_succ hf]
      refine ih (x.name :: path) w (hs.cons hw fun hm => ha _ (hreach _ hm x hx)) ?_
        (by simp only [List.length_cons]; omega)
      intro p hp y hy
      have hxy : b.Mentions x.name y.name := ⟨w, hw, y, hy, rfl⟩
      rcases List.mem_cons.1 hp with rfl | hp
      · exact .single hxy
      · exact (hreach p hp x hx).tail hxy

theorem Acyclic.resolveDeep_total (ha : b.Acyclic) (t : Term) : ∃ u, b.resolveDeep t = some u :=
  ha.expand_total b.size [] t (.nil b) (by simp) (by simp)

/-- What `t` stands for at every depth, or `t` itself where that has no result. -/
def deep (b : Bindings) (t : Term) : Term := (b.resolveDeep t).getD t

theorem Acyclic.resolveDeep_eq (ha : b.Acyclic) (t : Term) :
    b.resolveDeep t = some (b.deep t) := by
  obtain ⟨u, hu⟩ := ha.resolveDeep_total t
  simp [deep, hu]

/-- Deep resolution of a term is that of the term it leads to, and takes less
if that is another one. -/
theorem expand_of_leads {n : Nat} {t s u : Term} (hl : b.Leads t s) (h : b.expand n t = some u) :
    ∃ k ≤ n, b.expand k s = some u ∧ (s = t ∨ k < n) := by
  induction hl generalizing n with
  | stop _ => exact ⟨n, Nat.le_refl n, h, .inl rfl⟩
  | follow hf _ ih =>
    cases n with
    | zero => rw [expand_zero hf] at h; cases h
    | succ n =>
      rw [expand_succ hf] at h
      obtain ⟨k, hk, hs, _⟩ := ih h
      exact ⟨k, by omega, hs, .inr (by omega)⟩

end Bindings

/-- Free variables that twins share. -/
def Shared (draws : List (Nat × Nat)) (b c : Bindings) (x y : Var) : Prop :=
  Ends draws b c (.var x) (.var y)

/-- Terms of one shape keep one shape at every depth. The induction is on the
depth first, for what a variable leads to, and on the term within it. -/
theorem Corresponds.expand_matches {draws : List (Nat × Nat)} {b c : Bindings}
    (h : Corresponds draws b c) (n : Nat) : ∀ (m : Nat) (s t u w : Term),
      s.Matches (Twins draws) t → b.expand n s = some u → c.expand m t = some w →
      u.Matches (Shared draws b c) w := by
  induction n using Nat.strong_induction_on with
  | _ n deeper =>
    intro m s
    induction s with
    | num k =>
      intro t u w hst hu hw
      cases hst
      rw [Bindings.expand_eq_substM] at hu hw
      simp only [Term.substM] at hu hw
      cases hu
      cases hw
      exact .num k
    | atom a =>
      intro t u w hst hu hw
      cases hst
      rw [Bindings.expand_eq_substM] at hu hw
      simp only [Term.substM] at hu hw
      cases hu
      cases hw
      exact .atom a
    | var x =>
      intro t u w hst hu hw
      cases hst with
      | @var _ y hxy =>
        obtain ⟨s', hs'⟩ := Bindings.resolve_total h.left (.var x)
        obtain ⟨t', ht'⟩ := Bindings.resolve_total h.right (.var y)
        have hends : Ends draws b c s' t' := ⟨x, y, hxy, hs', ht'⟩
        obtain ⟨k, _, hku, hk⟩ := Bindings.expand_of_leads (Bindings.leads_of_walk hs') hu
        obtain ⟨k', _, hkw, _⟩ := Bindings.expand_of_leads (Bindings.leads_of_walk ht') hw
        cases h.ends hends with
        | free _ =>
          rw [Bindings.expand_free (Bindings.resolve_free hs')] at hku
          rw [Bindings.expand_free (Bindings.resolve_free ht')] at hkw
          cases hku
          cases hkw
          exact .var hends
        | rigid hr hm =>
          have hlt : k < n := hk.resolve_left (hr x)
          exact deeper k hlt k' s' t' u w hm hku hkw
    | app f ss ih =>
      intro t u w hst hu hw
      cases hst with
      | @app _ _ ts hsts =>
        rw [Bindings.expand_eq_substM, Term.substM_app_eq_some_iff] at hu hw
        obtain ⟨us, rfl, hus⟩ := hu
        obtain ⟨ws, rfl, hws⟩ := hw
        simp only [← Bindings.expand_eq_substM] at hus hws
        apply Term.Matches.app
        clear deeper
        induction hsts generalizing us ws with
        | nil => cases hus; cases hws; exact .nil
        | cons hst _ rest =>
          cases hus with
          | cons hu hus =>
            cases hws with
            | cons hw hws =>
              exact .cons (ih _ List.mem_cons_self _ _ _ hst hu hw)
                (rest (fun s hs => ih s (List.mem_cons_of_mem _ hs)) _ _ hus hws)

/-! ## Materialization -/

namespace Bindings

/-- What is left of an entry: nothing if it is internal, or stands for a free
internal variable, and otherwise its value, resolved. -/
def shown (b : Bindings) (e : Binding) : Option Binding :=
  if e.internal then none
  else (b.resolveDeep e.value).bind fun t => if isAnonymous t then none else some ⟨e.internal, t⟩

theorem binding?_foldl_put {pairs : List (Var × Term)} {b : Bindings} {name : String}
    {e : Binding} (hd : pairs.Pairwise fun p q => p.1.name ≠ q.1.name) :
    (pairs.foldl (fun b (x, t) => b.put x t) b).binding? name = some e ↔
      (∃ p ∈ pairs, p.1.name = name ∧ e = ⟨p.1.internal, p.2⟩) ∨
      (b.binding? name = some e ∧ ∀ p ∈ pairs, p.1.name ≠ name) := by
  induction pairs generalizing b with
  | nil => simp
  | cons p pairs ih =>
    obtain ⟨hp, hd⟩ := List.pairwise_cons.1 hd
    rw [List.foldl_cons, ih hd, binding?_put]
    by_cases hn : p.1.name = name
    · rw [if_pos hn]
      have hrest : ∀ q ∈ pairs, q.1.name ≠ name := fun q hq => hn ▸ (hp q hq).symm
      constructor
      · rintro (⟨q, hq, hqn, _⟩ | ⟨he, _⟩)
        · exact absurd hqn (hrest q hq)
        · exact .inl ⟨p, List.mem_cons_self, hn, (Option.some.inj he).symm⟩
      · rintro (⟨q, hq, hqn, he⟩ | ⟨_, hall⟩)
        · rcases List.mem_cons.1 hq with rfl | hq
          · exact .inr ⟨he ▸ rfl, hrest⟩
          · exact absurd hqn (hrest q hq)
        · exact absurd hn (hall p List.mem_cons_self)
    · rw [if_neg hn]
      simp [hn]

theorem binding?_ofList {pairs : List (Var × Term)} {name : String} {e : Binding}
    (hd : pairs.Pairwise fun p q => p.1.name ≠ q.1.name) :
    (ofList pairs).binding? name = some e ↔
      ∃ p ∈ pairs, p.1.name = name ∧ e = ⟨p.1.internal, p.2⟩ := by
  rw [ofList, binding?_foldl_put hd]
  simp

theorem mem_toList {b : Bindings} {name : String} {e : Binding} :
    (name, e) ∈ b.toList ↔ b.binding? name = some e :=
  Std.ExtTreeMap.mem_toList_iff_getElem?_eq_some

/-- The entries of a materialized form. -/
theorem Acyclic.materialize {b : Bindings} (ha : b.Acyclic) :
    ∃ m, b.materialize = some m ∧ ∀ name, m.binding? name = (b.binding? name).bind b.shown := by
  have hdeep := ha.resolveDeep_eq
  let host := b.toList.filter fun p => !p.2.internal
  let entry : String × Binding → Var × Term :=
    fun p => (⟨p.1, p.2.internal⟩, b.deep p.2.value)
  let pairs := (host.map entry).filter fun p => !isAnonymous p.2
  have hmap : (host.mapM fun p => do
      let t ← b.resolveDeep p.2.value
      pure (Var.mk p.1 p.2.internal, t)) = some (host.map entry) :=
    mapM_some_of_forall fun p _ => by simp [entry, hdeep]
  have hm : b.materialize = some (ofList pairs) := by
    have hbind := congrArg
      (Option.bind · fun l => some (ofList (l.filter fun p => !isAnonymous p.2))) hmap
    exact hbind
  refine ⟨ofList pairs, hm, fun name => ?_⟩
  have hd : pairs.Pairwise fun p q => p.1.name ≠ q.1.name := by
    have htoList : b.toList.Pairwise fun p q => p.1 ≠ q.1 :=
      Std.ExtTreeMap.distinct_keys_toList.imp fun h e => h (compare_eq_iff_eq.2 e)
    exact ((htoList.filter _).map entry fun _ _ h => h).filter _
  ext e
  rw [binding?_ofList hd, Option.bind_eq_some_iff]
  constructor
  · rintro ⟨p, hp, rfl, rfl⟩
    obtain ⟨hp, hshown⟩ := List.mem_filter.1 hp
    obtain ⟨⟨name, e⟩, hmem, rfl⟩ := List.mem_map.1 hp
    obtain ⟨hmem, hhost⟩ := List.mem_filter.1 hmem
    refine ⟨e, mem_toList.1 hmem, ?_⟩
    simp only [entry, Bool.not_eq_true'] at hhost hshown ⊢
    simp [shown, hhost, hdeep, hshown]
  · rintro ⟨e₀, he₀, hshown⟩
    cases hhost : e₀.internal with
    | true => simp [shown, hhost] at hshown
    | false =>
      cases hfree : isAnonymous (b.deep e₀.value) with
      | true => simp [shown, hhost, hdeep, hfree] at hshown
      | false =>
        simp only [shown, hhost, hdeep, hfree, Bool.false_eq_true, if_false, Option.bind_some,
          Option.some.injEq] at hshown
        have hmem : (name, e₀) ∈ host := List.mem_filter.2 ⟨mem_toList.2 he₀, by simp [hhost]⟩
        refine ⟨entry (name, e₀), List.mem_filter.2 ⟨List.mem_map_of_mem hmem, ?_⟩, rfl, ?_⟩
        · simp [entry, hfree]
        · rw [← hshown]
          simp [entry, hhost]

end Bindings

/-! ## Variants -/

/-- The variable under a renaming of internal variables. -/
def Var.renamed (ρ : String → String) (x : Var) : Var :=
  if x.internal then ⟨ρ x.name, true⟩ else x

/-- The names of the internal variables that occur in the values. -/
def Bindings.internalNames (m : Bindings) : Set String :=
  {x | ∃ name e, m.binding? name = some e ∧ Var.mk x true ∈ e.value.vars}

/-- Equal bindings, up to a bijective renaming of the internal variables that
occur in them. -/
def Bindings.Variant (m m' : Bindings) : Prop :=
  ∃ ρ : String → String, Set.BijOn ρ m.internalNames m'.internalNames ∧
    ∀ name, m'.binding? name =
      (m.binding? name).map fun e => ⟨e.internal, e.value.subst fun x => .var (x.renamed ρ)⟩

namespace Term

variable {R : Var → Var → Prop}

theorem Matches.exists_of_mem {s t : Term} (h : s.Matches R t) {x : Var} (hx : x ∈ s.vars) :
    ∃ y ∈ t.vars, R x y := by
  induction s generalizing t with
  | num n => simp at hx
  | atom a => simp at hx
  | var z =>
    cases h with
    | var h =>
      obtain rfl : x = z := by simpa using hx
      exact ⟨_, by simp, h⟩
  | app f ss ih =>
    cases h with
    | app h =>
      obtain ⟨s, hs, hx⟩ := mem_vars_app.1 hx
      obtain ⟨i, hi, rfl⟩ := List.getElem_of_mem hs
      have hi' := h.length_eq ▸ hi
      obtain ⟨y, hy, hxy⟩ := ih _ hs (h.get hi hi') hx
      exact ⟨y, mem_vars_app.2 ⟨_, List.getElem_mem hi', hy⟩, hxy⟩

theorem Matches.eq_subst {f : Var → Term} (hR : ∀ x y, R x y → f x = .var y) {s t : Term}
    (h : s.Matches R t) : t = s.subst f := by
  induction s generalizing t with
  | num n => cases h; simp
  | atom a => cases h; simp
  | var x => cases h with | var h => simp [hR _ _ h]
  | app c ss ih =>
    cases h with
    | app h =>
      have hmap : List.Forall₂ (· = ·) (ss.map (subst f)) _ :=
        List.forall₂_map_left_iff.2 (forall₂_of_mem h fun s hs t hst => (ih s hs hst).symm)
      rw [List.forall₂_eq_eq_eq] at hmap
      rw [subst_app, hmap]

end Term

/-- If entries match, with variables related one to one, then one form is a
variant of the other. -/
theorem variant_of_matches {R : Var → Var → Prop} (hkin : ∀ x y, R x y → x.Kin y)
    (hone : ∀ x x' y y', R x x' → R y y' → (x.name = y.name ↔ x'.name = y'.name))
    {m m' : Bindings} (h : ∀ name, Option.Rel
      (fun e e' => e.internal = e'.internal ∧ e.value.Matches R e'.value)
      (m.binding? name) (m'.binding? name)) : m.Variant m' := by
  classical
  let ρ : String → String := fun n =>
    if h : ∃ y x, R x y ∧ x.name = n then h.choose.name else n
  have hρ {x y : Var} (hxy : R x y) : ρ x.name = y.name := by
    have hex : ∃ y' x', R x' y' ∧ x'.name = x.name := ⟨y, x, hxy, rfl⟩
    obtain ⟨x', hx', hname⟩ := hex.choose_spec
    simp only [ρ, dif_pos hex]
    exact (hone _ _ _ _ hx' hxy).1 hname
  have hrenamed (x y : Var) (hxy : R x y) : Term.var (x.renamed ρ) = .var y := by
    cases hi : x.internal with
    | true =>
      have hy := (hkin x y hxy).internal_eq
      rw [Var.renamed, if_pos hi, hρ hxy, ← hi, hy]
    | false =>
      cases hkin x y hxy with
      | host _ => simp [Var.renamed, hi]
      | drawn _ _ hx _ => simp [hi] at hx
  have hentry (name : String) : m'.binding? name =
      (m.binding? name).map fun e => ⟨e.internal, e.value.subst fun x => .var (x.renamed ρ)⟩ := by
    have hrel := h name
    generalize m.binding? name = o, m'.binding? name = o' at hrel
    cases hrel with
    | none => rfl
    | @some e e' hee =>
      obtain ⟨internal, value⟩ := e'
      rw [Option.map_some, hee.1, ← hee.2.eq_subst hrenamed]
  have related {x : String} (hx : x ∈ m.internalNames) : ∃ y, R ⟨x, true⟩ y := by
    obtain ⟨name, e, he, hmem⟩ := hx
    have hrel := h name
    generalize m'.binding? name = o' at hrel
    rw [he] at hrel
    cases hrel with
    | some hee =>
      obtain ⟨y, _, hxy⟩ := hee.2.exists_of_mem hmem
      exact ⟨y, hxy⟩
  refine ⟨ρ, ⟨?_, ?_, ?_⟩, hentry⟩
  · rintro x ⟨name, e, he, hmem⟩
    refine ⟨name, _, by rw [hentry, he, Option.map_some], ?_⟩
    exact Term.mem_vars_subst.2 ⟨⟨x, true⟩, hmem, by simp [Var.renamed]⟩
  · intro x hx y hy hxy
    obtain ⟨x', hx'⟩ := related hx
    obtain ⟨y', hy'⟩ := related hy
    exact (hone _ _ _ _ hx' hy').2 (by rw [← hρ hx', ← hρ hy', hxy])
  · rintro z ⟨name, e, he, hmem⟩
    rw [hentry, Option.map_eq_some_iff] at he
    obtain ⟨e, he, rfl⟩ := he
    obtain ⟨x, hx, hz⟩ := Term.mem_vars_subst.1 hmem
    have hxz : x.renamed ρ = ⟨z, true⟩ := by simpa [eq_comm] using hz
    obtain ⟨name', internal⟩ := x
    cases internal with
    | true => exact ⟨name', ⟨name, e, he, hx⟩, by simpa [Var.renamed] using hxz⟩
    | false => simp [Var.renamed] at hxz

/-- Materialized forms of corresponding bindings are variants. -/
theorem Corresponds.materialize {draws : List (Nat × Nat)} {b c : Bindings}
    (h : Corresponds draws b c) (hb : b.Acyclic) (hc : c.Acyclic) :
    ∃ m m', b.materialize = some m ∧ c.materialize = some m' ∧ m.Variant m' := by
  obtain ⟨m, hm, hentries⟩ := hb.materialize
  obtain ⟨m', hm', hentries'⟩ := hc.materialize
  refine ⟨m, m', hm, hm', variant_of_matches (R := Shared draws b c) (fun x y hxy => h.kin hxy)
    (fun x x' y y' hx hy => h.shared hx hy) fun name => ?_⟩
  rw [hentries, hentries']
  by_cases hname : Reserved name
  · -- What was drawn is internal, and not shown on either side.
    have hnone {b : Bindings} (hinternal : ∀ e, b.binding? name = some e → e.internal = true) :
        (b.binding? name).bind b.shown = none := by
      cases he : b.binding? name with
      | none => rfl
      | some e => simp [Bindings.shown, hinternal e he]
    rw [hnone fun e => h.flagged.drawnLeft hname, hnone fun e => h.flagged.drawnRight hname]
    exact .none
  · have hflag := h.flagged.host hname
    cases he : b.binding? name with
    | none =>
      cases he' : c.binding? name with
      | none => exact .none
      | some e' => simp [he, he'] at hflag
    | some e =>
      cases he' : c.binding? name with
      | none => simp [he, he'] at hflag
      | some e' =>
        have hinternal : e.internal = e'.internal := by simpa [he, he'] using hflag
        obtain ⟨u, hu⟩ := hb.resolveDeep_total e.value
        obtain ⟨w, hw⟩ := hc.resolveDeep_total e'.value
        have hfollow {b : Bindings} {e : Binding} (ho : b.Oriented)
            (he : b.binding? name = some e) : b.follow? (.var ⟨name, false⟩) = some e.value := by
          rw [ho.follow?_var]
          simp [Bindings.get?, he]
        have huw : u.Matches (Shared draws b c) w := by
          refine h.expand_matches (b.size + 1) (c.size + 1) (.var ⟨name, false⟩)
            (.var ⟨name, false⟩) u w (.var (.host hname)) ?_ ?_
          · rw [Bindings.expand_succ (hfollow h.left he)]
            exact hu
          · rw [Bindings.expand_succ (hfollow h.right he')]
            exact hw
        have hfree : Bindings.isAnonymous u = Bindings.isAnonymous w := by
          cases huw with
          | var hxy => exact (h.kin hxy).internal_eq
          | num _ | atom _ | app _ => rfl
        simp only [Option.bind_some, Bindings.shown, hu, hw, ← hinternal, ← hfree]
        cases e.internal with
        | true => exact .none
        | false =>
          cases Bindings.isAnonymous u with
          | true => exact .none
          | false => exact .some ⟨rfl, huw⟩

end HornSearch
