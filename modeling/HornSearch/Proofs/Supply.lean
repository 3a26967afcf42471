import Mathlib.Data.List.Nodup
import HornSearch.Proofs.Interleaving

/-!
# The supply of a session

All searches of a session draw from one supply, and so does the host. A
`History` of a session lists what is drawn and for whom, pulls being divided
into the steps of the search. While less than 2^64 variables are drawn, a
session is `Fresh` at every moment of a history (`history_fresh`): no name is
given twice, a search has only names that were drawn for it, and a copy of a
clause shares no variable with the choice point that it is made for.

The invariant is `Accounted`: the draws of a history are the supply so far, and
every numbered variable of a search is one of the draws for this search.
-/

namespace HornSearch

/-! ## Names -/

/-- `_G` and at least one digit. -/
def Numbered (name : String) : Prop :=
  ∃ digits : List Char, digits ≠ [] ∧ (∀ c ∈ digits, c.isDigit = true) ∧
    name = "_G" ++ String.ofList digits

/-- No variable of the goals has a numbered name. -/
def Unnumbered (goals : List Compound) : Prop := ∀ g ∈ goals, ∀ x ∈ g.vars, ¬Numbered x.name

theorem numbered_fresh (k : Nat) : Numbered (Var.fresh k).name := by
  refine ⟨Nat.toDigits 10 (k % UInt64.size), Nat.toDigits_ne_nil, ?_, ?_⟩
  · exact fun c hc => Nat.isDigit_of_mem_toDigits (by decide) (by decide) hc
  · rw [← Nat.toList_repr, String.ofList_toList]
    rfl

theorem nodup_fresh_names {d : Nat} (hd : d ≤ 2 ^ 64) :
    ((List.range d).map fun k => (Var.fresh k).name).Nodup := by
  refine List.Nodup.map_on ?_ List.nodup_range
  intro i hi j hj h
  have hmod := fresh_name_eq_iff.1 h
  have hi := List.mem_range.1 hi
  have hj := List.mem_range.1 hj
  omega

/-- A variable of the name occurs in the goals or in the bindings. -/
def Frame.Occurs (f : Frame) (name : String) : Prop :=
  (∃ g ∈ f.goals, ∃ x ∈ g.vars, x.name = name) ∨
    ∃ x t, f.bindings.get? x = some t ∧ (x = name ∨ ∃ y ∈ t.vars, y.name = name)

/-- The name occurs in a choice point. -/
def Cursor.Occurs (cursor : Cursor) (name : String) : Prop := ∃ f ∈ cursor.stack, f.Occurs name

theorem Frame.Over.of_occurs {clauses : List Clause} {V : Var → Prop} {f : Frame}
    (h : Frame.Over clauses V f) {name : String} (hname : f.Occurs name) :
    ∃ x, x.name = name ∧ V x := by
  obtain ⟨g, hg, x, hx, rfl⟩ | ⟨x, t, ht, hkey | ⟨y, hy, rfl⟩⟩ := hname
  · exact ⟨x, rfl, h.goals g hg x hx⟩
  · obtain ⟨e, he, _⟩ := Bindings.get?_eq_some_iff.1 ht
    exact ⟨⟨x, e.internal⟩, hkey, h.bindings.key he⟩
  · exact ⟨y, rfl, h.bindings.value ht y hy⟩

/-! ## What is drawn -/

/-- A variable that was drawn, and the search that it was drawn for; none if it
was drawn for the host. -/
structure Draw where
  var : Var
  search : Option Nat

def drawAll (vars : List Var) (search : Option Nat) : List Draw := vars.map (⟨·, search⟩)

theorem map_var_drawAll (vars : List Var) (search : Option Nat) :
    (drawAll vars search).map Draw.var = vars := by
  simp [drawAll, Function.comp_def]

theorem mem_drawAll {vars : List Var} {x : Var} (hx : x ∈ vars) (search : Option Nat) :
    ⟨x, search⟩ ∈ drawAll vars search :=
  List.mem_map_of_mem hx

/-- The variables of the draws from `d` on and before `e`. -/
def between (d e : Nat) : List Var := (List.range' d (e - d)).map Var.fresh

theorem fresh_mem_between {d e k : Nat} (hk : d ≤ k) (hke : k < e) : .fresh k ∈ between d e :=
  List.mem_map_of_mem (List.mem_range'_1.2 ⟨hk, by omega⟩)

theorem between_append {d e : Nat} (h : d ≤ e) : between 0 d ++ between d e = between 0 e := by
  have hsum : d + (e - d) = e := by omega
  have hrange := @List.range'_append_1 0 d (e - d)
  rw [Nat.zero_add, hsum] at hrange
  simp only [between, Nat.sub_zero, ← List.map_append, hrange]

def Rule.given (r : Rule) (d : Nat) : List Var := (r.renamer d).given

theorem Rule.given_eq {r r' : Rule} {d d' : Nat} (h : r.instantiate d = (r', d')) :
    r.given d = between d d' := by
  rw [instantiate_eq] at h
  cases h
  rw [between, Nat.add_sub_cancel_left]
  exact (r.instantiate_run d).2.given

def Clause.given : Clause → Nat → List Var
  | .fact _, _ => []
  | .rule r, d => r.given d

theorem Clause.given_eq {c : Clause} {r : Rule} {d d' : Nat} (h : c.instantiate d = (r, d')) :
    c.given d = between d d' := by
  cases c with
  | fact head =>
    cases h
    simp [given, between]
  | rule r => exact Rule.given_eq h

/-- The variables drawn in the next step of a search: those for its next clause, if
it has the signature of the first goal. -/
def givenNext (d : Nat) : List Frame → List Var
  | ⟨goal :: _, _, c :: _⟩ :: _ => if goal.SameSignature c.head then c.given d else []
  | _ => []

theorem givenNext_of_move {clauses : List Clause} {n d d' : Nat} {stack stack' : List Frame}
    (hm : Move clauses n d stack (.moved d' stack')) : givenNext d stack = between d d' := by
  cases hm with
  | exhausted => simp [givenNext, between]
  | skipped hsig => simp [givenNext, hsig, between]
  | clashed hsig huse _ => simp [givenNext, hsig, Clause.given_eq huse]
  | applied hsig huse _ => simp [givenNext, hsig, Clause.given_eq huse]

/-! ## Histories -/

namespace Session

/-- One act of a session and what is drawn in it. A pull is several acts, the steps
of the search. Queries have no numbered names. -/
inductive Act : Session → List Draw → Session → Prop where
  | query {n : Nat} {s s' : Session} {goals : List Compound} {reply : Reply}
      (hgoals : Unnumbered goals) (h : s.perform n (.query goals) = some (reply, s')) :
      Act s [] s'
  | drop {n i : Nat} {s s' : Session} {reply : Reply}
      (h : s.perform n (.drop i) = some (reply, s')) : Act s [] s'
  | freshVar {n : Nat} {s s' : Session} {x : Var}
      (h : s.perform n .freshVar = some (.freshVar x, s')) : Act s (drawAll [x] none) s'
  | instantiate {n : Nat} {s s' : Session} {r : Rule} {reply : Reply}
      (h : s.perform n (.instantiate r) = some (reply, s')) :
      Act s (drawAll (r.given s.database.drawn) none) s'
  | moved {n i d' : Nat} {s : Session} {stack stack' : List Frame}
      (hi : s.cursor? i = some ⟨stack⟩)
      (h : step s.database.clauses n s.database.drawn stack = some (.moved d' stack')) :
      Act s (drawAll (givenNext s.database.drawn stack) (some i))
        ⟨⟨s.database.clauses, d'⟩, s.cursors.set i (some ⟨stack'⟩)⟩
  | answer {n i : Nat} {s : Session} {b : Bindings} {stack stack' : List Frame}
      (hi : s.cursor? i = some ⟨stack⟩)
      (h : step s.database.clauses n s.database.drawn stack = some (.answer b stack')) :
      Act s [] ⟨s.database, s.cursors.set i (some ⟨stack'⟩)⟩
  | finished {n i : Nat} {s : Session} {stack : List Frame} (hi : s.cursor? i = some ⟨stack⟩)
      (h : step s.database.clauses n s.database.drawn stack = some .finished) :
      Act s [] ⟨s.database, s.cursors.set i (some ⟨[]⟩)⟩

/-- Acts one after another, with all that is drawn. -/
inductive History (start : Session) : List Draw → Session → Prop where
  | nil : History start [] start
  | snoc {draws new : List Draw} {s s' : Session} (h : History start draws s)
      (hact : Act s new s') : History start (draws ++ new) s'

variable {clauses : List Clause} {draws new : List Draw} {s s' start : Session}

/-- A pull is a history: each of its steps is an act. -/
theorem history_of_pull {n d i : Nat} {stack : List Frame} {p : Pulled}
    {cursors : List (Option Cursor)} (h : History start draws ⟨⟨clauses, d⟩, cursors⟩)
    (hi : cursor? ⟨⟨clauses, d⟩, cursors⟩ i = some ⟨stack⟩)
    (hpull : HornSearch.pull clauses n d ⟨stack⟩ = some p) :
    ∃ draws, History start draws ⟨⟨clauses, p.drawn⟩, cursors.set i (some p.cursor)⟩ := by
  induction n generalizing draws d stack cursors with
  | zero => cases hpull
  | succ n ih =>
    obtain ⟨rfl, rfl⟩ | ⟨b, rest, hm, rfl⟩ | ⟨d', stack', hm, hpull⟩ := pull_succ hpull
    · exact ⟨_, h.snoc (.finished hi (step_eq_some_iff (n := 0).2 .finished))⟩
    · exact ⟨_, h.snoc (.answer hi (step_eq_some_iff.2 hm))⟩
    · have hlt := lt_length_of_cursor? hi
      have hi' : cursor? ⟨⟨clauses, d'⟩, cursors.set i (some ⟨stack'⟩)⟩ i = some ⟨stack'⟩ := by
        simp [cursor?, hlt]
      obtain ⟨draws', h'⟩ := ih (h.snoc (.moved hi (step_eq_some_iff.2 hm))) hi' hpull
      rw [List.set_set] at h'
      exact ⟨draws', h'⟩

theorem history_of_perform {n : Nat} {req : Request} {reply : Reply}
    (h : History start draws s) (hgoals : ∀ goals, req = .query goals → Unnumbered goals)
    (hreq : s.perform n req = some (reply, s')) : ∃ draws, History start draws s' := by
  cases req with
  | query goals => exact ⟨_, h.snoc (.query (hgoals goals rfl) hreq)⟩
  | drop i => exact ⟨_, h.snoc (.drop hreq)⟩
  | freshVar =>
    cases hreq
    exact ⟨_, h.snoc (.freshVar (n := n) rfl)⟩
  | instantiate r => exact ⟨_, h.snoc (.instantiate hreq)⟩
  | pull i =>
    obtain ⟨_, rfl⟩ | ⟨cursor, p, hi, hp, _, rfl⟩ := perform_pull hreq
    · exact ⟨draws, h⟩
    · exact history_of_pull h hi hp

/-- Whatever a session carries out is a history. -/
theorem history_of_run {log : List (Request × Reply)} (hrun : Run s log s')
    (hgoals : ∀ goals reply, (.query goals, reply) ∈ log → Unnumbered goals)
    (h : History start draws s) : ∃ draws, History start draws s' := by
  induction hrun generalizing draws with
  | nil => exact ⟨draws, h⟩
  | @cons n s s' t req reply log hreq _ ih =>
    obtain ⟨draws', h'⟩ := history_of_perform h
      (fun goals e => hgoals goals reply (e ▸ List.mem_cons_self)) hreq
    exact ih (fun goals reply hmem => hgoals goals reply (List.mem_cons_of_mem _ hmem)) h'

/-! ## The invariant -/

/-- The numbered variables of every search are among the draws for it. -/
structure Accounted (clauses : List Clause) (draws : List Draw) (s : Session) : Prop where
  program : s.database.clauses = clauses
  drawn : draws.map Draw.var = between 0 s.database.drawn
  cursors : ∀ {i cursor}, s.cursor? i = some cursor → ∀ f ∈ cursor.stack,
    f.Over clauses fun x => Numbered x.name → ⟨x, some i⟩ ∈ draws

theorem cursor?_set {i j : Nat} {c : Option Cursor} {cursor : Cursor}
    (h : cursor? ⟨s.database, s.cursors.set i c⟩ j = some cursor) :
    s.cursor? j = some cursor ∨ j = i ∧ c = some cursor := by
  by_cases hij : i = j
  · subst hij
    by_cases hlt : i < s.cursors.length
    · exact .inr ⟨rfl, by simpa [cursor?, hlt] using h⟩
    · simp [cursor?, hlt] at h
  · exact .inl (by simpa [cursor?, List.getElem?_set_ne hij] using h)

theorem cursor?_append {j : Nat} {c cursor : Cursor}
    (h : cursor? ⟨s.database, s.cursors ++ [some c]⟩ j = some cursor) :
    s.cursor? j = some cursor ∨ c = cursor := by
  by_cases hlt : j < s.cursors.length
  · exact .inl (by simpa [cursor?, List.getElem?_append_left hlt] using h)
  · by_cases heq : j = s.cursors.length
    · subst heq
      exact .inr (by simpa [cursor?] using h)
    · have hbehind : (s.cursors ++ [some c]).length ≤ j := by
        rw [List.length_append, List.length_singleton]
        omega
      rw [cursor?, List.getElem?_eq_none hbehind] at h
      cases h

theorem accounted_start (clauses : List Clause) :
    Accounted clauses [] (.start (.ofClauses clauses)) :=
  ⟨rfl, rfl, fun h => by simp [cursor?, Session.start] at h⟩

namespace Accounted

/-- Draws that the supply goes on with change no search. -/
theorem draw (h : Accounted clauses draws s) {d' : Nat} (hd : s.database.drawn ≤ d')
    {vars : List Var} (hvars : vars = between s.database.drawn d') (search : Option Nat) :
    Accounted clauses (draws ++ drawAll vars search) ⟨⟨s.database.clauses, d'⟩, s.cursors⟩ where
  program := h.program
  drawn := by rw [List.map_append, h.drawn, map_var_drawAll, hvars, between_append hd]
  cursors hi f hf :=
    (h.cursors hi f hf).mono fun _ hx hnum => List.mem_append_left _ (hx hnum)

/-- A search may be dropped, or go on with choice points that are accounted for. -/
theorem set (h : Accounted clauses draws s) {i : Nat} {c : Option Cursor}
    (hc : ∀ cursor, c = some cursor → ∀ f ∈ cursor.stack,
      f.Over clauses fun x => Numbered x.name → ⟨x, some i⟩ ∈ draws) :
    Accounted clauses draws ⟨s.database, s.cursors.set i c⟩ where
  program := h.program
  drawn := h.drawn
  cursors := by
    intro j cursor hj f hf
    obtain hj | ⟨rfl, rfl⟩ := cursor?_set hj
    · exact h.cursors hj f hf
    · exact hc cursor rfl f hf

/-- A search that begins has no numbered variable. -/
theorem begin (h : Accounted clauses draws s) {goals : List Compound}
    (hgoals : Unnumbered goals) :
    Accounted clauses draws ⟨s.database, s.cursors ++ [some (s.database.query goals)]⟩ where
  program := h.program
  drawn := h.drawn
  cursors := by
    intro j cursor hj f hf
    obtain hj | rfl := cursor?_append hj
    · exact h.cursors hj f hf
    · cases List.mem_singleton.1 hf
      rw [h.program]
      exact Frame.over_start fun g hg x hx hnum => absurd hnum (hgoals g hg x hx)

end Accounted

/-- Every act keeps the account. -/
theorem accounted_act (hfacts : ∀ c ∈ clauses, c.Closed) (hact : Act s new s')
    (h : Accounted clauses draws s) : Accounted clauses (draws ++ new) s' := by
  cases hact with
  | query hgoals hreq =>
    cases hreq
    rw [List.append_nil]
    exact h.begin hgoals
  | drop hreq =>
    cases hreq
    rw [List.append_nil]
    exact h.set fun _ hnone => by cases hnone
  | freshVar hreq =>
    cases hreq
    exact h.draw (Nat.le_succ _) (by simp [between]) none
  | @instantiate n _ _ r reply hreq =>
    cases hreq
    exact h.draw (Clause.drawn_le_instantiate (c := .rule r) rfl) (Rule.given_eq rfl) none
  | @moved n i d' _ stack stack' hi hstep =>
    have hm := step_eq_some_iff.1 hstep
    have hdraw := h.draw (drawn_le_of_move hm) (givenNext_of_move hm) (some i)
    refine hdraw.set fun cursor hcursor => ?_
    cases hcursor
    rw [h.program] at hm
    refine over_move hfacts ?_ ?_ (h.cursors hi) hm
    · exact fun _ hx hnum => List.mem_append_left _ (hx hnum)
    · intro k hk hkd _
      rw [givenNext_of_move hm]
      exact List.mem_append_right _ (mem_drawAll (fresh_mem_between hk hkd) _)
  | answer hi hstep =>
    rw [List.append_nil]
    refine h.set fun cursor hcursor f hf => ?_
    cases hcursor
    cases step_eq_some_iff.1 hstep
    exact h.cursors hi f (List.mem_cons_of_mem _ hf)
  | finished hi hstep =>
    rw [List.append_nil]
    refine h.set fun cursor hcursor f hf => ?_
    cases hcursor
    cases hf

theorem accounted_history (hfacts : ∀ c ∈ clauses, c.Closed)
    (h : History (.start (.ofClauses clauses)) draws s) : Accounted clauses draws s := by
  induction h with
  | nil => exact accounted_start clauses
  | snoc _ hact ih => exact accounted_act hfacts hact ih

/-! ## Freshness -/

/-- What holds of a session whose draws these are: the names that it has given are
all different, and searches have no others. -/
structure Fresh (draws : List Draw) (s : Session) : Prop where
  /-- The draws are all that the supply has given. -/
  all : draws.length = s.database.drawn
  /-- No name is given twice. -/
  once : (draws.map fun x => x.var.name).Nodup
  /-- Numbered names of a search are below the counter. -/
  below : ∀ {i : Nat} {cursor : Cursor} {name : String}, s.cursor? i = some cursor →
    cursor.Occurs name → Numbered name →
    ∃ n, n < s.database.freshCount ∧ name = "_G" ++ toString n
  /-- No numbered name is in two searches. -/
  separate : ∀ {i j : Nat} {cursor cursor' : Cursor} {name : String}, i ≠ j →
    s.cursor? i = some cursor → s.cursor? j = some cursor' → Numbered name →
    cursor.Occurs name → ¬cursor'.Occurs name
  /-- A copy of the next clause has no variable of the choice point. -/
  copy : ∀ {i d' : Nat} {goals : List Compound} {b : Bindings} {c : Clause}
    {pending : List Clause} {stack : List Frame} {r : Rule},
    s.cursor? i = some ⟨⟨goals, b, c :: pending⟩ :: stack⟩ →
    c.instantiate s.database.drawn = (r, d') → d' < 2 ^ 64 →
    ∀ x ∈ r.vars, ¬Frame.Occurs ⟨goals, b, c :: pending⟩ x.name

theorem Accounted.draw_of_occurs (h : Accounted clauses draws s) {i : Nat} {cursor : Cursor}
    (hi : s.cursor? i = some cursor) {name : String} (hname : cursor.Occurs name)
    (hnum : Numbered name) : ∃ k, k < s.database.drawn ∧ name = (Var.fresh k).name ∧
      ⟨.fresh k, some i⟩ ∈ draws := by
  obtain ⟨f, hf, hname⟩ := hname
  obtain ⟨x, rfl, hx⟩ := (h.cursors hi f hf).of_occurs hname
  have hdraw := hx hnum
  have hvar : x ∈ between 0 s.database.drawn := h.drawn ▸ List.mem_map_of_mem hdraw
  obtain ⟨k, hk, rfl⟩ := List.mem_map.1 hvar
  rw [List.mem_range'_1] at hk
  exact ⟨k, by omega, rfl, hdraw⟩

theorem Accounted.once (h : Accounted clauses draws s) (hd : s.database.drawn ≤ 2 ^ 64) :
    (draws.map fun x => x.var.name).Nodup := by
  have hmap : (draws.map fun x => x.var.name) = (draws.map Draw.var).map Var.name := by
    rw [List.map_map]
    rfl
  rw [hmap, h.drawn, between, List.map_map, Nat.sub_zero, ← List.range_eq_range']
  exact nodup_fresh_names hd

theorem Accounted.fresh (hfacts : ∀ c ∈ clauses, c.Closed) (h : Accounted clauses draws s)
    (hd : s.database.drawn < 2 ^ 64) : Fresh draws s where
  all := by simpa [between] using congrArg List.length h.drawn
  once := h.once hd.le
  below := by
    intro i cursor name hi hname hnum
    obtain ⟨k, hk, rfl, _⟩ := h.draw_of_occurs hi hname hnum
    have hword : k % UInt64.size = k := Nat.mod_eq_of_lt (hk.trans hd)
    have hcount : s.database.freshCount = s.database.drawn := Nat.mod_eq_of_lt hd
    exact ⟨k, hcount ▸ hk, by rw [Var.fresh, hword]⟩
  separate := by
    intro i j cursor cursor' name hij hi hj hnum hname hname'
    obtain ⟨k, _, rfl, hk⟩ := h.draw_of_occurs hi hname hnum
    obtain ⟨l, _, hkl, hl⟩ := h.draw_of_occurs hj hname' hnum
    have hdraw := List.inj_on_of_nodup_map (h.once hd.le) hk hl hkl
    exact hij (Option.some.inj (congrArg Draw.search hdraw))
  copy := by
    intro i d' goals b c pending stack r hi huse hd' x hx hname
    have hf := h.cursors hi _ List.mem_cons_self
    have hclosed := hfacts c (hf.pending c List.mem_cons_self)
    obtain ⟨k, hk, hkd, rfl⟩ := Clause.fresh_of_instantiate hclosed huse hx
    obtain ⟨l, hl, hkl, _⟩ := h.draw_of_occurs hi ⟨_, List.mem_cons_self, hname⟩ (numbered_fresh k)
    have hmod := fresh_name_eq_iff.1 hkl
    omega

end Session

/-- Whatever is asked of a new database, a session is fresh at every moment
before 2^64 variables are drawn. -/
theorem history_fresh {clauses : List Clause} (hfacts : ∀ c ∈ clauses, c.Closed) :
    (∀ {log : List (Request × Reply)} {t : Session},
      Session.Run (.start (.ofClauses clauses)) log t →
      (∀ goals reply, (.query goals, reply) ∈ log → Unnumbered goals) →
      ∃ draws, Session.History (.start (.ofClauses clauses)) draws t) ∧
    ∀ {draws : List Draw} {s : Session},
      Session.History (.start (.ofClauses clauses)) draws s → s.database.drawn < 2 ^ 64 →
      s.Fresh draws := by
  refine ⟨fun hrun hgoals => Session.history_of_run hrun hgoals .nil, fun h hd => ?_⟩
  exact (Session.accounted_history hfacts h).fresh hfacts hd

/-- The host draws a variable, and two searches are left with choice points. -/
theorem history_fresh_birds : ∃ (log : List (Request × Reply)) (t : Session) (draws : List Draw),
    Session.Run (.start (.ofClauses birds.clauses)) log t ∧
    (∀ goals reply, (.query goals, reply) ∈ log → Unnumbered goals) ∧
    Session.History (.start (.ofClauses birds.clauses)) draws t ∧
    t.database.drawn = 3 ∧ t.Fresh draws := by
  have hwho : Unnumbered whoFlies := by
    rintro g hg x hx ⟨digits, _, _, hname⟩
    have htoList := congrArg String.toList ((name_of_whoFlies hg hx).symm.trans hname)
    simp at htoList
  let b (k : Nat) :=
    Bindings.ofList [(.fresh k, .var (.ofName "Who")), (.ofName "Who", .atom "tweety")]
  let log : List (Request × Reply) :=
    [(.query whoFlies, .started 0), (.freshVar, .freshVar (.fresh 0)),
      (.query whoFlies, .started 1), (.pull 1, .answer (b 1)), (.pull 0, .answer (b 2))]
  obtain ⟨t, hrun, hdrawn⟩ : ∃ t, Session.Run (.start (.ofClauses birds.clauses)) log t ∧
      t.database.drawn = 3 :=
    ⟨_, .cons (n := 0) rfl <| .cons (n := 0) rfl <| .cons (n := 0) rfl <| .cons (n := 9) rfl <|
      .cons (n := 9) rfl .nil, rfl⟩
  have hgoals : ∀ goals reply, (.query goals, reply) ∈ log → Unnumbered goals := by
    intro goals reply h
    have h : goals = whoFlies ∧ reply = .started 0 ∨ goals = whoFlies ∧ reply = .started 1 := by
      simpa [log] using h
    obtain ⟨rfl, _⟩ | ⟨rfl, _⟩ := h <;> exact hwho
  obtain ⟨draws, hhistory⟩ := (history_fresh closed_birds).1 hrun hgoals
  exact ⟨log, t, draws, hrun, hgoals, hhistory, hdrawn,
    (history_fresh closed_birds).2 hhistory (by rw [hdrawn]; decide)⟩

end HornSearch
