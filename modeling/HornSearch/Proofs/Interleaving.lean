import HornSearch.Session
import HornSearch.Proofs.Completeness
import HornSearch.Proofs.Enumeration
import HornSearch.Proofs.Lockstep
import HornSearch.Proofs.Materialization

/-!
# Interleaved searches are independent

Other requests of a session leave a search as it is and only draw variables
(`perform_other`). So what a search gives to its pulls, whatever happens
between them, it also gives on a database of its own from which nothing was
drawn: as many answers, and the same ones up to the names of internal variables
(`interleaved_alone`).
-/

namespace HornSearch

/-! ## Sessions -/

/-- Requests that are carried out one after another, with their replies. Each
has a bound of its own. -/
inductive Session.Run : Session → List (Request × Reply) → Session → Prop where
  | nil {s : Session} : Run s [] s
  | cons {n : Nat} {s s' t : Session} {req : Request} {reply : Reply}
      {log : List (Request × Reply)} (h : s.perform n req = some (reply, s'))
      (hrest : Run s' log t) : Run s ((req, reply) :: log) t

/-- The replies to the pulls of search `i`. -/
def pulled (i : Nat) : List (Request × Reply) → List Reply
  | [] => []
  | (.pull j, reply) :: log => if j = i then reply :: pulled i log else pulled i log
  | _ :: log => pulled i log

/-- The reply to a pull, and what a pull gives to a search that runs alone: the
end for the end, and for an answer without cycles one whose materialized form
is a variant. -/
inductive SameAnswer : Reply → Option Bindings → Prop where
  | finished : SameAnswer .finished none
  | answer {b c : Bindings} (h : b.Acyclic → c.Acyclic →
      ∃ m m', b.materialize = some m ∧ c.materialize = some m' ∧ m.Variant m') :
      SameAnswer (.answer b) (some c)

namespace Session

variable {s s' t : Session} {n i : Nat} {req : Request} {reply : Reply} {cursor : Cursor}

/-- What a pull does: nothing if the search was dropped, and otherwise one pull
of its cursor. -/
theorem perform_pull (h : s.perform n (.pull i) = some (reply, s')) :
    (s.cursor? i = none ∧ s' = s) ∨
    ∃ cursor p, s.cursor? i = some cursor ∧
      HornSearch.pull s.database.clauses n s.database.drawn cursor = some p ∧
      reply = (p.answer.map Reply.answer).getD .finished ∧
      s' = ⟨⟨s.database.clauses, p.drawn⟩, s.cursors.set i (some p.cursor)⟩ := by
  simp only [perform, Database.pull] at h
  cases hi : s.cursor? i with
  | none =>
    simp only [hi, Option.some.injEq, Prod.mk.injEq] at h
    exact .inl ⟨rfl, h.2.symm⟩
  | some cursor =>
    cases hp : HornSearch.pull s.database.clauses n s.database.drawn cursor with
    | none => simp [hi, hp] at h
    | some p =>
      simp only [hi, hp, Option.bind_eq_bind, Option.bind_some, Option.pure_def,
        Option.some.injEq, Prod.mk.injEq] at h
      exact .inr ⟨cursor, p, rfl, hp, h.1.symm, h.2.symm⟩

theorem lt_length_of_cursor? (hi : s.cursor? i = some cursor) : i < s.cursors.length := by
  by_contra hge
  simp [cursor?, List.getElem?_eq_none (Nat.le_of_not_lt hge)] at hi

/-- No request touches the clauses, and draws are never taken back. -/
theorem perform_database (h : s.perform n req = some (reply, s')) :
    s'.database.clauses = s.database.clauses ∧ s.database.drawn ≤ s'.database.drawn := by
  cases req with
  | query goals => cases h; exact ⟨rfl, Nat.le_refl _⟩
  | drop j => cases h; exact ⟨rfl, Nat.le_refl _⟩
  | freshVar => cases h; exact ⟨rfl, Nat.le_succ _⟩
  | instantiate r =>
    cases h
    exact ⟨rfl, Clause.drawn_le_instantiate (c := .rule r) rfl⟩
  | pull j =>
    obtain ⟨_, rfl⟩ | ⟨cursor, p, _, hp, _, rfl⟩ := perform_pull h
    · exact ⟨rfl, Nat.le_refl _⟩
    · exact ⟨rfl, drawn_le_of_pull hp⟩

/-- Requests that are no pull and no drop of a search leave it as it is. -/
theorem perform_other (h : s.perform n req = some (reply, s')) (hi : s.cursor? i = some cursor)
    (hpull : req ≠ .pull i) (hdrop : req ≠ .drop i) : s'.cursor? i = some cursor := by
  have hset {j : Nat} (hij : j ≠ i) (database : Database) (c : Option Cursor) :
      (Session.mk database (s.cursors.set j c)).cursor? i = some cursor := by
    simp only [cursor?, List.getElem?_set_ne hij]
    exact hi
  cases req with
  | query goals =>
    cases h
    simp only [cursor?, List.getElem?_append_left (lt_length_of_cursor? hi)]
    exact hi
  | drop j =>
    cases h
    exact hset (fun e => hdrop (by rw [e])) _ _
  | freshVar => cases h; exact hi
  | instantiate r => cases h; exact hi
  | pull j =>
    obtain ⟨_, rfl⟩ | ⟨_, p, _, _, _, rfl⟩ := perform_pull h
    · exact hi
    · exact hset (fun e => hpull (by rw [e])) _ _

theorem Run.drawn_le {log : List (Request × Reply)} (h : Run s log t) :
    s.database.drawn ≤ t.database.drawn := by
  induction h with
  | nil => exact Nat.le_refl _
  | cons h _ ih => exact (perform_database h).2.trans ih

end Session

theorem pulled_of_ne {i : Nat} {req : Request} (h : req ≠ .pull i) (reply : Reply)
    (log : List (Request × Reply)) : pulled i ((req, reply) :: log) = pulled i log := by
  cases req with
  | pull j => exact if_neg fun e => h (by rw [e])
  | _ => rfl

/-! ## Independence -/

/-- Answers of both searches in lockstep are the same for the host. -/
theorem sameAnswer_of_rel {o o' : Option Bindings}
    (h : Option.Rel (fun b c => ∃ draws, Corresponds draws b c) o o') :
    SameAnswer ((o.map Reply.answer).getD .finished) o' := by
  cases h with
  | none => exact .finished
  | some h =>
    obtain ⟨draws, h⟩ := h
    exact .answer fun hb hc => h.materialize hb hc

/-- A search in a session, and one that runs alone and has come as far, go on
with the same answers. -/
theorem gives_of_run {s t : Session} {log : List (Request × Reply)} (hrun : Session.Run s log t)
    {i d' e e' : Nat} {cursor : Cursor} {stack' : List Frame}
    (hfacts : ∀ c ∈ s.database.clauses, c.Closed) (hdrop : ∀ reply, (.drop i, reply) ∉ log)
    (hi : s.cursor? i = some cursor) (hroom : Room s.database.drawn e d' e')
    (h : StacksAbreast s.database.clauses s.database.drawn e d' e' cursor.stack stack')
    (hle : t.database.drawn ≤ e) :
    ∃ alone, Gives s.database.clauses d' stack' alone ∧
      List.Forall₂ SameAnswer (pulled i log) (alone.map Prod.fst) := by
  induction hrun generalizing cursor d' stack' with
  | nil => exact ⟨[], .nil, .nil⟩
  | @cons n s s' t req reply log hreq hrest ih =>
    obtain ⟨hclauses, hdrawn⟩ := Session.perform_database hreq
    have hend := hrest.drawn_le
    have hdrop' : ∀ reply, (.drop i, reply) ∉ log := fun r hr =>
      hdrop r (List.mem_cons_of_mem _ hr)
    rw [hclauses] at ih
    by_cases hpull : req = .pull i
    · subst hpull
      obtain ⟨hnone, _⟩ | ⟨_, p, hcursor, hp, rfl, rfl⟩ := Session.perform_pull hreq
      · rw [hi] at hnone
        cases hnone
      rw [hi] at hcursor
      cases hcursor
      obtain ⟨p', hp', hcount, hanswer, hstack⟩ :=
        lockstep_pull hfacts hroom h hp (by simp only at hend; omega)
      have hcursor : Session.cursor? ⟨⟨s.database.clauses, p.drawn⟩,
          s.cursors.set i (some p.cursor)⟩ i = some p.cursor := by
        simp [Session.cursor?, Session.lt_length_of_cursor? hi]
      have hroom' : Room p.drawn e p'.drawn e' :=
        hroom.advance (drawn_le_of_pull hp) (drawn_le_of_pull hp') (by omega)
      obtain ⟨alone, hgives, hsame⟩ := ih hfacts hdrop' hcursor hroom' hstack hle
      refine ⟨(p'.answer, p'.drawn) :: alone, .cons hp' hgives, ?_⟩
      rw [pulled, if_pos rfl, List.map_cons]
      exact .cons (sameAnswer_of_rel hanswer) hsame
    · have hcursor := Session.perform_other hreq hi hpull fun e =>
        hdrop reply (e ▸ List.mem_cons_self)
      rw [pulled_of_ne hpull]
      have hroom' := hroom.advance hdrawn (Nat.le_refl d') (by omega)
      exact ih hfacts hdrop' hcursor hroom' (h.mono hdrawn (Nat.le_refl _)) hle

/-- A search begun in a session gives to its pulls what it gives to them on a
database of its own: whatever other searches do in between, and whatever
variables are drawn. -/
theorem interleaved_alone {s s₁ t : Session} {n i : Nat} {query : List Compound}
    {log : List (Request × Reply)} (hfacts : ∀ c ∈ s.database.clauses, c.Closed)
    (hquery : ∀ g ∈ query, ∀ x ∈ g.vars, ¬Reserved x.name)
    (hbegin : s.perform n (.query query) = some (.started i, s₁)) (hrun : Session.Run s₁ log t)
    (hdrop : ∀ reply, (.drop i, reply) ∉ log)
    (hdraws : t.database.drawn < s.database.drawn + 2 ^ 64) :
    ∃ m alone, (Database.ofClauses s.database.clauses).replies m (pulled i log).length
        ((Database.ofClauses s.database.clauses).query query) = some alone ∧
      List.Forall₂ SameAnswer (pulled i log) (alone.map Prod.fst) := by
  cases hbegin
  have hcursor : Session.cursor? ⟨s.database, s.cursors ++ [some (s.database.query query)]⟩
      s.cursors.length = some (s.database.query query) := by
    simp [Session.cursor?]
  have hroom : Room s.database.drawn (s.database.drawn + 2 ^ 64) 0 (2 ^ 64) :=
    ⟨by omega, by omega, by omega⟩
  have hstart : StacksAbreast s.database.clauses s.database.drawn (s.database.drawn + 2 ^ 64) 0
      (2 ^ 64) (s.database.query query).stack (Cursor.start s.database.clauses query).stack :=
    .cons (Frame.abreast_start hquery) .nil
  obtain ⟨alone, hgives, hsame⟩ :=
    gives_of_run hrun hfacts hdrop hcursor hroom hstart (Nat.le_of_lt hdraws)
  obtain ⟨m, hm⟩ := replies_of_gives hgives
  refine ⟨m, alone, ?_, hsame⟩
  have hlen : (pulled s.cursors.length log).length = alone.length := by
    rw [hsame.length_eq, List.length_map]
  rw [hlen]
  exact hm

theorem unreserved_whoFlies : ∀ g ∈ whoFlies, ∀ x ∈ g.vars, ¬Reserved x.name := by decide

/-- A variable is drawn, and another search begun, pulled and dropped, between
the pulls of the search. -/
theorem interleaved_alone_birds : ∃ (s₁ t : Session) (b : Bindings) (log : List (Request × Reply)),
    (Session.start birds).perform 0 (.query whoFlies) = some (.started 0, s₁) ∧
    Session.Run s₁ log t ∧ (∀ reply, (.drop 0, reply) ∉ log) ∧
    t.database.drawn < birds.drawn + 2 ^ 64 ∧ pulled 0 log = [.answer b, .finished] ∧
    ∃ m alone, (Database.ofClauses birds.clauses).replies m (pulled 0 log).length
        ((Database.ofClauses birds.clauses).query whoFlies) = some alone ∧
      List.Forall₂ SameAnswer (pulled 0 log) (alone.map Prod.fst) := by
  let other := Bindings.ofList [(.fresh 1, .var (.ofName "X")), (.ofName "X", .atom "tweety")]
  let b := Bindings.ofList [(.fresh 2, .var (.ofName "Who")), (.ofName "Who", .atom "tweety")]
  let log : List (Request × Reply) :=
    [(.freshVar, .freshVar (.fresh 0)), (.query [⟨"flies", [.var (.ofName "X")]⟩], .started 1),
      (.pull 1, .answer other), (.pull 0, .answer b), (.drop 1, .wasOpen true),
      (.pull 0, .finished)]
  obtain ⟨t, hrun, hdrawn⟩ : ∃ t, Session.Run ⟨birds, [some (birds.query whoFlies)]⟩ log t ∧
      t.database.drawn = 3 :=
    ⟨_, .cons (n := 0) rfl <| .cons (n := 0) rfl <| .cons (n := 9) rfl <| .cons (n := 9) rfl <|
      .cons (n := 0) rfl <| .cons (n := 9) rfl .nil, rfl⟩
  have hdrop : ∀ reply, (.drop 0, reply) ∉ log := by simp [log]
  have hdraws : t.database.drawn < birds.drawn + 2 ^ 64 := by
    rw [hdrawn]
    decide
  exact ⟨_, t, b, log, rfl, hrun, hdrop, hdraws, rfl,
    interleaved_alone (s := .start birds) (n := 0) closed_birds unreserved_whoFlies rfl hrun hdrop hdraws⟩

end HornSearch
