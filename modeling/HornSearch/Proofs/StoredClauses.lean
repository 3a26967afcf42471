import HornSearch.Proofs.Parsing
import HornSearch.Proofs.Renaming
import HornSearch.Database

/-!
# What databases store

The uses of a clause are independent of each other and of the goals if all variables of the
copy that is used were drawn for it (`Clause.RenamedApart`). A rule is always renamed, and a
fact must not have variables for that.

Programs are read, and heads are added, so that this holds. A clause that is handed in as it
is, when a database is made or by `Database.push`, is stored as it is. So every stored
fact with variables was handed in, and is then used without being renamed.

Main statements: `Database.Recorded.perform` for one update, `Database.recorded_run` for any
number of them on any number of databases, and `Database.stored_closed_iff`.
-/

namespace HornSearch

/-! ## Uses of a clause -/

/-- Whatever was drawn before, every variable of the copy that is used was drawn for it. -/
def Clause.RenamedApart (c : Clause) : Prop :=
  ∀ d, ∀ x ∈ (c.instantiate d).1.vars, ∃ k, d ≤ k ∧ k < (c.instantiate d).2 ∧ x = Var.fresh k

theorem Clause.renamedApart_iff {c : Clause} : c.RenamedApart ↔ c.Closed := by
  refine ⟨fun h => ?_, fun hc d x hx => fresh_of_instantiate hc rfl hx⟩
  cases c with
  | rule r => trivial
  | fact head =>
    refine List.eq_nil_iff_forall_not_mem.2 fun x hx => ?_
    obtain ⟨k, hk, hk', -⟩ := h 0 x (List.mem_append_left _ hx)
    exact Nat.not_lt.2 hk hk'

theorem Clause.closed_classify (head : Compound) : (Clause.classify head).Closed := by
  by_cases hvars : head.vars = []
  · rwa [Source.classify_of_vars_eq_nil hvars]
  · rw [Source.classify_of_vars_ne_nil hvars]
    trivial

/-- No clause of a source text is a fact with variables. -/
theorem Source.closed_of_parseProgram {text : String} {cs : List Clause}
    (h : parseProgram text = .ok cs) : ∀ c ∈ cs, c.Closed := by
  obtain ⟨t, -, hcs⟩ := parseProgram_iff.1 h
  clear h
  induction hcs with
  | nil => simp
  | cons hc _ _ ih =>
    refine List.forall_mem_cons.2 ⟨?_, ih⟩
    cases hc with
    | fact _ _ _ hvars => exact hvars
    | general => trivial
    | rule => trivial

namespace Database

/-! ## Updates -/

structure Shelf where
  databases : List Database
  given : List Clause

/-- What makes a database, or changes one by its number. -/
inductive Update where
  | ofClauses (clauses : List Clause)
  | ofText (text : String)
  | addFact (i : Nat) (head : Compound)
  | addRule (i : Nat) (r : Rule)
  | push (i : Nat) (c : Clause)
  | clone (i : Nat)

namespace Shelf

def empty : Shelf := ⟨[], []⟩

/-- Carries out an update. A text with a syntax error makes no database, and where there is
no database of the number nothing is changed. -/
def perform (s : Shelf) : Update → Shelf
  | .ofClauses clauses => ⟨s.databases ++ [.ofClauses clauses], s.given ++ clauses⟩
  | .ofText text =>
    match Source.parseProgram text with
    | .ok clauses => { s with databases := s.databases ++ [.ofClauses clauses] }
    | .error _ => s
  | .addFact i head => { s with databases := s.databases.modify i (·.addFact head) }
  | .addRule i r => { s with databases := s.databases.modify i (·.addRule r) }
  | .push i c =>
    if i < s.databases.length then ⟨s.databases.modify i (·.push c), s.given ++ [c]⟩ else s
  | .clone i => { s with databases := s.databases ++ s.databases[i]?.toList }

def run (updates : List Update) : Shelf := updates.foldl perform empty

end Shelf

/-- The clauses that were handed in are stored, and among the stored ones only they may be
facts with variables. -/
structure Recorded (s : Shelf) : Prop where
  closed_or_given : ∀ db ∈ s.databases, ∀ c ∈ db.clauses, c.Closed ∨ c ∈ s.given
  stored : ∀ c ∈ s.given, ∃ db ∈ s.databases, c ∈ db.clauses

section
variable {dbs : List Database} {given new : List Clause}

/-- One more database. -/
theorem Recorded.append (h : Recorded ⟨dbs, given⟩) {more : List Database}
    (hmore : ∀ db ∈ more, ∀ c ∈ db.clauses, c.Closed ∨ c ∈ given ++ new)
    (hnew : ∀ c ∈ new, ∃ db ∈ more, c ∈ db.clauses) : Recorded ⟨dbs ++ more, given ++ new⟩ where
  closed_or_given db hdb c hc := by
    rcases List.mem_append.1 hdb with hdb | hdb
    · exact (h.closed_or_given db hdb c hc).imp_right (List.mem_append_left new)
    · exact hmore db hdb c hc
  stored c hc := by
    rcases List.mem_append.1 hc with hc | hc
    · obtain ⟨db, hdb, hstored⟩ := h.stored c hc
      exact ⟨db, List.mem_append_left more hdb, hstored⟩
    · obtain ⟨db, hdb, hstored⟩ := hnew c hc
      exact ⟨db, List.mem_append_right dbs hdb, hstored⟩

/-- One more clause in one of the databases. -/
theorem Recorded.modify (h : Recorded ⟨dbs, given⟩) {i : Nat} (hi : i < dbs.length) {c : Clause}
    (hc : c.Closed ∨ c ∈ new) (hnew : ∀ c' ∈ new, c' = c) :
    Recorded ⟨dbs.modify i (·.push c), given ++ new⟩ := by
  obtain ⟨before, db, behind, rfl, -, hmodify⟩ := List.exists_of_modify (·.push c) hi
  rw [hmodify]
  have hmem (db' : Database) : db' ∈ before ++ db.push c :: behind →
      db' = db.push c ∨ db' ∈ before ++ db :: behind := by
    simp only [List.mem_append, List.mem_cons]
    tauto
  constructor
  · intro db' hdb' c' hc'
    have hold (db' : Database) (hdb' : db' ∈ before ++ db :: behind) (hc' : c' ∈ db'.clauses) :
        c'.Closed ∨ c' ∈ given ++ new :=
      (h.closed_or_given db' hdb' c' hc').imp_right (List.mem_append_left new)
    rcases hmem db' hdb' with rfl | hdb'
    · rcases List.mem_append.1 hc' with hc' | hc'
      · exact hold db (by simp) hc'
      · rw [List.mem_singleton.1 hc']
        exact hc.imp_right (List.mem_append_right given)
    · exact hold db' hdb' hc'
  · intro c' hc'
    rcases List.mem_append.1 hc' with hc' | hc'
    · obtain ⟨db', hdb', hstored⟩ := h.stored c' hc'
      rcases List.mem_append.1 hdb' with hdb' | hdb'
      · exact ⟨db', by simp [hdb'], hstored⟩
      · rcases List.mem_cons.1 hdb' with rfl | hdb'
        · exact ⟨db'.push c, by simp, List.mem_append_left _ hstored⟩
        · exact ⟨db', by simp [hdb'], hstored⟩
    · exact ⟨db.push c, by simp, by simp [Database.push, hnew c' hc']⟩

/-- A clause that keeps its uses independent may be added anywhere. -/
theorem Recorded.modify_closed (h : Recorded ⟨dbs, given⟩) (i : Nat) {c : Clause}
    (hc : c.Closed) : Recorded ⟨dbs.modify i (·.push c), given⟩ := by
  by_cases hi : i < dbs.length
  · have hmodify : Recorded ⟨dbs.modify i (·.push c), given ++ []⟩ :=
      h.modify hi (.inl hc) (by simp)
    rwa [List.append_nil] at hmodify
  · rwa [List.modify_eq_self (Nat.le_of_not_lt hi)]

end

theorem recorded_empty : Recorded .empty := ⟨by simp [Shelf.empty], by simp [Shelf.empty]⟩

theorem Recorded.perform {s : Shelf} (h : Recorded s) (u : Update) : Recorded (s.perform u) := by
  cases u with
  | ofClauses clauses =>
    refine h.append ?_ fun c hc => ⟨_, List.mem_singleton_self _, hc⟩
    simp only [List.forall_mem_singleton]
    exact fun c hc => .inr (List.mem_append_right _ hc)
  | ofText text =>
    simp only [Shelf.perform]
    split
    · rename_i clauses hparse
      have happend : Recorded ⟨s.databases ++ [.ofClauses clauses], s.given ++ []⟩ :=
        h.append (List.forall_mem_singleton.2 fun c hc =>
          .inl (Source.closed_of_parseProgram hparse c hc)) (by simp)
      rwa [List.append_nil] at happend
    · exact h
  | addFact i head => exact h.modify_closed i (Clause.closed_classify head)
  | addRule i r => exact h.modify_closed i (c := .rule r) trivial
  | push i c =>
    simp only [Shelf.perform]
    split
    · rename_i hi
      exact h.modify hi (.inr (List.mem_singleton_self c)) (by simp)
    · exact h
  | clone i =>
    have hcopy (db : Database) (hdb : db ∈ s.databases[i]?.toList) (c : Clause)
        (hc : c ∈ db.clauses) : c.Closed ∨ c ∈ s.given ++ [] := by
      rw [List.append_nil]
      exact h.closed_or_given db (List.mem_of_getElem? (Option.mem_toList.1 hdb)) c hc
    have happend : Recorded ⟨s.databases ++ s.databases[i]?.toList, s.given ++ []⟩ :=
      h.append hcopy (by simp)
    rwa [List.append_nil] at happend

theorem recorded_run (updates : List Update) : Recorded (.run updates) := by
  have hfold : ∀ s, Recorded s → Recorded (updates.foldl Shelf.perform s) := by
    induction updates with
    | nil => exact fun s h => h
    | cons u updates ih => exact fun s h => ih _ (h.perform u)
  exact hfold _ recorded_empty

/-- After any updates, a stored clause that was not handed in as it is has no variables or
is a rule, so every use of it is renamed apart; and all the databases are so if and only if
all clauses that were handed in are. -/
theorem stored_closed_iff (updates : List Update) :
    (∀ db ∈ (Shelf.run updates).databases, ∀ c ∈ db.clauses,
      c ∉ (Shelf.run updates).given → c.Closed ∧ c.RenamedApart) ∧
    ((∀ db ∈ (Shelf.run updates).databases, ∀ c ∈ db.clauses, c.Closed) ↔
      ∀ c ∈ (Shelf.run updates).given, c.Closed) ∧
    ((∀ db ∈ (Shelf.run updates).databases, ∀ c ∈ db.clauses, c.RenamedApart) ↔
      ∀ c ∈ (Shelf.run updates).given, c.Closed) := by
  have h := recorded_run updates
  have hclosed : (∀ db ∈ (Shelf.run updates).databases, ∀ c ∈ db.clauses, c.Closed) ↔
      ∀ c ∈ (Shelf.run updates).given, c.Closed := by
    constructor
    · intro hall c hc
      obtain ⟨db, hdb, hstored⟩ := h.stored c hc
      exact hall db hdb c hstored
    · exact fun hgiven db hdb c hc => (h.closed_or_given db hdb c hc).elim id (hgiven c)
  refine ⟨fun db hdb c hc hnot => ?_, hclosed, ?_⟩
  · have hc' := (h.closed_or_given db hdb c hc).resolve_right hnot
    exact ⟨hc', Clause.renamedApart_iff.2 hc'⟩
  · simpa only [Clause.renamedApart_iff] using hclosed

/-- A fact with a variable is pushed as it is, and its variable is not renamed. -/
theorem exists_stored_open :
    ¬ ∀ updates, ∀ db ∈ (Shelf.run updates).databases, ∀ c ∈ db.clauses, c.Closed := by
  intro h
  let c : Clause := .fact ⟨"p", [.var (.ofName "X")]⟩
  have hrun : (Shelf.run [.ofClauses [], .push 0 c]).databases = [⟨[c], 0⟩] := rfl
  have hclosed : c.Closed := h [.ofClauses [], .push 0 c] ⟨[c], 0⟩ (by simp [hrun]) c (by simp)
  exact List.cons_ne_nil _ _ hclosed

end Database

end HornSearch
