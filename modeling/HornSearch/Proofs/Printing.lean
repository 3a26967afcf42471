import HornSearch.Proofs.Parsing

/-!
# Written forms are read back

The trees that the grammar gives are the writable ones, with no flag on any
variable (`writable_of_termAt`), and the written form of a writable tree is a
phrase for it (`termAt_chars`). A written form in front of a text depends on the
text only where it ends, so the phrases of a list follow one another.
-/

namespace HornSearch

def Compound.Alike (c d : Compound) : Prop := c.toTerm.Alike d.toTerm

namespace Source

/-! ## Written programs and queries -/

def programText : List Clause → String
  | [] => ""
  | c :: cs => c.text ++ "\n" ++ programText cs

def queryText (goals : List Compound) : String := Compound.textAll goals ++ "."

/-- Names and variables are words of the grammar, no number is negative and every
name that is applied has an argument. -/
inductive Writable : Term → Prop where
  | num {n : Int64} (h : 0 ≤ n.toInt) : Writable (.num n)
  | atom {a : String} (h : IsName a.toList) : Writable (.atom a)
  | var {x : Var} (h : IsVariable x.name.toList) : Writable (.var x)
  | app {f : String} {args : List Term} (hf : IsName f.toList) (hne : args ≠ [])
      (hargs : ∀ t ∈ args, Writable t) : Writable (.app f args)

/-- A fact has no variable, and a rule without body has one. -/
inductive WritableClause : Clause → Prop where
  | fact {head : Compound} (hhead : Writable head.toTerm) (hvars : head.vars = []) :
      WritableClause (.fact head)
  | rule {head : Compound} {body : List Compound} (hhead : Writable head.toTerm)
      (hbody : ∀ g ∈ body, Writable g.toTerm) (hvars : body = [] → head.vars ≠ []) :
      WritableClause (.rule ⟨head, body⟩)

@[simp] theorem writable_var {x : Var} : Writable (.var x) ↔ IsVariable x.name.toList :=
  ⟨fun h => by cases h; assumption, .var⟩

@[simp] theorem writable_app {f : String} {args : List Term} :
    Writable (.app f args) ↔ IsName f.toList ∧ args ≠ [] ∧ ∀ t ∈ args, Writable t :=
  ⟨fun h => by cases h; exact ⟨‹_›, ‹_›, ‹_›⟩, fun ⟨hf, hne, hargs⟩ => .app hf hne hargs⟩

/-! ## Clearing flags -/

abbrev cleared : Compound → Compound := Clause.unflagged.clear

theorem toTerm_cleared (c : Compound) : (cleared c).toTerm = c.toTerm.unflagged := by
  simp [cleared, Clause.unflagged.clear, Compound.toTerm, Term.unflagged]

theorem vars_cleared_eq_nil {c : Compound} : (cleared c).vars = [] ↔ c.vars = [] := by
  constructor <;> intro h <;> refine List.eq_nil_iff_forall_not_mem.2 fun x hx => ?_
  · obtain ⟨t, ht, hx⟩ := Compound.mem_vars.1 hx
    have hcleared : Var.ofName x.name ∈ (cleared c).vars :=
      Compound.mem_vars.2 ⟨_, List.mem_map_of_mem ht, Term.mem_vars_subst.2 ⟨x, hx, by simp⟩⟩
    simp [h] at hcleared
  · obtain ⟨_, hu, hx⟩ := Compound.mem_vars.1 hx
    obtain ⟨t, ht, rfl⟩ := List.mem_map.1 hu
    obtain ⟨y, hy, -⟩ := Term.mem_vars_subst.1 hx
    have hvar : y ∈ c.vars := Compound.mem_vars.2 ⟨t, ht, hy⟩
    simp [h] at hvar

theorem writable_unflagged {t : Term} : Writable t.unflagged ↔ Writable t := by
  induction t with
  | num n => simp [Term.unflagged]
  | atom a => simp [Term.unflagged]
  | var x => simp [Term.unflagged, Var.ofName]
  | app f args ih =>
    simp only [Term.unflagged, Term.subst_app, writable_app, List.map_eq_nil_iff, ne_eq,
      List.forall_mem_map]
    exact and_congr_right' (and_congr_right' (forall₂_congr ih))

theorem writable_cleared {c : Compound} : Writable (cleared c).toTerm ↔ Writable c.toTerm := by
  rw [toTerm_cleared, writable_unflagged]

theorem writableClause_of_unflagged {c : Clause} (h : WritableClause c.unflagged) :
    WritableClause c := by
  cases c with
  | fact head =>
    cases h with
    | fact hhead hvars => exact .fact (writable_cleared.1 hhead) (vars_cleared_eq_nil.1 hvars)
  | rule r =>
    cases h with
    | rule hhead hbody hvars =>
      refine .rule (writable_cleared.1 hhead) (fun g hg => ?_) fun hnil h => ?_
      · exact writable_cleared.1 (hbody _ (List.mem_map_of_mem hg))
      · exact hvars (by simp [hnil]) (vars_cleared_eq_nil.2 h)

/-! ## Written forms in front of a text -/

theorem charsAll_cons_cons (t u : Term) (ts : List Term) (rest : List Char) :
    Term.charsAll (t :: u :: ts) rest = t.chars (',' :: ' ' :: Term.charsAll (u :: ts) rest) := by
  rfl

theorem charsAll_append {ts : List Term}
    (h : ∀ t ∈ ts, ∀ s rest, t.chars (s ++ rest) = t.chars s ++ rest) (s rest : List Char) :
    Term.charsAll ts (s ++ rest) = Term.charsAll ts s ++ rest := by
  induction ts with
  | nil => simp [Term.charsAll]
  | cons t ts ih =>
    obtain ⟨ht, hts⟩ := List.forall_mem_cons.1 h
    match ts with
    | [] => simpa [Term.charsAll] using ht s rest
    | u :: ts =>
      rw [charsAll_cons_cons, charsAll_cons_cons, ih hts, ← ht]
      rfl

theorem chars_append (t : Term) (s rest : List Char) :
    t.chars (s ++ rest) = t.chars s ++ rest := by
  induction t generalizing s rest with
  | num n => simp [Term.chars]
  | atom a => simp [Term.chars]
  | var x => simp [Term.chars]
  | app f args ih =>
    rw [Term.chars, Term.chars, ← List.cons_append, charsAll_append ih]
    simp

/-- Items in a row, with a comma and a blank between neighbours, are separated. -/
theorem separated_charsAll {α β : Type} {item : List Char → β → List Char → Prop}
    {written : α → Term} {read : α → β} {as : List α} (hne : as ≠ [])
    (h : ∀ a ∈ as, ∀ rest, item ((written a).chars rest) (read a) rest) (rest : List Char) :
    Separated item (Term.charsAll (as.map written) rest) (as.map read) rest := by
  induction as with
  | nil => exact absurd rfl hne
  | cons a as ih =>
    obtain ⟨ha, has⟩ := List.forall_mem_cons.1 h
    match as with
    | [] =>
      simpa [Term.charsAll] using .one .none (ha rest) .none
    | b :: as =>
      simp only [List.map_cons] at ih ⊢
      rw [charsAll_cons_cons]
      exact .cons .none (ha _) .none ((ih (by simp) has).before (.space (.inl rfl) .none))

/-- A number that is not negative is written in the digits of a numeral. -/
theorem termAt_num {n : Int64} (h : 0 ≤ n.toInt) (rest : List Char) :
    TermAt ((Term.num n).chars rest) (.num n) rest := by
  obtain ⟨k, hk⟩ := Int.eq_ofNat_of_zero_le h
  have hn : n = .ofNat k := by
    rw [← Int64.ofInt_toInt n, hk]
    rfl
  have hchars : (Term.num n).chars rest = Nat.toDigits 10 k ++ rest := by
    rw [Term.chars, hk, ← Nat.toList_repr]
    rfl
  have hdigits : IsNumber (Nat.toDigits 10 k) :=
    ⟨Nat.toDigits_ne_nil, fun c => Nat.isDigit_of_mem_toDigits (by decide) (by decide)⟩
  have hvalue : Nat.ofDigitChars 10 (Nat.toDigits 10 k) 0 = k := Nat.ofDigitChars_ten_toDigits
  have hmax : k ≤ 2 ^ 63 - 1 := by
    have hlt := n.toInt_lt
    omega
  have hterm : TermAt (Nat.toDigits 10 k ++ rest) _ rest :=
    .number hdigits (hvalue.symm ▸ hmax)
  rwa [hvalue, ← hn, ← hchars] at hterm

/-- The written form of a writable term is a phrase for it. -/
theorem termAt_chars {t : Term} (ht : Writable t) (rest : List Char) :
    TermAt (t.chars rest) t.unflagged rest := by
  induction ht generalizing rest with
  | num h => simpa [Term.unflagged] using termAt_num h rest
  | @atom a h =>
    have hterm : TermAt (a.toList ++ rest) _ rest := .name h
    simpa [Term.chars, Term.unflagged] using hterm
  | @var x h =>
    have hterm : TermAt (x.name.toList ++ rest) _ rest := .var h
    simpa [Term.chars, Term.unflagged] using hterm
  | @app f args hf hne hargs ih =>
    have hargs : Separated TermAt (Term.charsAll (args.map id) (')' :: rest))
        (args.map Term.unflagged) (')' :: rest) := separated_charsAll hne ih _
    rw [List.map_id] at hargs
    have happlied := Applied.intro hf .none hargs
    simpa [Term.chars, Term.unflagged] using TermAt.compound happlied

theorem compoundAt_chars {c : Compound} (hc : Writable c.toTerm) (rest : List Char) :
    CompoundAt (c.toTerm.chars rest) (cleared c) rest := by
  have hterm := termAt_chars hc rest
  rw [← toTerm_cleared] at hterm
  generalize c.toTerm.chars rest = s at hterm
  cases hterm with
  | compound h => exact h

theorem toList_text_append (c : Compound) (rest : List Char) :
    c.text.toList ++ rest = c.toTerm.chars rest := by
  simp [Compound.text, Term.text, ← chars_append]

theorem toList_textAll_append (gs : List Compound) (rest : List Char) :
    (Compound.textAll gs).toList ++ rest = Term.charsAll (gs.map Compound.toTerm) rest := by
  simp [Compound.textAll, ← charsAll_append fun t _ => chars_append t]

theorem goalsAt_textAll {gs : List Compound} (hne : gs ≠ [])
    (hgs : ∀ g ∈ gs, Writable g.toTerm) (rest : List Char) :
    GoalsAt ((Compound.textAll gs).toList ++ rest) (gs.map cleared) rest := by
  rw [toList_textAll_append]
  exact separated_charsAll hne (fun g hg => compoundAt_chars (hgs g hg)) rest

theorem clauseAt_text {c : Clause} (hc : WritableClause c) (rest : List Char) :
    ClauseAt (c.text.toList ++ rest) c.unflagged rest := by
  have headAt {head : Compound} (hhead : Writable head.toTerm) (behind : List Char) :
      CompoundAt (head.text.toList ++ behind) (cleared head) behind :=
    toList_text_append head behind ▸ compoundAt_chars hhead behind
  cases hc with
  | fact hhead hvars =>
    simpa [Clause.text, Clause.unflagged] using
      ClauseAt.fact .none (headAt hhead ('.' :: rest)) .none (vars_cleared_eq_nil.2 hvars)
  | @rule head body hhead hbody hvars =>
    match body with
    | [] =>
      have hcleared : (cleared head).vars ≠ [] := fun h => hvars rfl (vars_cleared_eq_nil.1 h)
      simpa [Clause.text, Rule.text, Clause.unflagged] using
        ClauseAt.general .none (headAt hhead ('.' :: rest)) .none hcleared
    | g :: gs =>
      have hspace {s : List Char} : Blank (' ' :: s) s := .space (.inl rfl) .none
      have hgoals := goalsAt_textAll (by simp) hbody ('.' :: rest)
      have hhead := headAt hhead
        (' ' :: ':' :: '-' :: ' ' :: ((Compound.textAll (g :: gs)).toList ++ '.' :: rest))
      simpa [Clause.text, Rule.text, Clause.unflagged] using
        ClauseAt.rule .none hhead hspace (hgoals.before hspace)

theorem clausesAt_programText {cs : List Clause} (hcs : ∀ c ∈ cs, WritableClause c) :
    ClausesAt (programText cs).toList (cs.map Clause.unflagged) := by
  induction cs with
  | nil => exact .nil
  | cons c cs ih =>
    obtain ⟨hc, hcs⟩ := List.forall_mem_cons.1 hcs
    have hclause := clauseAt_text hc ('\n' :: (programText cs).toList)
    simpa [programText] using ClausesAt.cons hclause (.space (by simp) .none) (ih hcs)

/-! ## The trees of the grammar -/

theorem Separated.exists_of_mem {α : Type} {item : List Char → α → List Char → Prop}
    {s rest : List Char} {as : List α} (has : Separated item s as rest) {a : α} (ha : a ∈ as) :
    ∃ t u, item t a u := by
  induction has with
  | one _ hitem _ =>
    obtain rfl := List.mem_singleton.1 ha
    exact ⟨_, _, hitem⟩
  | cons _ hitem _ _ ih =>
    rcases List.mem_cons.1 ha with rfl | ha
    · exact ⟨_, _, hitem⟩
    · exact ih ha

theorem writable_of_termAt {t : Term} {s rest : List Char} (ht : TermAt s t rest) :
    Writable t ∧ t.unflagged = t := by
  induction t generalizing s rest with
  | num n =>
    cases ht with
    | number hdigits hmax =>
      refine ⟨.num ?_, by simp [Term.unflagged]⟩
      rw [Int64.toInt_ofNat_of_lt (by omega)]
      exact Int.natCast_nonneg _
  | atom a =>
    cases ht with
    | name hname => exact ⟨.atom (by simpa using hname), by simp [Term.unflagged]⟩
  | var x =>
    cases ht with
    | var hname =>
      refine ⟨.var ?_, by simp [Term.unflagged, Var.ofName]⟩
      simpa [Var.ofName] using hname
  | app f args ih =>
    cases ht with
    | compound h =>
      cases h with
      | intro hname hopen hargs =>
        have hall : ∀ t ∈ args, Writable t ∧ t.unflagged = t := fun t ht => by
          obtain ⟨s, rest, hterm⟩ := hargs.exists_of_mem ht
          exact ih t ht hterm
        refine ⟨.app (by simpa using hname) hargs.ne_nil fun t ht => (hall t ht).1, ?_⟩
        have hmap : args.map Term.unflagged = args.map id :=
          List.map_congr_left fun t ht => (hall t ht).2
        simpa [Term.unflagged] using hmap

theorem writable_of_compoundAt {c : Compound} {s rest : List Char} (hc : CompoundAt s c rest) :
    Writable c.toTerm ∧ cleared c = c := by
  obtain ⟨hwritable, hclear⟩ := writable_of_termAt (.compound hc)
  obtain ⟨f, args⟩ := c
  exact ⟨hwritable, congrArg (Compound.mk f) (Term.app.inj ((toTerm_cleared _).trans hclear)).2⟩

theorem writable_of_goalsAt {gs : List Compound} {s rest : List Char} (hgs : GoalsAt s gs rest) :
    gs ≠ [] ∧ (∀ g ∈ gs, Writable g.toTerm) ∧ gs.map cleared = gs := by
  have hall : ∀ g ∈ gs, Writable g.toTerm ∧ cleared g = g := fun g hg => by
    obtain ⟨s, rest, hgoal⟩ := hgs.exists_of_mem hg
    exact writable_of_compoundAt hgoal
  refine ⟨hgs.ne_nil, fun g hg => (hall g hg).1, ?_⟩
  have hmap : gs.map cleared = gs.map id := List.map_congr_left fun g hg => (hall g hg).2
  simpa using hmap

theorem writable_of_clauseAt {c : Clause} {s rest : List Char} (hc : ClauseAt s c rest) :
    WritableClause c ∧ c.unflagged = c := by
  cases hc with
  | fact _ hhead _ hvars =>
    obtain ⟨hwritable, hclear⟩ := writable_of_compoundAt hhead
    exact ⟨.fact hwritable hvars, congrArg Clause.fact hclear⟩
  | general _ hhead _ hvars =>
    obtain ⟨hwritable, hclear⟩ := writable_of_compoundAt hhead
    refine ⟨.rule hwritable (by simp) fun _ => hvars, ?_⟩
    exact congrArg (fun h => Clause.rule ⟨h, []⟩) hclear
  | rule _ hhead _ hbody =>
    obtain ⟨hwritable, hclear⟩ := writable_of_compoundAt hhead
    obtain ⟨hne, hgoals, hmap⟩ := writable_of_goalsAt hbody
    refine ⟨.rule hwritable hgoals fun hnil => absurd hnil hne, ?_⟩
    exact congrArg₂ (fun h b => Clause.rule ⟨h, b⟩) hclear hmap

theorem writable_of_clausesAt {cs : List Clause} {s : List Char} (hcs : ClausesAt s cs) :
    (∀ c ∈ cs, WritableClause c) ∧ cs.map Clause.unflagged = cs := by
  induction hcs with
  | nil => simp
  | cons hc _ _ ih =>
    obtain ⟨hwritable, hclear⟩ := writable_of_clauseAt hc
    simpa [hclear] using ⟨⟨hwritable, ih.1⟩, ih.2⟩

/-! ## Back and forth -/

theorem parseProgram_programText {cs : List Clause} (hcs : ∀ c ∈ cs, WritableClause c) :
    parseProgram (programText cs) = .ok (cs.map Clause.unflagged) :=
  parseProgram_iff.2 ⟨_, .none, clausesAt_programText hcs⟩

theorem parseQuery_queryText {gs : List Compound} (hne : gs ≠ [])
    (hgs : ∀ g ∈ gs, Writable g.toTerm) : parseQuery (queryText gs) = .ok (gs.map cleared) := by
  refine parseQuery_iff.2 ⟨_, [], .none, ?_, .none⟩
  simpa [queryText] using goalsAt_textAll hne hgs ['.']

theorem writable_of_parseProgram {text : String} {cs : List Clause}
    (h : parseProgram text = .ok cs) :
    (∀ c ∈ cs, WritableClause c) ∧ cs.map Clause.unflagged = cs := by
  obtain ⟨t, -, hcs⟩ := parseProgram_iff.1 h
  exact writable_of_clausesAt hcs

theorem writable_of_parseQuery {text : String} {gs : List Compound}
    (h : parseQuery text = .ok gs) :
    gs ≠ [] ∧ (∀ g ∈ gs, Writable g.toTerm) ∧ gs.map cleared = gs := by
  obtain ⟨t, u, -, hgs, -⟩ := parseQuery_iff.1 h
  exact writable_of_goalsAt hgs

theorem forall₂_eq_map_iff {α β : Type} {f : α → β} {as bs : List α} :
    List.Forall₂ (fun a b => f a = f b) as bs ↔ as.map f = bs.map f := by
  rw [← List.forall₂_eq_eq_eq, List.forall₂_map_left_iff, List.forall₂_map_right_iff]

theorem forall₂_clause_alike_iff {cs ds : List Clause} :
    List.Forall₂ Clause.Alike cs ds ↔ cs.map Clause.unflagged = ds.map Clause.unflagged :=
  forall₂_eq_map_iff

theorem alike_iff_cleared {c d : Compound} : c.Alike d ↔ cleared c = cleared d := by
  rw [Compound.Alike, Term.Alike, ← toTerm_cleared, ← toTerm_cleared]
  simp [Compound.toTerm, Clause.unflagged.clear]

theorem forall₂_compound_alike_iff {gs hs : List Compound} :
    List.Forall₂ Compound.Alike gs hs ↔ gs.map cleared = hs.map cleared := by
  simp only [funext₂ fun c d => propext (alike_iff_cleared (c := c) (d := d)), forall₂_eq_map_iff]

/-- A program, written clause by clause, is read back exactly if its clauses are
writable, and a conjunction of goals exactly if it has a goal and its goals are
writable. So a program text can be replaced by the written form of what is read
from it. -/
theorem read_back_iff_writable :
    (∀ cs, (∃ ds, parseProgram (programText cs) = .ok ds ∧ List.Forall₂ Clause.Alike ds cs) ↔
      ∀ c ∈ cs, WritableClause c) ∧
    (∀ gs, (∃ hs, parseQuery (queryText gs) = .ok hs ∧ List.Forall₂ Compound.Alike hs gs) ↔
      gs ≠ [] ∧ ∀ g ∈ gs, Writable g.toTerm) ∧
    ∀ text cs, parseProgram text = .ok cs → parseProgram (programText cs) = .ok cs := by
  refine ⟨fun cs => ⟨?_, fun hcs => ?_⟩, fun gs => ⟨?_, fun ⟨hne, hgs⟩ => ?_⟩, fun text cs h => ?_⟩
  · rintro ⟨ds, hparse, halike⟩ c hc
    obtain ⟨hwritable, hclear⟩ := writable_of_parseProgram hparse
    have hmap : ds = cs.map Clause.unflagged := by
      rw [← forall₂_clause_alike_iff.1 halike, hclear]
    exact writableClause_of_unflagged (hwritable _ (hmap ▸ List.mem_map_of_mem hc))
  · have hparse := parseProgram_programText hcs
    exact ⟨_, hparse, forall₂_clause_alike_iff.2 (writable_of_parseProgram hparse).2⟩
  · rintro ⟨hs, hparse, halike⟩
    obtain ⟨hne, hwritable, hclear⟩ := writable_of_parseQuery hparse
    have hmap : hs = gs.map cleared := by
      rw [← forall₂_compound_alike_iff.1 halike, hclear]
    refine ⟨fun hnil => hne (by simp [hmap, hnil]), fun g hg => ?_⟩
    exact writable_cleared.1 (hwritable _ (hmap ▸ List.mem_map_of_mem hg))
  · have hparse := parseQuery_queryText hne hgs
    exact ⟨_, hparse, forall₂_compound_alike_iff.2 (writable_of_parseQuery hparse).2.2⟩
  · obtain ⟨hwritable, hclear⟩ := writable_of_parseProgram h
    rw [parseProgram_programText hwritable, hclear]

/-- Comments and blanks of a text are lost, its clauses are not. -/
theorem read_back_iff_writable_comment :
    parseProgram "% one fact\nbird ( tweety ).flies(X):-bird(X)." =
      .ok [.fact ⟨"bird", [.atom "tweety"]⟩,
        .rule ⟨⟨"flies", [.var (.ofName "X")]⟩, [⟨"bird", [.var (.ofName "X")]⟩]⟩] ∧
    parseProgram (programText [.fact ⟨"bird", [.atom "tweety"]⟩,
        .rule ⟨⟨"flies", [.var (.ofName "X")]⟩, [⟨"bird", [.var (.ofName "X")]⟩]⟩]) =
      .ok [.fact ⟨"bird", [.atom "tweety"]⟩,
        .rule ⟨⟨"flies", [.var (.ofName "X")]⟩, [⟨"bird", [.var (.ofName "X")]⟩]⟩] := by
  have hparse : parseProgram "% one fact\nbird ( tweety ).flies(X):-bird(X)." =
      .ok [.fact ⟨"bird", [.atom "tweety"]⟩,
        .rule ⟨⟨"flies", [.var (.ofName "X")]⟩, [⟨"bird", [.var (.ofName "X")]⟩]⟩] := by
    decide +kernel
  exact ⟨hparse, read_back_iff_writable.2.2 _ _ hparse⟩

end Source

end HornSearch
