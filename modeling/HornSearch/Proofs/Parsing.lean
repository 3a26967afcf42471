import HornSearch.Proofs.Reading
import HornSearch.Proofs.Substitution
import HornSearch.Proofs.Tokens

/-!
# The parser reads the grammar

What a parser reads is a phrase of the grammar (`Sound`), and it reads every
phrase of the grammar that stands in its place (`Reads`). For the second, the
text behind a term matters: a name ends where the grammar says so because a
mark follows it (`Marked`), and no mark begins arguments.
-/

namespace HornSearch.Source

section
variable {α : Type} {phrase : List Char → α → List Char → Prop}

/-! ## What is read is a phrase -/

/-- The parser reads only phrases, each from behind blanks. -/
def Sound (phrase : List Char → α → List Char → Prop) (parser : Parse α) : Prop :=
  ∀ {s a ts}, parser (tokens s) = .ok (a, ts) →
    ∃ t rest, Blank s t ∧ phrase t a rest ∧ ts = tokens rest

theorem sound_commaSeparated {item : Parse α} (hitem : Sound phrase item) (n : Nat) :
    Sound (Separated phrase) (commaSeparated item n) := by
  induction n with
  | zero =>
    intro s as ts h
    cases h
  | succ n ih =>
    intro s as ts h
    obtain ⟨⟨a, behind⟩, hi, h⟩ := bind_eq_ok_iff.1 h
    obtain ⟨t, u, hbefore, ha, rfl⟩ := hitem hi
    have alone : ∃ t rest, Blank s t ∧ Separated phrase t [a] rest ∧ tokens u = tokens rest :=
      ⟨s, u, .none, .one hbefore ha .none, rfl⟩
    simp only at h
    split at h
    · rename_i hcomma
      obtain ⟨hbehind, v, hspells, rfl⟩ := (tokens_eq_cons_iff (by simp)).1 hcomma
      cases hspells
      split at h
      · rename_i hmore
        cases h
        obtain ⟨w, rest, hw, has, rfl⟩ := ih hmore
        exact ⟨s, rest, .none, .cons hbefore ha hbehind (has.before hw), rfl⟩
      · cases h; exact alone
    · cases h; exact alone

abbrev ArgumentsAt (s : List Char) (args : List Term) (rest : List Char) : Prop :=
  ∃ t, s = '(' :: t ∧ Separated TermAt t args (')' :: rest)

theorem sound_arguments {term : Parse Term} (hterm : Sound TermAt term) (n : Nat) :
    Sound ArgumentsAt (arguments term n) := by
  intro s args ts h
  unfold arguments at h
  split at h
  · rename_i hleft
    obtain ⟨hopen, t, hspells, rfl⟩ := (tokens_eq_cons_iff (by simp)).1 hleft
    cases hspells
    obtain ⟨⟨as, behind⟩, hread, h⟩ := bind_eq_ok_iff.1 h
    obtain ⟨t', u, hbefore, has, rfl⟩ := sound_commaSeparated hterm n hread
    simp only at h
    split at h
    · rename_i hright
      obtain ⟨hclose, rest, hspells, rfl⟩ := (tokens_eq_cons_iff (by simp)).1 hright
      cases hspells
      cases h
      exact ⟨_, rest, hopen, ⟨t, rfl, (has.before hbefore).behind hclose⟩, rfl⟩
    · cases h
  · cases h

theorem sound_term (n : Nat) : Sound TermAt (term n) := by
  induction n with
  | zero =>
    intro s t ts h
    cases h
  | succ n ih =>
    intro s t ts h
    match hts : tokens s, h with
    | ⟨.name f, _⟩ :: _, h =>
      obtain ⟨hbefore, u, hspells, rfl⟩ := (tokens_eq_cons_iff (by simp)).1 hts
      rw [term_name] at h
      cases hspells with
      | name hword _ =>
        split at h
        · rename_i hread
          cases h
          obtain ⟨v, rest, hopen, ⟨t, rfl, hargs⟩, rfl⟩ := sound_arguments ih n hread
          exact ⟨_, rest, hbefore, .compound (.intro hword hopen hargs), rfl⟩
        · cases h
          exact ⟨_, u, hbefore, .name hword, rfl⟩
    | ⟨.number k, start⟩ :: ts', h =>
      obtain ⟨hbefore, u, hspells, rfl⟩ := (tokens_eq_cons_iff (by simp)).1 hts
      change (if k < 2 ^ 63 then .ok (.num (Int64.ofNat k), tokens u)
        else .error (⟨.number k, start⟩ :: tokens u)) = Except.ok (t, ts) at h
      split at h
      · rename_i hmax
        cases h
        cases hspells with
        | number hdigits _ =>
          exact ⟨_, u, hbefore, .number hdigits (Nat.le_sub_one_of_lt hmax), rfl⟩
      · cases h
    | ⟨.var x, _⟩ :: _, h =>
      obtain ⟨hbefore, u, hspells, rfl⟩ := (tokens_eq_cons_iff (by simp)).1 hts
      cases h
      cases hspells with
      | var hword _ => exact ⟨_, u, hbefore, .var hword, rfl⟩
    | [], h | ⟨.left, _⟩ :: _, h | ⟨.right, _⟩ :: _, h | ⟨.comma, _⟩ :: _, h
    | ⟨.period, _⟩ :: _, h | ⟨.neck, _⟩ :: _, h | ⟨.stray _, _⟩ :: _, h => cases h

theorem sound_compound (n : Nat) : Sound CompoundAt (compound n) := by
  intro s c ts h
  unfold compound at h
  split at h
  · rename_i hname
    obtain ⟨hbefore, u, hspells, rfl⟩ := (tokens_eq_cons_iff (by simp)).1 hname
    obtain ⟨⟨args, behind⟩, hread, h⟩ := bind_eq_ok_iff.1 h
    cases h
    obtain ⟨v, rest, hopen, ⟨t, rfl, hargs⟩, rfl⟩ := sound_arguments (sound_term n) n hread
    cases hspells with
    | name hword _ => exact ⟨_, rest, hbefore, .intro hword hopen hargs, rfl⟩
  · cases h

theorem sound_goals (n : Nat) : Sound GoalsAt (goals n) :=
  sound_commaSeparated (sound_compound n) n

theorem classify_of_vars_eq_nil {head : Compound} (h : head.vars = []) :
    Clause.classify head = .fact head :=
  if_pos (List.isEmpty_iff.2 h)

theorem classify_of_vars_ne_nil {head : Compound} (h : head.vars ≠ []) :
    Clause.classify head = .rule ⟨head, []⟩ :=
  if_neg fun hground => h (List.isEmpty_iff.1 hground)

/-- A head alone is a clause. -/
theorem clauseAt_classify {s t u rest : List Char} {head : Compound} (hbefore : Blank s t)
    (hhead : CompoundAt t head u) (hbehind : Blank u ('.' :: rest)) :
    ClauseAt s (.classify head) rest := by
  by_cases hvars : head.vars = []
  · rw [classify_of_vars_eq_nil hvars]
    exact .fact hbefore hhead hbehind hvars
  · rw [classify_of_vars_ne_nil hvars]
    exact .general hbefore hhead hbehind hvars

theorem sound_clause (n : Nat) : Sound ClauseAt (clause n) := by
  intro s c ts h
  obtain ⟨⟨head, behind⟩, hread, h⟩ := bind_eq_ok_iff.1 h
  obtain ⟨t, u, hbefore, hhead, rfl⟩ := sound_compound n hread
  simp only at h
  split at h
  · rename_i hperiod
    obtain ⟨hbehind, rest, hspells, rfl⟩ := (tokens_eq_cons_iff (by simp)).1 hperiod
    cases hspells
    cases h
    exact ⟨s, rest, .none, clauseAt_classify hbefore hhead hbehind, rfl⟩
  · rename_i hneck
    obtain ⟨hbehind, v, hspells, rfl⟩ := (tokens_eq_cons_iff (by simp)).1 hneck
    cases hspells
    split at h
    · rename_i hgoals
      cases h
      obtain ⟨v', w, hv, hbody, hperiod⟩ := sound_goals n hgoals
      obtain ⟨hend, rest, hspells, rfl⟩ := (tokens_eq_cons_iff (by simp)).1 hperiod.symm
      cases hspells
      exact ⟨s, rest, .none,
        .rule hbefore hhead hbehind ((hbody.before hv).behind hend), rfl⟩
    · cases h
  · cases h

theorem isProgram_of_clauses {n k : Nat} {s : List Char} {cs : List Clause}
    (h : clauses n k (tokens s) = .ok cs) : IsProgram s cs := by
  induction k generalizing s cs with
  | zero =>
    match hts : tokens s, h with
    | [], rfl => exact ⟨[], tokens_eq_nil_iff.1 hts, .nil⟩
  | succ k ih =>
    match hts : tokens s, h with
    | [], rfl => exact ⟨[], tokens_eq_nil_iff.1 hts, .nil⟩
    | l :: ts, h =>
      obtain ⟨⟨c, behind⟩, hread, h⟩ := bind_eq_ok_iff.1 h
      obtain ⟨cs', hmore, h⟩ := bind_eq_ok_iff.1 h
      cases h
      obtain ⟨t, u, hbefore, hc, rfl⟩ := sound_clause n (hts ▸ hread)
      obtain ⟨v, hbehind, hcs⟩ := ih hmore
      exact ⟨t, hbefore, .cons hc hbehind hcs⟩

theorem isQuery_of_conjunction {n : Nat} {s : List Char} {gs : List Compound}
    (h : conjunction n (tokens s) = .ok gs) : IsQuery s gs := by
  obtain ⟨⟨gs', behind⟩, hread, h⟩ := bind_eq_ok_iff.1 h
  obtain ⟨t, u, hbefore, hgs, rfl⟩ := sound_goals n hread
  simp only at h
  split at h
  · rename_i hperiod
    obtain ⟨hend, rest, hspells, hnil⟩ := (tokens_eq_cons_iff (by simp)).1 hperiod
    cases hspells
    cases h
    exact ⟨t, rest, hbefore, hgs.behind hend, tokens_eq_nil_iff.1 hnil.symm⟩
  · cases h
  · cases h

/-! ## A phrase is read -/

/-- Behind blanks stands one of these marks. -/
def Marked (marks : List Char) (rest : List Char) : Prop :=
  ∃ c ∈ marks, ∃ t, Blank rest (c :: t)

/-- From text `s` the parser reads `a` and leaves `rest`. Its bound need not be
larger than the number of tokens that it reads. -/
def Reads (parser : Nat → Parse α) (s : List Char) (a : α) (rest : List Char) : Prop :=
  (tokens rest).length < (tokens s).length ∧
    ∀ n, (tokens s).length ≤ n + (tokens rest).length → parser n (tokens s) = .ok (a, tokens rest)

theorem Reads.of_succ {parser : Nat → Parse α} {s rest : List Char} {a : α}
    (hlt : (tokens rest).length < (tokens s).length)
    (h : ∀ n, (tokens s).length ≤ n + 1 + (tokens rest).length →
      parser (n + 1) (tokens s) = .ok (a, tokens rest)) : Reads parser s a rest := by
  refine ⟨hlt, fun n hn => ?_⟩
  obtain ⟨n, rfl⟩ : ∃ k, n = k + 1 := ⟨n - 1, by omega⟩
  exact h n hn

/-- A class without blanks and comments ends where blanks end at a character
outside it. -/
theorem stops_of_blank {p : Char → Bool} (hp : BlankFree p) {s t : List Char} {c : Char}
    (h : Blank s (c :: t)) (hc : p c = false) : Stops p s := by
  obtain ⟨hspace, htab, hreturn, hfeed, hpercent⟩ := hp
  intro d hd
  cases h with
  | none =>
    cases hd
    exact hc
  | space hblank _ =>
    cases hd
    rcases hblank with rfl | rfl | rfl | rfl <;> assumption
  | comment _ _ _ =>
    cases hd
    exact hpercent

theorem Marked.stops {p : Char → Bool} {rest : List Char} (hp : BlankFree p)
    (hmarks : p ',' = false ∧ p ')' = false ∧ p '.' = false)
    (h : Marked [',', ')', '.'] rest) : Stops p rest := by
  obtain ⟨c, hc, t, hblank⟩ := h
  refine stops_of_blank hp hblank ?_
  obtain rfl | rfl | rfl : c = ',' ∨ c = ')' ∨ c = '.' := by simpa using hc
  · exact hmarks.1
  · exact hmarks.2.1
  · exact hmarks.2.2

theorem commaSeparated_last {item : Parse α} {n : Nat} {ts rest : List Lexeme} {a : α}
    (h : item ts = .ok (a, rest)) (hrest : ∀ start more, rest ≠ ⟨.comma, start⟩ :: more) :
    commaSeparated item (n + 1) ts = .ok ([a], rest) := by
  refine bind_eq_ok_iff.2 ⟨_, h, ?_⟩
  -- What is left behind the item decides, and `hrest` excludes the comma.
  simp only

theorem commaSeparated_cons {item : Parse α} {n : Nat} {ts more rest : List Lexeme}
    {start : List Char} {a : α} {as : List α} (h : item ts = .ok (a, ⟨.comma, start⟩ :: more))
    (hmore : commaSeparated item n more = .ok (as, rest)) :
    commaSeparated item (n + 1) ts = .ok (a :: as, rest) := by
  refine bind_eq_ok_iff.2 ⟨_, h, ?_⟩
  simp only [hmore]

/-- A list is read in front of a mark that is no comma. -/
theorem reads_commaSeparated {item : Nat → Parse α} {s rest : List Char} {as : List α}
    (has : Separated phrase s as rest) (hrest : Marked [')', '.'] rest)
    (hitem : ∀ a ∈ as, ∀ {t u}, phrase t a u → Marked [',', ')', '.'] u → Reads item t a u) :
    (tokens rest).length < (tokens s).length ∧
      ∀ m n, (tokens s).length ≤ m + (tokens rest).length →
        (tokens s).length ≤ n + (tokens rest).length →
        commaSeparated (item m) n (tokens s) = .ok (as, tokens rest) := by
  induction has with
  | one hbefore ha hbehind =>
    -- The mark behind the list is one behind its last item, but no comma to go on with.
    obtain ⟨c, hc, t, hmark⟩ := hrest
    have hmarked : Marked [',', ')', '.'] _ := ⟨c, by simp_all, t, hbehind.trans hmark⟩
    obtain ⟨hlt, hread⟩ := hitem _ (by simp) ha hmarked
    rw [tokens_of_blank hbefore, ← tokens_of_blank hbehind]
    refine ⟨hlt, fun m n hm hn => ?_⟩
    obtain ⟨n, rfl⟩ : ∃ k, n = k + 1 := ⟨n - 1, by omega⟩
    refine commaSeparated_last (hread m hm) fun start more hcomma => ?_
    rw [tokens_of_blank (hbehind.trans hmark)] at hcomma
    obtain rfl | rfl : c = ')' ∨ c = '.' := by simpa using hc
    · cases Spells.right.tokens_eq.symm.trans hcomma
    · cases Spells.period.tokens_eq.symm.trans hcomma
  | cons hbefore ha hbehind _ ih =>
    obtain ⟨hlt, hread⟩ := hitem _ (by simp) ha ⟨',', by simp, _, hbehind⟩
    obtain ⟨hmore, hreads⟩ := ih hrest fun a ha => hitem a (by simp [ha])
    rw [tokens_of_blank hbefore]
    rw [tokens_of_blank hbehind, Spells.comma.tokens_eq, List.length_cons] at hlt hread
    refine ⟨by omega, fun m n hm hn => ?_⟩
    -- Every item takes a token, so the bound of the list goes down by one for each.
    obtain ⟨n, rfl⟩ : ∃ k, n = k + 1 := ⟨n - 1, by omega⟩
    exact commaSeparated_cons (hread m (by omega)) (hreads m n (by omega) (by omega))

end

section
variable {name s t rest : List Char} {args : List Term}

theorem tokens_applied (hname : IsName name) (hopen : Blank s ('(' :: t)) :
    tokens (name ++ s) =
      ⟨.name (.ofList name), name ++ s⟩ :: ⟨.left, '(' :: t⟩ :: tokens t := by
  have hstops : Stops isWordChar s := stops_of_blank (by decide) hopen (by decide)
  rw [(Spells.name hname hstops).tokens_eq, tokens_of_blank hopen, Spells.left.tokens_eq]

/-- Arguments are read if each of them is. -/
theorem reads_arguments (hargs : Separated TermAt t args (')' :: rest))
    (hterm : ∀ a ∈ args, ∀ {t u}, TermAt t a u → Marked [',', ')', '.'] u → Reads term t a u) :
    (tokens rest).length < (tokens t).length ∧
      ∀ n start, (tokens t).length ≤ n + 1 + (tokens rest).length →
        arguments (term n) n (⟨.left, start⟩ :: tokens t) = .ok (args, tokens rest) := by
  obtain ⟨hlt, hread⟩ := reads_commaSeparated hargs ⟨')', by simp, rest, .none⟩ hterm
  rw [Spells.right.tokens_eq, List.length_cons] at hlt hread
  refine ⟨by omega, fun n start hn => bind_eq_ok_iff.2 ⟨_, hread n n (by omega) (by omega), ?_⟩⟩
  rfl

theorem reads_number {digits : List Char} (hdigits : IsNumber digits)
    (hmax : Nat.ofDigitChars 10 digits 0 ≤ 2 ^ 63 - 1) (hrest : Stops Char.isDigit rest) :
    Reads term (digits ++ rest) (.num (.ofNat (Nat.ofDigitChars 10 digits 0))) rest := by
  have hspells := Spells.number hdigits hrest
  refine .of_succ hspells.length_lt fun n _ => ?_
  rw [hspells.tokens_eq, ofDecimal_eq]
  exact if_pos (by omega)

theorem reads_var (hname : IsVariable name) (hrest : Stops isWordChar rest) :
    Reads term (name ++ rest) (.var (.ofName (.ofList name))) rest := by
  have hspells := Spells.var hname hrest
  refine .of_succ hspells.length_lt fun n _ => ?_
  rw [hspells.tokens_eq]
  rfl

/-- A name is read as an atom, since a mark is not the beginning of arguments. -/
theorem reads_atom (hname : IsName name) (hrest : Marked [',', ')', '.'] rest) :
    Reads term (name ++ rest) (.atom (.ofList name)) rest := by
  have hspells := Spells.name hname (hrest.stops (by decide) (by decide))
  refine .of_succ hspells.length_lt fun n _ => ?_
  obtain ⟨c, hc, t, hblank⟩ := hrest
  rw [hspells.tokens_eq, term_name, tokens_of_blank hblank]
  obtain rfl | rfl | rfl : c = ',' ∨ c = ')' ∨ c = '.' := by simpa using hc
  · rw [Spells.comma.tokens_eq]
    rfl
  · rw [Spells.right.tokens_eq]
    rfl
  · rw [Spells.period.tokens_eq]
    rfl

/-- A term is read in front of a mark. -/
theorem reads_term {t : Term} (ht : TermAt s t rest) (hrest : Marked [',', ')', '.'] rest) :
    Reads term s t rest := by
  -- On the tree: its root says which rule of the grammar was used.
  induction t generalizing s rest with
  | num n =>
    cases ht with
    | number hdigits hmax =>
      exact reads_number hdigits hmax (hrest.stops (by decide) (by decide))
  | atom a =>
    cases ht with
    | name hname => exact reads_atom hname hrest
  | var x =>
    cases ht with
    | var hname => exact reads_var hname (hrest.stops (by decide) (by decide))
  | app f args ih =>
    cases ht with
    | compound h =>
      cases h with
      | intro hname hopen hargs =>
        obtain ⟨hlt, hread⟩ := reads_arguments hargs fun a ha _ _ hterm hmark => ih a ha hterm hmark
        have htokens := tokens_applied hname hopen
        have hlen := congrArg List.length htokens
        simp only [List.length_cons] at hlen
        refine .of_succ (by omega) fun n hn => ?_
        rw [htokens, term_name, hread n _ (by omega)]

theorem reads_compound {c : Compound} (hc : CompoundAt s c rest) : Reads compound s c rest := by
  cases hc with
  | intro hname hopen hargs =>
    obtain ⟨hlt, hread⟩ := reads_arguments hargs fun _ _ _ _ => reads_term
    rw [Reads, tokens_applied hname hopen, List.length_cons, List.length_cons]
    refine ⟨by omega, fun n hn => bind_eq_ok_iff.2 ⟨_, hread n _ (by omega), rfl⟩⟩

theorem reads_goals {gs : List Compound} (hgs : GoalsAt s gs ('.' :: rest)) :
    Reads goals s gs ('.' :: rest) := by
  obtain ⟨hlt, hread⟩ := reads_commaSeparated hgs ⟨'.', by simp, rest, .none⟩
    fun _ _ _ _ hc _ => reads_compound hc
  exact ⟨hlt, fun n hn => hread n n hn hn⟩

/-- A head and a period are read as a clause. -/
theorem reads_head {u : List Char} {head : Compound} (hbefore : Blank s t)
    (hhead : CompoundAt t head u) (hbehind : Blank u ('.' :: rest)) :
    Reads clause s (.classify head) rest := by
  obtain ⟨hlt, hread⟩ := reads_compound hhead
  rw [tokens_of_blank hbehind, Spells.period.tokens_eq, List.length_cons] at hlt hread
  rw [Reads, tokens_of_blank hbefore]
  exact ⟨by omega, fun n hn => bind_eq_ok_iff.2 ⟨_, hread n (by omega), rfl⟩⟩

theorem reads_clause {c : Clause} (hc : ClauseAt s c rest) : Reads clause s c rest := by
  cases hc with
  | fact hbefore hhead hbehind hvars =>
    exact classify_of_vars_eq_nil hvars ▸ reads_head hbefore hhead hbehind
  | general hbefore hhead hbehind hvars =>
    exact classify_of_vars_ne_nil hvars ▸ reads_head hbefore hhead hbehind
  | rule hbefore hhead hbehind hbody =>
    obtain ⟨hlt, hread⟩ := reads_compound hhead
    obtain ⟨hlt', hread'⟩ := reads_goals hbody
    rw [tokens_of_blank hbehind, Spells.neck.tokens_eq, List.length_cons] at hlt hread
    rw [Spells.period.tokens_eq, List.length_cons] at hlt' hread'
    rw [Reads, tokens_of_blank hbefore]
    refine ⟨by omega, fun n hn => bind_eq_ok_iff.2 ⟨_, hread n (by omega), ?_⟩⟩
    simp only [hread' n (by omega)]

end

/-! ## Whole texts -/

theorem clauses_cons (n k : Nat) (l : Lexeme) (ts : List Lexeme) :
    clauses n (k + 1) (l :: ts) = (do
      let (c, rest) ← clause n (l :: ts)
      let cs ← clauses n k rest
      .ok (c :: cs)) :=
  rfl

theorem clauses_of_clausesAt {n k : Nat} {s : List Char} {cs : List Clause} (h : ClausesAt s cs)
    (hn : (tokens s).length ≤ n) (hk : (tokens s).length ≤ k) :
    clauses n k (tokens s) = .ok cs := by
  induction h generalizing k with
  | nil => cases k <;> rfl
  | @cons s t u c cs hc hbehind _ ih =>
    obtain ⟨hlt, hread⟩ := reads_clause hc
    rw [tokens_of_blank hbehind] at hlt hread
    obtain ⟨k, rfl⟩ : ∃ j, k = j + 1 := ⟨k - 1, by omega⟩
    obtain ⟨l, ts, hts⟩ := List.exists_cons_of_length_pos (by omega : 0 < (tokens s).length)
    rw [hts, clauses_cons, ← hts]
    exact bind_eq_ok_iff.2 ⟨_, hread n (by omega),
      bind_eq_ok_iff.2 ⟨_, ih (by omega) (by omega), rfl⟩⟩

theorem parse_of_whole {α : Type} {whole : Nat → List Lexeme → Except (List Lexeme) α}
    {text : String} {a : α}
    (h : whole (tokens text.toList).length (tokens text.toList) = .ok a) :
    parse whole text = .ok a := by
  simp only [parse, h]

theorem parseProgram_iff {text : String} {cs : List Clause} :
    parseProgram text = .ok cs ↔ IsProgram text.toList cs := by
  refine ⟨fun h => isProgram_of_clauses (parse_eq_ok h), fun ⟨t, hblank, h⟩ => parse_of_whole ?_⟩
  rw [tokens_of_blank hblank]
  exact clauses_of_clausesAt h (Nat.le_refl _) (Nat.le_refl _)

theorem parseQuery_iff {text : String} {gs : List Compound} :
    parseQuery text = .ok gs ↔ IsQuery text.toList gs := by
  refine ⟨fun h => isQuery_of_conjunction (parse_eq_ok h),
    fun ⟨t, u, hbefore, hgs, hbehind⟩ => parse_of_whole ?_⟩
  obtain ⟨-, hread⟩ := reads_goals hgs
  rw [tokens_of_blank hbefore]
  refine bind_eq_ok_iff.2 ⟨_, hread _ (by omega), ?_⟩
  rw [Spells.period.tokens_eq, tokens_eq_nil_iff.2 hbehind]

/-- The parsers accept exactly the programs and the queries of the grammar, and
give the clauses and the goals that the grammar finds there. -/
theorem parsers_accept_grammar :
    (∀ text cs, parseProgram text = .ok cs ↔ IsProgram text.toList cs) ∧
      ∀ text gs, parseQuery text = .ok gs ↔ IsQuery text.toList gs :=
  ⟨fun _ _ => parseProgram_iff, fun _ _ => parseQuery_iff⟩

end HornSearch.Source
