import HornSearch.Proofs.Parsing
import Mathlib.Logic.Relation

/-!
# Where syntax errors point

A parser leaves tokens from the end of those that it was given, and where it fails it fails
at such tokens (`Leaves`, one lemma for each parser). Every token keeps the end of the whole
text that begins with it, so an error points at an end of the text that begins with no
blank (`Located`).

In front of a syntax error stand the clauses that were read. They are a program of their
own, because a phrase ends where it ends, whatever stands behind it (`Cut`). Only a comment
needs the text behind it, and no phrase ends with one.
-/

namespace HornSearch.Source

/-! ## Phrases and the text behind them -/

/-- The text begins with a character that does not end a line. -/
def Solid (s : List Char) : Prop := ∃ c t, s = c :: t ∧ isLineEnd c = false

/-- The text is a phrase with `rest` behind it, and the phrase would be one in front of any
other text. -/
def Cut (phrase : List Char → List Char → Prop) (s rest : List Char) : Prop :=
  ∃ u, s = u ++ rest ∧ ∀ rest', phrase (u ++ rest') rest'

section
variable {R R' : List Char → List Char → Prop} {s t rest : List Char}

theorem Cut.mono (h : Cut R s rest) (hmono : ∀ {s rest}, R s rest → R' s rest) :
    Cut R' s rest := by
  obtain ⟨u, hs, hu⟩ := h
  exact ⟨u, hs, fun rest' => hmono (hu rest')⟩

/-- Two phrases one after another. -/
theorem Cut.trans (h : Cut R s t) (h' : Cut R' t rest) : Cut (Relation.Comp R R') s rest := by
  obtain ⟨u, rfl, hu⟩ := h
  obtain ⟨u', rfl, hu'⟩ := h'
  refine ⟨u ++ u', (List.append_assoc u u' rest).symm, fun rest' => ⟨u' ++ rest', ?_, hu' rest'⟩⟩
  rw [List.append_assoc]
  exact hu (u' ++ rest')

theorem cut_text (u rest : List Char) : Cut (fun s rest => s = u ++ rest) (u ++ rest) rest :=
  ⟨u, rfl, fun _ => rfl⟩

/-- A line end stays one: all of it stands before the text that begins with another
character. -/
theorem LineEnd.of_append {u : List Char} (h : LineEnd (u ++ rest)) (hrest : Solid rest)
    (rest' : List Char) : LineEnd (u ++ rest') := by
  obtain ⟨c, t, rfl, hc⟩ := hrest
  match u, h with
  | [], h => cases h <;> simp [isLineEnd] at hc
  | [a], h =>
    cases h with
    | feed => exact .feed
    | returnFeed => simp [isLineEnd] at hc
  | a :: b :: u, h =>
    cases h with
    | feed => exact .feed
    | returnFeed => exact .returnFeed

theorem Blank.cut (h : Blank s rest) (hrest : Solid rest) : Cut Blank s rest := by
  induction h with
  | none => exact ⟨[], rfl, fun _ => .none⟩
  | @space c _ _ hc _ ih =>
    obtain ⟨u, rfl, hu⟩ := ih hrest
    exact ⟨c :: u, rfl, fun rest' => .space hc (hu rest')⟩
  | @comment line _ _ hline hend _ ih =>
    obtain ⟨u, rfl, hu⟩ := ih hrest
    refine ⟨'%' :: (line ++ u), by simp, fun rest' => ?_⟩
    rw [List.cons_append, List.append_assoc]
    exact .comment hline (hend.of_append hrest rest') (hu rest')

theorem not_lineEnd {p : Char → Bool} (hp : p '\r' = false ∧ p '\n' = false) {c : Char}
    (hc : p c = true) : isLineEnd c = false := by
  have hne {d : Char} (hd : p d = false) : c ≠ d := by
    rintro rfl
    simp [hd] at hc
  simp [isLineEnd, hne hp.1, hne hp.2]

theorem IsWord.solid {first : Char → Bool} {word : List Char} (h : IsWord first word)
    (hfirst : first '\r' = false ∧ first '\n' = false) (rest : List Char) :
    Solid (word ++ rest) := by
  obtain ⟨c, cs, rfl, hc, -⟩ := h
  exact ⟨c, cs ++ rest, rfl, not_lineEnd hfirst hc⟩

end

section
variable {s t rest : List Char}

/-- A phrase that begins with a solid character and can be cut off behind. -/
abbrev Whole {α : Type} (phrase : List Char → α → List Char → Prop) (s : List Char) (a : α)
    (rest : List Char) : Prop :=
  Solid s ∧ Cut (phrase · a) s rest

theorem Separated.cut {α : Type} {item : List Char → α → List Char → Prop} {as : List α}
    (h : Separated item s as rest) (hrest : Solid rest)
    (hitem : ∀ a ∈ as, ∀ {t u}, item t a u → Whole item t a u) :
    Cut (Separated item · as) s rest := by
  induction h with
  | one hbefore ha hbehind =>
    obtain ⟨hsolid, hcut⟩ := hitem _ List.mem_cons_self ha
    refine ((hbefore.cut hsolid).trans (hcut.trans (hbehind.cut hrest))).mono ?_
    rintro s rest ⟨t, hbefore, u, ha, hbehind⟩
    exact .one hbefore ha hbehind
  | cons hbefore ha hbehind _ ih =>
    obtain ⟨hsolid, hcut⟩ := hitem _ List.mem_cons_self ha
    have hcomma := hbehind.cut ⟨',', _, rfl, rfl⟩
    have hmore := ih hrest fun a ha => hitem a (List.mem_cons_of_mem _ ha)
    refine ((hbefore.cut hsolid).trans
      (hcut.trans (hcomma.trans ((cut_text [','] _).trans hmore)))).mono ?_
    rintro s rest ⟨t, hbefore, u, ha, v, hbehind, w, rfl, hmore⟩
    exact .cons hbefore ha hbehind hmore

theorem whole_applied {name : List Char} {args : List Term} (hname : IsName name)
    (hopen : Blank s ('(' :: t)) (hargs : Separated TermAt t args (')' :: rest))
    (hterm : ∀ a ∈ args, ∀ {t u}, TermAt t a u → Whole TermAt t a u) :
    Whole CompoundAt (name ++ s) ⟨.ofList name, args⟩ rest := by
  have hleft := hopen.cut ⟨'(', _, rfl, rfl⟩
  have hright := hargs.cut ⟨')', _, rfl, rfl⟩ hterm
  refine ⟨hname.solid (by decide) s, ((cut_text name s).trans (hleft.trans
    ((cut_text ['('] t).trans (hright.trans (cut_text [')'] rest))))).mono ?_⟩
  rintro s rest ⟨t, rfl, u, hopen, v, rfl, w, hargs, rfl⟩
  exact .intro hname hopen hargs

theorem whole_term {a : Term} (h : TermAt s a rest) : Whole TermAt s a rest := by
  -- On the tree: its root says which rule of the grammar was used.
  induction a generalizing s rest with
  | num n =>
    cases h with
    | @number digits _ hdigits hmax =>
      obtain ⟨hne, hall⟩ := hdigits
      obtain ⟨c, cs, rfl⟩ := List.exists_cons_of_ne_nil hne
      have hc : isLineEnd c = false :=
        not_lineEnd (p := Char.isDigit) (by decide) (hall c List.mem_cons_self)
      exact ⟨⟨c, cs ++ rest, rfl, hc⟩,
        (cut_text (c :: cs) rest).mono fun hs => hs ▸ .number ⟨hne, hall⟩ hmax⟩
  | atom f =>
    cases h with
    | name hname =>
      exact ⟨hname.solid (by decide) rest, (cut_text _ rest).mono fun hs => hs ▸ .name hname⟩
  | var x =>
    cases h with
    | var hname =>
      exact ⟨hname.solid (by decide) rest, (cut_text _ rest).mono fun hs => hs ▸ .var hname⟩
  | app f args ih =>
    cases h with
    | compound h =>
      cases h with
      | intro hname hopen hargs =>
        obtain ⟨hsolid, hcut⟩ := whole_applied hname hopen hargs fun a ha _ _ => ih a ha
        exact ⟨hsolid, hcut.mono .compound⟩

theorem whole_compound {c : Compound} (h : CompoundAt s c rest) : Whole CompoundAt s c rest := by
  cases h with
  | intro hname hopen hargs => exact whole_applied hname hopen hargs fun _ _ _ _ => whole_term

/-- A clause ends with its period, whatever stands behind. -/
theorem ClauseAt.cut {c : Clause} (h : ClauseAt s c rest) : Cut (ClauseAt · c) s rest := by
  have alone {t u : List Char} {head : Compound} (hbefore : Blank s t)
      (hhead : CompoundAt t head u) (hbehind : Blank u ('.' :: rest)) :
      Cut (fun s rest => ∃ t u, Blank s t ∧ CompoundAt t head u ∧ Blank u ('.' :: rest))
        s rest := by
    obtain ⟨hsolid, hcut⟩ := whole_compound hhead
    have hperiod := hbehind.cut ⟨'.', _, rfl, rfl⟩
    refine ((hbefore.cut hsolid).trans
      (hcut.trans (hperiod.trans (cut_text ['.'] rest)))).mono ?_
    rintro s rest ⟨t, hbefore, u, hhead, v, hbehind, rfl⟩
    exact ⟨t, u, hbefore, hhead, hbehind⟩
  cases h with
  | fact hbefore hhead hbehind hvars =>
    refine (alone hbefore hhead hbehind).mono ?_
    rintro s rest ⟨t, u, hbefore, hhead, hbehind⟩
    exact .fact hbefore hhead hbehind hvars
  | general hbefore hhead hbehind hvars =>
    refine (alone hbefore hhead hbehind).mono ?_
    rintro s rest ⟨t, u, hbefore, hhead, hbehind⟩
    exact .general hbefore hhead hbehind hvars
  | rule hbefore hhead hbehind hbody =>
    obtain ⟨hsolid, hcut⟩ := whole_compound hhead
    have hneck := hbehind.cut ⟨':', _, rfl, rfl⟩
    have hgoals := hbody.cut ⟨'.', _, rfl, rfl⟩ fun _ _ _ _ => whole_compound
    refine ((hbefore.cut hsolid).trans (hcut.trans (hneck.trans
      ((cut_text [':', '-'] _).trans (hgoals.trans (cut_text ['.'] rest)))))).mono ?_
    rintro s rest ⟨t, hbefore, u, hhead, v, hbehind, w, rfl, x, hbody, rfl⟩
    exact .rule hbefore hhead hbehind hbody

end

/-! ## What a parser leaves -/

section
variable {α β : Type}

/-- The tokens behind what was read, or those at which reading failed. -/
def remains : Except (List Lexeme) (α × List Lexeme) → List Lexeme
  | .ok (_, rest) => rest
  | .error rest => rest

/-- What remains is the end of the tokens that were given. -/
def Leaves (parser : Parse α) : Prop := ∀ ts, remains (parser ts) <:+ ts

theorem remains_bind {x : Except (List Lexeme) (α × List Lexeme)} {ts : List Lexeme}
    {f : α × List Lexeme → Except (List Lexeme) (β × List Lexeme)} (hx : remains x <:+ ts)
    (hf : ∀ a rest, remains (f (a, rest)) <:+ rest) : remains (x >>= f) <:+ ts := by
  match x, hx with
  | .ok (a, rest), hx => exact (hf a rest).trans hx
  | .error rest, hx => exact hx

theorem leaves_commaSeparated {item : Parse α} (hitem : Leaves item) (n : Nat) :
    Leaves (commaSeparated item n) := by
  induction n with
  | zero => exact fun ts => List.suffix_refl ts
  | succ n ih =>
    refine fun ts => remains_bind (hitem ts) fun a rest => ?_
    match rest with
    | ⟨.comma, s⟩ :: more =>
      have hmore := ih more
      simp only
      split
      · rename_i hread
        rw [hread] at hmore
        exact hmore.trans (List.suffix_cons _ _)
      · exact List.suffix_refl _
    | [] | ⟨.name _, _⟩ :: _ | ⟨.number _, _⟩ :: _ | ⟨.var _, _⟩ :: _ | ⟨.left, _⟩ :: _
    | ⟨.right, _⟩ :: _ | ⟨.period, _⟩ :: _ | ⟨.neck, _⟩ :: _ | ⟨.stray _, _⟩ :: _ =>
      exact List.suffix_refl _

theorem leaves_arguments {term : Parse Term} (hterm : Leaves term) (n : Nat) :
    Leaves (arguments term n) := by
  intro ts
  unfold arguments
  split
  · rename_i ts
    refine (remains_bind (leaves_commaSeparated hterm n ts) fun args rest => ?_).trans
      (List.suffix_cons _ _)
    simp only
    split
    · exact List.suffix_cons _ _
    · exact List.suffix_refl _
  · exact List.suffix_refl _

theorem leaves_term (n : Nat) : Leaves (term n) := by
  induction n with
  | zero => exact fun ts => List.suffix_refl ts
  | succ n ih =>
    intro ts
    match ts with
    | ⟨.name f, _⟩ :: ts =>
      rw [term_name]
      have hargs := leaves_arguments ih n ts
      split
      · rename_i hread
        rw [hread] at hargs
        exact hargs.trans (List.suffix_cons _ _)
      · exact List.suffix_cons _ _
    | ⟨.number k, start⟩ :: ts =>
      change remains (if k < 2 ^ 63 then .ok (Term.num (Int64.ofNat k), ts)
        else .error (⟨.number k, start⟩ :: ts)) <:+ _
      split
      · exact List.suffix_cons _ _
      · exact List.suffix_refl _
    | ⟨.var x, _⟩ :: ts => exact List.suffix_cons _ _
    | [] | ⟨.left, _⟩ :: _ | ⟨.right, _⟩ :: _ | ⟨.comma, _⟩ :: _ | ⟨.period, _⟩ :: _
    | ⟨.neck, _⟩ :: _ | ⟨.stray _, _⟩ :: _ => exact List.suffix_refl _

theorem leaves_compound (n : Nat) : Leaves (compound n) := by
  intro ts
  unfold compound
  split
  · rename_i ts
    exact (remains_bind (leaves_arguments (leaves_term n) n ts) fun _ _ =>
      List.suffix_refl _).trans (List.suffix_cons _ _)
  · exact List.suffix_refl _

theorem leaves_goals (n : Nat) : Leaves (goals n) := leaves_commaSeparated (leaves_compound n) n

theorem leaves_clause (n : Nat) : Leaves (clause n) := by
  refine fun ts => remains_bind (leaves_compound n ts) fun head rest => ?_
  simp only
  split
  · exact List.suffix_cons _ _
  · rename_i body
    have hbody := leaves_goals n body
    split
    · rename_i hread
      rw [hread] at hbody
      exact (List.suffix_cons _ _).trans (hbody.trans (List.suffix_cons _ _))
    · exact List.suffix_refl _
  · exact List.suffix_refl _

theorem suffix_of_conjunction {n : Nat} {ts rest : List Lexeme}
    (h : conjunction n ts = .error rest) : rest <:+ ts := by
  have hgoals := leaves_goals n ts
  unfold conjunction at h
  cases hread : goals n ts with
  | error ts' =>
    rw [hread] at h hgoals
    cases h
    exact hgoals
  | ok read =>
    obtain ⟨gs, behind⟩ := read
    rw [hread] at h hgoals
    simp only [bind, Except.bind] at h
    split at h
    · cases h
    · cases h
      exact (List.suffix_cons _ _).trans hgoals
    · cases h
      exact hgoals

end

/-! ## Places -/

/-- The first line of the text: the shortest beginning in front of a line end. -/
def FirstLine (text line : List Char) : Prop :=
  (∃ behind, text = line ++ behind ∧ LineEnd behind) ∧
    ∀ line' behind, text = line' ++ behind → LineEnd behind → line.length ≤ line'.length

/-- The error is at `rest`, which has `before` in front of it: in the line behind the last
line feed, at no blank, and quoting what it finds. -/
structure Located (before rest : List Char) (e : SyntaxError) : Prop where
  line : e.line = 1 + before.count '\n'
  column : ∃ lines line, before = lines ++ line ∧ '\n' ∉ line ∧
    (lines = [] ∨ lines.getLast? = some '\n') ∧ e.column = 1 + line.length
  solid : ∀ c ∈ rest.head?, c ≠ ' ' ∧ c ≠ '\t' ∧ c ≠ '\r' ∧ c ≠ '\n'
  ended : e.detail = "unexpected end of input" ↔ rest = []
  quoted : rest ≠ [] → ∃ line, FirstLine rest line ∧
    e.detail = "unexpected `" ++ String.ofList (line.take 20) ++ "`"

theorem length_le_of_feed {line line' rest rest' : List Char} (hline : '\n' ∉ line)
    (h : line ++ rest = line' ++ '\n' :: rest') : line.length ≤ line'.length := by
  obtain ⟨more, rfl, -⟩ | ⟨more, rfl, hmore⟩ := List.append_eq_append_iff.1 h
  · simp
  · cases more with
    | nil => simp
    | cons c more =>
      obtain ⟨rfl, -⟩ := List.cons.inj hmore
      simp at hline

theorem firstLine_firstLine (text : List Char) : FirstLine text (firstLine text) := by
  have htext := List.takeWhile_append_dropWhile (p := (· ≠ '\n')) (l := text)
  have hstops := stops_dropWhile (· ≠ '\n') text
  have hline : '\n' ∉ text.takeWhile (· ≠ '\n') := fun h => by
    simpa using List.mem_takeWhile_imp h
  unfold firstLine
  generalize text.takeWhile (· ≠ '\n') = line at *
  generalize text.dropWhile (· ≠ '\n') = behind at *
  subst htext
  match behind, hstops with
  | [], _ =>
    simp only [List.append_nil, Nat.lt_irrefl, decide_false, Bool.false_and, Bool.false_eq_true,
      if_false]
    refine ⟨⟨[], (List.append_nil line).symm, .text⟩, fun line' behind h hend => ?_⟩
    cases hend with
    | text => simp [h]
    | feed | returnFeed => simp [h] at hline
  | c :: behind, hstops =>
    obtain rfl : c = '\n' := by simpa [Stops] using hstops
    have hlt : line.length < (line ++ '\n' :: behind).length := by simp
    simp only [hlt, decide_true, Bool.true_and, decide_eq_true_eq]
    split
    -- A carriage return before the line feed belongs to the line end.
    · rename_i hlast
      obtain ⟨line, rfl⟩ := List.getLast?_eq_some_iff.1 hlast
      rw [List.dropLast_concat]
      refine ⟨⟨_, List.append_assoc .., .returnFeed⟩, fun line' behind' h hend => ?_⟩
      cases hend with
      | text =>
        rw [List.append_nil] at h
        simp [← h]
      | feed => exact (Nat.le_succ _).trans (by simpa using length_le_of_feed hline h)
      | returnFeed =>
        rw [List.append_cons line'] at h
        simpa using length_le_of_feed hline h
    · rename_i hlast
      refine ⟨⟨_, rfl, .feed⟩, fun line' behind' h hend => ?_⟩
      cases hend with
      | text =>
        rw [List.append_nil] at h
        simp [← h]
      | feed => exact length_le_of_feed hline h
      | returnFeed =>
        rw [List.append_cons line'] at h
        have hle := length_le_of_feed hline h
        by_contra hlong
        have hlength : line.length = (line' ++ ['\r']).length := by
          simp only [List.length_append, List.length_singleton] at hle ⊢
          omega
        have hline' := List.append_inj_left h hlength
        simp [hline'] at hlast

/-- The characters behind the last line feed. -/
theorem exists_lastLine (before : List Char) : ∃ lines line, before = lines ++ line ∧
    '\n' ∉ line ∧ (lines = [] ∨ lines.getLast? = some '\n') ∧
    line.length = (before.reverse.takeWhile (· ≠ '\n')).length := by
  have hstops := stops_dropWhile (· ≠ '\n') before.reverse
  refine ⟨(before.reverse.dropWhile (· ≠ '\n')).reverse,
    (before.reverse.takeWhile (· ≠ '\n')).reverse, ?_, fun h => ?_, ?_, List.length_reverse⟩
  · rw [← List.reverse_append, List.takeWhile_append_dropWhile, List.reverse_reverse]
  · simpa using List.mem_takeWhile_imp (List.mem_reverse.1 h)
  · rw [List.reverse_eq_nil_iff, List.getLast?_reverse]
    cases hlines : before.reverse.dropWhile (· ≠ '\n') with
    | nil => exact .inl rfl
    | cons c lines =>
      have hc := hstops c (by rw [hlines]; rfl)
      exact .inr (by simpa using hc)

theorem found_ne_ended (quoted : String) :
    "unexpected `" ++ quoted ++ "`" ≠ "unexpected end of input" := by
  intro h
  have hchar := congrArg (fun s => s.toList[11]?) h
  simp at hchar

/-- What is found at a text that begins with no blank. -/
theorem found_of_solid {rest : List Char} (hsolid : Solid rest) :
    found rest = "unexpected `" ++ String.ofList ((firstLine rest).take 20) ++ "`" := by
  have hline : firstLine rest ≠ [] := by
    intro hnil
    obtain ⟨⟨behind, hrest, hend⟩, -⟩ := firstLine_firstLine rest
    rw [hnil] at hrest
    obtain ⟨c, t, rfl, hc⟩ := hsolid
    cases hrest
    cases hend <;> simp [isLineEnd] at hc
  unfold found
  split
  · rename_i hnil
    simp [hline] at hnil
  · rfl

theorem located_locate {before rest : List Char} (h : ∀ c ∈ rest.head?, isBlank c = false) :
    Located before rest (.locate (before ++ rest) rest) := by
  have hbefore : (before ++ rest).take ((before ++ rest).length - rest.length) = before := by
    simp
  simp only [SyntaxError.locate, hbefore]
  have hsolid (hrest : rest ≠ []) : Solid rest := by
    obtain ⟨c, t, rfl⟩ := List.exists_cons_of_ne_nil hrest
    refine ⟨c, t, rfl, ?_⟩
    have hc := h c rfl
    simp only [isBlank, Bool.or_eq_false_iff] at hc
    simp [isLineEnd, hc]
  obtain ⟨lines, line, hlines, hline, hlast, hlength⟩ := exists_lastLine before
  refine ⟨Nat.add_comm _ _, ⟨lines, line, hlines, hline, hlast, ?_⟩, fun c hc => ?_, ?_,
    fun hrest => ⟨_, firstLine_firstLine rest, found_of_solid (hsolid hrest)⟩⟩
  · rw [← hlength]
    exact Nat.add_comm _ _
  · have hc := h c hc
    simpa [isBlank, and_assoc] using hc
  · constructor
    · intro hfound
      by_contra hrest
      exact found_ne_ended _ ((found_of_solid (hsolid hrest)).symm.trans hfound)
    · rintro rfl
      rfl

/-! ## Tokens and the text -/

/-- A token keeps an end of the text, and begins with no blank. -/
theorem start_of_mem_scan {k : Nat} {s : List Char} {l : Lexeme} (h : l ∈ scan k s) :
    l.start <:+ s ∧ ∃ c t, l.start = c :: t ∧ isBlank c = false := by
  fun_induction scan k s with
  | case1 => cases h
  | case2 k c s ih => exact (ih h).imp_left fun hs => hs.trans (List.suffix_cons c s)
  | case3 c s hblank ih => exact (ih h).imp_left fun hs => hs.trans (List.suffix_cons c s)
  | case4 c s hblank hcomment ih =>
    exact (ih h).imp_left fun hs => hs.trans (List.suffix_cons c s)
  | case5 c s hblank hcomment token k hread ih =>
    rcases List.mem_cons.1 h with rfl | h
    · exact ⟨List.suffix_refl _, c, s, rfl, Bool.eq_false_iff.2 hblank⟩
    · exact (ih h).imp_left fun hs => hs.trans (List.suffix_cons c s)

/-- The text from the first of these tokens on. -/
def place (ts : List Lexeme) : List Char := (ts.head?.map Lexeme.start).getD []

theorem place_of_suffix {s : List Char} {ts : List Lexeme} (h : ts <:+ tokens s) :
    place ts <:+ s ∧ ∀ c ∈ (place ts).head?, isBlank c = false := by
  match ts, h with
  | [], _ => exact ⟨List.nil_suffix, by simp [place]⟩
  | l :: ts, h =>
    obtain ⟨hsuffix, c, t, hstart, hc⟩ := start_of_mem_scan (h.subset List.mem_cons_self)
    refine ⟨hsuffix, fun d hd => ?_⟩
    obtain rfl : c = d := by simpa [place, hstart] using hd
    exact hc

theorem parse_error {α : Type} {whole : Nat → List Lexeme → Except (List Lexeme) α}
    {text : String} {e : SyntaxError} (h : parse whole text = .error e) :
    ∃ ts, whole (tokens text.toList).length (tokens text.toList) = .error ts ∧
      e = .locate text.toList (place ts) := by
  simp only [parse] at h
  split at h
  · cases h
  · rename_i hw
    cases h
    exact ⟨[], hw, rfl⟩
  · rename_i hw
    cases h
    exact ⟨_, hw, rfl⟩

/-! ## Programs and queries -/

/-- What is read before an error are clauses that stand on their own, and no clause stands
behind them. -/
theorem clauses_error {n k : Nat} {s : List Char} {ts : List Lexeme}
    (h : clauses n k (tokens s) = .error ts) (hn : (tokens s).length ≤ n)
    (hk : (tokens s).length ≤ k) :
    ∃ p q cs, s = p ++ q ∧ ClausesAt p cs ∧ q ≠ [] ∧ (∀ c rest, ¬ClauseAt q c rest) ∧
      ts <:+ tokens q := by
  have hsome : tokens s ≠ [] := fun hnil => by
    rw [hnil] at h
    cases k <;> cases h
  induction k generalizing s with
  | zero => exact absurd (List.length_eq_zero_iff.1 (Nat.le_zero.1 hk)) hsome
  | succ k ih =>
    obtain ⟨l, ls, hl⟩ := List.exists_cons_of_ne_nil hsome
    rw [hl, clauses_cons, ← hl] at h
    cases hread : clause n (tokens s) with
    | error ts' =>
      rw [hread] at h
      cases h
      have hleaves := leaves_clause n (tokens s)
      rw [hread] at hleaves
      refine ⟨[], s, [], rfl, .nil, fun hs => hsome (hs ▸ rfl), fun c rest hc => ?_, hleaves⟩
      have hok := (reads_clause hc).2 n (by omega)
      rw [hread] at hok
      cases hok
    | ok read =>
      obtain ⟨c, behind⟩ := read
      obtain ⟨t, u, hbefore, hc, rfl⟩ := sound_clause n hread
      have hc := hc.before hbefore
      obtain ⟨hlt, -⟩ := reads_clause hc
      cases hmore : clauses n k (tokens u) with
      | ok cs =>
        rw [hread] at h
        simp only [bind, Except.bind, hmore] at h
        cases h
      | error ts' =>
        rw [hread] at h
        simp only [bind, Except.bind, hmore] at h
        cases h
        obtain ⟨w, rfl, hw⟩ := hc.cut
        obtain ⟨p, q, cs, rfl, hcs, hq, hnone, hsuffix⟩ :=
          ih hmore (by omega) (by omega) fun hnil => by rw [hnil] at hmore; cases k <;> cases hmore
        exact ⟨w ++ p, q, c :: cs, (List.append_assoc w p q).symm, .cons (hw p) .none hcs, hq,
          hnone, hsuffix⟩

/-- A program text that is rejected begins with a program behind which no clause stands,
and the error is located in what is left. An error in a query text is located in it the
same way. -/
theorem errors_located (text : String) (e : SyntaxError) :
    (parseProgram text = .error e →
      ∃ p q, text.toList = p ++ q ∧ (∃ cs, parseProgram (.ofList p) = .ok cs) ∧ q ≠ [] ∧
        (∀ c rest, ¬ClauseAt q c rest) ∧
        ∃ between r, q = between ++ r ∧ Located (p ++ between) r e) ∧
    (parseQuery text = .error e →
      ∃ before r, text.toList = before ++ r ∧ Located before r e) := by
  constructor
  · intro h
    obtain ⟨ts, herror, rfl⟩ := parse_error h
    obtain ⟨p, q, cs, htext, hcs, hq, hnone, hsuffix⟩ :=
      clauses_error herror (Nat.le_refl _) (Nat.le_refl _)
    obtain ⟨⟨between, hbetween⟩, hsolid⟩ := place_of_suffix hsuffix
    refine ⟨p, q, htext, ⟨cs, parseProgram_iff.2 ⟨p, ?_, hcs⟩⟩, hq, hnone, between, place ts,
      hbetween.symm, ?_⟩
    · rw [String.toList_ofList]
      exact .none
    · rw [htext, ← hbetween, ← List.append_assoc]
      exact located_locate hsolid
  · intro h
    obtain ⟨ts, herror, rfl⟩ := parse_error h
    obtain ⟨⟨before, hbefore⟩, hsolid⟩ := place_of_suffix (suffix_of_conjunction herror)
    refine ⟨before, place ts, hbefore.symm, ?_⟩
    rw [← hbefore]
    exact located_locate hsolid

/-- A period is missing on the second line of a program, and at the end of a query. -/
theorem errors_located_missingPeriod :
    let program := "node(1).\nnode(2) node(3)."
    let e : SyntaxError := ⟨2, 9, "unexpected `node(3).`"⟩
    let query := "node(X)"
    let e' : SyntaxError := ⟨1, 8, "unexpected end of input"⟩
    parseProgram program = .error e ∧ parseQuery query = .error e' ∧
      (∃ p q, program.toList = p ++ q ∧ (∃ cs, parseProgram (.ofList p) = .ok cs) ∧ q ≠ [] ∧
        (∀ c rest, ¬ClauseAt q c rest) ∧
        ∃ between r, q = between ++ r ∧ Located (p ++ between) r e) ∧
      ∃ before r, query.toList = before ++ r ∧ Located before r e' := by
  have hprogram : parseProgram "node(1).\nnode(2) node(3)." =
      .error ⟨2, 9, "unexpected `node(3).`"⟩ := rfl
  have hquery : parseQuery "node(X)" = .error ⟨1, 8, "unexpected end of input"⟩ := rfl
  exact ⟨hprogram, hquery, (errors_located _ _).1 hprogram, (errors_located _ _).2 hquery⟩

end HornSearch.Source
