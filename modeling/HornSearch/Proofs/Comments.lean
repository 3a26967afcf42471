import HornSearch.Proofs.TokensOnly

/-!
# Inserted comments

A comment line may be inserted anywhere between the tokens of a text: a word or number in
front of it ends where it did, since `%` is neither a word character nor a digit, and the
tokens behind the line feed are read as before.

A carriage return ends the line as well, but is refused on its own: where it does not stand
in front of the line feed the `%` opens no comment, and the text has a stray character. So is
every comment line that parts the two (`comment_between_refused`).

Main statements: `Place.inserted` for the tokens, and `comment_inserted`.
-/

namespace HornSearch.Source

/-- The comment `line` in front of a text. -/
def commented (line s : List Char) : List Char := '%' :: (line ++ '\n' :: s)

/-- The text can be parted in front of `rest`: there are only tokens, blanks and comments
before. A comment has its line end behind it, in front of which and behind which the text
can be parted, but not inside: what is put between a carriage return and its line feed belongs to
the comment in front. -/
inductive Place : List Char → List Char → Prop where
  | here {s : List Char} : Place s s
  | blank {c : Char} {s rest : List Char} (hc : c = ' ' ∨ c = '\t' ∨ c = '\r' ∨ c = '\n')
      (h : Place s rest) : Place (c :: s) rest
  | comment {line s rest : List Char} (hline : '\n' ∉ line) (h : Place s rest) :
      Place (commented line s) rest
  | lineEnd {line rest : List Char} (hline : ∀ c ∈ line, c ≠ '\r' ∧ c ≠ '\n')
      (hend : LineEnd rest) : Place ('%' :: (line ++ rest)) rest
  | token {s t rest : List Char} {tok : Token} (hs : Spells s tok t) (h : Place t rest) :
      Place s rest

instance (inClass : Char → Bool) (rest : List Char) : Decidable (Stops inClass rest) :=
  decidable_of_iff (rest.head?.all fun c => !inClass c) (by cases rest <;> simp [Stops])

/-! ## Comment lines -/

theorem mem_dropLast_cons {c d : Char} (hne : c ≠ d) {line : List Char} :
    d ∈ (c :: line).dropLast ↔ d ∈ line.dropLast := by
  cases line with
  | nil => simp
  | cons e line => simp [hne.symm]

section
variable {line : List Char} (s : List Char) (hline : '\n' ∉ line)
include hline

theorem closesComment_line :
    closesComment (line ++ '\n' :: s) = true ↔ '\r' ∉ line.dropLast := by
  rw [closesComment_iff]
  induction line with
  | nil => simpa [isLineEnd] using LineEnd.feed
  | cons c line ih =>
    obtain ⟨hc, hline⟩ : '\n' ≠ c ∧ '\n' ∉ line := by simpa using hline
    by_cases hreturn : c = '\r'
    · subst hreturn
      -- The first carriage return is the last character of the line, or ends it badly.
      cases line with
      | nil => simpa [isLineEnd] using LineEnd.returnFeed
      | cons d line =>
        have hd : ¬ LineEnd ('\r' :: d :: (line ++ '\n' :: s)) := by
          intro hend
          cases hend
          simp at hline
        simpa [isLineEnd] using hd
    · have hend : isLineEnd c = false := by simp [isLineEnd, hreturn, hc.symm]
      simpa [hend, mem_dropLast_cons hreturn] using ih hline

/-- A comment whose line ends properly is blank. -/
theorem blank_commented (hreturn : '\r' ∉ line.dropLast) : Blank (commented line s) s := by
  have plain {l : List Char} (hfeed : '\n' ∉ l) (hreturn : '\r' ∉ l) :
      ∀ c ∈ l, c ≠ '\r' ∧ c ≠ '\n' :=
    fun c hc => ⟨fun e => hreturn (e ▸ hc), fun e => hfeed (e ▸ hc)⟩
  rcases line.eq_nil_or_concat' with rfl | ⟨l, c, rfl⟩
  · exact .comment (plain hline hreturn) .feed (.space (by simp) .none)
  · rw [List.dropLast_concat] at hreturn
    by_cases hc : c = '\r'
    · subst hc
      have hl : '\n' ∉ l := fun h => hline (List.mem_append_left _ h)
      rw [commented, List.append_assoc]
      exact .comment (plain hl hreturn) .returnFeed (.space (by simp) (.space (by simp) .none))
    · have hreturn : '\r' ∉ l ++ [c] := by simp [hreturn, Ne.symm hc]
      exact .comment (plain hline hreturn) .feed (.space (by simp) .none)

theorem not_noStray_commented (hreturn : '\r' ∈ line.dropLast) :
    ¬ NoStray (tokens (commented line s)) := by
  have hcloses : ¬ closesComment (line ++ '\n' :: s) = true := fun h =>
    (closesComment_line s hline).1 h hreturn
  rw [commented, tokens_cons (by decide) fun h => hcloses h.2]
  exact fun hstray => hstray _ List.mem_cons_self '%' rfl

theorem not_mem_dropLast (hs : NoStray (tokens (commented line s))) : '\r' ∉ line.dropLast :=
  fun h => not_noStray_commented s hline h hs

end

/-! ## Places -/

/-- A token ends where it ends in front of a comment, too. -/
theorem Spells.exists_word {s t : List Char} {tok : Token} (h : Spells s tok t) :
    ∃ word, s = word ++ t ∧
      ∀ t', (∀ c ∈ t'.head?, c = '%' ∨ c ∈ t.head?) → Spells (word ++ t') tok t' := by
  have stops {p : Char → Bool} (hp : p '%' = false) {t t' : List Char} (ht : Stops p t)
      (h : ∀ c ∈ t'.head?, c = '%' ∨ c ∈ t.head?) : Stops p t' := by
    intro c hc
    rcases h c hc with rfl | hc
    · exact hp
    · exact ht c hc
  cases h with
  | name hword hrest =>
    exact ⟨_, rfl, fun t' h => .name hword (stops (by decide) hrest h)⟩
  | var hword hrest =>
    exact ⟨_, rfl, fun t' h => .var hword (stops (by decide) hrest h)⟩
  | number hdigits hrest =>
    exact ⟨_, rfl, fun t' h => .number hdigits (stops (by decide) hrest h)⟩
  | left => exact ⟨['('], rfl, fun _ _ => .left⟩
  | right => exact ⟨[')'], rfl, fun _ _ => .right⟩
  | comma => exact ⟨[','], rfl, fun _ _ => .comma⟩
  | period => exact ⟨['.'], rfl, fun _ _ => .period⟩
  | neck => exact ⟨[':', '-'], rfl, fun _ _ => .neck⟩

/-- A comment that is inserted leaves the tokens as they are, or is a stray character. -/
theorem Place.inserted {s rest : List Char} (h : Place s rest) (hs : NoStray (tokens s)) :
    ∃ p, s = p ++ rest ∧ ∀ line, '\n' ∉ line →
      ('\r' ∉ line.dropLast → bare (tokens (p ++ commented line rest)) = bare (tokens s)) ∧
      ('\r' ∈ line.dropLast → ∀ s', ¬ NoStray (tokens (p ++ commented line s'))) := by
  induction h with
  | here =>
    refine ⟨[], rfl, fun line hline => ⟨fun hreturn => ?_, fun hreturn s' => ?_⟩⟩
    · rw [List.nil_append, tokens_of_blank (blank_commented _ hline hreturn)]
    · exact not_noStray_commented s' hline hreturn
  | @blank c s rest hc _ ih =>
    have hblank (s : List Char) : tokens (c :: s) = tokens s := tokens_blank (isBlank_iff.2 hc) s
    rw [hblank] at hs
    obtain ⟨p, rfl, hp⟩ := ih hs
    refine ⟨c :: p, rfl, fun line hline => ?_⟩
    simp only [List.cons_append, hblank]
    exact hp line hline
  | @comment line₀ s rest hline₀ _ ih =>
    have hblank (s : List Char) : tokens (commented line₀ s) = tokens s :=
      tokens_of_blank (blank_commented s hline₀ (not_mem_dropLast _ hline₀ hs))
    rw [hblank] at hs
    obtain ⟨p, rfl, hp⟩ := ih hs
    refine ⟨commented line₀ p, by simp [commented], fun line hline => ?_⟩
    have happend (s' : List Char) : commented line₀ p ++ commented line s' =
        commented line₀ (p ++ commented line s') := by simp [commented]
    simp only [happend, hblank]
    exact hp line hline
  | @lineEnd line₀ rest hline₀ hend =>
    have hreturn₀ : '\r' ∉ line₀ := fun h => (hline₀ _ h).1 rfl
    have hfeed₀ : '\n' ∉ line₀ := fun h => (hline₀ _ h).2 rfl
    refine ⟨'%' :: line₀, rfl, fun line hline => ?_⟩
    -- The comment that is inserted goes on with the one that stands there.
    have hjoin (s' : List Char) :
        '%' :: line₀ ++ commented line s' = commented (line₀ ++ '%' :: line) s' := by
      simp [commented]
    have hlines : '\n' ∉ line₀ ++ '%' :: line := by simp [hfeed₀, hline]
    have hdrop : '\r' ∈ (line₀ ++ '%' :: line).dropLast ↔ '\r' ∈ line.dropLast := by
      rw [List.dropLast_append_cons, List.mem_append, mem_dropLast_cons (by decide)]
      exact or_iff_right hreturn₀
    simp only [hjoin, ← hdrop]
    refine ⟨fun hreturn => ?_, fun hreturn s' => not_noStray_commented s' hlines hreturn⟩
    rw [tokens_of_blank (blank_commented _ hlines hreturn),
      tokens_of_blank (.comment hline₀ hend .none)]
  | @token s t rest tok hs' _ ih =>
    obtain ⟨word, rfl, hword⟩ := hs'.exists_word
    rw [hs'.tokens_eq] at hs
    obtain ⟨p, rfl, hp⟩ := ih fun l hl => hs l (List.mem_cons_of_mem _ hl)
    refine ⟨word ++ p, (List.append_assoc word p rest).symm, fun line hline => ?_⟩
    have hnew (s' : List Char) :
        Spells (word ++ (p ++ commented line s')) tok (p ++ commented line s') := by
      refine hword _ fun c hc => ?_
      cases p with
      | nil => exact .inl (by simpa [commented, eq_comm] using hc)
      | cons d p => exact .inr hc
    obtain ⟨hsame, hstray⟩ := hp line hline
    simp only [List.append_assoc, (hnew _).tokens_eq, hs'.tokens_eq]
    constructor
    · intro hreturn
      simp only [bare, List.map_cons, Lexeme.bare] at hsame ⊢
      rw [hsame hreturn]
    · exact fun hreturn s' h => hstray hreturn s' fun l hl => h l (List.mem_cons_of_mem _ hl)

/-! ## Whole texts -/

section
variable {α : Type} {whole : Nat → List Lexeme → Except (List Lexeme) α}
  (hstray : ∀ {n ts a}, whole n ts = .ok a → NoStray ts) {p q line : List Char}
  (hplace : Place (p ++ q) q) (hline : '\n' ∉ line) {a : α}
include hstray hplace hline

theorem Place.parse_refused (h : parse whole (.ofList (p ++ q)) = .ok a)
    (hreturn : '\r' ∈ line.dropLast) (s : List Char) :
    ∃ e, parse whole (.ofList (p ++ commented line s)) = .error e := by
  obtain ⟨p', hp', hinserted⟩ := hplace.inserted (noStray_of_parse hstray h)
  obtain rfl := List.append_cancel_right hp'
  cases hread : parse whole (.ofList (p ++ commented line s)) with
  | error e => exact ⟨e, rfl⟩
  | ok a' => exact absurd (noStray_of_parse hstray hread) ((hinserted line hline).2 hreturn s)

/-- What a parser of whole texts makes of an inserted comment. -/
theorem Place.parse_inserted
    (hblind : ∀ n ts, whole n (bare ts) = (whole n ts).mapError bare)
    (h : parse whole (.ofList (p ++ q)) = .ok a) :
    if '\r' ∈ line.dropLast then ∃ e, parse whole (.ofList (p ++ commented line q)) = .error e
    else parse whole (.ofList (p ++ commented line q)) = .ok a := by
  split
  · rename_i hreturn
    exact hplace.parse_refused hstray hline h hreturn q
  · rename_i hreturn
    obtain ⟨p', hp', hinserted⟩ := hplace.inserted (noStray_of_parse hstray h)
    obtain rfl := List.append_cancel_right hp'
    refine (parse_ok_iff_of_bare hblind ?_).1 h
    rw [String.toList_ofList, String.toList_ofList, (hinserted line hline).1 hreturn]

end

/-- A comment line that is inserted between two tokens of an accepted text, in front of
them or behind them, changes nothing if no carriage return stands in it except in front of
its line feed. With one anywhere else the text is refused. -/
theorem comment_inserted {p q line : List Char} (hplace : Place (p ++ q) q)
    (hline : '\n' ∉ line) :
    (∀ cs, parseProgram (.ofList (p ++ q)) = .ok cs →
      if '\r' ∈ line.dropLast then ∃ e, parseProgram (.ofList (p ++ commented line q)) = .error e
      else parseProgram (.ofList (p ++ commented line q)) = .ok cs) ∧
    ∀ gs, parseQuery (.ofList (p ++ q)) = .ok gs →
      if '\r' ∈ line.dropLast then ∃ e, parseQuery (.ofList (p ++ commented line q)) = .error e
      else parseQuery (.ofList (p ++ commented line q)) = .ok gs :=
  ⟨fun _ => hplace.parse_inserted noStray_of_clauses hline fun n => clauses_bare n n,
    fun _ => hplace.parse_inserted noStray_of_conjunction hline conjunction_bare⟩

/-- Between the parenthesis and the number of `a(1).` -/
theorem comment_inserted_argument :
    Place ("a(".toList ++ "1).".toList) "1).".toList ∧ '\n' ∉ " % f(X).".toList ∧
      parseProgram (.ofList ("a(".toList ++ commented " % f(X).".toList "1).".toList)) =
        .ok [.fact ⟨"a", [.num 1]⟩] := by
  have hplace : Place ("a(".toList ++ "1).".toList) "1).".toList :=
    .token (@Spells.name ['a'] _ ⟨'a', [], rfl, rfl, nofun⟩ (by decide)) (.token .left .here)
  have hline : '\n' ∉ " % f(X).".toList := by decide
  have hread : parseProgram (.ofList ("a(".toList ++ "1).".toList)) =
      .ok [.fact ⟨"a", [.num 1]⟩] := rfl
  have hinserted := (comment_inserted hplace hline).1 _ hread
  rw [if_neg (by decide)] at hinserted
  exact ⟨hplace, hline, hinserted⟩

/-- A carriage return inside the line turns an accepted text into one that is refused. -/
theorem exists_comment_refused :
    ¬ ∀ p q line cs, Place (p ++ q) q → '\n' ∉ line → parseProgram (.ofList (p ++ q)) = .ok cs →
      parseProgram (.ofList (p ++ commented line q)) = .ok cs := by
  intro h
  have hplace : Place ("a(1).".toList ++ []) [] :=
    .token (@Spells.name ['a'] _ ⟨'a', [], rfl, rfl, nofun⟩ (by decide)) (.token .left
      (.token (@Spells.number ['1'] _ ⟨nofun, List.forall_mem_singleton.2 rfl⟩ (by decide)) (.token .right
        (.token .period .here))))
  have hread := h "a(1).".toList [] "x\ry".toList [.fact ⟨"a", [.num 1]⟩] hplace (by decide) rfl
  have hrefused : ∃ e, parseProgram (.ofList ("a(1).".toList ++ commented "x\ry".toList [])) =
      .error e := ⟨_, rfl⟩
  obtain ⟨e, he⟩ := hrefused
  rw [hread] at he
  cases he

/-- A comment line between the carriage return and the line feed that end a comment is refused,
whatever stands in it: the comment in front then goes on to the `%`. -/
theorem comment_between_refused {p line₀ line rest : List Char}
    (hplace : Place (p ++ '%' :: (line₀ ++ '\r' :: '\n' :: rest))
      ('%' :: (line₀ ++ '\r' :: '\n' :: rest)))
    (hline₀ : '\n' ∉ line₀) (hline : '\n' ∉ line) :
    let between := p ++ '%' :: (line₀ ++ '\r' :: commented line ('\n' :: rest))
    (∀ cs, parseProgram (.ofList (p ++ '%' :: (line₀ ++ '\r' :: '\n' :: rest))) = .ok cs →
      ∃ e, parseProgram (.ofList between) = .error e) ∧
    ∀ gs, parseQuery (.ofList (p ++ '%' :: (line₀ ++ '\r' :: '\n' :: rest))) = .ok gs →
      ∃ e, parseQuery (.ofList between) = .error e := by
  have hbetween : p ++ '%' :: (line₀ ++ '\r' :: commented line ('\n' :: rest)) =
      p ++ commented (line₀ ++ '\r' :: '%' :: line) ('\n' :: rest) := by simp [commented]
  have hline : '\n' ∉ line₀ ++ '\r' :: '%' :: line := by simp [hline₀, hline]
  have hreturn : '\r' ∈ (line₀ ++ '\r' :: '%' :: line).dropLast := by simp
  simp only [hbetween]
  exact ⟨fun _ h => hplace.parse_refused noStray_of_clauses hline h hreturn _,
    fun _ h => hplace.parse_refused noStray_of_conjunction hline h hreturn _⟩

end HornSearch.Source
