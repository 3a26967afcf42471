import HornSearch.Proofs.Grammar
import Mathlib.Data.List.TakeWhile

/-!
# Tokens and texts

A token spells a part of the text (`Spells`): a name spells its characters, a
number its digits, a mark itself. Words and numbers are as long as possible,
so no word character and no digit stands behind them.

The tokens of a text are those of any text that is left of it behind blanks
(`tokens_of_blank`), and the first of them is what a part of the text behind
blanks spells (`tokens_eq_cons_iff`).
-/

namespace HornSearch.Source

/-- The text is empty or begins with a character that is not in the class. -/
def Stops (inClass : Char → Bool) (rest : List Char) : Prop := ∀ c ∈ rest.head?, inClass c = false

theorem takeWhile_of_stops {p : Char → Bool} {s rest : List Char} (hs : ∀ c ∈ s, p c = true)
    (hrest : Stops p rest) : (s ++ rest).takeWhile p = s := by
  rw [List.takeWhile_append_of_pos hs]
  cases rest with
  | nil => simp
  | cons c rest => simp [hrest c (by simp)]

theorem dropWhile_of_stops {p : Char → Bool} {s rest : List Char} (hs : ∀ c ∈ s, p c = true)
    (hrest : Stops p rest) : (s ++ rest).dropWhile p = rest := by
  rw [List.dropWhile_append_of_pos hs]
  cases rest with
  | nil => rfl
  | cons c rest => simp [hrest c (by simp)]

theorem drop_takeWhile (p : Char → Bool) (s : List Char) :
    s.drop (s.takeWhile p).length = s.dropWhile p := by
  induction s with
  | nil => rfl
  | cons c s ih => cases h : p c <;> simp [h, ih]

theorem stops_dropWhile (p : Char → Bool) (s : List Char) : Stops p (s.dropWhile p) := by
  intro c hc
  have := List.head?_dropWhile_not p s
  rw [Option.mem_def.1 hc] at this
  simpa using this

/-! ## Blanks -/

/-- Reading on in a text whose first characters are read already. -/
theorem scan_eq (k : Nat) (s : List Char) : scan k s = tokens (s.drop k) := by
  induction s generalizing k with
  | nil => cases k <;> rfl
  | cons c s ih =>
    cases k with
    | zero => rfl
    | succ k => exact ih k

theorem tokens_blank {c : Char} (hc : isBlank c = true) (s : List Char) :
    tokens (c :: s) = tokens s := by
  rw [tokens, scan, if_pos hc]
  rfl

theorem tokens_comment {s : List Char} (h : closesComment s = true) :
    tokens ('%' :: s) = tokens (s.dropWhile fun c => !isLineEnd c) := by
  rw [tokens, scan, if_neg (by decide), if_pos (by simpa using h), scan_eq, commentText]
  rw [drop_takeWhile]

theorem tokens_cons {c : Char} {s : List Char} (hc : isBlank c = false)
    (hcomment : ¬(c = '%' ∧ closesComment s = true)) :
    tokens (c :: s) = ⟨(Token.read c s).1, c :: s⟩ :: tokens (s.drop (Token.read c s).2) := by
  rw [tokens, scan, if_neg (by simp [hc]), if_neg (by simpa using hcomment)]
  exact congrArg _ (scan_eq _ s)

theorem isBlank_iff {c : Char} :
    isBlank c = true ↔ c = ' ' ∨ c = '\t' ∨ c = '\r' ∨ c = '\n' := by
  simp [isBlank, or_assoc]

theorem LineEnd.stops {s : List Char} (h : LineEnd s) : Stops (fun c => !isLineEnd c) s := by
  cases h <;> simp [Stops, isLineEnd]

/-- A comment may be where its line ends properly. -/
theorem closesComment_iff {s : List Char} :
    closesComment s = true ↔ LineEnd (s.dropWhile fun c => !isLineEnd c) := by
  have hstops := stops_dropWhile (fun c => !isLineEnd c) s
  unfold closesComment
  generalize s.dropWhile (fun c => !isLineEnd c) = rest at hstops
  split
  · exact iff_of_true rfl .returnFeed
  · rename_i hne
    exact iff_of_false (by simp) fun h => by cases h; exact hne _ rfl
  · rename_i hreturn
    refine iff_of_true rfl ?_
    match rest, hstops with
    | [], _ => exact .text
    | c :: rest, hstops =>
      have hc : isLineEnd c = true := by simpa [Stops] using hstops
      obtain rfl | rfl : c = '\r' ∨ c = '\n' := by simpa [isLineEnd] using hc
      · exact absurd rfl (hreturn rest)
      · exact .feed

theorem tokens_of_blank {s rest : List Char} (h : Blank s rest) : tokens s = tokens rest := by
  induction h with
  | none => rfl
  | space hc _ ih => rw [tokens_blank (isBlank_iff.2 hc), ih]
  | @comment line s rest hline hend _ ih =>
    have hin : ∀ c ∈ line, (!isLineEnd c) = true := by simpa [isLineEnd] using hline
    have hdrop := dropWhile_of_stops hin hend.stops
    rw [tokens_comment (closesComment_iff.2 (by rwa [hdrop])), hdrop, ih]

/-- A text has no token, or there are blanks up to the character at which the
first token is read. -/
theorem blank_or_read (s : List Char) :
    (tokens s = [] ∧ Blank s []) ∨ ∃ c s', Blank s (c :: s') ∧
      tokens s = ⟨(Token.read c s').1, c :: s'⟩ :: tokens (s'.drop (Token.read c s').2) := by
  -- On the length: a comment takes many characters at once.
  induction hlen : s.length using Nat.strongRecOn generalizing s with
  | ind n ih =>
    subst hlen
    have before {t : List Char} (hlt : t.length < s.length) (htokens : tokens s = tokens t)
        (hblank : ∀ {rest}, Blank t rest → Blank s rest) :
        (tokens s = [] ∧ Blank s []) ∨ ∃ c s', Blank s (c :: s') ∧
          tokens s = ⟨(Token.read c s').1, c :: s'⟩ :: tokens (s'.drop (Token.read c s').2) := by
      rw [htokens]
      obtain ⟨hnil, hb⟩ | ⟨c, s', hb, hread⟩ := ih _ hlt t rfl
      · exact .inl ⟨hnil, hblank hb⟩
      · exact .inr ⟨c, s', hblank hb, hread⟩
    match s with
    | [] => exact .inl ⟨rfl, .none⟩
    | c :: s =>
      by_cases hc : isBlank c = true
      · exact before (Nat.lt_succ_self _) (tokens_blank hc s) (.space (isBlank_iff.1 hc))
      · by_cases hcomment : c = '%' ∧ closesComment s = true
        · obtain ⟨rfl, hcloses⟩ := hcomment
          refine before ?_ (tokens_comment hcloses) fun {rest} hb => ?_
          · exact Nat.lt_succ_of_le (List.length_dropWhile_le _ s)
          · have hline : ∀ d ∈ s.takeWhile fun d => !isLineEnd d, d ≠ '\r' ∧ d ≠ '\n' := by
              intro d hd
              simpa [isLineEnd] using List.mem_takeWhile_imp hd
            have := Blank.comment hline (closesComment_iff.1 hcloses) hb
            rwa [List.takeWhile_append_dropWhile] at this
        · exact .inr ⟨c, s, .none, tokens_cons (Bool.eq_false_iff.2 hc) hcomment⟩

/-! ## What a token spells -/

/-- The text begins with the token, and the other text stands behind it. -/
inductive Spells : List Char → Token → List Char → Prop where
  | name {word rest : List Char} (hword : IsName word) (hrest : Stops isWordChar rest) :
      Spells (word ++ rest) (.name (.ofList word)) rest
  | var {word rest : List Char} (hword : IsVariable word) (hrest : Stops isWordChar rest) :
      Spells (word ++ rest) (.var (.ofList word)) rest
  | number {digits rest : List Char} (hdigits : IsNumber digits)
      (hrest : Stops Char.isDigit rest) : Spells (digits ++ rest) (.number (ofDecimal digits)) rest
  | left {rest : List Char} : Spells ('(' :: rest) .left rest
  | right {rest : List Char} : Spells (')' :: rest) .right rest
  | comma {rest : List Char} : Spells (',' :: rest) .comma rest
  | period {rest : List Char} : Spells ('.' :: rest) .period rest
  | neck {rest : List Char} : Spells (':' :: '-' :: rest) .neck rest

/-! ### What is read -/

theorem isLower_iff {c : Char} : c.isLower = true ↔ 97 ≤ c.toNat ∧ c.toNat ≤ 122 := by
  change (decide ('a'.val ≤ c.val) && decide (c.val ≤ 'z'.val)) = true ↔ _
  simp [UInt32.le_iff_toNat_le]

theorem isUpper_iff {c : Char} : c.isUpper = true ↔ 65 ≤ c.toNat ∧ c.toNat ≤ 90 := by
  change decide ('A'.val ≤ c.val ∧ c.val ≤ 'Z'.val) = true ↔ _
  simp [UInt32.le_iff_toNat_le]

theorem isDigit_iff {c : Char} : c.isDigit = true ↔ 48 ≤ c.toNat ∧ c.toNat ≤ 57 := by
  change (decide ('0'.val ≤ c.val) && decide (c.val ≤ '9'.val)) = true ↔ _
  simp [UInt32.le_iff_toNat_le]

theorem not_lower_of_upper {c : Char} (h : c.isUpper = true) : ¬c.isLower = true := by
  rw [isUpper_iff] at h
  rw [isLower_iff]
  omega

theorem not_letter_of_digit {c : Char} (h : c.isDigit = true) :
    ¬c.isLower = true ∧ ¬c.isUpper = true := by
  rw [isDigit_iff] at h
  rw [isLower_iff, isUpper_iff]
  omega

section
variable {c : Char} (s : List Char)

theorem read_name (hc : c.isLower = true) : Token.read c s =
    (.name (.ofList (c :: s.takeWhile isWordChar)), (s.takeWhile isWordChar).length) := by
  unfold Token.read
  rw [if_pos hc]

theorem read_var (hc : c.isUpper = true) : Token.read c s =
    (.var (.ofList (c :: s.takeWhile isWordChar)), (s.takeWhile isWordChar).length) := by
  unfold Token.read
  rw [if_neg (not_lower_of_upper hc), if_pos hc]

theorem read_number (hc : c.isDigit = true) : Token.read c s =
    (.number (ofDecimal (c :: s.takeWhile Char.isDigit)), (s.takeWhile Char.isDigit).length) := by
  obtain ⟨hlower, hupper⟩ := not_letter_of_digit hc
  unfold Token.read
  rw [if_neg hlower, if_neg hupper, if_pos hc]

end

/-- A token that is read is spelled by the text. -/
theorem spells_of_read {c : Char} {s : List Char}
    (hstray : ∀ d, (Token.read c s).1 ≠ .stray d) :
    Spells (c :: s) (Token.read c s).1 (s.drop (Token.read c s).2) := by
  have hword : ∀ d ∈ s.takeWhile isWordChar, isWordChar d = true :=
    fun d => List.mem_takeWhile_imp
  by_cases hlower : c.isLower = true
  · rw [read_name s hlower, drop_takeWhile]
    have := Spells.name ⟨c, _, rfl, hlower, hword⟩ (stops_dropWhile _ s)
    rwa [List.cons_append, List.takeWhile_append_dropWhile] at this
  by_cases hupper : c.isUpper = true
  · rw [read_var s hupper, drop_takeWhile]
    have := Spells.var ⟨c, _, rfl, hupper, hword⟩ (stops_dropWhile _ s)
    rwa [List.cons_append, List.takeWhile_append_dropWhile] at this
  by_cases hdigit : c.isDigit = true
  · rw [read_number s hdigit, drop_takeWhile]
    have hdigits : IsNumber (c :: s.takeWhile Char.isDigit) :=
      ⟨by simp, List.forall_mem_cons.2 ⟨hdigit, fun d => List.mem_takeWhile_imp⟩⟩
    have := Spells.number hdigits (stops_dropWhile _ s)
    rwa [List.cons_append, List.takeWhile_append_dropWhile] at this
  unfold Token.read at hstray ⊢
  rw [if_neg hlower, if_neg hupper, if_neg hdigit] at hstray ⊢
  split at hstray
  · exact .left
  · exact .right
  · exact .comma
  · exact .period
  · exact .neck
  · exact absurd rfl (hstray _)

/-- No blank and no comment begins with a character of the class. -/
abbrev BlankFree (p : Char → Bool) : Prop :=
  p ' ' = false ∧ p '\t' = false ∧ p '\r' = false ∧ p '\n' = false ∧ p '%' = false

theorem tokens_cons_of_class {p : Char → Bool} (hp : BlankFree p) {c : Char} (hc : p c = true)
    (s : List Char) :
    tokens (c :: s) = ⟨(Token.read c s).1, c :: s⟩ :: tokens (s.drop (Token.read c s).2) := by
  have hne {d : Char} (hd : p d = false) : c ≠ d := by
    rintro rfl
    simp [hd] at hc
  obtain ⟨hspace, htab, hreturn, hfeed, hpercent⟩ := hp
  apply tokens_cons
  · rw [Bool.eq_false_iff, ne_eq, isBlank_iff]
    simp [hne hspace, hne htab, hne hreturn, hne hfeed]
  · simp [hne hpercent]

theorem Spells.tokens_eq {s rest : List Char} {tok : Token} (h : Spells s tok rest) :
    tokens s = ⟨tok, s⟩ :: tokens rest := by
  cases h with
  | left | right | comma | period | neck => rfl
  | name hword hrest =>
    obtain ⟨c, cs, rfl, hc, hcs⟩ := hword
    rw [List.cons_append, tokens_cons_of_class (by decide) hc, read_name _ hc,
      drop_takeWhile, takeWhile_of_stops hcs hrest, dropWhile_of_stops hcs hrest]
  | var hword hrest =>
    obtain ⟨c, cs, rfl, hc, hcs⟩ := hword
    rw [List.cons_append, tokens_cons_of_class (by decide) hc, read_var _ hc,
      drop_takeWhile, takeWhile_of_stops hcs hrest, dropWhile_of_stops hcs hrest]
  | @number digits rest hdigits hrest =>
    match digits, hdigits with
    | c :: cs, ⟨_, hcs⟩ =>
      obtain ⟨hc, hcs⟩ := List.forall_mem_cons.1 hcs
      rw [List.cons_append, tokens_cons_of_class (by decide) hc, read_number _ hc,
        drop_takeWhile, takeWhile_of_stops hcs hrest, dropWhile_of_stops hcs hrest]

theorem Spells.length_lt {s rest : List Char} {tok : Token} (h : Spells s tok rest) :
    (tokens rest).length < (tokens s).length := by
  rw [h.tokens_eq, List.length_cons]
  exact Nat.lt_succ_self _

/-- The first token of a text that is no stray character, and the other tokens. -/
theorem tokens_eq_cons_iff {s start : List Char} {tok : Token} {ts : List Lexeme}
    (hstray : ∀ c, tok ≠ .stray c) :
    tokens s = ⟨tok, start⟩ :: ts ↔
      Blank s start ∧ ∃ rest, Spells start tok rest ∧ ts = tokens rest := by
  constructor
  · intro h
    obtain ⟨hnil, -⟩ | ⟨c, s', hblank, hread⟩ := blank_or_read s
    · rw [hnil] at h
      cases h
    · rw [hread] at h
      cases h
      exact ⟨hblank, _, spells_of_read hstray, rfl⟩
  · rintro ⟨hblank, rest, hspells, rfl⟩
    rw [tokens_of_blank hblank, hspells.tokens_eq]

theorem tokens_eq_nil_iff {s : List Char} : tokens s = [] ↔ Blank s [] := by
  refine ⟨fun h => ?_, fun h => by rw [tokens_of_blank h]; rfl⟩
  obtain ⟨-, hblank⟩ | ⟨c, s', -, hread⟩ := blank_or_read s
  · exact hblank
  · rw [hread] at h
    cases h

/-! ## Written numbers -/

theorem ofDecimal_eq (digits : List Char) : ofDecimal digits = Nat.ofDigitChars 10 digits 0 := rfl

theorem toList_toString (n : Int) :
    (toString n).toList = (if n < 0 then ['-'] else []) ++ Nat.toDigits 10 n.natAbs := by
  cases n with
  | ofNat k =>
    have hsign : ¬Int.ofNat k < 0 := Int.not_lt.2 (Int.natCast_nonneg k)
    change (Nat.repr k).toList = _
    rw [Nat.toList_repr, if_neg hsign]
    rfl
  | negSucc k =>
    change ("-" ++ Nat.repr (k + 1)).toList = _
    rw [String.toList_append, Nat.toList_repr, if_pos (Int.negSucc_lt_zero k)]
    rfl

theorem isDigit_or_minus {n : Int} {c : Char} (h : c ∈ (toString n).toList) :
    c.isDigit = true ∨ c = '-' := by
  rw [toList_toString, List.mem_append] at h
  rcases h with hsign | hdigit
  · split at hsign
    · exact .inr (List.mem_singleton.1 hsign)
    · cases hsign
  · exact .inl (Nat.isDigit_of_mem_toDigits (by decide) (by decide) hdigit)

end HornSearch.Source
