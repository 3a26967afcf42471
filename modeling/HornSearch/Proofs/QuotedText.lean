import HornSearch.Json.Basic

/-!
# Quoted text is read back

The written form of a character is the character itself, a backslash and a
letter, or a backslash and four hexadecimal digits (`EscapeForm`). Each form is
read as that character, whatever follows it (`unescape_escapeChar`), and none ends
a string literal (`untilQuote_escapeChar`). So every text is read back from its
written form.
-/

namespace HornSearch.Quoted

/-- How a character is written. -/
inductive EscapeForm (c : Char) : List Char → Prop where
  | plain (hquote : c ≠ '\"') (hslash : c ≠ '\\') (hcontrol : ¬c < ' ') : EscapeForm c [c]
  | letter {l : Char} (hl : l ≠ 'u') (h : escaped l = some c) : EscapeForm c ['\\', l]
  | unit {h l : Char} (hcontrol : c < ' ') (hunit : hexUnit '0' '0' h l = some c.toNat) :
      EscapeForm c ['\\', 'u', '0', '0', h, l]

theorem hexUnit_hexDigit {n : Nat} (h : n < 32) :
    hexUnit '0' '0' (hexDigit (n / 16)) (hexDigit (n % 16)) = some n := by
  decide +revert

theorem escapeForm (c : Char) : EscapeForm c (escapeChar c) := by
  have letter {d l : Char} (hc : c = d) (hl : l ≠ 'u') (h : escaped l = some d) :
      EscapeForm c ['\\', l] := .letter hl (hc ▸ h)
  unfold escapeChar
  -- seven characters have a letter of their own
  iterate 7
    split
    · exact letter ‹_› (by decide) (by decide)
  split
  · rename_i h
    exact .unit h (hexUnit_hexDigit h)
  · exact .plain ‹_› ‹_› ‹_›

/-- A character is read back, whatever follows. -/
theorem unescape_escapeChar (c : Char) (rest : List Char) :
    unescape (escapeChar c ++ rest) = (unescape rest).map (c :: ·) := by
  generalize hform : escapeChar c = form
  cases hform ▸ escapeForm c with
  | plain hquote hslash hcontrol => simp [unescape, hslash, hcontrol]
  | letter hl h => simp [unescape, hl, h]
  | unit hcontrol hunit =>
    have hsmall : c.toNat < 32 := hcontrol
    have hhigh : isHigh c.toNat = false := by simp [isHigh]; omega
    have hlow : isLow c.toNat = false := by simp [isLow]; omega
    simp [unescape, hunit, hhigh, hlow]

theorem unescape_escape (text : List Char) : unescape (escape text) = some text := by
  induction text with
  | nil => rfl
  | cons c text ih =>
    change unescape (escapeChar c ++ escape text) = _
    rw [unescape_escapeChar, ih, Option.map_some]

/-- A character does not end the literal that it is written in. -/
theorem untilQuote_escapeChar (c : Char) (rest : List Char) :
    untilQuote (escapeChar c ++ rest) =
      (untilQuote rest).map fun (written, behind) => (escapeChar c ++ written, behind) := by
  generalize hform : escapeChar c = form
  cases hform ▸ escapeForm c with
  | plain hquote hslash hcontrol =>
    simp [untilQuote, hslash, hcontrol]
    cases untilQuote rest <;> rfl
  | letter hl h =>
    simp [untilQuote, hl, h]
    cases untilQuote rest <;> rfl
  | unit hcontrol hunit =>
    simp [untilQuote, hunit]
    cases untilQuote rest <;> rfl

theorem escape_of_plain {text : List Char} (h : ∀ c ∈ text, c ≠ '\"' ∧ c ≠ '\\' ∧ ¬c < ' ') :
    escape text = text := by
  induction text with
  | nil => rfl
  | cons c text ih =>
    obtain ⟨⟨hquote, hslash, hcontrol⟩, htext⟩ := List.forall_mem_cons.1 h
    have hother {d : Char} (hd : d < ' ') : c ≠ d := by
      rintro rfl
      exact hcontrol hd
    have hc : escapeChar c = [c] := by
      simp [escapeChar, hquote, hslash, hcontrol, hother (d := '\x08') (by decide),
        hother (d := '\t') (by decide), hother (d := '\n') (by decide),
        hother (d := '\x0c') (by decide), hother (d := '\r') (by decide)]
    change escapeChar c ++ escape text = c :: text
    rw [hc, ih htext, List.singleton_append]

/-- A written form that the next quote ends, not an earlier one. -/
def Whole (written : List Char) : Prop :=
  ∀ rest, untilQuote (written ++ '\"' :: rest) = some (written, rest)

theorem whole_escape (text : List Char) : Whole (escape text) := by
  intro rest
  induction text with
  | nil => rfl
  | cons c text ih =>
    change untilQuote (escapeChar c ++ escape text ++ '\"' :: rest) = _
    rw [List.append_assoc, untilQuote_escapeChar, ih]
    rfl

end HornSearch.Quoted
