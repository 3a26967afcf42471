import HornSearch.Json.Reader
import HornSearch.Proofs.QuotedText
import HornSearch.Proofs.Tokens

/-!
# JSON text is read back

A value without reals whose strings are written well (`Readable`) is the one that
its compact text reads as (`read_render`).

A value is read with a text behind it. What stands there must not go on with a
number; a comma, a closing bracket and the end of the text do not. The bound on the
nesting is compared with the length of what is read (`ReadsBack`).
-/

namespace HornSearch.Json

open Source (Stops takeWhile_of_stops ofDecimal_eq toList_toString isDigit_or_minus)

/-! ## Numbers -/

/-- A character that goes on with an integer, as one or as a real. -/
def numberPart (c : Char) : Bool := c.isDigit || c = '.' || c = 'e' || c = 'E'

theorem stops_isDigit {rest : List Char} (h : Stops numberPart rest) : Stops Char.isDigit rest := by
  intro c hc
  have := h c hc
  simp only [numberPart, Bool.or_eq_false_iff] at this
  exact this.1.1.1

theorem skipFraction_of_stops {rest : List Char} (h : Stops numberPart rest) :
    skipFraction rest = none := by
  unfold skipFraction
  split
  · exact absurd (h '.' rfl) (by decide)
  · rfl

theorem skipExponent_of_stops {rest : List Char} (h : Stops numberPart rest) :
    skipExponent rest = none := by
  cases rest with
  | nil => rfl
  | cons c rest =>
    have hc : ¬(c = 'e' ∨ c = 'E') := by
      rintro (rfl | rfl) <;> exact absurd (h _ rfl) (by decide)
    simp only [skipExponent, if_neg hc]

theorem isDigit_of_mem {k : Nat} {c : Char} (h : c ∈ Nat.toDigits 10 k) : c.isDigit = true :=
  Nat.isDigit_of_mem_toDigits (by decide) (by decide) h

/-- Only the numeral of zero begins with a zero. -/
theorem head?_toDigits {k : Nat} (hk : k ≠ 0) : (Nat.toDigits 10 k).head? ≠ some '0' := by
  induction k using Nat.strongRecOn with
  | ind k ih =>
    by_cases hlt : k < 10
    · rw [Nat.toDigits_of_lt_base hlt]
      have hdigit : ∀ k < 10, k ≠ 0 → [Nat.digitChar k].head? ≠ some '0' := by decide
      exact hdigit k hlt hk
    · have hfirst := ih (k / 10) (by omega) (by omega)
      rw [Nat.toDigits_of_base_le (by decide) (by omega), List.head?_append]
      cases h : (Nat.toDigits 10 (k / 10)).head? with
      | none => exact absurd (List.head?_eq_none_iff.1 h) Nat.toDigits_ne_nil
      | some c => rwa [h] at hfirst

/-- A numeral is taken whole: only that of zero begins with a zero, behind which the
reader takes no digit. -/
theorem integerDigits_toDigits (k : Nat) {rest : List Char} (hrest : Stops Char.isDigit rest) :
    integerDigits (Nat.toDigits 10 k ++ rest) = Nat.toDigits 10 k := by
  by_cases hk : k = 0
  · subst hk
    rfl
  · have htake := takeWhile_of_stops (fun _ => isDigit_of_mem (k := k)) hrest
    have hhead := head?_toDigits hk
    unfold integerDigits
    split
    · rename_i heq
      cases h : Nat.toDigits 10 k with
      | nil => exact absurd h Nat.toDigits_ne_nil
      | cons c cs => simp_all
    · exact htake

theorem readNumber_digits (negative : Bool) {k : Nat} {n : Int} {rest : List Char}
    (hn : signedInteger negative (Nat.toDigits 10 k) = some n) (hrest : Stops numberPart rest) :
    readNumber ((if negative then ['-'] else []) ++ (Nat.toDigits 10 k ++ rest)) =
      some (.integer n, rest) := by
  have hinteger := integerDigits_toDigits k (stops_isDigit hrest)
  have hfirst : ∀ c ∈ Nat.toDigits 10 k, c ≠ '-' := by
    rintro c hc rfl
    exact absurd (isDigit_of_mem hc) (by decide)
  cases hdigits : Nat.toDigits 10 k with
  | nil => exact absurd hdigits Nat.toDigits_ne_nil
  | cons c cs =>
    rw [hdigits] at hinteger hfirst hn
    have hc : c ≠ '-' := hfirst c List.mem_cons_self
    rw [List.cons_append] at hinteger
    cases negative <;>
      simp [readNumber, hc, hinteger, skipFraction_of_stops hrest, skipExponent_of_stops hrest, hn]

theorem signedInteger_toDigits (n : Int) :
    signedInteger (decide (n < 0)) (Nat.toDigits 10 n.natAbs) = some n := by
  have hvalue : ofDecimal (Nat.toDigits 10 n.natAbs) = n.natAbs := by
    rw [ofDecimal_eq, Nat.ofDigitChars_ten_toDigits]
  unfold signedInteger
  rw [hvalue]
  by_cases hn : n < 0
  · have hneg : -(n.natAbs : Int) = n := by omega
    rw [if_pos (decide_eq_true hn), if_neg (by omega), hneg]
  · have hpos : (n.natAbs : Int) = n := by omega
    rw [if_neg (by simp [hn]), hpos]

/-- The text of an integer is read as that integer, whatever stands behind it that is no
part of a number. -/
theorem readNumber_integer (n : Int) {rest : List Char} (hrest : Stops numberPart rest) :
    readNumber ((toString n).toList ++ rest) = some (.integer n, rest) := by
  have hread := readNumber_digits (decide (n < 0)) (signedInteger_toDigits n) hrest
  rw [toList_toString, List.append_assoc]
  simpa only [decide_eq_true_eq] using hread

/-! ## Values -/

/-- A value without reals, all of whose strings and keys are written well. -/
inductive Readable : Json → Prop where
  | null : Readable .null
  | bool (b : Bool) : Readable (.bool b)
  | integer (n : Int) : Readable (.integer n)
  | string {written : String} (h : Quoted.Whole written.toList) : Readable (.string written)
  | array {items : List Json} (h : ∀ item ∈ items, Readable item) : Readable (.array items)
  | object {fields : List (String × Json)} (hkeys : ∀ field ∈ fields, Quoted.Whole field.1.toList)
      (hvalues : ∀ field ∈ fields, Readable field.2) : Readable (.object fields)

@[simp] theorem readable_ofText (text : String) : (ofText text).Readable := by
  apply Readable.string
  rw [String.toList_ofList]
  exact Quoted.whole_escape _

theorem readable_ofFields {fields : List (String × Json)}
    (h : ∀ field ∈ fields, field.2.Readable) : (ofFields fields).Readable := by
  apply Readable.object
  · rw [List.forall_mem_map]
    intro field _
    rw [String.toList_ofList]
    exact Quoted.whole_escape _
  · exact List.forall_mem_map.2 h

theorem charsItems_cons (item : Json) (items : List Json) (rest : List Char) :
    charsItems (item :: items) rest =
      item.chars (if items = [] then rest else ',' :: charsItems items rest) := by
  cases items <;> rfl

theorem charsFields_cons (key : String) (value : Json) (fields : List (String × Json))
    (rest : List Char) :
    charsFields ((key, value) :: fields) rest =
      '\"' :: (key.toList ++ '\"' :: ':' :: value.chars
        (if fields = [] then rest else ',' :: charsFields fields rest)) := by
  cases fields <;> rfl

mutual
/-- A value only puts its own characters in front. The bounds of the readers are compared
with the lengths that follow from this. -/
theorem suffix_chars (j : Json) (rest : List Char) : rest <:+ j.chars rest := by
  cases j with
  | null => exact ⟨['n', 'u', 'l', 'l'], rfl⟩
  | bool b =>
    cases b with
    | true => exact ⟨['t', 'r', 'u', 'e'], rfl⟩
    | false => exact ⟨['f', 'a', 'l', 's', 'e'], rfl⟩
  | integer n => exact ⟨_, rfl⟩
  | real written => exact ⟨_, rfl⟩
  | string written => exact ⟨'\"' :: written.toList ++ ['\"'], by simp [chars]⟩
  | array items =>
    exact (List.suffix_cons _ _).trans ((suffix_charsItems items _).trans (List.suffix_cons _ _))
  | object fields =>
    exact (List.suffix_cons _ _).trans ((suffix_charsFields fields _).trans (List.suffix_cons _ _))

theorem suffix_charsItems (items : List Json) (rest : List Char) :
    rest <:+ charsItems items rest := by
  match items with
  | [] => exact List.suffix_refl rest
  | item :: items =>
    rw [charsItems_cons]
    apply List.IsSuffix.trans _ (suffix_chars item _)
    split
    · exact List.suffix_refl rest
    · exact (suffix_charsItems items rest).trans (List.suffix_cons _ _)

theorem suffix_charsFields (fields : List (String × Json)) (rest : List Char) :
    rest <:+ charsFields fields rest := by
  match fields with
  | [] => exact List.suffix_refl rest
  | (key, value) :: fields =>
    rw [charsFields_cons, ← List.cons_append]
    apply List.IsSuffix.trans _ (List.suffix_append _ _)
    apply List.IsSuffix.trans _ (List.suffix_append ['\"', ':'] _)
    apply List.IsSuffix.trans _ (suffix_chars value _)
    split
    · exact List.suffix_refl rest
    · exact (suffix_charsFields fields rest).trans (List.suffix_cons _ _)
end

/-- A character that a value can begin with. -/
def Opens (c : Char) : Prop := c ∉ [' ', '\t', '\r', '\n', ']', '\x7d']

instance (c : Char) : Decidable (Opens c) := inferInstanceAs (Decidable (¬_))

theorem exists_toString (n : Int) :
    ∃ c cs, (toString n).toList = c :: cs ∧ (c.isDigit = true ∨ c = '-') := by
  have hne : (toString n).toList ≠ [] := by
    rw [toList_toString]
    exact List.append_ne_nil_of_right_ne_nil _ Nat.toDigits_ne_nil
  obtain ⟨c, cs, hchars⟩ := List.exists_cons_of_ne_nil hne
  exact ⟨c, cs, hchars, isDigit_or_minus (hchars ▸ List.mem_cons_self)⟩

theorem opens_of_number {c : Char} (hc : c.isDigit = true ∨ c = '-') : Opens c := by
  intro hmem
  simp only [List.mem_cons, List.not_mem_nil, or_false] at hmem
  rcases hmem with rfl | rfl | rfl | rfl | rfl | rfl <;> exact absurd hc (by decide)

/-- No blank is skipped in front of a value, and none is taken for the end of an array or
an object. -/
theorem opens_chars {j : Json} (hj : j.Readable) (rest : List Char) :
    ∃ c s, Opens c ∧ j.chars rest = c :: s := by
  cases hj with
  | null => exact ⟨'n', _, by decide, rfl⟩
  | bool b =>
    cases b with
    | true => exact ⟨'t', _, by decide, rfl⟩
    | false => exact ⟨'f', _, by decide, rfl⟩
  | integer n =>
    obtain ⟨c, cs, hchars, hc⟩ := exists_toString n
    exact ⟨c, cs ++ rest, opens_of_number hc, by rw [chars, hchars, List.cons_append]⟩
  | string _ => exact ⟨'\"', _, by decide, rfl⟩
  | array _ => exact ⟨'[', _, by decide, rfl⟩
  | object _ _ => exact ⟨'\x7b', _, by decide, rfl⟩

@[simp] theorem skipBlanks_opens {c : Char} (hc : Opens c) (s : List Char) :
    skipBlanks (c :: s) = c :: s := by
  simp only [Opens, List.mem_cons, List.not_mem_nil, not_or] at hc
  simp [skipBlanks, hc]

/-! ## Reading -/

/-- A value is read in front of every text that does not go on with a number, if the bound
is more than twice its length. -/
def ReadsBack (j : Json) : Prop :=
  ∀ n rest, Stops numberPart rest → 2 * (j.chars rest).length < n + 2 * rest.length →
    readValue n (j.chars rest) = some (j, rest)

theorem ReadsBack.before {j : Json} (hj : j.ReadsBack) {mark : Char} {n : Nat} {s : List Char}
    (hmark : numberPart mark = false)
    (hn : 2 * (j.chars (mark :: s)).length < n + 2 * (s.length + 1)) :
    readValue n (j.chars (mark :: s)) = some (j, mark :: s) :=
  hj n (mark :: s) (by simpa [Stops] using hmark) hn

/-- An array is read back if its items are: each item takes a part of the text, and so the
bound that is left is enough for the others. -/
theorem readItems_charsItems {items : List Json} (hne : items ≠ [])
    (h : ∀ item ∈ items, item.ReadsBack) {n : Nat} {rest : List Char}
    (hn : 2 * (charsItems items (']' :: rest)).length + 2 ≤ n + 2 * rest.length) :
    readItems n (charsItems items (']' :: rest)) = some (items, rest) := by
  induction items generalizing n with
  | nil => exact absurd rfl hne
  | cons item items ih =>
    obtain ⟨hitem, hitems⟩ := List.forall_mem_cons.1 h
    -- the rest is shorter than what is read, so the bound is not used up
    have hall := (suffix_charsItems (item :: items) (']' :: rest)).length_le
    have hothers := (suffix_charsItems items (']' :: rest)).length_le
    rw [List.length_cons] at hall hothers
    cases n with
    | zero => omega
    | succ n =>
      unfold readItems
      rw [charsItems_cons] at hn ⊢
      by_cases hnil : items = []
      · rw [if_pos hnil] at hn ⊢
        have hread : readValue n (item.chars (']' :: rest)) = some (item, ']' :: rest) :=
          hitem.before rfl (by omega)
        simp [hread, skipBlanks, hnil]
      · rw [if_neg hnil] at hn ⊢
        have hitemLength := (suffix_chars item (',' :: charsItems items (']' :: rest))).length_le
        rw [List.length_cons] at hitemLength
        have hread : readValue n (item.chars (',' :: charsItems items (']' :: rest))) =
            some (item, ',' :: charsItems items (']' :: rest)) :=
          hitem.before rfl (by omega)
        have hmore : readItems n (charsItems items (']' :: rest)) = some (items, rest) :=
          ih hnil hitems (by omega)
        simp [hread, skipBlanks, hmore]

/-- An object is read back if its values are, and its keys are written well. -/
theorem readFields_charsFields {fields : List (String × Json)} (hne : fields ≠ [])
    (hkeys : ∀ field ∈ fields, Quoted.Whole field.1.toList)
    (h : ∀ field ∈ fields, field.2.ReadsBack) {n : Nat} {rest : List Char}
    (hn : 2 * (charsFields fields ('\x7d' :: rest)).length + 2 ≤ n + 2 * rest.length) :
    readFields n (charsFields fields ('\x7d' :: rest)) = some (fields, rest) := by
  induction fields generalizing n with
  | nil => exact absurd rfl hne
  | cons field fields ih =>
    obtain ⟨key, value⟩ := field
    obtain ⟨hkey, hkeys⟩ := List.forall_mem_cons.1 hkeys
    obtain ⟨hvalue, hvalues⟩ : value.ReadsBack ∧ ∀ field ∈ fields, field.2.ReadsBack :=
      List.forall_mem_cons.1 h
    have hall := (suffix_charsFields ((key, value) :: fields) ('\x7d' :: rest)).length_le
    have hothers := (suffix_charsFields fields ('\x7d' :: rest)).length_le
    rw [List.length_cons] at hall hothers
    cases n with
    | zero => omega
    | succ n =>
      unfold readFields
      rw [charsFields_cons] at hn ⊢
      rw [skipBlanks_opens (by decide)]
      simp only [List.length_cons, List.length_append] at hn
      by_cases hnil : fields = []
      · rw [if_pos hnil] at hn ⊢
        have hread : readValue n (value.chars ('\x7d' :: rest)) = some (value, '\x7d' :: rest) :=
          hvalue.before rfl (by omega)
        simp [hkey _, skipBlanks, hread, hnil]
      · rw [if_neg hnil] at hn ⊢
        have hvalueLength :=
          (suffix_chars value (',' :: charsFields fields ('\x7d' :: rest))).length_le
        rw [List.length_cons] at hvalueLength
        have hread : readValue n (value.chars (',' :: charsFields fields ('\x7d' :: rest))) =
            some (value, ',' :: charsFields fields ('\x7d' :: rest)) :=
          hvalue.before rfl (by omega)
        have hmore : readFields n (charsFields fields ('\x7d' :: rest)) = some (fields, rest) :=
          ih hnil hkeys hvalues (by omega)
        simp [hkey _, skipBlanks, hread, hmore]

theorem readValue_number {c : Char} (hc : c.isDigit = true ∨ c = '-') (n : Nat) (s : List Char) :
    readValue (n + 1) (c :: s) = readNumber (c :: s) := by
  have hother : c ≠ '[' ∧ c ≠ '\x7b' ∧ c ≠ '\"' ∧ c ≠ 't' ∧ c ≠ 'f' ∧ c ≠ 'n' := by
    refine ⟨?_, ?_, ?_, ?_, ?_, ?_⟩ <;> rintro rfl <;> exact absurd hc (by decide)
  simp [readValue, skipBlanks_opens (opens_of_number hc), hother]

/-- The bound in `ReadsBack` is never zero, since no text is shorter than its end. -/
theorem readsBack_of_succ {j : Json}
    (h : ∀ n rest, Stops numberPart rest → 2 * (j.chars rest).length < n + 1 + 2 * rest.length →
      readValue (n + 1) (j.chars rest) = some (j, rest)) : j.ReadsBack := by
  intro n rest hrest hn
  have hlength := (suffix_chars j rest).length_le
  cases n with
  | zero => omega
  | succ n => exact h n rest hrest hn

/-- Every readable value is read back, by induction on how it is made up. -/
theorem Readable.readsBack {j : Json} (hj : j.Readable) : j.ReadsBack := by
  induction hj with
  | null =>
    apply readsBack_of_succ
    intros
    simp [chars, readValue, skipBlanks]
  | bool b =>
    apply readsBack_of_succ
    intros
    cases b <;> simp [chars, readValue, skipBlanks]
  | integer k =>
    apply readsBack_of_succ
    intro n rest hrest _
    obtain ⟨c, cs, hchars, hc⟩ := exists_toString k
    have hread := readNumber_integer k hrest
    rw [chars]
    rw [hchars, List.cons_append] at hread ⊢
    rwa [readValue_number hc]
  | string h =>
    apply readsBack_of_succ
    intro n rest _ _
    simp [chars, readValue, skipBlanks, h rest]
  | @array items h ih =>
    apply readsBack_of_succ
    intro n rest _ hn
    rw [chars, List.length_cons] at hn
    rw [chars, readValue, skipBlanks_opens (by decide)]
    by_cases hnil : items = []
    · subst hnil
      rfl
    · have hread : readItems n (charsItems items (']' :: rest)) = some (items, rest) :=
        readItems_charsItems hnil ih (by omega)
      obtain ⟨item, items, rfl⟩ := List.exists_cons_of_ne_nil hnil
      obtain ⟨c, s, hc, hchars⟩ := opens_chars (h item List.mem_cons_self) _
      rw [charsItems_cons, hchars] at hread ⊢
      have hbracket : c ≠ ']' := by
        rintro rfl
        exact absurd hc (by decide)
      simp [skipBlanks_opens hc, hbracket, hread]
  | @object fields hkeys _ ih =>
    apply readsBack_of_succ
    intro n rest _ hn
    rw [chars, List.length_cons] at hn
    rw [chars, readValue, skipBlanks_opens (by decide)]
    by_cases hnil : fields = []
    · subst hnil
      rfl
    · have hread : readFields n (charsFields fields ('\x7d' :: rest)) = some (fields, rest) :=
        readFields_charsFields hnil hkeys ih (by omega)
      obtain ⟨⟨key, value⟩, fields, rfl⟩ := List.exists_cons_of_ne_nil hnil
      rw [charsFields_cons] at hread ⊢
      simp [skipBlanks, hread]

/-- **A readable value is the one that its text is read as.** -/
theorem read_render {j : Json} (hj : j.Readable) : read j.render = some j := by
  have hread := hj.readsBack (2 * (j.chars []).length + 2) [] (by simp [Stops]) (by simp)
  simp [read, render, hread, skipBlanks]

end HornSearch.Json
