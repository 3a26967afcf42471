import HornSearch.Proofs.Parsing

/-!
# Parsers and tokens

What a parser reads depends on the tokens alone, and not on the texts that they begin
(`Blind`, one lemma for each parser). And a parser takes no stray character, so a text in
which there is one anywhere is refused (`Takes`).

Main statements: `parse_ok_iff_of_bare` and `noStray_of_parse`.
-/

namespace HornSearch.Source

variable {α β : Type}

/-! ## Bare tokens -/

def Lexeme.bare (l : Lexeme) : Lexeme := ⟨l.token, []⟩

abbrev bare (ts : List Lexeme) : List Lexeme := ts.map Lexeme.bare

/-- What was read, and the bare tokens behind it or where reading failed. -/
def bareRest : Except (List Lexeme) (α × List Lexeme) → Except (List Lexeme) (α × List Lexeme)
  | .ok (a, rest) => .ok (a, bare rest)
  | .error rest => .error (bare rest)

/-- The parser reads from bare tokens what it reads from the tokens. -/
def Blind (parser : Parse α) : Prop := ∀ ts, parser (bare ts) = bareRest (parser ts)

/-- Where a parser goes on from the tokens that the first one left, and this is blind, the
whole is. -/
theorem bareRest_bind {x : Except (List Lexeme) (α × List Lexeme)}
    {f : α × List Lexeme → Except (List Lexeme) (β × List Lexeme)}
    (hf : ∀ a rest, f (a, bare rest) = bareRest (f (a, rest))) :
    (bareRest x >>= f) = bareRest (x >>= f) := by
  match x with
  | .ok (a, rest) => exact hf a rest
  | .error rest => rfl

theorem blind_commaSeparated {item : Parse α} (hitem : Blind item) (n : Nat) :
    Blind (commaSeparated item n) := by
  induction n with
  | zero => exact fun ts => rfl
  | succ n ih =>
    intro ts
    rw [commaSeparated, hitem ts]
    refine bareRest_bind fun a rest => ?_
    match rest with
    | [] => rfl
    | ⟨tok, _⟩ :: more =>
      cases tok with
      | comma =>
        simp only [bare, List.map_cons, Lexeme.bare, ih more]
        cases commaSeparated item n more <;> rfl
      | _ => rfl

theorem blind_arguments {term : Parse Term} (hterm : Blind term) (n : Nat) :
    Blind (arguments term n) := by
  intro ts
  match ts with
  | [] => rfl
  | ⟨tok, _⟩ :: ts =>
    cases tok with
    | left =>
      change (commaSeparated term n (bare ts) >>= _) = _
      rw [blind_commaSeparated hterm n ts]
      refine bareRest_bind fun args rest => ?_
      match rest with
      | [] => rfl
      | ⟨tok, _⟩ :: _ => cases tok <;> rfl
    | _ => rfl

/-- By induction on the bound, since the arguments of a term are terms again. -/
theorem blind_term (n : Nat) : Blind (term n) := by
  induction n with
  | zero => exact fun ts => rfl
  | succ n ih =>
    intro ts
    match ts with
    | [] => rfl
    | ⟨tok, start⟩ :: ts =>
      cases tok with
      | name f =>
        simp only [bare, List.map_cons, Lexeme.bare, term_name, blind_arguments ih n ts]
        cases arguments (term n) n ts <;> rfl
      | number k =>
        change (if k < 2 ^ 63 then .ok (Term.num (Int64.ofNat k), bare ts)
          else .error (⟨.number k, []⟩ :: bare ts)) =
          bareRest (if k < 2 ^ 63 then .ok (Term.num (Int64.ofNat k), ts)
            else .error (⟨.number k, start⟩ :: ts))
        split <;> rfl
      | _ => rfl

theorem blind_compound (n : Nat) : Blind (compound n) := by
  intro ts
  match ts with
  | [] => rfl
  | ⟨tok, _⟩ :: ts =>
    cases tok with
    | name f =>
      change (arguments (term n) n (bare ts) >>= _) = _
      rw [blind_arguments (blind_term n) n ts]
      exact bareRest_bind fun args rest => rfl
    | _ => rfl

theorem blind_goals (n : Nat) : Blind (goals n) := blind_commaSeparated (blind_compound n) n

theorem blind_clause (n : Nat) : Blind (clause n) := by
  intro ts
  rw [clause, blind_compound n ts]
  refine bareRest_bind fun head rest => ?_
  match rest with
  | [] => rfl
  | ⟨tok, _⟩ :: body =>
    cases tok with
    | neck =>
      simp only [bare, List.map_cons, Lexeme.bare, blind_goals n body]
      match goals n body with
      | .error _ | .ok (_, []) => rfl
      | .ok (_, ⟨tok, _⟩ :: _) => cases tok <;> rfl
    | _ => rfl

/-- A program is read from bare tokens as from the tokens themselves, up to its end. -/
theorem clauses_bare (n k : Nat) (ts : List Lexeme) :
    clauses n k (bare ts) = (clauses n k ts).mapError bare := by
  induction k generalizing ts with
  | zero => cases ts <;> rfl
  | succ k ih =>
    match ts with
    | [] => rfl
    | t :: ts =>
      have hread := blind_clause n (t :: ts)
      change (clause n (bare (t :: ts)) >>= _) = (clause n (t :: ts) >>= _ : Except _ _).mapError _
      rw [hread]
      match clause n (t :: ts) with
      | .error _ => rfl
      | .ok (c, rest) =>
        change (clauses n k (bare rest) >>= _) = (clauses n k rest >>= _ : Except _ _).mapError _
        rw [ih rest]
        cases clauses n k rest <;> rfl

theorem conjunction_bare (n : Nat) (ts : List Lexeme) :
    conjunction n (bare ts) = (conjunction n ts).mapError bare := by
  rw [conjunction, blind_goals n ts, conjunction]
  match goals n ts with
  | .error _ | .ok (_, []) => rfl
  | .ok (_, ⟨tok, _⟩ :: []) | .ok (_, ⟨tok, _⟩ :: _ :: _) => cases tok <;> rfl

/-- Texts with the same tokens are both accepted, with the same result, or both refused. -/
theorem parse_ok_iff_of_bare {whole : Nat → List Lexeme → Except (List Lexeme) α}
    (hwhole : ∀ n ts, whole n (bare ts) = (whole n ts).mapError bare) {text text' : String}
    (htokens : bare (tokens text.toList) = bare (tokens text'.toList)) {a : α} :
    parse whole text = .ok a ↔ parse whole text' = .ok a := by
  have hread (text : String) : parse whole text = .ok a ↔
      whole (bare (tokens text.toList)).length (bare (tokens text.toList)) = .ok a := by
    rw [hwhole, List.length_map]
    refine ⟨fun h => by rw [parse_eq_ok h]; rfl, fun h => parse_of_whole ?_⟩
    cases hw : whole (tokens text.toList).length (tokens text.toList) with
    | ok b =>
      rw [hw] at h
      exact h
    | error rest =>
      rw [hw] at h
      cases h
  rw [hread text, htokens, hread text']

/-! ## Stray characters -/

def NoStray (ts : List Lexeme) : Prop := ∀ l ∈ ts, ∀ c, l.token ≠ .stray c

theorem NoStray.cons {t : Lexeme} {ts : List Lexeme} (ht : ∀ c, t.token ≠ .stray c)
    (hts : NoStray ts) : NoStray (t :: ts) :=
  List.forall_mem_cons.2 ⟨ht, hts⟩

theorem noStray_nil : NoStray [] := fun _ hl => absurd hl List.not_mem_nil

/-- None of the tokens that the parser takes is a stray character. -/
def Takes (parser : Parse α) : Prop :=
  ∀ {ts a rest}, parser ts = .ok (a, rest) → NoStray rest → NoStray ts

/-- Between items only commas are taken, which are no stray characters. -/
theorem takes_commaSeparated {item : Parse α} (hitem : Takes item) (n : Nat) :
    Takes (commaSeparated item n) := by
  induction n with
  | zero =>
    intro ts as rest h
    cases h
  | succ n ih =>
    intro ts as rest h hrest
    obtain ⟨⟨a, behind⟩, hread, h⟩ := bind_eq_ok_iff.1 h
    refine hitem hread ?_
    simp only at h
    split at h
    · split at h
      · rename_i hmore
        cases h
        exact (ih hmore hrest).cons nofun
      · cases h
        exact hrest
    · cases h
      exact hrest

theorem takes_arguments {term : Parse Term} (hterm : Takes term) (n : Nat) :
    Takes (arguments term n) := by
  intro ts args rest h hrest
  unfold arguments at h
  split at h
  · obtain ⟨⟨as, behind⟩, hread, h⟩ := bind_eq_ok_iff.1 h
    simp only at h
    split at h
    · cases h
      exact (takes_commaSeparated hterm n hread (hrest.cons nofun)).cons nofun
    · cases h
  · cases h

theorem takes_term (n : Nat) : Takes (term n) := by
  induction n with
  | zero =>
    intro ts t rest h
    cases h
  | succ n ih =>
    intro ts t rest h hrest
    match ts with
    | [] => cases h
    | ⟨tok, start⟩ :: ts =>
      cases tok with
      | name f =>
        rw [term_name] at h
        split at h
        · rename_i hread
          cases h
          exact (takes_arguments ih n hread hrest).cons nofun
        · cases h
          exact hrest.cons nofun
      | number k =>
        change (if k < 2 ^ 63 then .ok (.num (Int64.ofNat k), ts)
          else .error (⟨.number k, start⟩ :: ts)) = Except.ok (t, rest) at h
        split at h
        · cases h
          exact hrest.cons nofun
        · cases h
      | var x =>
        cases h
        exact hrest.cons nofun
      | _ => cases h

theorem takes_compound (n : Nat) : Takes (compound n) := by
  intro ts c rest h hrest
  unfold compound at h
  split at h
  · obtain ⟨⟨args, behind⟩, hread, h⟩ := bind_eq_ok_iff.1 h
    cases h
    exact (takes_arguments (takes_term n) n hread hrest).cons nofun
  · cases h

theorem takes_goals (n : Nat) : Takes (goals n) := takes_commaSeparated (takes_compound n) n

theorem takes_clause (n : Nat) : Takes (clause n) := by
  intro ts c rest h hrest
  obtain ⟨⟨head, behind⟩, hread, h⟩ := bind_eq_ok_iff.1 h
  refine takes_compound n hread ?_
  simp only at h
  split at h
  · cases h
    exact hrest.cons nofun
  · split at h
    · rename_i hgoals
      cases h
      exact (takes_goals n hgoals (hrest.cons nofun)).cons nofun
    · cases h
  · cases h

/-- In a program that is read to its end, some clause has taken each token. -/
theorem noStray_of_clauses {n k : Nat} {ts : List Lexeme} {cs : List Clause}
    (h : clauses n k ts = .ok cs) : NoStray ts := by
  induction k generalizing ts cs with
  | zero =>
    match ts, h with
    | [], _ => exact noStray_nil
  | succ k ih =>
    match ts, h with
    | [], _ => exact noStray_nil
    | t :: ts, h =>
      obtain ⟨⟨c, rest⟩, hread, h⟩ := bind_eq_ok_iff.1 h
      obtain ⟨cs', hmore, -⟩ := bind_eq_ok_iff.1 h
      exact takes_clause n hread (ih hmore)

theorem noStray_of_conjunction {n : Nat} {ts : List Lexeme} {gs : List Compound}
    (h : conjunction n ts = .ok gs) : NoStray ts := by
  obtain ⟨⟨gs', rest⟩, hread, h⟩ := bind_eq_ok_iff.1 h
  simp only at h
  split at h
  · exact takes_goals n hread (noStray_nil.cons nofun)
  · cases h
  · cases h

/-- An accepted text has no stray character. -/
theorem noStray_of_parse {whole : Nat → List Lexeme → Except (List Lexeme) α}
    (hwhole : ∀ {n ts a}, whole n ts = .ok a → NoStray ts) {s : List Char} {a : α}
    (h : parse whole (.ofList s) = .ok a) : NoStray (tokens s) := by
  have hs := hwhole (parse_eq_ok h)
  rwa [String.toList_ofList] at hs

end HornSearch.Source
