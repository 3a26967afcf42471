import HornSearch.Proofs.Following
import HornSearch.Source.Parser

/-!
# The variables of a text

A parser makes no tokens up. So what holds of the variables among the tokens
holds of all variables of what is read (`Keeps`, one lemma for each parser), and
a query text has only host variables that begin with a capital letter
(`capital_of_parseQuery`).
-/

namespace HornSearch.Source

/-- A host variable whose name begins with an ASCII capital letter. -/
def Capital (x : Var) : Prop :=
  x.internal = false ∧ ∃ c cs, c.isUpper = true ∧ x.name = String.ofList (c :: cs)

/-! ## Tokens -/

/-- All variables among the tokens satisfy `V`. -/
def VarTokens (V : Var → Prop) (ts : List Lexeme) : Prop :=
  ∀ t ∈ ts, ∀ s, t.token = .var s → V (.ofName s)

theorem capital_of_read {c : Char} {s : List Char} {w : String}
    (h : (Token.read c s).1 = .var w) : Capital (.ofName w) := by
  unfold Token.read at h
  split at h
  · cases h
  · split at h
    · rename_i hupper
      cases h
      exact ⟨rfl, c, _, hupper, rfl⟩
    · split at h
      · cases h
      · split at h <;> cases h

theorem varTokens_scan (k : Nat) (text : List Char) : VarTokens Capital (scan k text) := by
  intro t ht s hs
  fun_induction scan k text with
  | case1 => cases ht
  | case2 k c text ih => exact ih ht
  | case3 c text hblank ih => exact ih ht
  | case4 c text hblank hcomment ih => exact ih ht
  | case5 c text hblank hcomment token k hread ih =>
    rcases List.mem_cons.1 ht with rfl | ht
    · exact capital_of_read ((congrArg Prod.fst hread).trans hs)
    · exact ih ht

/-! ## Parsers -/

theorem bind_eq_ok_iff {ε α β : Type} {x : Except ε α} {f : α → Except ε β} {b : β} :
    (x >>= f) = .ok b ↔ ∃ a, x = .ok a ∧ f a = .ok b := by
  cases x <;> simp [bind, Except.bind]

/-- From tokens with variables in `V`, the parser reads what satisfies `A`, and
leaves such tokens. -/
def Keeps {α : Type} (V : Var → Prop) (A : α → Prop) (parser : Parse α) : Prop :=
  ∀ {ts a rest}, VarTokens V ts → parser ts = .ok (a, rest) → A a ∧ VarTokens V rest

section
variable {V : Var → Prop} {α : Type} {A : α → Prop}

theorem VarTokens.tail {t : Lexeme} {ts : List Lexeme} (h : VarTokens V (t :: ts)) :
    VarTokens V ts :=
  fun s hs => h s (List.mem_cons_of_mem _ hs)

theorem keeps_commaSeparated {item : Parse α} (hitem : Keeps V A item) (n : Nat) :
    Keeps V (fun as => ∀ a ∈ as, A a) (commaSeparated item n) := by
  induction n with
  | zero =>
    intro ts as rest _ h
    cases h
  | succ n ih =>
    intro ts as rest hts h
    obtain ⟨⟨a, behind⟩, hi, h⟩ := bind_eq_ok_iff.1 h
    obtain ⟨ha, hbehind⟩ := hitem hts hi
    have alone : (∀ a' ∈ [a], A a') ∧ VarTokens V behind := ⟨by simpa using ha, hbehind⟩
    simp only at h
    split at h
    · split at h
      · rename_i hmore
        cases h
        obtain ⟨has, hrest⟩ := ih hbehind.tail hmore
        exact ⟨by simpa using ⟨ha, has⟩, hrest⟩
      · cases h; exact alone
    · cases h; exact alone

theorem keeps_arguments {term : Parse Term} (hterm : Keeps V (Term.Over V) term) (n : Nat) :
    Keeps V (fun args => ∀ t ∈ args, t.Over V) (arguments term n) := by
  intro ts args rest hts h
  unfold arguments at h
  split at h
  · obtain ⟨⟨as, behind⟩, hi, h⟩ := bind_eq_ok_iff.1 h
    obtain ⟨has, hbehind⟩ := keeps_commaSeparated hterm n hts.tail hi
    simp only at h
    split at h
    · cases h; exact ⟨has, hbehind.tail⟩
    · cases h
  · cases h

/-- A name with arguments is a compound, and a name alone an atom. -/
theorem term_name (n : Nat) (f : String) (start : List Char) (ts : List Lexeme) :
    term (n + 1) (⟨.name f, start⟩ :: ts) =
      match arguments (term n) n ts with
      | .ok (args, rest) => .ok (.app f args, rest)
      | .error _ => .ok (.atom f, ts) :=
  rfl

theorem keeps_term (n : Nat) : Keeps V (Term.Over V) (term n) := by
  induction n with
  | zero =>
    intro ts t rest _ h
    cases h
  | succ n ih =>
    intro ts t rest hts h
    match ts, hts with
    | [], _ => cases h
    | ⟨.name f, _⟩ :: ts, hts =>
      rw [term_name] at h
      split at h
      · rename_i hargs
        cases h
        obtain ⟨hargs, hrest⟩ := keeps_arguments ih n hts.tail hargs
        refine ⟨fun x hx => ?_, hrest⟩
        obtain ⟨t, ht, hx⟩ := Term.mem_vars_app.1 hx
        exact hargs t ht x hx
      · cases h
        exact ⟨by simp [Term.Over], hts.tail⟩
    | ⟨.number k, start⟩ :: ts, hts =>
      change (if k < 2 ^ 63 then .ok (.num (Int64.ofNat k), ts)
        else .error (⟨.number k, start⟩ :: ts)) = Except.ok (t, rest) at h
      split at h
      · cases h
        exact ⟨by simp [Term.Over], hts.tail⟩
      · cases h
    | ⟨.var x, _⟩ :: ts, hts =>
      cases h
      refine ⟨?_, hts.tail⟩
      simpa [Term.Over] using hts _ List.mem_cons_self _ rfl
    | ⟨.left, _⟩ :: _, _ | ⟨.right, _⟩ :: _, _ | ⟨.comma, _⟩ :: _, _ | ⟨.period, _⟩ :: _, _
    | ⟨.neck, _⟩ :: _, _ | ⟨.stray _, _⟩ :: _, _ => cases h

theorem keeps_compound (n : Nat) : Keeps V (fun c => ∀ x ∈ c.vars, V x) (compound n) := by
  intro ts c rest hts h
  unfold compound at h
  split at h
  · obtain ⟨⟨args, behind⟩, hargs, h⟩ := bind_eq_ok_iff.1 h
    cases h
    obtain ⟨hargs, hrest⟩ := keeps_arguments (keeps_term n) n hts.tail hargs
    refine ⟨fun x hx => ?_, hrest⟩
    obtain ⟨t, ht, hx⟩ := Compound.mem_vars.1 hx
    exact hargs t ht x hx
  · cases h

theorem over_conjunction {n : Nat} {ts : List Lexeme} {gs : List Compound}
    (hts : VarTokens V ts) (h : conjunction n ts = .ok gs) : ∀ g ∈ gs, ∀ x ∈ g.vars, V x := by
  obtain ⟨⟨gs', behind⟩, hgs, h⟩ := bind_eq_ok_iff.1 h
  simp only at h
  split at h
  · cases h
    exact (keeps_commaSeparated (keeps_compound n) n hts hgs).1
  · cases h
  · cases h

end

theorem parse_eq_ok {α : Type} {whole : Nat → List Lexeme → Except (List Lexeme) α}
    {text : String} {a : α} (h : parse whole text = .ok a) :
    whole (tokens text.toList).length (tokens text.toList) = .ok a := by
  simp only [parse] at h
  split at h
  · rename_i hw
    cases h
    exact hw
  · cases h
  · cases h

/-- The variables of a query text are host variables with a capital letter. -/
theorem capital_of_parseQuery {text : String} {goals : List Compound}
    (h : parseQuery text = .ok goals) : ∀ g ∈ goals, ∀ x ∈ g.vars, Capital x :=
  over_conjunction (varTokens_scan 0 _) (parse_eq_ok h)

end HornSearch.Source
