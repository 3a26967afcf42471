import HornSearch.Json.Graph
import HornSearch.Proofs.JsonText
import HornSearch.Proofs.Substitution

/-!
# Terms, clauses and graphs are read back from JSON

Variables, terms, compounds, rules, clauses and graphs are the ones that their JSON
texts are read as, with the flags of variables and the order of everything
(`json_roundTrips`). A reader opens less than 128 containers, so the text must not be
nested deeper (`Json.depth`).
-/

namespace HornSearch

/-! ## Nesting -/

namespace Json

mutual
/-- The number of arrays and objects that are open at the deepest place. -/
def depth : Json → Nat
  | .array items => depthItems items + 1
  | .object fields => depthFields fields + 1
  | _ => 0

def depthItems : List Json → Nat
  | [] => 0
  | item :: items => max item.depth (depthItems items)

def depthFields : List (String × Json) → Nat
  | [] => 0
  | (_, value) :: fields => max value.depth (depthFields fields)
end

/-- An item is no deeper than its array, so there is room for it where there is room for
the array. -/
theorem depth_le_of_mem {α : Type} {write : α → Json} {l : List α} {a : α} (h : a ∈ l) :
    (write a).depth ≤ depthItems (l.map write) := by
  induction l with
  | nil => cases h
  | cons b l ih =>
    rw [List.map_cons, depthItems]
    rcases List.mem_cons.1 h with rfl | h
    · exact Nat.le_max_left _ _
    · exact (ih h).trans (Nat.le_max_right _ _)

@[simp] theorem depth_ofText (text : String) : (ofText text).depth = 0 := rfl

@[simp] theorem depth_ofFields (fields : List (String × Json)) :
    (ofFields fields).depth = depthFields fields + 1 := by
  rw [ofFields, depth]
  congr 1
  induction fields with
  | nil => rfl
  | cons field fields ih => simp [depthFields, ih]

/-! ## Parts -/

theorem unquote_escape (text : String) :
    unquote (String.ofList (Quoted.escape text.toList)) = some text := by
  simp [unquote, Quoted.unescape_escape]

@[simp] theorem toText?_ofText (text : String) : (ofText text).toText? = some text :=
  unquote_escape text

@[simp] theorem toInt64?_toInt (n : Int64) : (integer n.toInt).toInt64? = some n := by
  have hrange : Int64.minValue.toInt ≤ n.toInt ∧ n.toInt ≤ Int64.maxValue.toInt :=
    ⟨Int64.minValue_le_toInt n, Int64.toInt_le n⟩
  rw [toInt64?, if_pos hrange, Int64.ofInt_toInt]

@[simp] theorem toVariant?_ofFields (key : String) (value : Json) :
    (ofFields [(key, value)]).toVariant? = some (key, value) := by
  simp [ofFields, toVariant?, unquote_escape]

end Json

theorem mapM_map_eq_some {α β γ : Type} {f : β → Option γ} {g : α → β} {h : α → γ} {l : List α}
    (hf : ∀ a ∈ l, f (g a) = some (h a)) : (l.map g).mapM f = some (l.map h) := by
  rw [List.mapM_map]
  exact mapM_some_of_forall hf

theorem mapM_map_eq_self {α β : Type} {f : β → Option α} {g : α → β} {l : List α}
    (hf : ∀ a ∈ l, f (g a) = some a) : (l.map g).mapM f = some l := by
  rw [mapM_map_eq_some (h := id) hf, List.map_id]

namespace Json

theorem filter_key_of_mem {fields : List (String × Json)} (h : (fields.map Prod.fst).Nodup)
    {field : String × Json} (hmem : field ∈ fields) :
    fields.filter (fun other => other.1 = field.1) = [field] := by
  induction fields with
  | nil => cases hmem
  | cons other fields ih =>
    rw [List.map_cons, List.nodup_cons] at h
    rcases List.mem_cons.1 hmem with rfl | hmem
    · have hrest : fields.filter (fun other => other.1 = field.1) = [] := by
        rw [List.filter_eq_nil_iff]
        intro other hother heq
        exact h.1 (of_decide_eq_true heq ▸ List.mem_map_of_mem hother)
      rw [List.filter_cons_of_pos (by simp), hrest]
    · have hne : other.1 ≠ field.1 := fun heq => h.1 (heq ▸ List.mem_map_of_mem hmem)
      rw [List.filter_cons_of_neg (by simp [hne]), ih h.2 hmem]

/-- Where the keys are distinct, what is found under a key is what was written under it. -/
theorem valueOf_of_mem {fields : List (String × Json)} (h : (fields.map Prod.fst).Nodup)
    {field : String × Json} (hmem : field ∈ fields) :
    valueOf field.1 fields = some field.2 := by
  simp [valueOf, filter_key_of_mem h hmem]

/-- A structure is read with the names and in the order in which it is written. -/
@[simp] theorem toFields?_ofFields {names : List String} {fields : List (String × Json)}
    (hnames : fields.map Prod.fst = names) (h : names.Nodup) :
    (ofFields fields).toFields? names = some (fields.map Prod.snd) := by
  subst hnames
  rw [ofFields, toFields?, mapM_map_eq_self]
  · exact mapM_map_eq_some fun _ => valueOf_of_mem h
  · intro field _
    simp [unquote_escape]

end Json

/-! ## Terms and clauses -/

theorem Term.toJsonAll_eq_map (ts : List Term) : toJsonAll ts = ts.map toJson := by
  induction ts with
  | nil => rfl
  | cons t ts ih => rw [toJsonAll, ih, List.map_cons]

theorem Var.ofJson?_toJson (x : Var) (room : Nat) : ofJson? (room + 1) x.toJson = some x := by
  simp [ofJson?, toJson, Json.toBool?]

/-- A compound is read back by every reader of terms that reads back its arguments. -/
theorem Compound.ofJsonWith_toJson {term : Json → Option Term} {c : Compound}
    (h : ∀ t ∈ c.args, term t.toJson = some t) : ofJsonWith term c.toJson = some c := by
  simp [ofJsonWith, toJson, Term.toJsonAll_eq_map, Json.toItems?, mapM_map_eq_self h]

theorem Compound.depth_toJson (c : Compound) :
    c.toJson.depth = Json.depthItems (c.args.map Term.toJson) + 2 := by
  simp [toJson, Term.toJsonAll_eq_map, Json.depthFields, Json.depth]

theorem Compound.toJson_toTerm (c : Compound) :
    c.toTerm.toJson = .ofFields [("Functor", c.toJson)] := rfl

/-- A term is read back where there is room for its depth. A compound takes three
containers for itself, for its kind, its fields and its arguments, and leaves the rest of the
room to the arguments. -/
theorem Term.ofJson?_toJson {t : Term} {room : Nat} (hroom : t.toJson.depth ≤ room) :
    ofJson? room t.toJson = some t := by
  induction t generalizing room with
  | num n =>
    have hone : 1 ≤ room := Nat.le_trans (by simp [toJson]) hroom
    obtain ⟨room, rfl⟩ := Nat.exists_eq_add_of_le' hone
    simp [toJson, ofJson?]
  | atom a =>
    have hone : 1 ≤ room := Nat.le_trans (by simp [toJson]) hroom
    obtain ⟨room, rfl⟩ := Nat.exists_eq_add_of_le' hone
    simp [toJson, ofJson?]
  | var x =>
    have htwo : 2 ≤ room :=
      Nat.le_trans (by simp [toJson, Var.toJson, Json.depthFields]) hroom
    obtain ⟨room, rfl⟩ := Nat.exists_eq_add_of_le' htwo
    simp [toJson, ofJson?, Var.ofJson?_toJson]
  | app f args ih =>
    have hwritten : (app f args).toJson = _ := Compound.toJson_toTerm ⟨f, args⟩
    rw [hwritten] at hroom ⊢
    simp only [Json.depth_ofFields, Json.depthFields, Compound.depth_toJson] at hroom
    obtain ⟨room, rfl⟩ := Nat.exists_eq_add_of_le' (by omega : 3 ≤ room)
    have hargs : ∀ t ∈ args, ofJson? room t.toJson = some t := by
      intro t ht
      apply ih t ht
      have hdepth : t.toJson.depth ≤ Json.depthItems (args.map toJson) := Json.depth_le_of_mem ht
      omega
    simp [ofJson?, Compound.ofJsonWith_toJson (c := ⟨f, args⟩) hargs, Compound.toTerm]

theorem Compound.ofJson?_toJson {c : Compound} {room : Nat} (hroom : c.toJson.depth ≤ room) :
    ofJson? room c.toJson = some c := by
  rw [Compound.depth_toJson] at hroom
  obtain ⟨room, rfl⟩ := Nat.exists_eq_add_of_le' (by omega : 2 ≤ room)
  apply Compound.ofJsonWith_toJson
  intro t ht
  apply Term.ofJson?_toJson
  have hdepth : t.toJson.depth ≤ Json.depthItems (c.args.map Term.toJson) :=
    Json.depth_le_of_mem ht
  omega

theorem Rule.ofJson?_toJson {r : Rule} {room : Nat} (hroom : r.toJson.depth ≤ room) :
    ofJson? room r.toJson = some r := by
  simp only [toJson, Json.depth_ofFields, Json.depthFields, Json.depth] at hroom
  obtain ⟨room, rfl⟩ := Nat.exists_eq_add_of_le' (by omega : 2 ≤ room)
  have hhead : Compound.ofJson? (room + 1) r.head.toJson = some r.head :=
    Compound.ofJson?_toJson (by omega)
  have hbody : (r.body.map Compound.toJson).mapM (Compound.ofJson? room) = some r.body := by
    apply mapM_map_eq_self
    intro g hg
    apply Compound.ofJson?_toJson
    have hdepth : g.toJson.depth ≤ Json.depthItems (r.body.map Compound.toJson) :=
      Json.depth_le_of_mem hg
    omega
  simp [ofJson?, toJson, Json.toItems?, hhead, hbody]

theorem Clause.ofJson?_toJson {c : Clause} {room : Nat} (hroom : c.toJson.depth ≤ room) :
    ofJson? room c.toJson = some c := by
  cases c with
  | fact head =>
    simp only [toJson, Json.depth_ofFields, Json.depthFields] at hroom
    obtain ⟨room, rfl⟩ := Nat.exists_eq_add_of_le' (by omega : 1 ≤ room)
    have hhead : Compound.ofJson? room head.toJson = some head :=
      Compound.ofJson?_toJson (by omega)
    simp [ofJson?, toJson, hhead]
  | rule r =>
    simp only [toJson, Json.depth_ofFields, Json.depthFields] at hroom
    obtain ⟨room, rfl⟩ := Nat.exists_eq_add_of_le' (by omega : 1 ≤ room)
    have hrule : Rule.ofJson? room r.toJson = some r := Rule.ofJson?_toJson (by omega)
    simp [ofJson?, toJson, hrule]

/-! ## Graphs -/

theorem foldl_distinct_of_nodup {items seen : List Int64} (h : (seen ++ items).Nodup) :
    items.foldl (fun seen n => if n ∈ seen then seen else seen ++ [n]) seen = seen ++ items := by
  induction items generalizing seen with
  | nil => simp
  | cons n items ih =>
    have hn : n ∉ seen := by
      intro hmem
      exact (List.nodup_append.1 h).2.2 n hmem n List.mem_cons_self rfl
    rw [List.foldl_cons, if_neg hn, ih (by simpa using h)]
    simp

/-- Successors are kept once each when they are read, and those of a graph are distinct. -/
theorem distinct_of_nodup {items : List Int64} (h : items.Nodup) : distinct items = items :=
  foldl_distinct_of_nodup h

theorem putEntry_of_notMem {α β : Type} [DecidableEq α] {k : α} {v : β} {entries : List (α × β)}
    (h : k ∉ entries.map Prod.fst) : putEntry k v entries = entries ++ [(k, v)] := by
  induction entries with
  | nil => rfl
  | cons e entries ih =>
    rw [List.map_cons, List.mem_cons, not_or] at h
    rw [putEntry, if_neg (Ne.symm h.1), ih h.2, List.cons_append]

theorem Graph.eq_of_adjacency {g h : Graph} (heq : g.adjacency = h.adjacency) : g = h := by
  cases g
  cases h
  simpa using heq

namespace Json

/-- A node is written as a key, in quotes, where a numeral needs no escapes. -/
theorem nodeOfKey_toInt (n : Int64) :
    nodeOfKey (String.ofList (Quoted.escape (toString n.toInt).toList)) = some n := by
  have hplain : Quoted.escape (toString n.toInt).toList = (toString n.toInt).toList := by
    apply Quoted.escape_of_plain
    intro c hc
    have hnumber := Source.isDigit_or_minus hc
    have hge : '-'.toNat ≤ c.toNat := by
      rcases hnumber with hdigit | rfl
      · exact (by decide : '-'.toNat ≤ '0'.toNat).trans (Char.isDigit_iff_toNat.1 hdigit).1
      · exact Nat.le_refl _
    refine ⟨?_, ?_, fun hlt => ?_⟩
    · rintro rfl
      exact absurd hnumber (by decide)
    · rintro rfl
      exact absurd hnumber (by decide)
    · exact absurd hge (Nat.not_le_of_lt (Nat.lt_trans hlt (by decide)))
  have hread : readNumber ((toString n.toInt).toList ++ []) = some (.integer n.toInt, []) :=
    readNumber_integer n.toInt (by simp [Source.Stops])
  rw [List.append_nil] at hread
  rw [hplain]
  simp only [nodeOfKey, String.toList_ofList, hread, toInt64?_toInt]

end Json

/-- Entries with distinct nodes are stored one behind the other. -/
theorem Graph.foldlM_set {α : Type} {read : Graph → α → Option Graph}
    {write : Int64 × List Int64 → α} {entries : List (Int64 × List Int64)}
    (hread : ∀ g e, (h : e.2.Nodup) → read g (write e) = some (g.set e.1 e.2 h))
    (hnodup : ∀ e ∈ entries, e.2.Nodup) {g : Graph}
    (hnodes : (g.nodes ++ entries.map Prod.fst).Nodup) :
    ∃ g' : Graph, (entries.map write).foldlM read g = some g' ∧
      g'.adjacency = g.adjacency ++ entries := by
  induction entries generalizing g with
  | nil => exact ⟨g, rfl, (List.append_nil _).symm⟩
  | cons e entries ih =>
    obtain ⟨he, hnodup⟩ := List.forall_mem_cons.1 hnodup
    have hnew : e.1 ∉ g.nodes := by
      intro hmem
      exact (List.nodup_append.1 hnodes).2.2 _ hmem _ List.mem_cons_self rfl
    have hset : (g.set e.1 e.2 he).adjacency = g.adjacency ++ [e] := putEntry_of_notMem hnew
    have hnodes' : ((g.set e.1 e.2 he).nodes ++ entries.map Prod.fst).Nodup := by
      simpa [nodes, hset] using hnodes
    obtain ⟨g', hfold, hg'⟩ := ih hnodup hnodes'
    refine ⟨g', ?_, ?_⟩
    · rw [List.map_cons, List.foldlM_cons, hread g e he]
      exact hfold
    · rw [hg', hset, List.append_assoc, List.singleton_append]

/-- A graph is built again from its entries, one after another. -/
theorem Graph.foldlM_adjacency {α : Type} {read : Graph → α → Option Graph}
    {write : Int64 × List Int64 → α} (g : Graph)
    (hread : ∀ g e, (h : e.2.Nodup) → read g (write e) = some (g.set e.1 e.2 h)) :
    (g.adjacency.map write).foldlM read empty = some g := by
  obtain ⟨g', hfold, hg'⟩ := foldlM_set (g := empty) hread g.nodup_successors g.nodup_nodes
  rw [hfold, eq_of_adjacency (hg'.trans (List.nil_append _))]

/-- A graph is read back whatever it contains, since its text is never deeper than three
containers. -/
theorem Graph.ofJson?_toJson (g : Graph) (room : Nat) : ofJson? (room + 3) g.toJson = some g := by
  have hfields (entries : Json) :
      (Json.ofFields [("adjacency", entries)]).toFields? ["adjacency"] = some [entries] := by
    simp
  rw [ofJson?, toJson, hfields, Json.ofFields, List.map_map]
  apply foldlM_adjacency
  intro g ⟨node, successors⟩ hnodup
  have hsuccessors :
      (successors.map fun n => Json.integer n.toInt).mapM Json.toInt64? = some successors :=
    mapM_map_eq_self fun n _ => Json.toInt64?_toInt n
  simp only [Function.comp_apply, Json.nodeOfKey_toInt, Json.toItems?]
  simp [hsuccessors, distinct_of_nodup hnodup]

/-! ## Texts -/

theorem Var.readable_toJson (x : Var) : x.toJson.Readable :=
  Json.readable_ofFields (by simp [Json.Readable.bool])

theorem Compound.readable_of_args {c : Compound} (h : ∀ t ∈ c.args, t.toJson.Readable) :
    c.toJson.Readable := by
  have hargs : (Json.array (Term.toJsonAll c.args)).Readable := by
    rw [Term.toJsonAll_eq_map]
    exact .array (List.forall_mem_map.2 h)
  exact Json.readable_ofFields (by simp [hargs])

theorem Term.readable_toJson (t : Term) : t.toJson.Readable := by
  induction t with
  | num n => exact Json.readable_ofFields (by simp [Json.Readable.integer])
  | atom a => exact Json.readable_ofFields (by simp)
  | var x => exact Json.readable_ofFields (by simp [Var.readable_toJson])
  | app f args ih =>
    have hcompound : (Compound.toJson ⟨f, args⟩).Readable := Compound.readable_of_args ih
    have hwritten : (app f args).toJson = _ := Compound.toJson_toTerm ⟨f, args⟩
    rw [hwritten]
    exact Json.readable_ofFields (by simp [hcompound])

theorem Compound.readable_toJson (c : Compound) : c.toJson.Readable :=
  readable_of_args fun t _ => t.readable_toJson

theorem Rule.readable_toJson (r : Rule) : r.toJson.Readable := by
  have hbody : (Json.array (r.body.map Compound.toJson)).Readable :=
    .array (List.forall_mem_map.2 fun c _ => c.readable_toJson)
  exact Json.readable_ofFields (by simp [Compound.readable_toJson, hbody])

theorem Clause.readable_toJson (c : Clause) : c.toJson.Readable := by
  cases c with
  | fact head => exact Json.readable_ofFields (by simp [Compound.readable_toJson])
  | rule r => exact Json.readable_ofFields (by simp [Rule.readable_toJson])

theorem Graph.readable_toJson (g : Graph) : g.toJson.Readable := by
  have hsuccessors (successors : List Int64) :
      (Json.array (successors.map fun n => .integer n.toInt)).Readable :=
    .array (List.forall_mem_map.2 fun n _ => .integer n.toInt)
  apply Json.readable_ofFields
  rw [List.forall_mem_singleton]
  exact Json.readable_ofFields (List.forall_mem_map.2 fun e _ => hsuccessors e.2)

/-- The text of `x` is read as `x` itself, and what is read is written as that text. -/
def RoundTrips {α : Type} (reader : JsonReader α) (write : α → Json) (x : α) : Prop :=
  Json.decode reader (write x).render = some x ∧
    (Json.decode reader (write x).render).map (fun y => (write y).render) =
      some (write x).render

/-- Reading goes from the text to the value and from there to `x`; both ways are undone. -/
theorem roundTrips_of_readable {α : Type} {reader : JsonReader α} {write : α → Json} {x : α}
    (hj : (write x).Readable) (hread : reader 127 (write x) = some x) :
    RoundTrips reader write x := by
  have hdecode : Json.decode reader (write x).render = some x := by
    rw [Json.decode, Json.read_render hj, Option.bind_some, hread]
  exact ⟨hdecode, by rw [hdecode, Option.map_some]⟩

/-- **Everything that is written as JSON is read back**, up to the depth that readers
allow: variables with their flags, terms, heads and goals, rules and clauses with their
arguments and goals in order, and graphs with their nodes and successors in order.
Variables and graphs are never too deep. -/
theorem json_roundTrips :
    (∀ x : Var, RoundTrips Var.ofJson? Var.toJson x) ∧
    (∀ t : Term, t.toJson.depth < 128 → RoundTrips Term.ofJson? Term.toJson t) ∧
    (∀ c : Compound, c.toJson.depth < 128 → RoundTrips Compound.ofJson? Compound.toJson c) ∧
    (∀ r : Rule, r.toJson.depth < 128 → RoundTrips Rule.ofJson? Rule.toJson r) ∧
    (∀ c : Clause, c.toJson.depth < 128 → RoundTrips Clause.ofJson? Clause.toJson c) ∧
    ∀ g : Graph, RoundTrips Graph.ofJson? Graph.toJson g := by
  refine ⟨fun x => ?_, fun t ht => ?_, fun c hc => ?_, fun r hr => ?_, fun c hc => ?_, fun g => ?_⟩
  · exact roundTrips_of_readable x.readable_toJson (x.ofJson?_toJson 126)
  · exact roundTrips_of_readable t.readable_toJson (Term.ofJson?_toJson (Nat.le_of_lt_succ ht))
  · exact roundTrips_of_readable c.readable_toJson (Compound.ofJson?_toJson (Nat.le_of_lt_succ hc))
  · exact roundTrips_of_readable r.readable_toJson (Rule.ofJson?_toJson (Nat.le_of_lt_succ hr))
  · exact roundTrips_of_readable c.readable_toJson (Clause.ofJson?_toJson (Nat.le_of_lt_succ hc))
  · exact roundTrips_of_readable g.readable_toJson (g.ofJson?_toJson 124)

/-- A head with a quote and a backslash in its name, variables with either flag, control
characters and the least number. -/
def quotedHead : Compound :=
  ⟨"a\"b\\c", [.var ⟨"_G1", true⟩, .var ⟨"X", false⟩, .atom "\x01\n", .num Int64.minValue]⟩

def quotedRule : Rule := ⟨quotedHead, [⟨"p", [quotedHead.toTerm]⟩, quotedHead]⟩

theorem json_roundTrips_quoted :
    (quotedHead.toTerm.toJson.depth < 128 ∧
      RoundTrips Term.ofJson? Term.toJson quotedHead.toTerm) ∧
    (quotedHead.toJson.depth < 128 ∧
      RoundTrips Compound.ofJson? Compound.toJson quotedHead) ∧
    (quotedRule.toJson.depth < 128 ∧ RoundTrips Rule.ofJson? Rule.toJson quotedRule) ∧
    ((Clause.rule quotedRule).toJson.depth < 128 ∧
      RoundTrips Clause.ofJson? Clause.toJson (.rule quotedRule)) := by
  have hterm : quotedHead.toTerm.toJson.depth < 128 := by decide
  have hhead : quotedHead.toJson.depth < 128 := by decide
  have hrule : quotedRule.toJson.depth < 128 := by decide
  have hclause : (Clause.rule quotedRule).toJson.depth < 128 := by decide
  obtain ⟨-, hterms, hcompounds, hrules, hclauses, -⟩ := json_roundTrips
  exact ⟨⟨hterm, hterms _ hterm⟩, ⟨hhead, hcompounds _ hhead⟩, ⟨hrule, hrules _ hrule⟩,
    hclause, hclauses _ hclause⟩

end HornSearch
