import ApiContract.Proofs.Exchanges
import ApiContract.Proofs.Readings

set_option autoImplicit false

namespace ApiContract

section Tolerance

variable {r : Resolver} {p q : Pattern} {v : Value}

theorem Accepts.tolerant (accepted : Accepts r p v) (registry : WrittenTypes r.types)
    (arises : Arises r.types p) : Accepts r.tolerant p v := by
  refine accepted.tolerant_of_unions fun alternatives reach q mem u taken => ?_
  obtain ⟨other, rfl, -⟩ := (arises.of_reaches registry reach).nullable
  rcases List.mem_cons.mp mem with rfl | mem
  · exact accepts_nullable.mpr (.inl taken)
  · exact accepts_nullable.mpr (.inr (List.mem_singleton.mp mem ▸ taken))

end Tolerance

section Drawing

variable {r : Resolver} {p q : Pattern} {v : Value} {fields : List (String × Pattern)}
  {traits : ObjectTraits} {members : Entries Value}

inductive Draws (r : Resolver) : Pattern → Pattern → Prop
  | behind {p q : Pattern} (behind : Behind r p q) : Draws r p q
  | inner {p : Pattern} : Draws r (.repeated p) p
  | element {elements : List Pattern} {knownAs : Option String} {p : Pattern}
      (mem : p ∈ elements) : Draws r (.array elements knownAs) (oneItem p)
  | field {fields : List (String × Pattern)} {traits : ObjectTraits} {field : String × Pattern}
      (mem : field ∈ fields) (free : r.cell? (bareName field.1) = none) :
      Draws r (.object fields traits) field.2
  | token {fields : List (String × Pattern)} {traits : ObjectTraits} {field : String × Pattern}
      {cell : String} {p : Pattern} (mem : field ∈ fields)
      (given : r.cell? (bareName field.1) = some cell) (token : Token.isTokenText cell)
      (read : Pattern.read cell = .ok p) : Draws r (.object fields traits) p

/-- A cell fits the field that it fills: what a token takes the field takes, and a text is read as
a value that the field takes. -/
structure FitsCell (r : Resolver) (p : Pattern) (cell : String) : Prop where
  token : Token.isTokenText cell → ∀ q, Pattern.read cell = .ok q →
    ∀ v, Accepts r q v → Accepts r p v
  text : Token.isTokenText cell = false → ∀ v, p.parse r cell = some (.ok v) → Accepts r p v

structure FitsRow (r : Resolver) (p : Pattern) : Prop where
  cells : ∀ fields traits, Relation.ReflTransGen (Draws r) p (.object fields traits) →
    ∀ field ∈ fields, ∀ cell, r.cell? (bareName field.1) = some cell → FitsCell r field.2 cell
  keys : ∀ fields traits, Relation.ReflTransGen (Draws r) p (.object fields traits) →
    BareKeys fields

theorem FitsRow.draws (h : FitsRow r p) (draws : Draws r p q) : FitsRow r q where
  cells fields traits more := h.cells fields traits (more.head draws)
  keys fields traits more := h.keys fields traits (more.head draws)

theorem Arises.draws (registry : WrittenTypes r.types) (h : Arises r.types p)
    (draws : Draws r p q) : Arises r.types q := by
  cases draws with
  | behind behind => exact h.behind registry behind
  | inner => exact h.of_reaches registry (Part.reaches .inner)
  | @element _ _ element mem =>
    cases element with
    | repeated => exact h.of_reaches registry (Part.reaches (.tail mem))
    | _ => exact h.of_reaches registry (Part.reaches (.element mem))
  | field mem => exact h.of_reaches registry (Part.reaches (.field mem))
  | token _ _ _ read => exact .inl (written_read read)

theorem Arises.accepts_of_fills (registry : WrittenTypes r.types)
    (arises : Arises r.types (.object fields traits)) (keys : BareKeys fields)
    (filled : Fills (Accepts r) fields members) :
    Accepts r (.object fields traits) (.object members) :=
  ApiContract.accepts_of_fills keys.distinct filled fun _ mem _ ok =>
    ok.tolerant registry (arises.of_reaches registry (Part.reaches (.field mem)))

theorem Arises.accepts_of_each (registry : WrittenTypes r.types) {elements : List Pattern}
    {knownAs : Option String} {items : List Value}
    (arises : Arises r.types (.array elements knownAs))
    (each : List.Forall₂ (fun p u => Accepts r (oneItem p) u) elements items) :
    Accepts r (.array elements knownAs) (.array items) :=
  ApiContract.accepts_of_each arises.ordered each fun _ _ place _ ok =>
    ok.tolerant registry (arises.of_reaches registry (Members.at?_part place).reaches)

variable {n : Nat} {entered : List String}

end Drawing

section Responses

variable {r : Resolver} {object : ObjectPattern}

def isGiven (r : Resolver) (object : ObjectPattern) : Bool :=
  match object.toPattern.generate r with
  | .value (.object members) => members.all fun member => (Pattern.exact member.2).isPlain
  | _ => false

def testsOf (s : Scenario) : List Scenario :=
  match s.testScenarios with
  | some (.ok tests) => tests
  | _ => []

def goldText : String :=
  "[\"\",\x7b\x7d,\x7b\x7d,[[\"\",[],[\"GET\",\"/\"],[200,\x7b\x7d,"
    ++ "\x7b\"kind\":\"gold\"\x7d],[\x7b\"kind\":\"silver\"\x7d]]]]"

theorem silver_for_gold_refused : ∃ s ∈ (featureOf goldText).scenarios, ∃ t ∈ testsOf s,
    ∃ response, .ok response ∈ t.generateResponse.results ∧
      t.checkResponse response ≠ some .success := by
  have refused : (featureOf goldText).scenarios.any fun s => (testsOf s).any fun t =>
      t.generateResponse.results.any fun result =>
        result.toOption.any fun response => t.checkResponse response ≠ some .success := by
    decide +kernel
  simp only [List.any_eq_true, Option.any_eq_true, decide_eq_true_eq] at refused
  obtain ⟨s, mem, t, test, result, drawn, response, given, other⟩ := refused
  cases result with
  | error e => cases given
  | ok _ =>
    cases given
    exact ⟨s, mem, t, test, response, drawn, other⟩

end Responses

end ApiContract
