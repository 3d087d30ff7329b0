import ApiContract.Proofs.References

set_option autoImplicit false

namespace ApiContract.Resolver

inductive Refers (r : Resolver) : Pattern → Pattern → Prop
  | type {name : String} {p : Pattern} (named : registered? r.types name = some p) :
      Refers r (.reference name) p
  | null {name : String} (tolerant : r.nullTolerant) (bare : Token.typeName name = "null")
      (free : registered? r.types name = none) : Refers r (.reference name) .null

def Unknown (r : Resolver) (name : String) : Prop :=
  registered? r.types name = none ∧ ¬ (r.nullTolerant ∧ Token.typeName name = "null")

def Chain (r : Resolver) : Pattern → Pattern → Prop :=
  Relation.ReflTransGen r.Refers

def Loops (r : Resolver) (p : Pattern) : Prop :=
  Relation.TransGen r.Refers p p

/-- What becomes of a chain. An endless one is told by a name that leads back to itself. -/
inductive Outcome (r : Resolver) (p : Pattern) : Contractual Pattern → Prop
  | found {q : Pattern} (chain : r.Chain p q) (concrete : q.Concrete) : Outcome r p (.ok q)
  | unknown {name : String} (chain : r.Chain p (.reference name)) (unknown : r.Unknown name) :
      Outcome r p (.error (.unknownType (Token.typeName name)))
  | endless {name : String} (chain : r.Chain p (.reference name)) (loops : r.Loops (.reference name)) :
      Outcome r p (.error (.selfDefined name))

section Steps

variable {r : Resolver} {p q o : Pattern} {name : String}

theorem exists_name_of_refers (step : r.Refers p q) : ∃ name, p = .reference name := by
  cases step with
  | type | null => exact ⟨_, rfl⟩

theorem get_of_refers (h : r.Refers (.reference name) p) : r.get name = .ok p := by
  cases h with
  | type named => exact get_of_registered named
  | null tolerant bare free =>
    simp only [registered?] at free
    simp only [get, free]
    simp [tolerant, bare]

theorem get_of_unknown (h : r.Unknown name) :
    r.get name = .error (.unknownType (Token.typeName name)) := by
  obtain ⟨free, untold⟩ := h
  simp only [registered?] at free
  simp only [get, free, Bool.and_eq_true, decide_eq_true_eq, untold, if_false]

theorem refers_or_unknown (r : Resolver) (name : String) :
    (∃ p, r.Refers (.reference name) p) ∨ r.Unknown name := by
  cases named : registered? r.types name with
  | some p => exact .inl ⟨p, .type named⟩
  | none =>
    by_cases tolerated : r.nullTolerant ∧ Token.typeName name = "null"
    · exact .inl ⟨.null, .null tolerated.1 tolerated.2 named⟩
    · exact .inr ⟨named, tolerated⟩

theorem refers_unique : Relator.RightUnique r.Refers := by
  intro p q o first second
  cases p with
  | reference name => exact Except.ok.inj ((get_of_refers first).symm.trans (get_of_refers second))
  | _ => cases first

theorem not_refers_of_concrete (concrete : p.Concrete) : ¬ r.Refers p q := by
  intro step
  cases step with
  | type | null => exact concrete _ rfl

theorem not_refers_of_unknown (unknown : r.Unknown name) : ¬ r.Refers (.reference name) q := by
  intro step
  have both := (get_of_refers step).symm.trans (get_of_unknown unknown)
  cases both

theorem Loops.of_refers (loops : r.Loops p) (step : r.Refers p q) : r.Loops q := by
  obtain ⟨o, first, back⟩ := Relation.TransGen.head'_iff.mp loops
  obtain rfl := refers_unique first step
  exact .tail' back step

theorem Loops.of_chain (loops : r.Loops p) (chain : r.Chain p q) : r.Loops q := by
  induction chain with
  | refl => exact loops
  | tail _ step ih => exact ih.of_refers step

theorem Loops.refers (loops : r.Loops p) : ∃ q, r.Refers p q := by
  obtain ⟨q, step, -⟩ := Relation.TransGen.head'_iff.mp loops
  exact ⟨q, step⟩

theorem Chain.eq_of_ends (first : r.Chain p q) (second : r.Chain p o) (ends : ∀ x, ¬ r.Refers q x)
    (ends' : ∀ x, ¬ r.Refers o x) : q = o := by
  have stays {a b : Pattern} (chain : r.Chain a b) (ends : ∀ x, ¬ r.Refers a x) : a = b := by
    rcases Relation.ReflTransGen.cases_head chain with same | ⟨x, step, -⟩
    · exact same
    · exact absurd step (ends x)
  rcases Relation.ReflTransGen.total_of_right_unique refers_unique first second with more | more
  · exact stays more ends
  · exact (stays more ends').symm

theorem Chain.not_loops (first : r.Chain p q) (second : r.Chain p o) (ends : ∀ x, ¬ r.Refers q x) :
    ¬ r.Loops o := by
  intro loops
  rcases Relation.ReflTransGen.total_of_right_unique refers_unique first second with more | more
  · rcases Relation.ReflTransGen.cases_head more with rfl | ⟨x, step, -⟩
    · obtain ⟨x, step⟩ := loops.refers
      exact ends x step
    · exact ends x step
  · obtain ⟨x, step⟩ := (loops.of_chain more).refers
    exact ends x step

end Steps

section Outcomes

variable {r : Resolver} {p q : Pattern} {name : String} {result : Contractual Pattern}

theorem Outcome.head (step : r.Refers p q) (h : r.Outcome q result) : r.Outcome p result := by
  cases h with
  | found chain concrete => exact .found (.head step chain) concrete
  | unknown chain unknown => exact .unknown (.head step chain) unknown
  | endless chain loops => exact .endless (.head step chain) loops

theorem Outcome.eq_ok (h : r.Outcome p result) (chain : r.Chain p q) (concrete : q.Concrete) :
    result = .ok q := by
  have ends (x : Pattern) : ¬ r.Refers q x := not_refers_of_concrete concrete
  cases h with
  | found other concrete' =>
    rw [chain.eq_of_ends other ends fun x => not_refers_of_concrete concrete']
  | unknown other unknown =>
    have same := chain.eq_of_ends other ends fun x => not_refers_of_unknown unknown
    exact absurd same (concrete _)
  | endless other loops => exact absurd loops (chain.not_loops other ends)

theorem Outcome.eq_unknown (h : r.Outcome p result) (chain : r.Chain p (.reference name))
    (unknown : r.Unknown name) : result = .error (.unknownType (Token.typeName name)) := by
  have ends (x : Pattern) : ¬ r.Refers (.reference name) x := not_refers_of_unknown unknown
  cases h with
  | found other concrete =>
    have same := chain.eq_of_ends other ends fun x => not_refers_of_concrete concrete
    exact absurd same.symm (concrete _)
  | unknown other unknown' =>
    have same := chain.eq_of_ends other ends fun x => not_refers_of_unknown unknown'
    rw [Pattern.reference.inj same]
  | endless other loops => exact absurd loops (chain.not_loops other ends)

theorem Outcome.eq_selfDefined (h : r.Outcome p result) (chain : r.Chain p q) (loops : r.Loops q) :
    ∃ name, result = .error (.selfDefined name) := by
  cases h with
  | found other concrete =>
    exact absurd loops (other.not_loops chain fun x => not_refers_of_concrete concrete)
  | unknown other unknown =>
    exact absurd loops (other.not_loops chain fun x => not_refers_of_unknown unknown)
  | @endless name => exact ⟨name, rfl⟩

end Outcomes

section Hops

variable {r : Resolver} {p q : Pattern} {name : String} {hops : Nat} {left : List String}

theorem follow_of_refers (step : r.Refers (.reference name) q) :
    r.follow (hops + 1) (.reference name) = r.follow hops q := by
  simp [follow, get_of_refers step, bind, Except.bind]

theorem Loops.outcome (loops : r.Loops p) : r.Outcome p (r.follow hops p) := by
  induction hops generalizing p with
  | zero =>
    obtain ⟨q, step⟩ := loops.refers
    obtain ⟨name, rfl⟩ := exists_name_of_refers step
    have told : r.follow 0 (.reference name) = .error (.selfDefined name) := by
      simp [follow, get_of_refers step, bind, Except.bind]
    exact told ▸ .endless .refl loops
  | succ hops ih =>
    obtain ⟨q, step⟩ := loops.refers
    obtain ⟨name, rfl⟩ := exists_name_of_refers step
    rw [follow_of_refers step]
    exact (ih (loops.of_refers step)).head step

def Within (r : Resolver) (left : List String) (p : Pattern) : Prop :=
  ∀ name q, r.Chain p (.reference name) → registered? r.types name = some q →
    Token.typeName name ∈ left

theorem Within.follow (within : r.Within left (.reference name))
    (named : registered? r.types name = some q) (free : ¬ r.Loops q) :
    r.Within (left.filter (· ≠ Token.typeName name)) q := by
  intro other o chain found
  refine List.mem_filter.mpr ⟨within other o (.head (.type named) chain) found, ?_⟩
  refine decide_eq_true fun same => free ?_
  have back : registered? r.types other = some q := by
    rw [registered?, same]
    exact named
  exact .tail' chain (.type back)

theorem outcome_of_within (within : r.Within left p) (short : left.length < hops) :
    r.Outcome p (r.follow hops p) := by
  -- Off a loop each hop takes a name away from those left.
  induction hops generalizing left p with
  | zero => omega
  | succ hops ih =>
    by_cases concrete : p.Concrete
    · exact follow_of_concrete concrete ▸ .found .refl concrete
    obtain ⟨name, rfl⟩ : ∃ name, p = .reference name := by simpa [Pattern.Concrete] using concrete
    rcases refers_or_unknown r name with ⟨q, step⟩ | unknown
    · rw [follow_of_refers step]
      refine Outcome.head step ?_
      cases step with
      | null => exact follow_of_concrete Pattern.concrete_null ▸ .found .refl Pattern.concrete_null
      | type named =>
        by_cases loops : r.Loops q
        · exact loops.outcome
        · have there := within name q .refl named
          have fewer : (left.filter (· ≠ Token.typeName name)).length < left.length :=
            List.length_filter_lt_length_iff_exists.mpr ⟨_, there, by simp⟩
          exact ih (within.follow named loops) (by omega)
    · have told : r.follow (hops + 1) (.reference name) =
          .error (.unknownType (Token.typeName name)) := by
        simp [follow, get_of_unknown unknown, bind, Except.bind]
      exact told ▸ .unknown .refl unknown

theorem outcome_of_resolve (r : Resolver) (p : Pattern) : r.Outcome p (r.resolve p) := by
  have within : r.Within r.typeNames p :=
    fun name q _ named => List.mem_map.mpr ⟨_, Entries.mem_of_get? named, rfl⟩
  exact outcome_of_within within (by simp [typeNames, Entries.keys])

end Hops

theorem resolve_tells_chain (r : Resolver) (p : Pattern) :
    (∀ q, r.resolve p = .ok q ↔ r.Chain p q ∧ q.Concrete) ∧
      (∀ bare, r.resolve p = .error (.unknownType bare) ↔
        ∃ name, r.Chain p (.reference name) ∧ r.Unknown name ∧ Token.typeName name = bare) ∧
      ((∃ name, r.resolve p = .error (.selfDefined name)) ↔ ∃ q, r.Chain p q ∧ r.Loops q) ∧
      r.Outcome p (r.resolve p) := by
  have outcome := outcome_of_resolve r p
  refine ⟨fun q => ⟨fun found => ?_, fun ⟨chain, concrete⟩ => outcome.eq_ok chain concrete⟩,
    fun bare => ⟨fun told => ?_, ?_⟩, ⟨fun ⟨name, told⟩ => ?_, ?_⟩, outcome⟩
  · rw [found] at outcome
    cases outcome with
    | found chain concrete => exact ⟨chain, concrete⟩
  · rw [told] at outcome
    cases outcome with
    | unknown chain unknown => exact ⟨_, chain, unknown, rfl⟩
  · rintro ⟨name, chain, unknown, rfl⟩
    exact outcome.eq_unknown chain unknown
  · generalize r.resolve p = result at outcome told
    cases outcome with
    | found | unknown => cases told
    | endless chain loops => exact ⟨_, chain, loops⟩
  · rintro ⟨q, chain, loops⟩
    exact outcome.eq_selfDefined chain loops

def nullAtLast : Resolver :=
  { empty with
    types := [("First", .reference "(Second)"), ("Second", .reference "Third"),
      ("Third", .reference "null")] }

example : nullAtLast.tolerant.resolve (.reference "First") = .ok .null := by rfl

example : nullAtLast.resolve (.reference "First") = .error (.unknownType "null") := by rfl

end ApiContract.Resolver
