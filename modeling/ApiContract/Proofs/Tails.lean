import ApiContract.Proofs.Variants

set_option autoImplicit false

namespace ApiContract

def Pattern.TailsLast (p : Pattern) : Prop :=
  ∀ elements knownAs, .array elements knownAs ∈ p.subpatterns →
    Pattern.misplacedRepeated? elements = none

def Repeats (types : Entries Pattern) (p : Pattern) : Prop :=
  ∃ inner, Relation.ReflTransGen (Unfolds types) p (.repeated inner)

def Placed (types : Entries Pattern) (p : Pattern) : Prop :=
  ∀ elements knownAs, Reaches types p (.array elements knownAs) →
    ∀ q ∈ elements.dropLast, ¬ Repeats types q

theorem placed_iff_not_repeated {elements : List Pattern} :
    Pattern.misplacedRepeated? elements = none ↔
      ∀ q ∈ elements.dropLast, q.isRepeated = false := by
  refine ⟨not_repeated_of_placed, fun unrepeated => ?_⟩
  unfold Pattern.misplacedRepeated?
  split
  · rfl
  · next i found =>
    obtain ⟨inside, repeated, -⟩ := List.findIdx?_eq_some_iff_getElem.mp found
    by_cases last : i + 1 = elements.length
    · rw [if_pos last]
    · have before : i < elements.dropLast.length := by
        rw [List.length_dropLast]
        omega
      have mem := List.getElem_mem before
      rw [List.getElem_dropLast] at mem
      rw [unrepeated _ mem] at repeated
      cases repeated

namespace Pattern.TailsLast

variable {p : Pattern} {fields : List (String × Pattern)} {traits : ObjectTraits}
  {elements : List Pattern} {knownAs : Option String}

theorem reference (name : String) : (Pattern.reference name).TailsLast := by
  intro elements knownAs inside
  cases List.mem_singleton.mp inside

theorem basic (h : p.isBasic) : p.TailsLast := by
  intro elements knownAs inside
  have single : p.subpatterns = [p] := by cases p <;> first | rfl | cases h
  rw [single] at inside
  obtain rfl := List.mem_singleton.mp inside
  cases h

theorem repeated (h : p.TailsLast) : (Pattern.repeated p).TailsLast := by
  intro elements knownAs inside
  rcases List.mem_cons.mp inside with same | inside
  · cases same
  · exact h elements knownAs inside

theorem object (h : ∀ field ∈ fields, field.2.TailsLast) :
    (Pattern.object fields traits).TailsLast := by
  intro elements knownAs inside
  rcases List.mem_cons.mp inside with same | inside
  · cases same
  · obtain ⟨key, p, mem, inside⟩ := mem_subpatternsFields.mp inside
    exact h _ mem elements knownAs inside

theorem array (placed : misplacedRepeated? elements = none) (h : ∀ p ∈ elements, p.TailsLast) :
    (Pattern.array elements knownAs).TailsLast := by
  intro others other inside
  rcases List.mem_cons.mp inside with same | inside
  · cases same
    exact placed
  · obtain ⟨p, mem, inside⟩ := mem_subpatternsAll.mp inside
    exact h p mem others other inside

end Pattern.TailsLast

section Tokens

variable {types : Entries Pattern} {p q : Pattern}

def Pattern.Flat (p : Pattern) : Prop :=
  ∀ q ∈ p.subpatterns, q.isInline = false

theorem Pattern.Flat.nullable (flat : p.Flat) : p.nullable.Flat := by
  have beside : (Pattern.anyOf [.null, p]).Flat := by
    intro q inside
    rcases List.mem_cons.mp inside with rfl | inside
    · rfl
    · obtain ⟨o, mem, inside⟩ := mem_subpatternsAll.mp inside
      rcases List.mem_cons.mp mem with rfl | mem
      · obtain rfl := List.mem_singleton.mp inside
        rfl
      · exact flat q (List.mem_singleton.mp mem ▸ inside)
  cases p with
  | null => exact flat
  | anyOf alternatives =>
    cases null : alternatives.any isNull <;> simp only [Pattern.nullable, null]
    · exact beside
    · exact flat
  | _ => exact beside

theorem flat_of_named {cs : List Char} (h : Token.named cs = .ok p) : p.Flat := by
  have single : p.subpatterns = [p] ∧ p.isInline = false := by
    unfold Token.named at h
    split at h
    on_goal 9 => split at h
    all_goals cases h
    all_goals exact ⟨rfl, rfl⟩
  intro q inside
  rw [single.1] at inside
  rw [List.mem_singleton.mp inside]
  exact single.2

theorem flat_of_token {cs : List Char} (h : Token.read cs = .ok p) : p.Flat := by
  fun_induction Token.read cs generalizing p with
  | case1 cs inner _ ih =>
    obtain ⟨q, read, rfl⟩ := Except.map_eq_ok.mp h
    intro o inside
    rcases List.mem_cons.mp inside with rfl | inside
    · rfl
    · exact ih read o inside
  | case2 cs _ inner _ ih =>
    obtain ⟨q, read, rfl⟩ := Except.map_eq_ok.mp h
    exact (ih read).nullable
  | case3 cs _ _ _ type _ ih => exact ih h
  | case4 => exact flat_of_named h

theorem flat_of_tokenText {text : String} (token : Token.isTokenText text)
    (read : Pattern.read text = .ok p) : p.Flat := by
  simp only [Token.isTokenText, Token.isToken, Token.opensAndCloses, Bool.and_eq_true,
    decide_eq_true_eq] at token
  rw [Pattern.read, Pattern.readWithin] at read
  split at read
  · exact flat_of_token read
  · split at read
    · next opened => simp [token.2.1] at opened
    · cases read
      intro q inside
      obtain rfl := List.mem_singleton.mp inside
      rfl

theorem Placed.of_flat (registry : ∀ type ∈ types, Placed types type.2) (flat : p.Flat) :
    Placed types p := by
  intro elements knownAs reach
  rcases reach.inside_or_named with inside | ⟨type, mem, reach⟩
  · cases flat _ inside
  · exact registry type mem elements knownAs reach

theorem Placed.of_reaches (h : Placed types p) (reach : Reaches types p q) : Placed types q :=
  fun elements knownAs more => h elements knownAs (reach.trans more)

end Tokens

section Expansions

variable {r : Resolver} {row : Row} {p q x : Pattern} {entered : List String}
  {expand : List String → Pattern → Attempt (List Pattern)} {variants : List Pattern}

/-- What an expansion keeps: tails are last, and only a pattern that leads to a repeated one has a
variant that is repeated. -/
structure Kept (types : Entries Pattern) (p x : Pattern) : Prop where
  tails : x.TailsLast
  repeats : x.isRepeated → Repeats types p

theorem Kept.unfold {types : Entries Pattern} (h : Kept types q x)
    (chain : Relation.ReflTransGen (Unfolds types) p q) : Kept types p x where
  tails := h.tails
  repeats repeated := by
    obtain ⟨inner, more⟩ := h.repeats repeated
    exact ⟨inner, chain.trans more⟩

theorem kept_of_null (h : Kept r.types .null x) : x.isRepeated = false := by
  by_contra repeated
  obtain ⟨inner, chain⟩ := h.repeats (by simpa using repeated)
  cases (Reaches.of_unfoldings chain).eq_null

theorem fields_of_expandStep {fields : List (String × Pattern)} {traits : ObjectTraits}
    (expanded : (Pattern.object fields traits).expandStep expand r row entered = pure variants)
    (mem : x ∈ variants) : ∃ entries, x = .object entries traits ∧ ∀ entry ∈ entries,
      ∃ field ∈ fields, FieldVariant (expand entered) row field entry.2 := by
  obtain ⟨choices, expansions, rfl⟩ := Attempt.bind_pure_eq_pure.mp expanded
  obtain ⟨chosen, there, rfl⟩ := List.mem_map.mp mem
  refine ⟨_, rfl, fun entry inside => ?_⟩
  obtain ⟨_, picked, rfl⟩ := List.mem_filterMap.mp (Entries.mem_of_mem_ofList inside)
  have each := forall₂_exists.mp
    ⟨choices, Attempt.mapM_eq_pure.mp expansions, mem_combinations.mp there⟩
  obtain ⟨field, known, options, expansion, among⟩ := exists_of_forall₂_mem each picked
  exact ⟨field, known, (fieldVariant_of_choice expansion among).2⟩

theorem elements_of_expandStep {elements : List Pattern} {knownAs : Option String}
    (expanded : (Pattern.array elements knownAs).expandStep expand r row entered = pure variants)
    (mem : x ∈ variants) : ∃ chosen, x = .array chosen knownAs ∧
      List.Forall₂ (fun q y => ∃ variants, expand entered q = pure variants ∧ y ∈ variants)
        elements chosen := by
  obtain ⟨choices, expansions, rfl⟩ := Attempt.bind_pure_eq_pure.mp expanded
  obtain ⟨chosen, there, rfl⟩ := List.mem_map.mp mem
  exact ⟨chosen, rfl, forall₂_exists.mp
    ⟨choices, elementChoices_eq_pure.mp expansions, mem_combinations.mp there⟩⟩

section Composites

variable (below : ∀ entered q variants, Placed r.types q → expand entered q = pure variants →
  ∀ x ∈ variants, Kept r.types q x)
include below

theorem fields_kept (registry : ∀ type ∈ r.types, Placed r.types type.2)
    {fields : List (String × Pattern)} {traits : ObjectTraits}
    (own : Placed r.types (.object fields traits))
    (expanded : (Pattern.object fields traits).expandStep expand r row entered = pure variants)
    (mem : x ∈ variants) : Kept r.types (.object fields traits) x := by
  obtain ⟨entries, rfl, each⟩ := fields_of_expandStep expanded mem
  refine ⟨.object fun entry inside => ?_, nofun⟩
  obtain ⟨field, known, filling⟩ := each entry inside
  generalize entry.2 = y at filling
  cases filling with
  | declared expansion mem =>
    exact (below _ _ _ (own.of_reaches (Part.reaches (.field known))) expansion _ mem).tails
  | token _ text read expansion mem =>
    exact (below _ _ _ (.of_flat registry (flat_of_tokenText text read)) expansion _ mem).tails
  | literal _ => exact .basic rfl

theorem elements_kept {elements : List Pattern} {knownAs : Option String}
    (own : Placed r.types (.array elements knownAs))
    (expanded : (Pattern.array elements knownAs).expandStep expand r row entered = pure variants)
    (mem : x ∈ variants) : Kept r.types (.array elements knownAs) x := by
  obtain ⟨chosen, rfl, each⟩ := elements_of_expandStep expanded mem
  have kept {q y : Pattern} (known : q ∈ elements)
      (variant : ∃ variants, expand entered q = pure variants ∧ y ∈ variants) :
      Kept r.types q y := by
    obtain ⟨variants, expansion, mem⟩ := variant
    exact below _ _ _ (own.of_reaches (Part.reaches (.element known))) expansion y mem
  refine ⟨.array (placed_iff_not_repeated.mpr fun y inside => ?_) fun y inside => ?_, nofun⟩
  · obtain ⟨q, front, variant⟩ := exists_of_forall₂_mem_dropLast each inside
    by_contra repeated
    exact own elements knownAs (.refl _) q front
      ((kept (List.dropLast_subset _ front) variant).repeats (by simpa using repeated))
  · obtain ⟨q, known, variant⟩ := exists_of_forall₂_mem each inside
    exact (kept known variant).tails

end Composites

theorem expandStep_kept (registry : ∀ type ∈ r.types, Placed r.types type.2)
    (below : ∀ entered q variants, Placed r.types q → expand entered q = pure variants →
      ∀ x ∈ variants, Kept r.types q x)
    (own : Placed r.types p) (expanded : p.expandStep expand r row entered = pure variants)
    (mem : x ∈ variants) : Kept r.types p x := by
  have basic (h : p.isBasic) (expanded : pure [p] = (pure variants : Attempt (List Pattern))) :
      Kept r.types p x := by
    obtain rfl := Attempt.pure_inj.mp expanded
    obtain rfl := List.mem_singleton.mp mem
    refine ⟨.basic h, fun repeated => ?_⟩
    cases x with
    | repeated => cases h
    | _ => cases repeated
  cases p with
  | repeated inner =>
    obtain ⟨others, expansion, rfl⟩ := Attempt.bind_pure_eq_pure.mp expanded
    obtain ⟨y, there, rfl⟩ := List.mem_map.mp mem
    have kept := below _ _ _ (own.of_reaches (Part.reaches .inner)) expansion y there
    exact ⟨kept.tails.repeated, fun _ => ⟨inner, .refl⟩⟩
  | reference name =>
    rw [Pattern.expandStep] at expanded
    split at expanded
    · obtain rfl := Attempt.pure_inj.mp expanded
      obtain rfl := List.mem_singleton.mp mem
      refine ⟨.reference name, fun repeated => ?_⟩
      cases repeated
    · obtain ⟨q, found, expansion⟩ := Attempt.bind_eq_pure.mp expanded
      have behind := Resolver.unfoldings_of_resolve (Attempt.ofContractual_eq_pure.mp found)
      rcases behind with rfl | chain
      · have placed : Placed r.types .null := by
          intro elements knownAs reach
          cases reach.eq_null
        have kept := below _ _ _ placed expansion x mem
        exact ⟨kept.tails, fun repeated => by simp [kept_of_null kept] at repeated⟩
      · exact (below _ _ _ (own.of_reaches (.of_unfoldings chain)) expansion x mem).unfold chain
  | anyOf alternatives =>
    obtain ⟨blocks, expansions, rfl⟩ := Attempt.bind_pure_eq_pure.mp expanded
    obtain ⟨block, there, inside⟩ := List.mem_flatten.mp (mem_of_mem_distinctVariants mem)
    have each := Attempt.mapM_eq_pure.mp expansions
    obtain ⟨q, known, expansion⟩ := exists_of_forall₂_mem each there
    have step : Unfolds r.types (.anyOf alternatives) q := .anyOf known
    exact (below _ _ _ (own.of_reaches step.reaches) expansion x inside).unfold (.single step)
  | object fields traits => exact fields_kept below registry own expanded mem
  | array elements knownAs => exact elements_kept below own expanded mem
  | string | number | boolean | null | url | exact => exact basic rfl expanded

theorem expandWithin_kept (registry : ∀ type ∈ r.types, Placed r.types type.2) {fuel : Nat}
    (own : Placed r.types p) (expanded : p.expandWithin fuel r row entered = pure variants)
    (mem : x ∈ variants) : Kept r.types p x := by
  induction fuel generalizing entered p variants x with
  | zero => cases expanded
  | succ fuel ih =>
    exact expandStep_kept registry (fun _ _ _ own expanded _ mem => ih own expanded mem) own
      expanded mem

/-- Variants pass the check that arrays are made with, at any depth, whatever the row and whichever
keys are combined, if no array hides a repeated pattern in front of its last element. -/
theorem variants_tailsLast (registry : ∀ type ∈ r.types, Placed r.types type.2)
    (own : Placed r.types p) (expanded : p.expand r row = pure variants) :
    ∀ x ∈ variants, x.TailsLast :=
  fun _ mem => (expandWithin_kept registry own expanded mem).tails

def unrepeatedWithin (types : Entries Pattern) : Nat → Pattern → Bool
  | 0, _ => false
  | _ + 1, .repeated _ => false
  | n + 1, .reference name => (registered? types name).all (unrepeatedWithin types n)
  | n + 1, .anyOf alternatives => alternatives.all (unrepeatedWithin types n)
  | _ + 1, _ => true

theorem not_repeats_of_within {types : Entries Pattern} {n : Nat} (h : unrepeatedWithin types n p) :
    ¬ Repeats types p := by
  rintro ⟨inner, chain⟩
  induction n generalizing p with
  | zero => cases h
  | succ n ih =>
    rcases Relation.ReflTransGen.cases_head chain with rfl | ⟨q, step, more⟩
    · cases h
    · refine ih ?_ more
      cases step with
      | reference named => simpa [unrepeatedWithin, named] using h
      | anyOf mem => exact List.all_eq_true.mp h q mem

def isPlacedHere (types : Entries Pattern) (n : Nat) : Pattern → Bool
  | .array elements _ => elements.dropLast.all (unrepeatedWithin types n)
  | _ => true

theorem placed_of_all {types : Entries Pattern} (n : Nat)
    (h : (reachable types p).all (isPlacedHere types n)) :
    (∀ type ∈ types, Placed types type.2) ∧ Placed types p := by
  have here (elements : List Pattern) (knownAs : Option String)
      (mem : .array elements knownAs ∈ reachable types p) :
      ∀ q ∈ elements.dropLast, ¬ Repeats types q := by
    have own : isPlacedHere types n (.array elements knownAs) := List.all_eq_true.mp h _ mem
    exact fun q front => not_repeats_of_within (List.all_eq_true.mp own q front)
  exact ⟨fun type mem elements knownAs reach =>
      here elements knownAs (mem_reachable_of_type p mem reach),
    fun elements knownAs reach => here elements knownAs reach.mem_reachable⟩

def readings : Resolver :=
  { Resolver.empty with
    types := [("Name", .anyOf [.null, .string]), ("Items", .repeated (.reference "Name"))] }

def report : Pattern :=
  .object [("pair", .array [.reference "Name", .reference "Items"] none),
    ("more?", .reference "Items")] ⟨.reject, .json, none⟩

theorem report_tailsLast : variantsOf readings [("more", "(Items)")] report ≠ [] ∧
    ∀ x ∈ variantsOf readings [("more", "(Items)")] report, x.TailsLast := by
  have given : (variantsOf readings [("more", "(Items)")] report).length = 8 := by decide +kernel
  have nonempty := List.ne_nil_of_length_eq_add_one given
  have placed : (∀ type ∈ readings.types, Placed readings.types type.2) ∧
      Placed readings.types report := placed_of_all 3 (by decide +kernel)
  exact ⟨nonempty, variants_tailsLast placed.1 placed.2 (expand_variantsOf nonempty)⟩

theorem repeated_of_named {name : String} {inner : Pattern} {fuel : Nat}
    (named : registered? r.types name = some (.repeated inner)) (new : name ∉ entered)
    (expanded : (Pattern.reference name).expandWithin fuel r row entered = pure variants)
    (mem : x ∈ variants) : x.isRepeated := by
  have found : r.resolve (.reference name) = .ok (.repeated inner) := by
    simp only [Resolver.resolve, Resolver.follow, Resolver.get_of_registered named, bind,
      Except.bind]
    apply Resolver.follow_of_concrete
    intro other same
    cases same
  cases fuel with
  | zero => cases expanded
  | succ fuel =>
    simp only [Pattern.expandWithin, Pattern.expandStep, new, if_false, found] at expanded
    obtain ⟨_, same, expansion⟩ := Attempt.bind_eq_pure.mp expanded
    cases Attempt.ofContractual_eq_pure.mp same
    cases fuel with
    | zero => cases expansion
    | succ fuel =>
      obtain ⟨others, -, rfl⟩ := Attempt.bind_pure_eq_pure.mp expansion
      obtain ⟨y, -, rfl⟩ := List.mem_map.mp mem
      rfl

theorem named_repeated_misplaced {name : String} {inner : Pattern} {elements : List Pattern}
    {knownAs : Option String} (named : registered? r.types name = some (.repeated inner))
    (front : .reference name ∈ elements.dropLast)
    (expanded : (Pattern.array elements knownAs).expand r row = pure variants) :
    ∀ x ∈ variants, ¬ x.TailsLast := by
  intro x mem tails
  obtain ⟨fuel, bound⟩ := exists_expandBound_eq r row (.array elements knownAs)
  rw [Pattern.expand, bound] at expanded
  obtain ⟨chosen, rfl, each⟩ := elements_of_expandStep expanded mem
  obtain ⟨y, inside, others, expansion, among⟩ := exists_of_forall₂_mem_dropLast each.flip front
  have placed := tails chosen knownAs (Pattern.mem_subpatterns_self _)
  have single := placed_iff_not_repeated.mp placed y inside
  rw [repeated_of_named named (List.not_mem_nil) expansion among] at single
  cases single

theorem items_before_text_misplaced :
    Pattern.arrayOf [.reference "Items", .string] =
        .ok (.array [.reference "Items", .string] none) ∧
      (variantsOf readings [] (.array [.reference "Items", .string] none)).length = 2 ∧
      ∀ x ∈ variantsOf readings [] (.array [.reference "Items", .string] none), ¬ x.TailsLast := by
  have given : (variantsOf readings [] (.array [.reference "Items", .string] none)).length = 2 := by
    decide +kernel
  have named : registered? readings.types "Items" = some (.repeated (.reference "Name")) := by rfl
  exact ⟨rfl, given, named_repeated_misplaced named List.mem_cons_self
    (expand_variantsOf (List.ne_nil_of_length_eq_add_one given))⟩

end Expansions

end ApiContract
