import Mathlib.Data.List.Nodup
import ApiContract.Proofs.Ending
import ApiContract.Proofs.Shapes

set_option autoImplicit false

namespace ApiContract

inductive Splits (r : Resolver) (p : Pattern) : Pattern → Prop
  | self : Splits r p p
  | variant {x : Pattern} {fuel : Nat} {entered : List String} (h : Variant r fuel entered p x) :
      Splits r p x

/-- What a pattern unfolds to, or a variant of a composite that it unfolds to. -/
inductive Narrows (r : Resolver) (p : Pattern) : Pattern → Prop
  | unfolding {x : Pattern} (chain : Relation.ReflTransGen (Unfolds r.types) p x) : Narrows r p x
  | variant {o x : Pattern} {fuel : Nat} {entered : List String}
      (chain : Relation.ReflTransGen (Unfolds r.types) p o) (composite : o.isComposite)
      (variant : Variant r fuel entered o x) : Narrows r p x

theorem not_unfolds_composite {types : Entries Pattern} {p q : Pattern} (composite : p.isComposite) :
    ¬ Unfolds types p q := by
  intro step
  cases step <;> cases composite

theorem not_unfolds_basic {types : Entries Pattern} {p q : Pattern} (basic : p.isBasic) :
    ¬ Unfolds types p q := by
  intro step
  cases step <;> cases basic

theorem eq_of_settled {types : Entries Pattern} {p q : Pattern}
    (settled : ∀ o, ¬ Unfolds types p o) (chain : Relation.ReflTransGen (Unfolds types) p q) :
    q = p := by
  rcases Relation.ReflTransGen.cases_head chain with same | ⟨o, step, -⟩
  · exact same.symm
  · exact (settled o step).elim

section Narrowing

variable {r : Resolver} {p q x c d : Pattern} {fuel : Nat} {entered : List String}

theorem Narrows.refl (p : Pattern) : Narrows r p p :=
  .unfolding .refl

theorem Variant.exists_chain (guarded : Guarded r.types) (regular : Regular r.types p)
    (h : Variant r fuel entered p x) : ∃ o, Relation.ReflTransGen (Unfolds r.types) p o ∧
      (∀ others, o ≠ .anyOf others) ∧ Splits r o x ∧ (o.isComposite ∨ x = o) := by
  induction fuel generalizing entered p with
  | zero => exact (not_expands_zero h.expands).elim
  | succ fuel ih =>
    cases p with
    | repeated | object | array => exact ⟨_, .refl, nofun, .variant h, .inl rfl⟩
    | reference name =>
      by_cases met : name ∈ entered
      · exact ⟨_, .refl, nofun, .variant h, .inr ((variant_entered met).mp h)⟩
      · obtain ⟨q, found, inside⟩ := (variant_reference met).mp h
        obtain ⟨chain, below⟩ := regular_of_resolve regular guarded found
        obtain ⟨o, more, found⟩ := ih below inside
        exact ⟨o, chain.trans more, found⟩
    | anyOf alternatives =>
      obtain ⟨o, rfl, -⟩ := regular.nullable
      have step (q : Pattern) (mem : q ∈ [Pattern.null, o]) :
          Unfolds r.types (.anyOf [.null, o]) q := .anyOf mem
      rcases h.of_nullable with rfl | inside
      · exact ⟨.null, .single (step .null (by simp)), nofun, .self, .inr rfl⟩
      · have below := step o (by simp)
        obtain ⟨q, more, found⟩ := ih (regular.unfold below) inside
        exact ⟨q, .head below more, found⟩
    | _ => exact ⟨_, .refl, nofun, .variant h, .inr ((variant_basic rfl).mp h)⟩

theorem Narrows.of_splits (guarded : Guarded r.types) (regular : Regular r.types p)
    (h : Splits r p x) : Narrows r p x := by
  cases h with
  | self => exact .refl p
  | variant h =>
    obtain ⟨o, chain, -, split, composite | rfl⟩ := h.exists_chain guarded regular
    · cases split with
      | self => exact .unfolding chain
      | variant h => exact .variant chain composite h
    · exact .unfolding chain

theorem chain_of_resolves (guarded : Guarded r.types) (resolves : Resolves r.types p c)
    (concrete : d.Concrete) (chain : Relation.ReflTransGen (Unfolds r.types) p d) :
    Relation.ReflTransGen (Unfolds r.types) c d := by
  -- A chain to a pattern that is no reference passes what the references resolve to.
  have own {q : Pattern} (concrete : q.Concrete) (resolves : Resolves r.types q c) : q = c := by
    have found := resolves r rfl
    rw [Resolver.resolve_of_concrete concrete] at found
    exact Except.ok.inj found
  induction chain using Relation.ReflTransGen.head_induction_on with
  | refl =>
    rw [own concrete resolves]
  | @head p q step rest ih =>
    cases step with
    | reference named =>
      apply ih
      intro resolver same
      rw [← same] at guarded named
      rw [← guarded.resolve_reference (Resolver.get_of_registered named)]
      exact resolves resolver same
    | @anyOf alternatives _ mem =>
      have union : (Pattern.anyOf alternatives).Concrete := by
        intro name same
        cases same
      rw [← own union resolves]
      exact .head (.anyOf mem) rest

theorem Narrows.resolved (guarded : Guarded r.types) (exhaustive : r.combinations = .exhaustive)
    (h : Narrows r p x) (resolves : Resolves r.types p c) (resolves' : Resolves r.types x d)
    (concrete : d.Concrete) (down : Relation.ReflTransGen (Unfolds r.types) x d) :
    Narrows r c d := by
  cases h with
  | unfolding chain => exact .unfolding (chain_of_resolves guarded resolves concrete (chain.trans down))
  | variant chain composite variant =>
    -- A variant of a composite is a composite, which resolves to itself.
    have same := eq_of_settled (fun _ => not_unfolds_composite
      (variant.composite exhaustive composite).1) down
    subst same
    exact .variant (chain_of_resolves guarded resolves (concrete_of_composite composite) chain)
      composite variant

theorem Narrows.settled (h : Narrows r c d) (settled : ∀ q, ¬ Unfolds r.types c q) :
    Splits r c d := by
  cases h with
  | unfolding chain =>
    rw [eq_of_settled settled chain]
    exact .self
  | variant chain composite variant =>
    rw [eq_of_settled settled chain] at variant
    exact .variant variant

theorem Splits.basic (basic : p.isBasic) (h : Splits r p x) : x = p := by
  cases h with
  | self => rfl
  | @variant _ fuel entered variant =>
    cases fuel with
    | zero => exact (not_expands_zero variant.expands).elim
    | succ fuel => exact (variant_basic basic).mp variant

theorem Splits.composite (exhaustive : r.combinations = .exhaustive) (composite : p.isComposite)
    (h : Splits r p x) : x.isComposite ∧ x.name? = p.name? := by
  cases h with
  | self => exact ⟨composite, rfl⟩
  | variant variant => exact variant.composite exhaustive composite

end Narrowing

section Members

variable {r : Resolver} {c d : Pattern}

variable (guarded : Guarded r.types) (exhaustive : r.combinations = .exhaustive)
include guarded exhaustive

omit guarded in
theorem Splits.object {a : List (String × Pattern)} {traits : ObjectTraits}
    (regular : Regular r.types (.object a traits)) (h : Splits r (.object a traits) d) :
    ∃ b, d = .object b traits ∧ (∀ x ∈ requiredFields a, Entries.contains b x.1) ∧
      ∀ name y, field? b name = some y → ∃ x, field? a name = some x ∧ Splits r x.2 y.2 := by
  cases h with
  | self =>
    refine ⟨a, rfl, fun x mem => ?_, fun name y found => ⟨y, found, .self⟩⟩
    exact Entries.contains_of_mem (mem_of_requiredFields mem).1
  | @variant _ fuel entered variant =>
    cases fuel with
    | zero => exact (not_expands_zero variant.expands).elim
    | succ fuel =>
      obtain ⟨chosen, choices, rfl⟩ :=
        (variant_tidyObject regular.bare.distinct exhaustive).mp variant
      refine ⟨_, rfl, fun x mem => ?_, fun name y found => ?_⟩
      · obtain ⟨there, required⟩ := mem_of_requiredFields mem
        obtain ⟨choice, put, own⟩ := exists_of_forall₂_mem choices.flip there
        cases choice with
        | none =>
          rw [own.1] at required
          cases required
        | some entry =>
          have same : entry.1 = x.1 := own.1.trans (bareName_of_required required)
          rw [← same]
          exact Entries.contains_of_mem (mem_chosenFields.mpr put)
      · obtain ⟨x, there, -, same, inside⟩ := exists_field_of_chosen regular.bare choices found
        exact ⟨x, same ▸ regular.bare.field?_of_mem there, .variant inside⟩

theorem Narrows.object {a : List (String × Pattern)} {traits : ObjectTraits}
    (regular : Regular r.types (.object a traits)) (h : Narrows r (.object a traits) d) :
    ∃ b, d = .object b traits ∧ (∀ x ∈ requiredFields a, Entries.contains b x.1) ∧
      ∀ x ∈ a, ∀ y, field? b (bareName x.1) = some y → Narrows r x.2 y.2 := by
  obtain ⟨b, same, kept, shared⟩ :=
    (h.settled fun _ => not_unfolds_composite rfl).object exhaustive regular
  refine ⟨b, same, kept, fun x mem y found => ?_⟩
  obtain ⟨z, own, split⟩ := shared _ y found
  rw [regular.bare.field?_of_mem mem] at own
  cases own
  exact .of_splits guarded (regular.part (.field mem)) split

theorem Splits.members (regular : Regular r.types c) {m : Members} (found : members? c = some m)
    (h : Splits r c d) : ∃ n, members? d = some n ∧ isUnconstrained d = isUnconstrained c ∧
      n.fixed.length = m.fixed.length ∧ (∀ i, (n.at? i).isSome = (m.at? i).isSome) ∧
      ∀ i p q, m.at? i = some p → n.at? i = some q → Splits r p q := by
  cases h with
  | self =>
    refine ⟨m, found, rfl, rfl, fun _ => rfl, fun i p q first second => ?_⟩
    rw [first] at second
    cases second
    exact .self
  | variant variant =>
    obtain ⟨n, found', unconstrained, vary⟩ := variant.members? guarded exhaustive regular found
    refine ⟨n, found', unconstrained, vary.length, vary.at?_isSome, fun i p q first second => ?_⟩
    obtain ⟨o, place, _, inside⟩ := vary.at?_eq_some second
    rw [first] at place
    cases place
    exact .variant inside

theorem Narrows.members (regular : Regular r.types c) {m : Members}
    (found : members? c = some m) (h : Narrows r c d) :
    ∃ n, members? d = some n ∧ isUnconstrained d = isUnconstrained c ∧
      n.fixed.length = m.fixed.length ∧ (∀ i, (n.at? i).isSome = (m.at? i).isSome) ∧
      ∀ i p q, m.at? i = some p → n.at? i = some q → Narrows r p q := by
  have composite : c.isComposite := by
    cases c <;> first | rfl | cases found
  obtain ⟨n, found', unconstrained, length, governed, positions⟩ :=
    (h.settled fun _ => not_unfolds_composite composite).members guarded exhaustive regular found
  refine ⟨n, found', unconstrained, length, governed, fun i p q first second => ?_⟩
  exact .of_splits guarded (regular.part (members?_part found first)) (positions i p q first second)

end Members

section Levels

variable {f : Resolver → Resolver → Pattern → Pattern → Option Verdict}
  {accepts : Resolver → Pattern → Value → Option Verdict} {these those : Resolver} {c d : Pattern}
  {alternatives : List Pattern}

theorem compareResolved_right : compareResolved f accepts these those c (.anyOf alternatives) =
    Verdict.every (fun q => f these those c q) alternatives := by
  cases c <;> rfl

theorem compareResolved_left (single : ∀ others, d ≠ .anyOf others) :
    compareResolved f accepts these those (.anyOf alternatives) d =
      compareUnion (f these those) (.anyOf alternatives) alternatives d := by
  cases d <;> first | rfl | exact absurd rfl (single _)

theorem compareUnion_nullable {compare : Pattern → Pattern → Option Verdict} {o : Pattern}
    (null : (compare .null d).isSome)
    (one : compare .null d = some .success ∨ compare o d = some .success) :
    compareUnion compare c [.null, o] d = some .success := by
  obtain ⟨verdict, first⟩ := Option.isSome_iff_exists.mp null
  cases verdict with
  | success => simp [compareUnion, Verdict.refusals, first]
  | failure failure =>
    have second : compare o d = some .success := by simpa [first] using one
    simp [compareUnion, Verdict.refusals, first, second]

theorem compareAt_null_isSome {n : Nat} {stack : TypeStack} (guarded : Guarded these.types)
    (concrete : d.Concrete) (single : ∀ others, d ≠ .anyOf others) :
    (Pattern.compareAt (n + 1) stack these those .null d).isSome := by
  have free : isHeld stack .null d = false := rfl
  rw [Pattern.compareAt, free]
  simp only [Bool.false_eq_true, if_false, Pattern.compareStep,
    Resolver.resolve_of_concrete Pattern.concrete_null, Resolver.resolve_of_concrete concrete]
  cases d with
  | reference name => exact absurd rfl (concrete name)
  | anyOf others => exact absurd rfl (single others)
  | exact value =>
    have registered : Registered these.tolerant.types .null := by
      intro name met
      rcases Relation.ReflTransGen.cases_head met with same | ⟨q, step | part, -⟩
      · cases same
      · cases step
      · cases part
    exact Pattern.check_isSome (r := these.tolerant) guarded registered value
  | _ => rfl

-- One level of a comparison succeeds where all that narrows on the next does.
section Level

variable {r : Resolver} (guarded : Guarded r.types) (exhaustive : r.combinations = .exhaustive)
  (nested : ∀ x y p q, Nested these those c d x y p q → Narrows r p q → f x y p q = some .success)
include nested

theorem compareUnion_of_narrows {o : Pattern} (same : c = .anyOf [.null, o])
    (single : ∀ others, d ≠ .anyOf others) (null : (f these those .null d).isSome)
    (narrows : Narrows r c d) : compareUnion (f these those) c [.null, o] d = some .success := by
  subst same
  apply compareUnion_nullable null
  have next (p : Pattern) (mem : p ∈ [Pattern.null, o]) (more : Narrows r p d) :
      f these those p d = some .success :=
    nested these those p d (.left mem single) more
  have behind (p : Pattern) (step : Unfolds r.types (.anyOf [.null, o]) p)
      (more : Narrows r p d) :
      f these those .null d = some .success ∨ f these those o d = some .success := by
    cases step with
    | anyOf mem =>
      rcases List.mem_cons.mp mem with rfl | last
      · exact .inl (next .null mem more)
      · rw [← List.mem_singleton.mp last]
        exact .inr (next p mem more)
  cases narrows with
  | unfolding chain =>
    rcases Relation.ReflTransGen.cases_head chain with same | ⟨p, step, rest⟩
    · exact absurd same.symm (single _)
    · exact behind p step (.unfolding rest)
  | variant chain composite variant =>
    rcases Relation.ReflTransGen.cases_head chain with rfl | ⟨p, step, rest⟩
    · cases composite
    · exact behind p step (.variant rest composite variant)

include guarded exhaustive

theorem compareObjects_of_narrows {acceptsNull : Pattern → Option Verdict}
    {a b : List (String × Pattern)} {s t : ObjectTraits} (first : c = .object a s)
    (second : d = .object b t) (regular : Regular r.types c) (narrows : Narrows r c d) :
    compareObjects acceptsNull (f these.tolerant those.tolerant) a b = some .success := by
  subst first
  obtain ⟨b', same, kept, shared⟩ := narrows.object guarded exhaustive regular
  rw [second] at same
  cases same
  subst second
  rw [compareObjects, Verdict.thenCheck_eq_success, keptKeys_eq_success, sharedFields_eq_success]
  constructor
  · intro x mem
    exact .inl (kept x mem)
  · intro x mem key q found
    exact nested _ _ x.2 q (.fields mem found) (shared x mem (key, q) found)

theorem compareSequences_of_narrows {m : Members} (found : members? c = some m)
    (regular : Regular r.types c) (narrows : Narrows r c d) :
    compareSequences (f these.tolerant those.tolerant) c d = some .success := by
  obtain ⟨n, found', unconstrained, length, governed, positions⟩ :=
    narrows.members guarded exhaustive regular found
  rw [compareSequences_eq_success found found', unconstrained, compareMembers_eq_success]
  cases isUnconstrained c with
  | true => exact .inl rfl
  | false =>
    refine .inr ⟨rfl, fun i => comparePosition_eq_success.mpr ⟨fun p q first second => ?_, ?_, ?_⟩⟩
    · exact nested _ _ p q (.items found found' first second) (positions i p q first second)
    · rw [governed i]
      exact id
    · intro short
      rw [governed i]
      simp [Members.at?, short]

theorem compareResolved_of_narrows (regular : Regular r.types c) (concrete : c.Concrete)
    (narrows : Narrows r c d)
    (null : (∀ others, d ≠ .anyOf others) → (f these those .null d).isSome) :
    compareResolved f accepts these those c d = some .success := by
  by_cases union : ∃ others, d = .anyOf others
  · -- Only what unfolds to a union narrows to it, and so narrows to its alternatives.
    obtain ⟨others, rfl⟩ := union
    rw [compareResolved_right, Verdict.every_eq_success]
    intro q mem
    apply nested these those c q (.right mem)
    cases narrows with
    | unfolding chain => exact .unfolding (chain.tail (.anyOf mem))
    | variant chain composite variant => cases (variant.composite exhaustive composite).1
  have single (others : List Pattern) : d ≠ .anyOf others := fun same => union ⟨others, same⟩
  -- A pattern without parts narrows to itself alone.
  have own (basic : c.isBasic) : d = c := (narrows.settled fun _ => not_unfolds_basic basic).basic basic
  cases c with
  | reference name => exact absurd rfl (concrete name)
  | anyOf alternatives =>
    obtain ⟨o, rfl, -⟩ := regular.nullable
    rw [compareResolved_left single]
    exact compareUnion_of_narrows nested rfl single (null single) narrows
  | object a traits =>
    obtain ⟨b, rfl, -⟩ := narrows.object guarded exhaustive regular
    exact compareObjects_of_narrows guarded exhaustive nested rfl rfl regular narrows
  | array elements knownAs =>
    have same := compareSequences_of_narrows guarded exhaustive nested rfl regular narrows
    obtain ⟨n, found, -⟩ := narrows.members guarded exhaustive regular rfl
    cases d <;> first | exact same | cases found
  | repeated inner =>
    have same := compareSequences_of_narrows guarded exhaustive nested rfl regular narrows
    obtain ⟨n, found, -⟩ := narrows.members guarded exhaustive regular rfl
    cases d <;> first | exact same | cases found
  | exact value =>
    obtain rfl := own rfl
    have same := Value.same_of_scalar (regular.arises _ (Reaches.refl _)).scalar
    simp [compareResolved, same]
  | url scheme =>
    obtain rfl := own rfl
    simp [compareResolved, UrlScheme.encompasses]
  | _ =>
    obtain rfl := own rfl
    rfl

end Level

end Levels

section Names

variable {r : Resolver} {types : Entries Pattern} {p q x c d : Pattern}

theorem Narrows.composite (exhaustive : r.combinations = .exhaustive) (composite : c.isComposite)
    (h : Narrows r c d) : d.isComposite ∧ d.name? = c.name? :=
  (h.settled fun _ => not_unfolds_composite composite).composite exhaustive composite

theorem Arises.plain {name : String} (h : Arises types (.reference name)) :
    Token.isTypeName name.toList := by
  rcases h with written | ⟨other, o, written, same, -⟩
  · cases written with
    | reference plain => exact plain
  · cases written with
    | reference plain =>
      cases same
      exact plain
    | _ => cases same

theorem named_of_unfolds (registry : WrittenTypes types) (regular : Regular types p)
    (step : Unfolds types p q) (composite : q.isComposite) : q.name? ≠ none := by
  have single := regular.not_repeated step
  cases step with
  | @reference name _ named =>
    have plain := (regular.arises _ (Reaches.refl _)).plain
    obtain ⟨o, -, rfl⟩ := registry name q plain named
    cases o with
    | object | array => nofun
    | repeated inner => cases single
    | _ => cases composite
  | anyOf mem =>
    obtain ⟨o, rfl, token⟩ := regular.nullable
    rcases List.mem_cons.mp mem with rfl | last
    · cases composite
    · obtain rfl := List.mem_singleton.mp last
      cases q with
      | object | array => cases token
      | repeated inner => cases single
      | _ => cases composite

theorem resolves_cases (h : Resolves types p c) : p = c ∨ ∃ name, p = .reference name := by
  by_cases concrete : p.Concrete
  · have found := h { Resolver.empty with types } rfl
    rw [Resolver.resolve_of_concrete concrete] at found
    exact .inl (Except.ok.inj found)
  · right
    simpa [Pattern.Concrete] using concrete

theorem unnamed_composite (registry : WrittenTypes types) (regular : Regular types p)
    (resolves : Resolves types p c) (resolves' : Resolves types x d)
    (chain : Relation.ReflTransGen (Unfolds types) p c) (composite : c.isComposite)
    (same : d.name? = c.name?) (unnamed : namePair? p x = none) : p = c ∧ c.name? = none := by
  -- Where the two sides are not both named, the composites behind them are there from the start.
  have name {a b : Pattern} (h : Resolves types a b) (named : b.name? ≠ none) : a.name? ≠ none := by
    rcases resolves_cases h with rfl | ⟨name, rfl⟩
    · exact named
    · nofun
  have nameless : c.name? = none := by
    by_contra named
    have first := name resolves named
    have second := name resolves' (same ▸ named)
    unfold namePair? at unnamed
    cases left : p.name? with
    | none => exact first left
    | some a =>
      cases right : x.name? with
      | none => exact second right
      | some b => simp [left, right] at unnamed
  refine ⟨?_, nameless⟩
  rcases Relation.ReflTransGen.cases_tail chain with same | ⟨o, before, step⟩
  · exact same.symm
  · have above := regular.of_reaches (.of_unfoldings before)
    exact (named_of_unfolds registry above step composite nameless).elim

def Pattern.bulk (p : Pattern) : Nat :=
  if p.isComposite && p.name?.isNone then p.size else 0

theorem Pattern.bulk_le_size : p.bulk ≤ p.size := by
  unfold bulk
  split
  · exact Nat.le_refl _
  · exact Nat.zero_le _

theorem bulk_of_unfolds (registry : WrittenTypes types) (regular : Regular types p)
    (step : Unfolds types p q) : q.bulk = 0 := by
  unfold Pattern.bulk
  split
  · next h =>
    simp only [Bool.and_eq_true, Option.isNone_iff_eq_none] at h
    exact (named_of_unfolds registry regular step h.1 h.2).elim
  · rfl

theorem bulk_of_chain (registry : WrittenTypes types) (regular : Regular types p)
    (chain : Relation.ReflTransGen (Unfolds types) p q) : q.bulk ≤ p.bulk := by
  rcases Relation.ReflTransGen.cases_tail chain with rfl | ⟨o, before, step⟩
  · exact Nat.le_refl _
  · rw [bulk_of_unfolds registry (regular.of_reaches (.of_unfoldings before)) step]
    exact Nat.zero_le _

theorem settlesWithin_of_chain {n : Nat} (h : settlesWithin types n p)
    (chain : Relation.ReflTransGen (Unfolds types) p q) : settlesWithin types n q := by
  rcases Relation.reflTransGen_iff_eq_or_transGen.mp chain with rfl | more
  · exact h
  · cases n with
    | zero => cases h
    | succ n => exact settlesWithin_mono (settlesWithin_of_unfoldings h more) (Nat.le_succ n)

theorem Narrows.settles {n : Nat} (exhaustive : r.combinations = .exhaustive) (h : Narrows r p x)
    (settles : settlesWithin r.types n p) : settlesWithin r.types n x := by
  cases h with
  | unfolding chain => exact settlesWithin_of_chain settles chain
  | variant chain composite variant =>
    cases n with
    | zero => cases settles
    | succ n =>
      refine settlesWithin_succ.mpr fun q step => ?_
      exact (not_unfolds_composite (variant.composite exhaustive composite).1 step).elim

theorem Registered.of_next (concrete : p.Concrete)
    (h : ∀ q, Unfolds types p q ∨ Part p q → Registered types q) : Registered types p := by
  intro name met
  rcases Relation.ReflTransGen.cases_head met with same | ⟨q, step, rest⟩
  · exact absurd same (concrete name)
  · exact h q step name rest

theorem Variant.registered {fuel : Nat} {entered : List String} (guarded : Guarded r.types)
    (exhaustive : r.combinations = .exhaustive) (regular : Regular r.types p)
    (h : Variant r fuel entered p x) : Registered r.types x := by
  induction fuel generalizing entered p x with
  | zero => exact (not_expands_zero h.expands).elim
  | succ fuel ih =>
    cases p with
    | repeated inner =>
      obtain ⟨y, inside, rfl⟩ := variant_repeated.mp h
      refine .of_next (concrete_of_composite rfl) fun q step => ?_
      rcases step with step | part
      · exact (not_unfolds_composite rfl step).elim
      · cases part
        exact ih (regular.part .inner) inside
    | reference name =>
      by_cases met : name ∈ entered
      · rw [(variant_entered met).mp h]
        exact regular.registered
      · obtain ⟨q, found, inside⟩ := (variant_reference met).mp h
        exact ih (regular_of_resolve regular guarded found).2 inside
    | anyOf alternatives =>
      obtain ⟨o, rfl, -⟩ := regular.nullable
      rcases h.of_nullable with rfl | inside
      · exact regular.registered.of_reaches (Unfolds.reaches (.anyOf (by simp)))
      · exact ih (regular.unfold (.anyOf (by simp))) inside
    | object fields traits =>
      obtain ⟨chosen, choices, rfl⟩ := (variant_tidyObject regular.bare.distinct exhaustive).mp h
      refine .of_next (concrete_of_composite rfl) fun q step => ?_
      rcases step with step | part
      · exact (not_unfolds_composite rfl step).elim
      · cases part with
        | field mem =>
          obtain ⟨field, there, -, inside⟩ := exists_of_forall₂_mem choices (mem_chosenFields.mp mem)
          exact ih (regular.part (.field there)) inside
    | array elements knownAs =>
      obtain ⟨chosen, variants, rfl⟩ := variant_array.mp h
      have each (y : Pattern) (mem : y ∈ chosen) : Registered r.types y := by
        obtain ⟨element, there, inside⟩ := exists_of_forall₂_mem variants mem
        exact ih (regular.part (.element there)) inside
      refine .of_next (concrete_of_composite rfl) fun q step => ?_
      rcases step with step | part
      · exact (not_unfolds_composite rfl step).elim
      · cases part with
        | element mem => exact each q mem
        | tail mem => exact (each _ mem).of_reaches (Part.reaches .inner)
    | _ =>
      rw [(variant_basic rfl).mp h]
      exact regular.registered

theorem Narrows.registered (guarded : Guarded r.types) (exhaustive : r.combinations = .exhaustive)
    (regular : Regular r.types p) (h : Narrows r p x) : Registered r.types x := by
  cases h with
  | unfolding chain => exact regular.registered.of_reaches (.of_unfoldings chain)
  | variant chain composite variant =>
    exact variant.registered guarded exhaustive (regular.of_reaches (.of_unfoldings chain))

end Names

end ApiContract
