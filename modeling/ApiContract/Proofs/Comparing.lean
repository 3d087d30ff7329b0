import ApiContract.Proofs.Acceptance

set_option autoImplicit false

namespace ApiContract

inductive Nested (these those : Resolver) :
    Pattern → Pattern → Resolver → Resolver → Pattern → Pattern → Prop
  | right {bigger q : Pattern} {alternatives : List Pattern} (mem : q ∈ alternatives) :
      Nested these those bigger (.anyOf alternatives) these those bigger q
  | left {smaller p : Pattern} {alternatives : List Pattern} (mem : p ∈ alternatives)
      (single : ∀ others, smaller ≠ .anyOf others) :
      Nested these those (.anyOf alternatives) smaller these those p smaller
  | fields {a b : List (String × Pattern)} {s t : ObjectTraits} {x y : String × Pattern}
      (mem : x ∈ a) (found : field? b (bareName x.1) = some y) :
      Nested these those (.object a s) (.object b t) these.tolerant those.tolerant x.2 y.2
  | items {bigger smaller p q : Pattern} {m n : Members} {i : Nat}
      (first : members? bigger = some m) (second : members? smaller = some n)
      (place : m.at? i = some p) (place' : n.at? i = some q) :
      Nested these those bigger smaller these.tolerant those.tolerant p q

theorem mem_of_field? {fields : List (String × Pattern)} {name key : String} {p : Pattern}
    (h : field? fields name = some (key, p)) : (key, p) ∈ fields := by
  unfold field? at h
  split at h
  · next found =>
    cases h
    exact Entries.mem_of_get? found
  · obtain ⟨q, found, same⟩ := Option.map_eq_some_iff.mp h
    cases same
    exact Entries.mem_of_get? found

section Success

variable {f : Pattern → Pattern → Option Verdict}

theorem keptKeys_eq_success {acceptsNull : Pattern → Option Verdict}
    {a b : List (String × Pattern)} :
    keptKeys acceptsNull a b = some .success ↔ ∀ field ∈ requiredFields a,
      Entries.contains b field.1 ∨ acceptsNull field.2 = some .success := by
  rw [keptKeys, Verdict.every_eq_success]
  refine forall₂_congr fun field _ => ?_
  by_cases there : Entries.contains b field.1
  · simp [there]
  · rcases acceptsNull field.2 with _ | (_ | failure) <;> simp [there, Verdict.fail, Verdict.under]

theorem sharedFields_eq_success {a b : List (String × Pattern)} :
    sharedFields f a b = some .success ↔ ∀ field ∈ a, ∀ key p,
      field? b (bareName field.1) = some (key, p) → f field.2 p = some .success := by
  rw [sharedFields, Verdict.every_eq_success]
  refine forall₂_congr fun field _ => ?_
  cases found : field? b (bareName field.1) with
  | none => simp
  | some other =>
    obtain ⟨key, p⟩ := other
    cases outcome : f field.2 p with
    | none => simp [outcome]
    | some verdict => simp [outcome, Verdict.under_eq_success]

theorem comparePosition_eq_success {these those : Members} {i : Nat} :
    comparePosition f these those i = some .success ↔
      (∀ p q, these.at? i = some p → those.at? i = some q → f p q = some .success) ∧
      ((those.at? i).isSome → (these.at? i).isSome) ∧
      (i < these.fixed.length → (those.at? i).isSome) := by
  unfold comparePosition
  cases first : these.at? i with
  | none =>
    have short : ¬ i < these.fixed.length := by
      intro less
      simp [Members.at?, less] at first
    cases second : those.at? i <;> simp [short, differentLengths, Verdict.fail]
  | some p =>
    cases second : those.at? i with
    | none =>
      by_cases short : these.fixed.length ≤ i
      · simp [short, Nat.not_lt.mpr short]
      · simp [short, Nat.lt_of_not_le short, differentLengths, Verdict.fail]
    | some q => simp

theorem Members.at?_eq_tail {members : Members} {i : Nat} (h : members.fixed.length ≤ i) :
    members.at? i = members.tail := by
  simp [Members.at?, List.getElem?_eq_none h]

theorem compareMembers_eq_success {these those : Members} :
    compareMembers f these those = some .success ↔
      ∀ i, comparePosition f these those i = some .success := by
  unfold compareMembers
  have beyond : ∀ i, max these.fixed.length those.fixed.length ≤ i →
      these.at? i = these.tail ∧ those.at? i = those.tail := fun i h =>
    ⟨Members.at?_eq_tail (by omega), Members.at?_eq_tail (by omega)⟩
  by_cases uneven : those.isEndless && !these.isEndless
  · simp only [uneven, if_true]
    refine iff_of_false (by simp [Verdict.fail]) fun all => ?_
    have last := (comparePosition_eq_success.mp
      (all (max these.fixed.length those.fixed.length))).2.1
    obtain ⟨first, second⟩ := beyond _ (Nat.le_refl _)
    rw [first, second] at last
    simp only [Members.isEndless, Bool.and_eq_true, Bool.not_eq_true'] at uneven
    rw [last uneven.1] at uneven
    cases uneven.2
  · simp only [uneven, Bool.false_eq_true, if_false, Verdict.thenCheck_eq_success,
      Verdict.every_eq_success, List.mem_range, Verdict.map_under_eq_success]
    constructor
    · rintro ⟨fixed, tails⟩ i
      by_cases short : i < max these.fixed.length those.fixed.length
      · exact fixed i short
      · obtain ⟨first, second⟩ := beyond i (by omega)
        refine comparePosition_eq_success.mpr ⟨fun p q hp hq => ?_, ?_, by omega⟩
        · rw [first] at hp
          rw [second] at hq
          simpa [hp, hq, Verdict.under_eq_success] using tails
        · intro endless
          rw [second] at endless
          rw [first]
          cases bounded : these.tail.isSome with
          | true => rfl
          | false => simp [Members.isEndless, endless, bounded] at uneven
    · intro all
      refine ⟨fun i _ => all i, ?_⟩
      cases first : these.tail with
      | none => rfl
      | some p =>
        cases second : those.tail with
        | none => rfl
        | some q =>
          obtain ⟨hp, hq⟩ := beyond _ (Nat.le_refl _)
          exact Verdict.map_under_eq_success.mpr ((comparePosition_eq_success.mp (all _)).1 p q
            (hp.trans first) (hq.trans second))

inductive Succeeds (compare : Resolver → Resolver → Pattern → Pattern → Option Verdict)
    (accepts : Resolver → Pattern → Value → Option Verdict) (these those : Resolver) :
    Pattern → Pattern → Prop
  | right {a : Pattern} {alternatives : List Pattern}
      (all : ∀ q ∈ alternatives, compare these those a q = some .success) :
      Succeeds compare accepts these those a (.anyOf alternatives)
  | left {b p : Pattern} {alternatives : List Pattern} (mem : p ∈ alternatives)
      (one : compare these those p b = some .success) :
      Succeeds compare accepts these those (.anyOf alternatives) b
  | same {expected actual : Value} (h : expected.same actual) :
      Succeeds compare accepts these those (.exact expected) (.exact actual)
  | literal {a : Pattern} {value : Value} (h : accepts these.tolerant a value = some .success) :
      Succeeds compare accepts these those a (.exact value)
  | string : Succeeds compare accepts these those .string .string
  | number : Succeeds compare accepts these those .number .number
  | boolean : Succeeds compare accepts these those .boolean .boolean
  | null : Succeeds compare accepts these those .null .null
  | text {scheme : UrlScheme} : Succeeds compare accepts these those .string (.url scheme)
  | url {wider scheme : UrlScheme} (h : wider.encompasses scheme) :
      Succeeds compare accepts these those (.url wider) (.url scheme)
  | object {a b : List (String × Pattern)} {s t : ObjectTraits}
      (h : compareObjects (fun p => accepts these.tolerant p .null)
        (compare these.tolerant those.tolerant) a b = some .success) :
      Succeeds compare accepts these those (.object a s) (.object b t)
  | sequence {a b : Pattern} {m n : Members} (first : members? a = some m)
      (second : members? b = some n)
      (h : isUnconstrained a ∨ isUnconstrained b = false ∧
        compareMembers (compare these.tolerant those.tolerant) m n = some .success) :
      Succeeds compare accepts these those a b

theorem compareUnion_success {bigger smaller : Pattern} {alternatives : List Pattern}
    (h : compareUnion f bigger alternatives smaller = some .success) :
    ∃ p ∈ alternatives, f p smaller = some .success := by
  obtain ⟨failures, run, rest⟩ := Option.bind_eq_some_iff.mp h
  cases failures with
  | none => exact Verdict.exists_success_of_refusals run
  | some failures =>
    cases only : onlyRefusal? alternatives failures with
    | none => simp [only, typeMismatch, Verdict.fail] at rest
    | some failure => simp [only] at rest

theorem compareSequences_eq_success {a b : Pattern} {m n : Members} (first : members? a = some m)
    (second : members? b = some n) :
    compareSequences f a b = some .success ↔ isUnconstrained a ∨ isUnconstrained b = false ∧
      compareMembers f m n = some .success := by
  unfold compareSequences
  cases isUnconstrained a with
  | true => simp
  | false =>
    cases isUnconstrained b with
    | true => simp [typeMismatch, Verdict.fail]
    | false => simp [first, second]

variable {compare : Resolver → Resolver → Pattern → Pattern → Option Verdict}
  {accepts : Resolver → Pattern → Value → Option Verdict} {these those : Resolver} {a b : Pattern}

theorem succeeds_of_compareResolved
    (h : compareResolved compare accepts these those a b = some .success) :
    Succeeds compare accepts these those a b := by
  unfold compareResolved at h
  split at h
  · exact .right (Verdict.every_eq_success.mp h)
  · obtain ⟨p, mem, one⟩ := compareUnion_success h
    exact .left mem one
  · next expected actual =>
    cases same : expected.same actual with
    | true => exact .same same
    | false => simp [same, typeMismatch, Verdict.fail] at h
  · exact .literal h
  · simp [typeMismatch, Verdict.fail] at h
  · exact .string
  · exact .number
  · exact .boolean
  · exact .null
  · exact .text
  · next wider scheme =>
    cases wide : wider.encompasses scheme with
    | true => exact .url wide
    | false => simp [wide, typeMismatch, Verdict.fail] at h
  · exact .object h
  · exact .sequence rfl rfl ((compareSequences_eq_success rfl rfl).mp h)
  · exact .sequence rfl rfl ((compareSequences_eq_success rfl rfl).mp h)
  · exact .sequence rfl rfl ((compareSequences_eq_success rfl rfl).mp h)
  · exact .sequence rfl rfl ((compareSequences_eq_success rfl rfl).mp h)
  · simp [typeMismatch, Verdict.fail] at h

theorem compareResolved_sequence {m n : Members} (first : members? a = some m)
    (second : members? b = some n) : compareResolved compare accepts these those a b =
      compareSequences (compare these.tolerant those.tolerant) a b := by
  cases a with
  | array | repeated => cases b <;> first | rfl | cases second
  | _ => cases first

end Success

namespace Simulation

variable {m n : Type → Type} [Monad m] [Monad n] (sim : Simulation m n)

section Combined

variable {f : Pattern → Pattern → m Verdict} {g : Pattern → Pattern → n Verdict}
  {bigger smaller : Pattern}

theorem keptKeys {check : Pattern → m Verdict} {other : Pattern → n Verdict}
    {a b : List (String × Pattern)} (h : ∀ x ∈ a, sim.rel (check x.2) (other x.2)) :
    sim.rel (keptKeys check a b) (keptKeys other a b) := by
  refine sim.every fun field mem => ?_
  by_cases there : Entries.contains b field.1
  · simpa only [there, if_true] using sim.rel_pure _
  · simp only [there]
    refine sim.rel_bind (h field (mem_of_requiredFields mem).1) fun verdict => ?_
    cases verdict <;> exact sim.rel_pure _

theorem sharedFields {a b : List (String × Pattern)}
    (h : ∀ x ∈ a, ∀ y, field? b (bareName x.1) = some y → sim.rel (f x.2 y.2) (g x.2 y.2)) :
    sim.rel (sharedFields f a b) (sharedFields g a b) := by
  refine sim.every fun field mem => ?_
  cases found : field? b (bareName field.1) with
  | none => exact sim.rel_pure _
  | some other => exact sim.rel_bind (h field mem other found) fun _ => sim.rel_pure _

theorem compareMembers [LawfulMonad m] [LawfulMonad n] {these those : Members}
    (h : ∀ p q i, these.at? i = some p → those.at? i = some q → sim.rel (f p q) (g p q)) :
    sim.rel (compareMembers f these those) (compareMembers g these those) := by
  unfold ApiContract.compareMembers
  by_cases uneven : those.isEndless && !these.isEndless
  · simpa only [uneven, if_true] using sim.rel_pure _
  · simp only [uneven, Bool.false_eq_true, if_false]
    refine sim.thenCheck (sim.every fun i _ => sim.rel_map _ ?_) ?_
    · unfold comparePosition
      cases first : these.at? i with
      | none => cases those.at? i <;> exact sim.rel_pure _
      | some p =>
        cases second : those.at? i with
        | none => exact sim.rel_pure _
        | some q => exact h p q i first second
    · cases first : these.tail with
      | none => exact sim.rel_pure _
      | some p =>
        cases second : those.tail with
        | none => exact sim.rel_pure _
        | some q =>
          -- Behind the longer fixed part both tails govern.
          have far := Nat.le_max_left these.fixed.length those.fixed.length
          have far' := Nat.le_max_right these.fixed.length those.fixed.length
          exact sim.rel_map _ (h p q (max these.fixed.length those.fixed.length)
            ((Members.at?_eq_tail far).trans first) ((Members.at?_eq_tail far').trans second))

theorem compareSequences [LawfulMonad m] [LawfulMonad n]
    (h : ∀ m n p q i, members? bigger = some m → members? smaller = some n → m.at? i = some p →
      n.at? i = some q → sim.rel (f p q) (g p q)) :
    sim.rel (compareSequences f bigger smaller) (compareSequences g bigger smaller) := by
  unfold ApiContract.compareSequences
  split
  · exact sim.rel_pure _
  · split
    · exact sim.rel_pure _
    · cases first : members? bigger with
      | none => exact sim.rel_pure _
      | some these =>
        cases second : members? smaller with
        | none => exact sim.rel_pure _
        | some those =>
          exact sim.compareMembers fun p q i => h these those p q i first second

theorem compareUnion {alternatives : List Pattern}
    (h : ∀ p ∈ alternatives, sim.rel (f p smaller) (g p smaller)) :
    sim.rel (compareUnion f bigger alternatives smaller)
      (compareUnion g bigger alternatives smaller) := by
  refine sim.rel_bind (sim.refusals h) fun failures => ?_
  cases failures with
  | none => exact sim.rel_pure _
  | some failures =>
    cases only : onlyRefusal? alternatives failures <;> simpa only [only] using sim.rel_pure _

end Combined

variable [LawfulMonad m] [LawfulMonad n]
  {f : Resolver → Resolver → Pattern → Pattern → m Verdict}
  {g : Resolver → Resolver → Pattern → Pattern → n Verdict}
  {accepts : Resolver → Pattern → Value → m Verdict}
  {takes : Resolver → Pattern → Value → n Verdict} {these those : Resolver}
  {bigger smaller : Pattern}

theorem compareResolved
    (checks : ∀ p v, p = bigger ∨ Part bigger p →
      sim.rel (accepts these.tolerant p v) (takes these.tolerant p v))
    (h : ∀ r s p q, Nested these those bigger smaller r s p q → sim.rel (f r s p q) (g r s p q)) :
    sim.rel (compareResolved f accepts these those bigger smaller)
      (compareResolved g takes these those bigger smaller) := by
  unfold ApiContract.compareResolved
  split
  · exact sim.every fun q mem => h _ _ _ q (.right mem)
  · next single => exact sim.compareUnion fun p mem => h _ _ p _ (.left mem single)
  · split <;> exact sim.rel_pure _
  · exact checks _ _ (.inl rfl)
  -- Scalars are decided at once.
  iterate 6 exact sim.rel_pure _
  · split <;> exact sim.rel_pure _
  · apply sim.thenCheck (sim.keptKeys fun x mem => checks x.2 _ (.inr (.field mem)))
    exact sim.sharedFields fun x mem y found => h _ _ x.2 y.2 (.fields mem found)
  iterate 4
    exact sim.compareSequences fun _ _ p q _ first second place place' =>
      h _ _ p q (.items first second place place')
  · exact sim.rel_pure _

theorem compareStep
    (checks : ∀ a, these.resolve bigger = .ok a → ∀ p v, p = a ∨ Part a p →
      sim.rel (accepts these.tolerant p v) (takes these.tolerant p v))
    (h : ∀ a b, these.resolve bigger = .ok a → those.resolve smaller = .ok b →
      ∀ r s p q, Nested these those a b r s p q → sim.rel (f r s p q) (g r s p q)) :
    sim.rel (Pattern.compareStep f accepts these those bigger smaller)
      (Pattern.compareStep g takes these those bigger smaller) := by
  unfold Pattern.compareStep
  cases first : these.resolve bigger with
  | error e => exact sim.rel_pure _
  | ok a =>
    cases second : those.resolve smaller with
    | error e => exact sim.rel_pure _
    | ok b => exact sim.compareResolved (checks a first) (h a b first second)

end Simulation

theorem guarded_some {pair : String × String} {comparison : Unit → Comparison Verdict}
    {stack : TypeStack} :
    guarded (some pair) comparison stack =
      if pair ∈ stack then some (.success, stack)
      else (comparison () (stack ++ [pair])).map fun result => (result.1, result.2.dropLast) := by
  show (if pair ∈ stack then (pure .success : Comparison Verdict) else _) stack = _
  by_cases held : pair ∈ stack
  · rw [if_pos held, if_pos held]
    rfl
  · rw [if_neg held, if_neg held]
    show (comparison () (stack ++ [pair])).bind _ = _
    cases comparison () (stack ++ [pair]) <;> rfl

def isHeld (stack : TypeStack) (bigger smaller : Pattern) : Bool :=
  (namePair? bigger smaller).any stack.contains

def entering (stack : TypeStack) (bigger smaller : Pattern) : TypeStack :=
  stack ++ (namePair? bigger smaller).toList

theorem namePair?_eq_some {a b : Pattern} {pair : String × String} :
    namePair? a b = some pair ↔ a.name? = some pair.1 ∧ b.name? = some pair.2 := by
  unfold namePair?
  cases a.name? <;> cases b.name? <;> simp [Prod.ext_iff]

theorem isHeld_iff {stack : TypeStack} {a b : Pattern} :
    isHeld stack a b ↔ ∃ pair ∈ stack, namePair? a b = some pair := by
  unfold isHeld
  cases namePair? a b <;> simp

theorem mem_entering {stack : TypeStack} {a b : Pattern} {pair : String × String} :
    pair ∈ entering stack a b ↔ pair ∈ stack ∨ namePair? a b = some pair := by
  simp [entering]

namespace Pattern

def compareAt : Nat → TypeStack → Resolver → Resolver → Pattern → Pattern → Option Verdict
  | 0, _, _, _, _, _ => none
  | fuel + 1, stack, these, those, bigger, smaller =>
      if isHeld stack bigger smaller then some .success
      else compareStep (compareAt fuel (entering stack bigger smaller)) check these those bigger
        smaller

def restoring (stack : TypeStack) : Simulation Comparison Option where
  rel x y := x stack = y.map fun a => (a, stack)
  rel_pure _ := rfl
  rel_bind {_ _ x y f g} first next := by
    show (x stack).bind (fun result => f result.1 result.2) = _
    rw [first]
    cases y with
    | none => rfl
    | some a => exact next a

variable {these those : Resolver} {bigger smaller : Pattern}

theorem compareWithin_eq_compareAt (fuel : Nat) (stack : TypeStack) :
    compareWithin fuel these those bigger smaller stack =
      (compareAt fuel stack these those bigger smaller).map fun verdict => (verdict, stack) := by
  induction fuel generalizing these those bigger smaller stack with
  | zero => rfl
  | succ fuel ih =>
    have level (held : TypeStack) :
        compareStep (compareWithin fuel) (fun r p v => .lift (check r p v)) these those bigger
            smaller held =
          (compareStep (compareAt fuel held) check these those bigger smaller).map
            fun verdict => (verdict, held) :=
      (restoring held).compareStep (fun _ _ _ _ _ => rfl) fun _ _ _ _ _ _ _ _ _ => ih held
    unfold compareWithin compareAt
    cases named : namePair? bigger smaller with
    | none => simp [guarded, isHeld, entering, named, level]
    | some pair =>
      rw [guarded_some, level]
      by_cases held : pair ∈ stack
      · simp [isHeld, named, held]
      · simp [isHeld, entering, named, held, Function.comp_def]

theorem encompasses_eq_compareAt :
    encompasses these those bigger smaller =
      compareAt (compareBound these those bigger smaller) [] these those bigger smaller := by
  simp [encompasses, encompassesFrom, compareWithin_eq_compareAt, Function.comp_def]

theorem compareAt_concrete {stack : TypeStack} {n : Nat}
    (free : isHeld stack bigger smaller = false) (concrete : bigger.Concrete)
    (concrete' : smaller.Concrete) :
    compareAt (n + 1) stack these those bigger smaller =
      compareResolved (compareAt n (entering stack bigger smaller)) check these those bigger
        smaller := by
  simp [compareAt, free, compareStep, Resolver.resolve_of_concrete concrete,
    Resolver.resolve_of_concrete concrete']

theorem compareAt_mono {stack : TypeStack} {n m : Nat} (h : n ≤ m) :
    Refines (compareAt n stack these those bigger smaller)
      (compareAt m stack these those bigger smaller) := by
  induction n generalizing m stack these those bigger smaller with
  | zero => exact Refines.none _
  | succ n ih =>
    obtain ⟨m, rfl⟩ : ∃ k, m = k + 1 := ⟨m - 1, by omega⟩
    unfold compareAt
    split
    · exact Refines.refl _
    · exact Refines.simulation.compareStep (fun _ _ _ _ _ => Refines.refl _)
        fun _ _ _ _ r s p q _ => ih (by omega)

end Pattern

end ApiContract
