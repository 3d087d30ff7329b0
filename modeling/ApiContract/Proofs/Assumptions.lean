import ApiContract.Proofs.Literals

set_option autoImplicit false

namespace ApiContract

section Levels

variable {f g : Pattern → Pattern → Option Verdict} {bigger smaller : Pattern}

theorem compareUnion_of_more {alternatives : List Pattern} (ends : ∀ p q, (f p q).isSome)
    (more : ∀ p q, g p q = some .success → f p q = some .success)
    (h : compareUnion g bigger alternatives smaller = some .success) :
    compareUnion f bigger alternatives smaller = some .success := by
  obtain ⟨p, mem, one⟩ := compareUnion_success h
  obtain ⟨verdict, outcome, success⟩ :
      ∃ verdict, compareUnion f bigger alternatives smaller = some verdict ∧
        (verdict = .success ↔ ∃ p ∈ alternatives, f p smaller = some .success) :=
    compareUnion_decides fun p _ => ends p smaller
  rw [outcome, success.mpr ⟨p, mem, more _ _ one⟩]

theorem compareObjects_of_more {acceptsNull : Pattern → Option Verdict}
    {a b : List (String × Pattern)} (more : ∀ p q, g p q = some .success → f p q = some .success)
    (h : compareObjects acceptsNull g a b = some .success) :
    compareObjects acceptsNull f a b = some .success := by
  obtain ⟨kept, shared⟩ := Verdict.thenCheck_eq_success.mp h
  refine Verdict.thenCheck_eq_success.mpr ⟨kept, sharedFields_eq_success.mpr ?_⟩
  intro field mem key p found
  exact more _ _ (sharedFields_eq_success.mp shared field mem key p found)

theorem compareMembers_of_more {these those : Members}
    (more : ∀ p q, g p q = some .success → f p q = some .success)
    (h : compareMembers g these those = some .success) :
    compareMembers f these those = some .success := by
  refine compareMembers_eq_success.mpr fun i => ?_
  obtain ⟨both, first, second⟩ := comparePosition_eq_success.mp (compareMembers_eq_success.mp h i)
  exact comparePosition_eq_success.mpr
    ⟨fun p q place place' => more p q (both p q place place'), first, second⟩

theorem compareSequences_of_more (more : ∀ p q, g p q = some .success → f p q = some .success)
    (h : compareSequences g bigger smaller = some .success) :
    compareSequences f bigger smaller = some .success := by
  unfold compareSequences at h ⊢
  by_cases anything : isUnconstrained bigger
  · simp [anything]
  by_cases unlimited : isUnconstrained smaller
  · simp [anything, unlimited, typeMismatch, Verdict.fail] at h
  simp only [anything, unlimited, Bool.false_eq_true, if_false] at h ⊢
  cases first : members? bigger with
  | none => simpa only [first] using h
  | some these =>
    cases second : members? smaller with
    | none => simpa only [first, second] using h
    | some those =>
      simp only [first, second] at h ⊢
      exact compareMembers_of_more more h

end Levels

section Steps

variable {f g : Resolver → Resolver → Pattern → Pattern → Option Verdict}
  {accepts : Resolver → Pattern → Value → Option Verdict} {these those : Resolver}
  {bigger smaller : Pattern}

theorem compareResolved_of_more (ends : ∀ r s p q, (f r s p q).isSome)
    (more : ∀ r s p q, g r s p q = some .success → f r s p q = some .success) :
    compareResolved g accepts these those bigger smaller = some .success →
      compareResolved f accepts these those bigger smaller = some .success := by
  unfold compareResolved
  split
  · intro h
    refine Verdict.every_eq_success.mpr fun q mem => ?_
    exact more _ _ _ _ (Verdict.every_eq_success.mp h q mem)
  · exact compareUnion_of_more (ends these those) (more these those)
  -- Literals and scalars ask for no other comparison.
  iterate 9 exact id
  · exact compareObjects_of_more (more these.tolerant those.tolerant)
  iterate 4 exact compareSequences_of_more (more these.tolerant those.tolerant)
  · exact id

theorem compareStep_of_more (ends : ∀ r s p q, (f r s p q).isSome)
    (more : ∀ r s p q, g r s p q = some .success → f r s p q = some .success)
    (h : Pattern.compareStep g accepts these those bigger smaller = some .success) :
    Pattern.compareStep f accepts these those bigger smaller = some .success := by
  unfold Pattern.compareStep at h ⊢
  cases first : these.resolve bigger with
  | error error => simpa only [first] using h
  | ok a =>
    cases second : those.resolve smaller with
    | error error => simpa only [first, second] using h
    | ok b =>
      simp only [first, second] at h ⊢
      exact compareResolved_of_more ends more h

theorem compareStep_not_fails {verdict : Verdict}
    (more : ∀ r s p q v, g r s p q = some .success → f r s p q = some v → v = .success)
    (h : Pattern.compareStep g accepts these those bigger smaller = some .success)
    (run : Pattern.compareStep f accepts these those bigger smaller = some verdict) :
    verdict = .success := by
  -- Taken to succeed, a comparison without end changes no run that has one.
  let granted (r s : Resolver) (p q : Pattern) : Option Verdict := some ((f r s p q).getD .success)
  have success : Pattern.compareStep granted accepts these those bigger smaller = some .success := by
    refine compareStep_of_more (fun r s p q => rfl) (fun r s p q one => ?_) h
    cases outcome : f r s p q with
    | none => simp [granted, outcome]
    | some v => simp [granted, outcome, more r s p q v one outcome]
  have same : Pattern.compareStep granted accepts these those bigger smaller = some verdict := by
    refine Refines.simulation.compareStep (fun _ _ _ _ _ => Refines.refl _) (fun _ _ _ _ r s p q _ =>
      ?_) verdict run
    intro v outcome
    simp [granted, outcome]
  exact Option.some.inj (same.symm.trans success)

end Steps

section Stacks

variable {these those : Resolver} {bigger smaller : Pattern} {stack more : TypeStack}

theorem isHeld_of_subset (sub : stack ⊆ more) (held : isHeld stack bigger smaller) :
    isHeld more bigger smaller := by
  obtain ⟨pair, mem, named⟩ := isHeld_iff.mp held
  exact isHeld_iff.mpr ⟨pair, sub mem, named⟩

theorem entering_subset (sub : stack ⊆ more) :
    entering stack bigger smaller ⊆ entering more bigger smaller := by
  intro pair mem
  rcases mem_entering.mp mem with held | named
  · exact mem_entering.mpr (.inl (sub held))
  · exact mem_entering.mpr (.inr named)

theorem compareAt_not_fails {n m : Nat} {verdict : Verdict} (sub : stack ⊆ more)
    (h : Pattern.compareAt n stack these those bigger smaller = some .success)
    (run : Pattern.compareAt m more these those bigger smaller = some verdict) :
    verdict = .success := by
  induction n generalizing m these those bigger smaller stack more verdict with
  | zero => cases h
  | succ n ih =>
    cases m with
    | zero => cases run
    | succ m =>
      unfold Pattern.compareAt at h run
      by_cases held : isHeld more bigger smaller
      · simpa [held, eq_comm] using run
      have free : ¬ isHeld stack bigger smaller := fun before => held (isHeld_of_subset sub before)
      simp only [held, free, Bool.false_eq_true, if_false] at h run
      exact compareStep_not_fails (fun r s p q v => ih (entering_subset sub)) h run

/-- A comparison returns where its recursion ends at some depth; the stack that it leaves comes last. -/
def Pattern.Returns (these those : Resolver) (bigger smaller : Pattern) (stack : TypeStack)
    (verdict : Verdict) (left : TypeStack) : Prop :=
  ∃ depth, Pattern.compareWithin depth these those bigger smaller stack = some (verdict, left)

theorem Pattern.returns_of_encompassesFrom {verdict : Verdict} {left : TypeStack}
    (h : Pattern.encompassesFrom stack these those bigger smaller = some (verdict, left)) :
    Pattern.Returns these those bigger smaller stack verdict left :=
  ⟨_, h⟩

theorem Pattern.returns_iff {verdict : Verdict} {left : TypeStack} :
    Pattern.Returns these those bigger smaller stack verdict left ↔
      (∃ depth, Pattern.compareAt depth stack these those bigger smaller = some verdict) ∧
        left = stack := by
  simp only [Returns, compareWithin_eq_compareAt, Option.map_eq_some_iff, Prod.mk.injEq]
  constructor
  · rintro ⟨depth, v, run, rfl, rfl⟩
    exact ⟨⟨depth, run⟩, rfl⟩
  · rintro ⟨⟨depth, run⟩, rfl⟩
    exact ⟨depth, verdict, run, rfl, rfl⟩

theorem stack_restored_and_only_helps {verdict : Verdict} {left : TypeStack}
    (returns : Pattern.Returns these those bigger smaller stack verdict left) :
    left = stack ∧ (verdict = .success → ∀ more verdict left, stack ⊆ more →
      Pattern.Returns these those bigger smaller more verdict left → verdict = .success) := by
  obtain ⟨⟨depth, run⟩, restored⟩ := Pattern.returns_iff.mp returns
  refine ⟨restored, ?_⟩
  rintro rfl more verdict left sub again
  obtain ⟨⟨depth', run'⟩, -⟩ := Pattern.returns_iff.mp again
  exact compareAt_not_fails sub run run'

def titled (name : String) (p : Pattern) : String × Pattern :=
  (name, .object [("title", p)] ⟨.reject, .json, some name⟩)

def desk : Resolver :=
  { Resolver.empty with
    types := [titled "Draft" .number, titled "Note" .string, titled "Memo" .string] }

theorem memo_taken_with_more :
    Pattern.Returns desk desk (.anyOf [.reference "Draft", .reference "Note"]) (.reference "Memo")
      [("Note", "Draft")] .success [("Note", "Draft")] ∧
    ∃ verdict left, Pattern.Returns desk desk (.anyOf [.reference "Draft", .reference "Note"])
      (.reference "Memo") [("Draft", "Memo"), ("Note", "Draft"), ("Draft", "Memo")] verdict left ∧
      verdict = .success ∧ left = [("Draft", "Memo"), ("Note", "Draft"), ("Draft", "Memo")] := by
  have first : Pattern.Returns desk desk (.anyOf [.reference "Draft", .reference "Note"])
      (.reference "Memo") [("Note", "Draft")] .success [("Note", "Draft")] :=
    Pattern.returns_of_encompassesFrom (by decide +kernel)
  have ends : (Pattern.encompassesFrom [("Draft", "Memo"), ("Note", "Draft"), ("Draft", "Memo")]
      desk desk (.anyOf [.reference "Draft", .reference "Note"]) (.reference "Memo")).isSome := by
    decide +kernel
  obtain ⟨⟨verdict, left⟩, run⟩ := Option.isSome_iff_exists.mp ends
  have second := Pattern.returns_of_encompassesFrom run
  refine ⟨first, verdict, left, second, ?_, (stack_restored_and_only_helps second).1⟩
  exact (stack_restored_and_only_helps first).2 rfl _ _ _ (by simp) second

end Stacks

end ApiContract
