import ApiContract.Proofs.Comparing
import ApiContract.Proofs.Locating

set_option autoImplicit false

namespace ApiContract

section Unions

variable {f : Pattern → Pattern → Option Verdict} {bigger smaller : Pattern}
  {alternatives : List Pattern}

theorem compareUnion_decides (ends : ∀ p ∈ alternatives, (f p smaller).isSome) :
    ∃ verdict, compareUnion f bigger alternatives smaller = some verdict ∧
      (verdict = .success ↔ ∃ p ∈ alternatives, f p smaller = some .success) := by
  have done : (compareUnion f bigger alternatives smaller).isSome :=
    endings.compareUnion (g := f) ends
  obtain ⟨verdict, outcome⟩ := Option.isSome_iff_exists.mp done
  refine ⟨verdict, outcome, fun success => compareUnion_success (outcome.trans (success ▸ rfl)), ?_⟩
  rintro ⟨p, mem, one⟩
  have run : Verdict.refusals (fun p => f p smaller) alternatives = some none :=
    Verdict.refusals_eq_none_of_mem mem one ends
  have success : compareUnion f bigger alternatives smaller = some .success := by
    simp [compareUnion, run]
  exact Option.some.inj (outcome.symm.trans success)

end Unions

section Literals

variable {r s : Resolver} {p q : Pattern} {v : Value} {stack : TypeStack} {n : Nat}

theorem accepts_resolve (found : r.resolve p = .ok q) : Accepts r p v ↔ Accepts r q v := by
  cases p with
  | reference name => exact accepts_resolved found
  | _ =>
    cases found
    exact Iff.rfl

theorem Accepts.resolves (accepted : Accepts r p v) : ∃ q, r.resolve p = .ok q := by
  cases p with
  | reference name => exact resolve_of_accepts accepted
  | _ => exact ⟨_, rfl⟩

theorem compareAt_literal : Pattern.compareAt (n + 1) stack r s p (.exact v) =
    match r.resolve p with
    | .ok q => compareResolved (Pattern.compareAt n stack) Pattern.check r s q (.exact v)
    | .error error => some (.fail error.message) := by
  have unnamed : namePair? p (.exact v) = none := by
    unfold namePair?
    cases p.name? <;> rfl
  have free : isHeld stack p (.exact v) = false := by rw [isHeld, unnamed]; rfl
  have same : entering stack p (.exact v) = stack := by rw [entering, unnamed]; exact List.append_nil _
  have literal : s.resolve (.exact v) = .ok (.exact v) := rfl
  rw [Pattern.compareAt, free, same, Pattern.compareStep, literal]
  cases r.resolve p <;> rfl

theorem compareResolved_literal
    {compare : Resolver → Resolver → Pattern → Pattern → Option Verdict}
    (guarded : Guarded r.types) (tolerant : r.nullTolerant) (kind : p.isOutright) :
    ∃ verdict, compareResolved compare Pattern.check r s p (.exact v) = some verdict ∧
      (verdict = .success ↔ Accepts r p v) := by
  have same : r.tolerant = r := by rw [Resolver.tolerant, ← tolerant]
  have checked : ∃ verdict, Pattern.check r.tolerant p v = some verdict ∧
      (verdict = .success ↔ Accepts r p v) := by
    obtain ⟨verdict, outcome⟩ := Option.isSome_iff_exists.mp (Pattern.check_ends guarded p v)
    rw [same]
    exact ⟨verdict, outcome, by simp [Accepts, outcome]⟩
  cases p with
  | exact expected =>
    -- Two literals are compared as values at once.
    refine ⟨_, rfl, ?_⟩
    rw [accepts_exact]
    cases expected.same v <;> simp [typeMismatch, Verdict.fail]
  | reference | anyOf => cases kind
  | _ => exact checked

theorem compareAt_literal_decides (guarded : Guarded r.types) (tolerant : r.nullTolerant)
    (settles : settlesWithin r.types n p) :
    ∃ verdict, Pattern.compareAt n stack r s p (.exact v) = some verdict ∧
      (verdict = .success ↔ Accepts r p v) := by
  induction n generalizing p with
  | zero => cases settles
  | succ n ih =>
    rw [compareAt_literal]
    cases found : r.resolve p with
    | error error =>
      refine ⟨_, rfl, iff_of_false Verdict.noConfusion fun accepted => ?_⟩
      obtain ⟨q, known⟩ := accepted.resolves
      cases found.symm.trans known
    | ok q =>
      rw [accepts_resolve found]
      cases q with
      | reference name => exact absurd rfl (Resolver.concrete_of_follow found name)
      | anyOf alternatives =>
        have chain (o : Pattern) (mem : o ∈ alternatives) :
            Relation.TransGen (Unfolds r.types) p o := by
          rcases Resolver.unfoldings_of_resolve found with null | chain
          · cases null
          · exact .tail' chain (.anyOf mem)
        have nested (o : Pattern) (mem : o ∈ alternatives) :=
          ih (settlesWithin_of_unfoldings settles (chain o mem))
        have ends (o : Pattern) (mem : o ∈ alternatives) :
            (Pattern.compareAt n stack r s o (.exact v)).isSome := by
          obtain ⟨verdict, outcome, -⟩ := nested o mem
          exact Option.isSome_of_eq_some outcome
        obtain ⟨verdict, outcome, success⟩ := compareUnion_decides ends
        refine ⟨verdict, outcome, success.trans ?_⟩
        rw [accepts_union guarded]
        refine exists_congr fun o => and_congr_right fun mem => ?_
        obtain ⟨verdict, outcome, success⟩ := nested o mem
        rw [← success, outcome, Option.some.injEq]
      | _ => exact compareResolved_literal guarded tolerant rfl

theorem settles_within_compareBound (guarded : Guarded r.types) :
    settlesWithin r.types (Pattern.compareBound r s p q) p := by
  refine settlesWithin_mono (guarded.settles p) ?_
  simp only [Pattern.compareBound]
  generalize names : p.names.length + r.types.length + (Pattern.namesFields r.types).length = m
  calc p.size + Pattern.sizeFields r.types
    _ ≤ 4 * (p.size + r.size + 2) := by
      rw [Resolver.size]
      omega
    _ ≤ 4 * (p.size + r.size + 2) * (q.size + s.size + 2) + 2 :=
      Nat.le_add_right_of_le (Nat.le_mul_of_pos_right _ (by omega))
    _ ≤ _ := Nat.le_mul_of_pos_right _ (by omega)

theorem encompasses_literal_iff (guarded : Guarded r.types) (tolerant : r.nullTolerant)
    (s : Resolver) (p : Pattern) (v : Value) :
    ∃ compared checked, Pattern.encompasses r s p (.exact v) = some compared ∧
      p.check r v = some checked ∧ (compared = .success ↔ checked = .success) := by
  have bound : settlesWithin r.types (Pattern.compareBound r s p (.exact v)) p :=
    settles_within_compareBound guarded
  obtain ⟨compared, outcome, success⟩ := compareAt_literal_decides guarded tolerant bound
  obtain ⟨checked, checks⟩ := Option.isSome_iff_exists.mp (Pattern.check_ends guarded p v)
  refine ⟨compared, checked, Pattern.encompasses_eq_compareAt.trans outcome, checks, ?_⟩
  rw [success, Accepts, checks, Option.some.injEq]

def badgeOrTeam : Pattern :=
  .anyOf [.reference "Badge", .array [.reference "Lead", .repeated (.anyOf [.null, .reference "Lead"])]
    none]

theorem badgeOrTeam_literal : Guarded crew.tolerant.types ∧ crew.tolerant.nullTolerant ∧
    ∃ compared checked, Pattern.encompasses crew.tolerant Resolver.empty badgeOrTeam
        (.exact (.array [.object [("name", .string "A")], .null])) = some compared ∧
      badgeOrTeam.check crew.tolerant (.array [.object [("name", .string "A")], .null]) =
        some checked ∧ (compared = .success ↔ checked = .success) := by
  have guarded : Guarded crew.tolerant.types := Guarded.of_settles 3 (by decide +kernel)
  exact ⟨guarded, rfl, encompasses_literal_iff guarded rfl _ _ _⟩

end Literals

end ApiContract
