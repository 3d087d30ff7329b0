import ApiContract.Proofs.Comparing
import ApiContract.Proofs.Locating

set_option autoImplicit false

namespace ApiContract

def NullNamed (types : Entries Pattern) (p : Pattern) : Prop :=
  ∀ name, Reaches types p (.reference name) → Token.typeName name = "null" →
    (registered? types name).isSome

namespace NullNamed

variable {types : Entries Pattern} {r : Resolver} {p q : Pattern}

theorem of_reaches (h : NullNamed types p) (reach : Reaches types p q) : NullNamed types q :=
  fun name more => h name (reach.trans more)

theorem null : NullNamed types .null := by
  intro name reach
  cases reach.eq_null

theorem of_resolve (h : NullNamed r.types p) (found : r.resolve p = .ok q) : NullNamed r.types q := by
  rcases Resolver.unfoldings_of_resolve found with rfl | chain
  · exact null
  · exact h.of_reaches (.of_unfoldings chain)

theorem behind (h : NullNamed r.types p) (behind : Behind r p q) : NullNamed r.types q := by
  cases behind with
  | reference found => exact h.of_resolve found
  | anyOf mem => exact h.of_reaches (Unfolds.reaches (.anyOf mem))

theorem get_tolerant {name : String} (h : NullNamed r.types (.reference name)) :
    r.tolerant.get name = r.get name := by
  cases named : registered? r.types name with
  | some q =>
    rw [Resolver.get_of_registered named]
    exact Resolver.get_of_registered named
  | none =>
    have other : ¬ Token.typeName name = "null" := by
      intro null
      have known := h name (Reaches.refl _) null
      rw [named] at known
      cases known
    rw [registered?] at named
    simp [Resolver.get, Resolver.tolerant, named, other]

theorem follow_tolerant (h : NullNamed r.types p) (hops : Nat) :
    r.tolerant.follow hops p = r.follow hops p := by
  induction hops generalizing p with
  | zero =>
    cases p with
    | reference name => simp only [Resolver.follow, h.get_tolerant]
    | _ => rfl
  | succ hops ih =>
    cases p with
    | reference name =>
      simp only [Resolver.follow, h.get_tolerant]
      cases named : registered? r.types name with
      | some q =>
        rw [Resolver.get_of_registered named]
        exact ih (h.of_reaches (Unfolds.reaches (.reference named)))
      | none =>
        -- A name of no type leads on to null at most.
        rw [registered?] at named
        simp only [Resolver.get, named]
        split
        · exact ih null
        · rfl
    | _ => rfl

theorem resolve_tolerant (h : NullNamed r.types p) : r.tolerant.resolve p = r.resolve p :=
  h.follow_tolerant _

end NullNamed

section Checks

variable {r s : Resolver} {p q : Pattern} {v : Value} {n : Nat}

theorem checkStep_tolerant {check : Resolver → Pattern → Value → Option Verdict}
    (same : r.tolerant.resolve p = r.resolve p) :
    Pattern.checkStep check r.tolerant p v =
      Pattern.checkStep (fun r => check r.tolerant) r p v := by
  cases p with
  | reference name => simp only [Pattern.checkStep, same]
  | _ => rfl

theorem checkWithin_tolerant (named : NullNamed r.types p) :
    Pattern.checkWithin n r.tolerant p v = Pattern.checkWithin n r p v := by
  induction n generalizing r p v with
  | zero => rfl
  | succ n ih =>
    rw [Pattern.checkWithin, checkStep_tolerant named.resolve_tolerant]
    refine agreement.checkSame (fun q behind => ih (named.behind behind)) fun q u part _ => ?_
    exact ⟨ih (named.of_reaches part.reaches), rfl⟩

theorem check_tolerant (named : NullNamed r.types p) :
    Pattern.check r.tolerant p v = Pattern.check r p v :=
  checkWithin_tolerant named

end Checks

section Comparisons

variable {r s : Resolver} {p q : Pattern} {stack : TypeStack} {n : Nat}

theorem compareStep_tolerant {m : Type → Type} [Monad m]
    {compare : Resolver → Resolver → Pattern → Pattern → m Verdict}
    {accepts : Resolver → Pattern → Value → m Verdict}
    (left : r.tolerant.resolve p = r.resolve p) (right : s.tolerant.resolve q = s.resolve q) :
    Pattern.compareStep compare accepts r.tolerant s.tolerant p q =
      Pattern.compareStep (fun r s => compare r.tolerant s.tolerant) accepts r s p q := by
  rw [Pattern.compareStep, left, right]
  rfl

theorem Nested.tolerant_or_behind {x y : Resolver} {a b p q : Pattern} (h : Nested r s a b x y p q) :
    x.tolerant = x ∧ y.tolerant = y ∨
      x = r ∧ y = s ∧ (p = a ∨ Behind r a p) ∧ (q = b ∨ Behind s b q) := by
  cases h with
  | right mem => exact .inr ⟨rfl, rfl, .inl rfl, .inr (.anyOf mem)⟩
  | left mem => exact .inr ⟨rfl, rfl, .inr (.anyOf mem), .inl rfl⟩
  | fields | items => exact .inl ⟨rfl, rfl⟩

theorem compareAt_tolerant (left : NullNamed r.types p) (right : NullNamed s.types q) :
    Pattern.compareAt n stack r.tolerant s.tolerant p q = Pattern.compareAt n stack r s p q := by
  induction n generalizing stack r s p q with
  | zero => rfl
  | succ n ih =>
    rw [Pattern.compareAt, compareStep_tolerant left.resolve_tolerant right.resolve_tolerant,
      Pattern.compareAt]
    refine congrArg (ite _ _) (agreement.compareStep (fun _ _ _ _ _ => rfl) ?_)
    intro a b first second x y o o' nested
    rcases nested.tolerant_or_behind with ⟨same, same'⟩ | ⟨rfl, rfl, ahead, ahead'⟩
    · rw [same, same']
      rfl
    · -- Only alternatives are compared under the resolvers as they were.
      have below := left.of_resolve first
      have below' := right.of_resolve second
      refine ih ?_ ?_
      · rcases ahead with rfl | behind
        · exact below
        · exact below.behind behind
      · rcases ahead' with rfl | behind
        · exact below'
        · exact below'.behind behind

theorem encompasses_tolerant (left : NullNamed r.types p) (right : NullNamed s.types q) :
    Pattern.encompasses r.tolerant s.tolerant p q = Pattern.encompasses r s p q := by
  rw [Pattern.encompasses_eq_compareAt, Pattern.encompasses_eq_compareAt]
  exact compareAt_tolerant left right

theorem tolerance_matters_for_null_alone (guarded : Guarded r.types) (left : NullNamed r.types p)
    (right : NullNamed s.types q) :
    (∀ v, ∃ verdict, p.check r v = some verdict ∧ p.check r.tolerant v = some verdict) ∧
      Pattern.encompasses r s p q = Pattern.encompasses r.tolerant s.tolerant p q := by
  refine ⟨fun v => ?_, (encompasses_tolerant left right).symm⟩
  obtain ⟨verdict, outcome⟩ := Option.isSome_iff_exists.mp (Pattern.check_ends guarded p v)
  exact ⟨verdict, outcome, (check_tolerant left).trans outcome⟩

-- As a name of no type, `null` is unknown where null is not tolerated.
example : Pattern.check Resolver.empty (.reference "null") .null ≠
    Pattern.check Resolver.empty.tolerant (.reference "null") .null := by
  decide +kernel

def Pattern.isNullNamed (types : Entries Pattern) : Pattern → Bool
  | .reference name => Token.typeName name ≠ "null" || (registered? types name).isSome
  | _ => true

theorem NullNamed.of_all {types : Entries Pattern}
    (h : (reachable types p).all (Pattern.isNullNamed types)) : NullNamed types p := by
  intro name reach null
  have own := List.all_eq_true.mp h _ reach.mem_reachable
  simpa [Pattern.isNullNamed, null] using own

def namedCrew : Resolver :=
  { Resolver.empty with types := [
      ("Member", .object [("name", .string), ("badge?", .anyOf [.null, .reference "Badge"]),
        ("friends?", .array [.repeated (.reference "Member")] none)] ⟨.reject, .json, some "Member"⟩),
      ("Badge", .string)] }

theorem crews_regardless_of_tolerance : Guarded crew.types ∧ NullNamed crew.types crewList ∧
    NullNamed namedCrew.types (.array [.boolean, .repeated (.reference "Member")] none) ∧
    (∀ v, ∃ verdict, crewList.check crew v = some verdict ∧
      crewList.check crew.tolerant v = some verdict) ∧
    Pattern.encompasses crew namedCrew crewList
        (.array [.boolean, .repeated (.reference "Member")] none) =
      Pattern.encompasses crew.tolerant namedCrew.tolerant crewList
        (.array [.boolean, .repeated (.reference "Member")] none) := by
  have guarded : Guarded crew.types := .of_settles 3 (by decide +kernel)
  have left : NullNamed crew.types crewList := .of_all (by decide +kernel)
  have right : NullNamed namedCrew.types (.array [.boolean, .repeated (.reference "Member")] none) :=
    .of_all (by decide +kernel)
  exact ⟨guarded, left, right, tolerance_matters_for_null_alone guarded left right⟩

end Comparisons

end ApiContract
