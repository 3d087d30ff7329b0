import ApiContract.Pattern.Encompassing
import ApiContract.Proofs.Matching

set_option autoImplicit false

namespace ApiContract

section Levels

variable {types : Entries Pattern} {r s : Resolver} {p q : Pattern} {v : Value}
  {f g : Resolver → Pattern → Value → Option Verdict}

theorem Guarded.resolves_reference {name : String} (guarded : Guarded types)
    (registered : Registered types (.reference name)) :
    ∃ q, Relation.TransGen (Unfolds types) (.reference name) q ∧
      Resolves types (.reference name) q := by
  obtain ⟨q, concrete, unfolds, resolves⟩ := guarded.resolves _ registered
  refine ⟨q, ?_, resolves⟩
  rcases Relation.reflTransGen_iff_eq_or_transGen.mp unfolds with same | more
  · exact absurd same (concrete name)
  · exact more

theorem Guarded.unfolds_of_resolve {name : String} (guarded : Guarded r.types)
    (registered : Registered r.types (.reference name))
    (found : r.resolve (.reference name) = .ok q) :
    Relation.TransGen (Unfolds r.types) (.reference name) q := by
  obtain ⟨own, unfolds, resolves⟩ := guarded.resolves_reference registered
  obtain rfl : own = q := Except.ok.inj ((resolves r rfl).symm.trans found)
  exact unfolds

theorem Simulation.checkStep (sim : Simulation Option Option) (guarded : Guarded types)
    (registered : Registered types p) (hr : r.types = types) (hs : s.types = types)
    (here : ∀ q, Relation.TransGen (Unfolds types) p q → sim.rel (f r q v) (g s q v))
    (parts : ∀ q u, Part p q → u.weight < v.weight →
      sim.rel (f r q u) (g s q u) ∧ sim.rel (f r.tolerant q u) (g s.tolerant q u)) :
    sim.rel (Pattern.checkStep f r p v) (Pattern.checkStep g s p v) := by
  cases p with
  | string | number | boolean => cases v <;> exact sim.rel_pure _
  | null =>
    simp only [Pattern.checkStep]
    split <;> exact sim.rel_pure _
  | url scheme => exact sim.rel_pure _
  | exact expected =>
    simp only [Pattern.checkStep]
    split <;> exact sim.rel_pure _
  | repeated inner =>
    cases v with
    | array items =>
      exact sim.everyItem fun u mem => (parts inner u .inner (Value.Part.weight_lt (.item mem))).1
    | _ => exact sim.rel_pure _
  | reference name =>
    obtain ⟨q, unfolds, resolves⟩ := guarded.resolves_reference registered
    simp only [Pattern.checkStep, resolves r hr, resolves s hs]
    exact here q unfolds
  | anyOf alternatives =>
    have related : sim.rel (Verdict.refusals (fun q => f r q v) alternatives)
        (Verdict.refusals (fun q => g s q v) alternatives) :=
      sim.refusals fun q mem => here q (.single (.anyOf mem))
    refine sim.rel_bind related fun failures => ?_
    cases failures with
    | none => exact sim.rel_pure _
    | some failures =>
      cases only : onlyRefusal? alternatives failures <;> simpa only [only] using sim.rel_pure _
  | object fields traits =>
    exact sim.matchObject fun field mem u lighter => (parts field.2 u (.field mem) lighter).2
  | array elements knownAs =>
    exact sim.matchArray fun q u part lighter => (parts q u part lighter).2

end Levels

namespace Pattern

section Unions

variable {f : Resolver → Pattern → Value → Option Verdict} {r : Resolver} {v : Value}
  {alternatives : List Pattern} {q : Pattern}

theorem exists_of_checkStep_anyOf (h : checkStep f r (.anyOf alternatives) v = some .success) :
    ∃ q ∈ alternatives, f r q v = some .success := by
  obtain ⟨failures, run, rest⟩ := Option.bind_eq_some_iff.mp h
  cases failures with
  | none => exact Verdict.exists_success_of_refusals run
  | some failures =>
    cases only : onlyRefusal? alternatives failures <;>
      simp [only, Verdict.mismatch, Verdict.fail] at rest

theorem checkStep_anyOf_of_mem (mem : q ∈ alternatives) (ok : f r q v = some .success)
    (ends : ∀ o ∈ alternatives, (f r o v).isSome) :
    checkStep f r (.anyOf alternatives) v = some .success := by
  simp [checkStep, Verdict.refusals_eq_none_of_mem (f := fun o => f r o v) mem ok ends]

end Unions

variable {types : Entries Pattern} {r s : Resolver} {p : Pattern} {v : Value} {n m k : Nat}

theorem checkWithin_mono (guarded : Guarded types) (registered : Registered types p)
    (hr : r.types = types) (h : n ≤ m) : Refines (checkWithin n r p v) (checkWithin m r p v) := by
  induction n generalizing m r p v with
  | zero => exact Refines.none _
  | succ n ih =>
    obtain ⟨m, rfl⟩ : ∃ k, m = k + 1 := ⟨m - 1, by omega⟩
    refine Refines.simulation.checkStep guarded registered hr hr (fun q unfolds => ?_)
      fun q u part _ => ?_
    · exact ih (registered.of_reaches (.of_unfoldings unfolds.to_reflTransGen)) hr (by omega)
    · have below := registered.of_reaches part.reaches
      exact ⟨ih below hr (by omega), ih below hr (by omega)⟩

theorem checkWithin_congr (guarded : Guarded types) (registered : Registered types p)
    (hr : r.types = types) (hs : s.types = types) :
    Refines (checkWithin n r p v) (checkWithin n s p v) := by
  induction n generalizing r s p v with
  | zero => exact Refines.none _
  | succ n ih =>
    refine Refines.simulation.checkStep guarded registered hr hs (fun q unfolds => ?_)
      fun q u part _ => ?_
    · exact ih (registered.of_reaches (.of_unfoldings unfolds.to_reflTransGen)) hr hs
    · have below := registered.of_reaches part.reaches
      exact ⟨ih below hr hs, ih below hr hs⟩

theorem checkWithin_isSome (guarded : Guarded types)
    (chains : ∀ q, Reaches types p q → settlesWithin types m q) (registered : Registered types p)
    (hr : r.types = types) (settles : settlesWithin types k p) (h : m * v.weight + k ≤ n) :
    (checkWithin n r p v).isSome := by
  -- A chain of names and alternatives has at most `m` members, and between two chains the value
  -- gets lighter.
  induction n generalizing k r p v with
  | zero =>
    obtain rfl : k = 0 := by omega
    cases settles
  | succ n ih =>
    obtain ⟨k, rfl⟩ : ∃ j, k = j + 1 := by
      cases k with
      | zero => cases settles
      | succ k => exact ⟨k, rfl⟩
    refine endings.checkStep (g := checkWithin n) guarded registered hr hr (fun q unfolds => ?_)
      fun q u part lighter => ?_
    · have reach : Reaches types p q := .of_unfoldings unfolds.to_reflTransGen
      exact ih (fun o more => chains o (reach.trans more)) (registered.of_reaches reach) hr
        (settlesWithin_of_unfoldings settles unfolds) (by omega)
    · have reach : Reaches types p q := part.reaches
      have room : m * u.weight + m ≤ n := by
        have := Nat.mul_le_mul_left m (Nat.succ_le_of_lt lighter)
        rw [Nat.mul_succ] at this
        omega
      have shorter := fun o more => chains o (reach.trans more)
      have below := registered.of_reaches reach
      exact ⟨ih shorter below hr (chains q reach) room, ih shorter below hr (chains q reach) room⟩

theorem checkBound_spec : (p.size + 2 * r.size) * v.weight + (p.size + r.size) ≤ checkBound r p v := by
  have := Nat.mul_le_mul (show p.size + 2 * r.size ≤ 2 * (p.size + r.size + 2) by omega)
    v.weight_le_depth
  rw [checkBound, Nat.mul_add _ _ 2]
  omega

theorem check_isSome (guarded : Guarded r.types) (registered : Registered r.types p) (v : Value) :
    (check r p v).isSome := by
  refine checkWithin_isSome guarded (fun q reach => ?_) registered rfl (guarded.settles p)
    (checkBound_spec (r := r))
  have := reach.size_le
  have := Pattern.size_pos q
  exact settlesWithin_mono (guarded.settles q) (by rw [Resolver.size]; omega)

theorem check_eq_checkWithin (guarded : Guarded r.types) (registered : Registered r.types p)
    (h : checkBound r p v ≤ n) : check r p v = checkWithin n r p v := by
  obtain ⟨verdict, done⟩ := Option.isSome_iff_exists.mp (check_isSome guarded registered v)
  rw [done]
  exact (checkWithin_mono guarded registered rfl h verdict done).symm

theorem check_congr (guarded : Guarded types) (registered : Registered types p)
    (hr : r.types = types) (hs : s.types = types) : check r p v = check s p v := by
  have bounds : checkBound r p v = checkBound s p v := by
    simp only [checkBound, Resolver.size, hr, hs]
  rw [check, check, bounds]
  exact Refines.antisymm (checkWithin_congr guarded registered hr hs)
    (checkWithin_congr guarded registered hs hr)

theorem checkBound_le_of_reaches {q : Pattern} {u : Value} (reach : Reaches r.types p q)
    (h : u.depth ≤ v.depth) :
    checkBound r q u ≤ 2 * (p.size + r.size + r.size + 2) * (v.depth + 2) := by
  have := reach.size_le
  refine Nat.mul_le_mul ?_ (by omega)
  simp only [Resolver.size] at this ⊢
  omega

theorem check_eq_checkStep (guarded : Guarded r.types) (registered : Registered r.types p) :
    check r p v = checkStep check r p v := by
  have deep := Nat.le_succ_of_le (checkBound_le_of_reaches (@Reaches.refl r.types p)
    (Nat.le_refl v.depth))
  rw [check_eq_checkWithin guarded registered deep]
  refine (agreement.checkStep guarded registered rfl rfl (fun q unfolds => ?_)
    fun q u part lighter => ?_).symm
  · have reach : Reaches r.types p q := .of_unfoldings unfolds.to_reflTransGen
    exact check_eq_checkWithin guarded (registered.of_reaches reach)
      (checkBound_le_of_reaches reach (Nat.le_refl _))
  · have reach : Reaches r.types p q := part.reaches
    have smaller : u.depth ≤ v.depth := by
      have := u.depth_le_weight
      have := v.weight_le_depth
      omega
    have below := registered.of_reaches reach
    exact ⟨check_eq_checkWithin guarded below (checkBound_le_of_reaches reach smaller),
      check_eq_checkWithin (r := r.tolerant) guarded below (checkBound_le_of_reaches reach smaller)⟩

theorem check_resolved {q : Pattern} (guarded : Guarded r.types)
    (registered : Registered r.types p) (found : r.resolve p = .ok q) :
    check r p v = check r q v := by
  cases p with
  | reference name =>
    rw [check_eq_checkStep guarded registered]
    simp only [checkStep, found]
  | _ =>
    cases found
    rfl

end Pattern

def Accepts (r : Resolver) (p : Pattern) (v : Value) : Prop :=
  Pattern.check r p v = some .success

section Accepting

variable {r : Resolver} {p q : Pattern} {v : Value}

theorem accepts_congr {types : Entries Pattern} {s : Resolver} (guarded : Guarded types)
    (registered : Registered types p) (hr : r.types = types) (hs : s.types = types) :
    Accepts r p v ↔ Accepts s p v := by
  rw [Accepts, Pattern.check_congr guarded registered hr hs, Accepts]

theorem Pattern.check_level (r : Resolver) (p : Pattern) (v : Value) :
    ∃ n, check r p v = checkStep (checkWithin n) r p v := by
  obtain ⟨n, deep⟩ : ∃ n, checkBound r p v = n + 1 :=
    ⟨checkBound r p v - 1, by have : 0 < checkBound r p v := by simp [checkBound]
                              omega⟩
  exact ⟨n, by rw [check, deep, checkWithin]⟩

theorem accepts_string : Accepts r .string v ↔ ∃ s, v = .string s := by
  obtain ⟨n, level⟩ := Pattern.check_level r .string v
  rw [Accepts, level]
  cases v <;> simp [Pattern.checkStep, Verdict.mismatch, Verdict.fail]

theorem accepts_number : Accepts r .number v ↔ ∃ n, v = .number n := by
  obtain ⟨n, level⟩ := Pattern.check_level r .number v
  rw [Accepts, level]
  cases v <;> simp [Pattern.checkStep, Verdict.mismatch, Verdict.fail]

theorem accepts_boolean : Accepts r .boolean v ↔ ∃ b, v = .boolean b := by
  obtain ⟨n, level⟩ := Pattern.check_level r .boolean v
  rw [Accepts, level]
  cases v <;> simp [Pattern.checkStep, Verdict.mismatch, Verdict.fail]

theorem accepts_null : Accepts r .null v ↔ v = .null ∨ v = .string "" := by
  obtain ⟨n, level⟩ := Pattern.check_level r .null v
  rw [Accepts, level]
  cases v <;>
    simp [Pattern.checkStep, Value.isNull, Value.isEmptyString, Verdict.mismatch, Verdict.fail]

theorem accepts_url {scheme : UrlScheme} :
    Accepts r (.url scheme) v ↔ ∃ s, v = .string s ∧ scheme.accepts s := by
  obtain ⟨n, level⟩ := Pattern.check_level r (.url scheme) v
  rw [Accepts, level]
  cases v <;> simp [Pattern.checkStep, matchUrl, Verdict.mismatch, Verdict.fail]

theorem accepts_exact {expected : Value} : Accepts r (.exact expected) v ↔ expected.same v := by
  obtain ⟨n, level⟩ := Pattern.check_level r (.exact expected) v
  rw [Accepts, level]
  by_cases same : expected.same v <;>
    simp [Pattern.checkStep, same, Verdict.mismatch, Verdict.fail]

theorem members?_part {p q : Pattern} {members : Members} {i : Nat}
    (h : members? p = some members) (place : members.at? i = some q) : Part p q := by
  cases p with
  | array elements knownAs =>
    cases h
    exact Members.at?_part place
  | repeated inner =>
    cases h
    simp only [Members.at?, List.getElem?_nil, Option.none_or, Option.some.injEq] at place
    subst place
    exact .inner
  | _ => cases h

theorem FitsObject.imp {f g : Pattern → Value → Prop} {fields : List (String × Pattern)}
    {unexpected : UnexpectedKeys} {actual : List (String × Value)}
    (fits : FitsObject f fields unexpected actual)
    (h : ∀ field ∈ fields, ∀ u, u.weight < (Value.object actual).weight → f field.2 u → g field.2 u) :
    FitsObject g fields unexpected actual where
  required field mem := (fits.required field mem).imp_right
    (h field (mem_of_requiredFields mem).1 .null (Value.weight_object_pos actual))
  declared := fits.declared
  members field mem u found := (fits.members field mem u found).imp_right
    (h field mem u (Value.Part.weight_lt (.member (Entries.mem_of_get? found))))

theorem FitsMembers.imp {f g : Pattern → Value → Prop} {members : Members} {items : List Value}
    (fits : FitsMembers f members items)
    (h : ∀ p i, members.at? i = some p → ∀ u ∈ items, f p u → g p u) :
    FitsMembers g members items where
  length := fits.length
  items i u found := by
    obtain ⟨p, place, ok⟩ := fits.items i u found
    exact ⟨p, place, h p i place u (List.mem_of_getElem? found) ok⟩

variable (guarded : Guarded r.types)
include guarded

theorem accepts_reference {name : String} (registered : Registered r.types (.reference name))
    (named : registered? r.types name = some p) : Accepts r (.reference name) v ↔ Accepts r p v := by
  have below := registered.of_reaches (Unfolds.reaches (.reference named))
  obtain ⟨q, -, -, resolves⟩ := guarded.resolves p below
  have found : r.resolve (.reference name) = .ok q := by
    rw [guarded.resolve_reference (Resolver.get_of_registered named)]
    exact resolves r rfl
  rw [Accepts, Pattern.check_resolved guarded registered found, Accepts,
    Pattern.check_resolved guarded below (resolves r rfl)]

theorem accepts_anyOf {alternatives : List Pattern}
    (registered : Registered r.types (.anyOf alternatives)) :
    Accepts r (.anyOf alternatives) v ↔ ∃ q ∈ alternatives, Accepts r q v := by
  rw [Accepts, Pattern.check_eq_checkStep guarded registered]
  refine ⟨Pattern.exists_of_checkStep_anyOf, fun ⟨q, mem, accepts⟩ => ?_⟩
  refine Pattern.checkStep_anyOf_of_mem mem accepts fun o other => ?_
  exact Pattern.check_isSome guarded (registered.of_reaches (Unfolds.reaches (.anyOf other))) v

theorem accepts_object {fields : List (String × Pattern)} {traits : ObjectTraits}
    (registered : Registered r.types (.object fields traits)) :
    Accepts r (.object fields traits) v ↔
      ∃ actual, v = .object actual ∧ FitsObject (Accepts r) fields traits.unexpected actual := by
  have below {field : String × Pattern} (mem : field ∈ fields) (u : Value) :
      Accepts r.tolerant field.2 u ↔ Accepts r field.2 u :=
    accepts_congr guarded (registered.of_reaches (Part.reaches (.field mem))) rfl rfl
  rw [Accepts, Pattern.check_eq_checkStep guarded registered]
  refine matchObject_eq_success.trans (exists_congr fun actual => and_congr_right fun _ => ?_)
  exact ⟨fun fits => fits.imp fun field mem u _ => (below mem u).mp,
    fun fits => fits.imp fun field mem u _ => (below mem u).mpr⟩

theorem accepts_sequence {members : Members} (registered : Registered r.types p)
    (h : members? p = some members) :
    Accepts r p v ↔ ∃ items, v = .array items ∧
      (isUnconstrained p ∨ FitsMembers (Accepts r) members items) := by
  rw [Accepts, Pattern.check_eq_checkStep guarded registered]
  cases p with
  | array elements knownAs =>
    cases h
    have below {q : Pattern} {i : Nat} (place : (Members.ofElements elements).at? i = some q)
        (u : Value) : Accepts r.tolerant q u ↔ Accepts r q u :=
      accepts_congr guarded (registered.of_reaches (Part.reaches (Members.at?_part place))) rfl rfl
    refine matchArray_eq_success.trans (exists_congr fun items => and_congr_right fun _ =>
      or_congr (by simp [isUnconstrained]) ?_)
    exact ⟨fun fits => fits.imp fun q i place u _ => (below place u).mp,
      fun fits => fits.imp fun q i place u _ => (below place u).mpr⟩
  | repeated inner =>
    cases h
    cases v with
    | array items =>
      simp [Pattern.checkStep, everyItem_eq_success, isUnconstrained, fitsMembers_iff, Accepts]
    | _ => simp [Pattern.checkStep, Verdict.mismatch, Verdict.fail]
  | _ => cases h

end Accepting

end ApiContract
