import ApiContract.Proofs.Checks
import ApiContract.Proofs.References

set_option autoImplicit false

namespace ApiContract

inductive Value.Part : Value → Value → Prop
  | member {members : List (String × Value)} {key : String} {u : Value}
      (mem : (key, u) ∈ members) : Value.Part (.object members) u
  | item {items : List Value} {u : Value} (mem : u ∈ items) : Value.Part (.array items) u

namespace Value

def weight : Value → Nat
  | .null => 0
  | value => value.depth

theorem depth_le_depthItems {items : List Value} {u : Value} (h : u ∈ items) :
    u.depth ≤ depthItems items := by
  induction items with
  | nil => cases h
  | cons item rest ih =>
    simp only [depthItems]
    rcases List.mem_cons.mp h with rfl | h
    · exact Nat.le_max_left _ _
    · exact Nat.le_trans (ih h) (Nat.le_max_right _ _)

theorem depth_le_depthMembers {members : List (String × Value)} {key : String} {u : Value}
    (h : (key, u) ∈ members) : u.depth ≤ depthMembers members := by
  induction members with
  | nil => cases h
  | cons member rest ih =>
    obtain ⟨other, value⟩ := member
    simp only [depthMembers]
    rcases List.mem_cons.mp h with h | h
    · cases h
      exact Nat.le_max_left _ _
    · exact Nat.le_trans (ih h) (Nat.le_max_right _ _)

theorem depth_pos (v : Value) : 0 < v.depth := by
  cases v <;> simp [depth]

theorem Part.depth_lt {v u : Value} (h : Part v u) : u.depth < v.depth := by
  cases h with
  | member mem =>
    have := depth_le_depthMembers mem
    simp only [depth]
    omega
  | item mem =>
    have := depth_le_depthItems mem
    simp only [depth]
    omega

theorem weight_le_depth (v : Value) : v.weight ≤ v.depth := by
  cases v <;> simp [weight]

theorem depth_le_weight (v : Value) : v.depth ≤ v.weight + 1 := by
  cases v <;> simp [weight, depth]

theorem weight_pos {v : Value} (h : v.isNull = false) : 0 < v.weight := by
  cases v with
  | null => cases h
  | _ => exact depth_pos _

theorem Part.weight_lt {v u : Value} (h : Part v u) : u.weight < v.weight := by
  have lower := h.depth_lt
  have := u.weight_le_depth
  have : v.weight = v.depth := by cases h <;> rfl
  omega

theorem weight_object_pos (members : List (String × Value)) : 0 < (object members).weight :=
  weight_pos rfl

end Value

section Combined

variable {f : Pattern → Value → Option Verdict} {fields : List (String × Pattern)}
  {traits : ObjectTraits} {elements : List Pattern} {actual : List (String × Value)}
  {items : List Value} {v : Value}

theorem mem_of_requiredFields {field : String × Pattern} (h : field ∈ requiredFields fields) :
    field ∈ fields ∧ isOptional field.1 = false := by
  simpa [requiredFields] using h

theorem everyItem_eq_success {check : Value → Option Verdict} {start : Nat} :
    everyItem check start items = some .success ↔ ∀ u ∈ items, check u = some .success := by
  rw [everyItem, Verdict.every_eq_success]
  constructor
  · intro h u hu
    obtain ⟨i, hi⟩ := List.mem_iff_getElem?.mp hu
    refine Verdict.map_under_eq_success.mp (h (u, start + i) ?_)
    exact List.mk_add_mem_zipIdx_iff_getElem?.mpr hi
  · intro h pair hpair
    exact Verdict.map_under_eq_success.mpr (h _ (List.fst_mem_of_mem_zipIdx hpair))

theorem missingKeys_eq_success {acceptsNull : Pattern → Option Verdict} :
    missingKeys acceptsNull fields actual = some .success ↔ ∀ field ∈ requiredFields fields,
      Entries.contains actual field.1 ∨ acceptsNull field.2 = some .success := by
  rw [missingKeys, Verdict.every_eq_success]
  refine forall₂_congr fun field _ => ?_
  by_cases there : Entries.contains actual field.1
  · simp [there]
  · rcases acceptsNull field.2 with _ | (_ | failure) <;> simp [there, Verdict.fail, Verdict.under]

theorem declaredMembers_eq_success :
    declaredMembers f fields actual = some .success ↔ ∀ field ∈ fields, ∀ u,
      Entries.get? actual (bareName field.1) = some u →
        (isOptional field.1 ∧ u.isNull) ∨ f field.2 u = some .success := by
  rw [declaredMembers, Verdict.every_eq_success]
  refine forall₂_congr fun field _ => ?_
  cases found : Entries.get? actual (bareName field.1) with
  | none => simp
  | some u =>
    by_cases absent : isOptional field.1 ∧ u.isNull
    · simp [absent]
    · have checked : (isOptional field.1 && u.isNull) = false := by
        rw [← Bool.not_eq_true, Bool.and_eq_true]
        exact absent
      cases outcome : f field.2 u with
      | none => simp [checked, absent, outcome]
      | some verdict => simp [checked, absent, outcome, Verdict.under_eq_success]

structure FitsObject (accepts : Pattern → Value → Prop) (fields : List (String × Pattern))
    (unexpected : UnexpectedKeys) (actual : List (String × Value)) : Prop where
  required : ∀ field ∈ requiredFields fields,
    Entries.contains actual field.1 ∨ accepts field.2 .null
  declared : unexpected = .reject → ∀ key ∈ Entries.keys actual, (field? fields key).isSome
  members : ∀ field ∈ fields, ∀ u, Entries.get? actual (bareName field.1) = some u →
    (isOptional field.1 ∧ u.isNull) ∨ accepts field.2 u

theorem matchObject_eq_success :
    matchObject f fields traits v = some .success ↔ ∃ actual, v = .object actual ∧
      FitsObject (fun p u => f p u = some .success) fields traits.unexpected actual := by
  cases v with
  | object actual =>
    have known : unexpectedKey? fields actual = none ↔
        ∀ key ∈ Entries.keys actual, (field? fields key).isSome := by
      simp [unexpectedKey?, Option.isSome_iff_ne_none]
    rw [matchObject, Verdict.thenCheck_eq_success, missingKeys_eq_success]
    constructor
    · rintro ⟨required, rest⟩
      refine ⟨actual, rfl, required, ?_, ?_⟩
      · intro reject
        cases extra : unexpectedKey? fields actual with
        | none => exact known.mp extra
        | some key => simp [reject, extra, Verdict.fail, Verdict.under] at rest
      · split at rest
        · simp [Verdict.fail, Verdict.under] at rest
        · exact declaredMembers_eq_success.mp rest
    · rintro ⟨_, same, fits⟩
      cases same
      refine ⟨fits.required, ?_⟩
      split
      · next key reject extra =>
        rw [known.mpr (fits.declared reject)] at extra
        cases extra
      · exact declaredMembers_eq_success.mpr fits.members
  | _ => simp [matchObject, Verdict.mismatch, Verdict.fail]

theorem matchFixed_eq_success {members : Members} {length i : Nat} {patterns : List Pattern} :
    matchFixed f members length i patterns items = some .success ↔
      patterns.length ≤ items.length ∧
        ∀ pair ∈ patterns.zip items, f pair.1 pair.2 = some .success := by
  induction patterns generalizing i items with
  | nil => simp [matchFixed]
  | cons p patterns ih =>
    cases items with
    | nil => simp [matchFixed, lengthMismatch, Verdict.fail]
    | cons u items =>
      simp only [matchFixed, Verdict.thenCheck_eq_success, Verdict.map_under_eq_success, ih,
        List.length_cons, Nat.add_le_add_iff_right, List.zip_cons_cons, List.forall_mem_cons]
      exact and_left_comm

theorem Members.mem_of_fixed {p : Pattern} (h : p ∈ (Members.ofElements elements).fixed) :
    p ∈ elements := by
  unfold Members.ofElements at h
  split at h
  · exact List.dropLast_subset _ h
  · exact h

theorem Members.part_of_fixed {knownAs : Option String} {p : Pattern}
    (h : p ∈ (Members.ofElements elements).fixed) : Part (.array elements knownAs) p :=
  .element (mem_of_fixed h)

theorem Members.part_of_tail {knownAs : Option String} {p : Pattern}
    (h : (Members.ofElements elements).tail = some p) : Part (.array elements knownAs) p := by
  unfold Members.ofElements at h
  split at h
  · next last =>
    cases h
    exact .tail (List.mem_of_getLast? last)
  · cases h

theorem Members.at?_part {knownAs : Option String} {p : Pattern} {i : Nat}
    (h : (Members.ofElements elements).at? i = some p) : Part (.array elements knownAs) p := by
  rcases Option.or_eq_some_iff.mp h with fixed | ⟨-, tail⟩
  · exact part_of_fixed (List.mem_of_getElem? fixed)
  · exact part_of_tail tail

structure FitsMembers (accepts : Pattern → Value → Prop) (members : Members)
    (items : List Value) : Prop where
  length : members.fixed.length ≤ items.length
  items : ∀ i u, items[i]? = some u → ∃ p, members.at? i = some p ∧ accepts p u

theorem fitsMembers_iff {accepts : Pattern → Value → Prop} {members : Members} :
    FitsMembers accepts members items ↔ members.fixed.length ≤ items.length ∧
      (∀ pair ∈ members.fixed.zip items, accepts pair.1 pair.2) ∧
      ∀ u ∈ items.drop members.fixed.length, ∃ p, members.tail = some p ∧ accepts p u := by
  constructor
  · rintro ⟨length, fits⟩
    refine ⟨length, fun pair mem => ?_, fun u mem => ?_⟩
    · obtain ⟨i, hi⟩ := List.mem_iff_getElem?.mp mem
      obtain ⟨hp, hu⟩ := List.getElem?_zip_eq_some.mp hi
      obtain ⟨p, at_, ok⟩ := fits i pair.2 hu
      simp only [Members.at?, hp, Option.some_or, Option.some.injEq] at at_
      rwa [at_]
    · obtain ⟨i, hi⟩ := List.mem_iff_getElem?.mp mem
      rw [List.getElem?_drop] at hi
      obtain ⟨p, at_, ok⟩ := fits _ u hi
      simp only [Members.at?, List.getElem?_eq_none (Nat.le_add_right _ i), Option.none_or] at at_
      exact ⟨p, at_, ok⟩
  · rintro ⟨length, fixed, tail⟩
    refine ⟨length, fun i u hu => ?_⟩
    by_cases short : i < members.fixed.length
    · refine ⟨members.fixed[i], by simp [Members.at?, short], ?_⟩
      refine fixed (members.fixed[i], u) (List.mem_of_getElem? (i := i) ?_)
      exact List.getElem?_zip_eq_some.mpr ⟨List.getElem?_eq_getElem short, hu⟩
    · have mem : u ∈ items.drop members.fixed.length := by
        refine List.mem_of_getElem? (i := i - members.fixed.length) ?_
        rwa [List.getElem?_drop, Nat.add_sub_cancel' (by omega)]
      obtain ⟨p, htail, ok⟩ := tail u mem
      exact ⟨p, by simp [Members.at?, List.getElem?_eq_none (Nat.le_of_not_lt short), htail], ok⟩

theorem matchArray_eq_success :
    matchArray f elements v = some .success ↔ ∃ items, v = .array items ∧ (elements = [] ∨
      FitsMembers (fun p u => f p u = some .success) (Members.ofElements elements) items) := by
  cases v with
  | array items =>
    by_cases empty : elements = []
    · simp [matchArray, empty]
    · have full : elements.isEmpty = false := by simpa using empty
      simp only [matchArray, full, Bool.false_eq_true, if_false, Verdict.thenCheck_eq_success, matchFixed_eq_success,
        fitsMembers_iff, empty, false_or]
      constructor
      · rintro ⟨⟨length, fixed⟩, rest⟩
        refine ⟨items, rfl, length, fixed, ?_⟩
        cases tail : (Members.ofElements elements).tail with
        | some p =>
          simp only [tail, everyItem_eq_success] at rest
          simpa using rest
        | none =>
          have exact_ : items.length ≤ (Members.ofElements elements).fixed.length := by
            refine Nat.le_of_not_lt fun more => ?_
            simp [tail, more, lengthMismatch, Verdict.fail] at rest
          simp [List.drop_eq_nil_of_le exact_]
      · rintro ⟨_, same, length, fixed, rest⟩
        cases same
        refine ⟨⟨length, fixed⟩, ?_⟩
        cases tail : (Members.ofElements elements).tail with
        | some p => simpa [everyItem_eq_success, tail] using rest
        | none =>
          have exact_ : ¬ (Members.ofElements elements).fixed.length < items.length := by
            intro more
            obtain ⟨p, hp, -⟩ := rest _ (List.getElem_mem (l := items.drop _) (n := 0)
              (by simpa [Nat.sub_pos_iff_lt] using more))
            rw [tail] at hp
            cases hp
          simp [exact_]
  | _ => simp [matchArray, Verdict.mismatch, Verdict.fail]

end Combined

namespace Simulation

variable {m n : Type → Type} [Monad m] [Monad n] (sim : Simulation m n) {f : Pattern → Value → m Verdict} {g : Pattern → Value → n Verdict}
  {fields : List (String × Pattern)} {actual : List (String × Value)} {items : List Value}
  {v : Value}

theorem everyItem [LawfulMonad m] [LawfulMonad n] {check : Value → m Verdict} {other : Value → n Verdict} {start : Nat}
    (h : ∀ u ∈ items, sim.rel (check u) (other u)) :
    sim.rel (everyItem check start items) (everyItem other start items) :=
  sim.every fun _ mem => sim.rel_map _ (h _ (List.fst_mem_of_mem_zipIdx mem))

theorem missingKeys {check : Pattern → m Verdict} {other : Pattern → n Verdict}
    (h : ∀ field ∈ fields, sim.rel (check field.2) (other field.2)) :
    sim.rel (missingKeys check fields actual) (missingKeys other fields actual) := by
  refine sim.every fun field mem => ?_
  by_cases there : Entries.contains actual field.1
  · simpa only [there, if_true] using sim.rel_pure _
  · simp only [there]
    refine sim.rel_bind (h field (mem_of_requiredFields mem).1) fun verdict => ?_
    cases verdict <;> exact sim.rel_pure _

theorem declaredMembers
    (h : ∀ field ∈ fields, ∀ u, u.weight < (Value.object actual).weight →
      sim.rel (f field.2 u) (g field.2 u)) :
    sim.rel (declaredMembers f fields actual) (declaredMembers g fields actual) := by
  refine sim.every fun field mem => ?_
  cases found : Entries.get? actual (bareName field.1) with
  | none => exact sim.rel_pure _
  | some u =>
    by_cases absent : isOptional field.1 && u.isNull
    · simpa only [absent, if_true] using sim.rel_pure _
    · simp only [absent]
      have part : Value.Part (.object actual) u := .member (Entries.mem_of_get? found)
      exact sim.rel_bind (h field mem u part.weight_lt) fun _ => sim.rel_pure _

theorem matchObject {traits : ObjectTraits}
    (h : ∀ field ∈ fields, ∀ u, u.weight < v.weight → sim.rel (f field.2 u) (g field.2 u)) :
    sim.rel (matchObject f fields traits v) (matchObject g fields traits v) := by
  cases v with
  | object actual =>
    unfold ApiContract.matchObject
    refine sim.thenCheck (sim.missingKeys fun field mem =>
      h field mem .null (Value.weight_object_pos actual)) ?_
    split
    · exact sim.rel_pure _
    · exact sim.declaredMembers h
  | _ => exact sim.rel_pure _

theorem matchFixed [LawfulMonad m] [LawfulMonad n] {members : Members} {length i : Nat}
    {patterns : List Pattern} (h : ∀ p ∈ patterns, ∀ u ∈ items, sim.rel (f p u) (g p u)) :
    sim.rel (matchFixed f members length i patterns items)
      (matchFixed g members length i patterns items) := by
  induction patterns generalizing i items with
  | nil => exact sim.rel_pure _
  | cons p patterns ih =>
    cases items with
    | nil => exact sim.rel_pure _
    | cons u items =>
      exact sim.thenCheck
        (sim.rel_map _ (h p List.mem_cons_self u List.mem_cons_self))
        (ih fun q hq w hw => h q (List.mem_cons_of_mem p hq) w (List.mem_cons_of_mem u hw))

theorem matchArray [LawfulMonad m] [LawfulMonad n] {elements : List Pattern}
    {knownAs : Option String} (h : ∀ p u, Part (.array elements knownAs) p → u.weight < v.weight →
      sim.rel (f p u) (g p u)) :
    sim.rel (matchArray f elements v) (matchArray g elements v) := by
  cases v with
  | array items =>
    have lighter {u : Value} (mem : u ∈ items) : u.weight < (Value.array items).weight :=
      Value.Part.weight_lt (.item mem)
    unfold ApiContract.matchArray
    by_cases empty : elements.isEmpty
    · simpa only [empty, if_true] using sim.rel_pure _
    · simp only [empty, Bool.false_eq_true, if_false]
      refine sim.thenCheck (sim.matchFixed fun p hp u hu =>
        h p u (Members.part_of_fixed hp) (lighter hu)) ?_
      cases tail : (Members.ofElements elements).tail with
      | some p =>
        exact sim.everyItem fun u hu =>
          h p u (Members.part_of_tail tail) (lighter (List.mem_of_mem_drop hu))
      | none => exact sim.rel_pure _
  | _ => exact sim.rel_pure _

end Simulation

end ApiContract
