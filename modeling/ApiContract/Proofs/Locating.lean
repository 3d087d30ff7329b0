import ApiContract.Proofs.Bounds

set_option autoImplicit false

namespace ApiContract

section Ending

variable {r : Resolver}

theorem check_ends_within (guarded : Guarded r.types) (p : Pattern) (v : Value) :
    ∃ verdict, p.check r v = some verdict ∧
      ∀ n, (p.size + r.size + 1) * (v.weight + 1) ≤ n → p.checkWithin n r v = some verdict := by
  obtain ⟨verdict, ends⟩ := Option.isSome_iff_exists.mp (Pattern.check_ends guarded p v)
  refine ⟨verdict, ends, fun n enough => ?_⟩
  have levels : (met r.types p).length * (v.weight + 1) ≤ n := by
    rwa [length_met]
  rw [← ends, Pattern.check_of_met levels (met_self r.types p)]

def crew : Resolver :=
  { Resolver.empty with types := [
      ("Person", .object [("name", .string), ("boss?", .anyOf [.null, .reference "Lead"]),
        ("friends?", .array [.repeated (.reference "Person")] none), ("badge?", .reference "Badge")]
        ⟨.reject, .json, some "Person"⟩),
      ("Lead", .reference "Person")] }

def crewList : Pattern :=
  .array [.boolean, .repeated (.anyOf [.null, .reference "Person"])] none

def namelessBoss : Value :=
  .array [.boolean true, .null, .object [("name", .string "A"), ("friends", .array [
    .object [("name", .string "B"), ("boss", .object [])]])]]

theorem namelessBoss_ends : Guarded crew.types ∧
    ∃ verdict, crewList.check crew namelessBoss = some verdict ∧
      ∀ n, (crewList.size + crew.size + 1) * (namelessBoss.weight + 1) ≤ n →
        crewList.checkWithin n crew namelessBoss = some verdict := by
  have guarded : Guarded crew.types := Guarded.of_settles 3 (by decide +kernel)
  exact ⟨guarded, check_ends_within guarded crewList namelessBoss⟩

end Ending

theorem Breadcrumb.index_inj {i j : Nat} (h : index i = index j) : i = j := by
  simp only [index, String.append_right_inj, String.append_left_inj,
    Nat.toString_eq_ofList_toDigits, String.ofList_inj] at h
  rw [← @Nat.ofDigitChars_ten_toDigits i, h, Nat.ofDigitChars_ten_toDigits]

namespace Value

def child? : Value → String → Option Value
  | .object members, crumb => Entries.get? members crumb
  | .array items, crumb =>
      ((List.range items.length).find? fun i => Breadcrumb.index i = crumb).bind fun i => items[i]?
  | _, _ => none

def follow? : Value → List String → Option Value
  | v, [] => some v
  | v, crumb :: crumbs => (v.child? crumb).bind fun u => u.follow? crumbs

theorem child?_index {items : List Value} {i : Nat} {u : Value} (there : items[i]? = some u) :
    (Value.array items).child? (Breadcrumb.index i) = some u := by
  have inside : i < items.length := (List.getElem?_eq_some_iff.mp there).1
  rw [child?]
  cases first : (List.range items.length).find? fun j => Breadcrumb.index j = Breadcrumb.index i with
  | none => simpa using List.find?_eq_none.mp first i (List.mem_range.mpr inside)
  | some j =>
    have same := List.find?_some first
    rw [← Breadcrumb.index_inj (of_decide_eq_true same)] at there
    exact there

theorem follow?_append {v : Value} {before after : List String} :
    v.follow? (before ++ after) = (v.follow? before).bind fun u => u.follow? after := by
  induction before generalizing v with
  | nil => rfl
  | cons crumb before ih =>
    simp only [List.cons_append, follow?]
    cases v.child? crumb with
    | none => rfl
    | some u => exact ih

theorem follow?_concat {v w : Value} {trail : List String} {last : String}
    (h : v.follow? (trail ++ [last]) = some w) :
    ∃ u, v.follow? trail = some u ∧ u.child? last = some w := by
  rw [follow?_append] at h
  obtain ⟨u, found, rest⟩ := Option.bind_eq_some_iff.mp h
  exact ⟨u, found, by simpa [follow?] using rest⟩

end Value

/-- The check of a value against a pattern comes, at the place of the value that the crumbs name,
to a check of what stands there against another pattern. -/
inductive Trail : Resolver → Pattern → Value → List String → Pattern → Value → Prop
  | here {r : Resolver} {p : Pattern} {v : Value} : Trail r p v [] p v
  | behind {r : Resolver} {p q o : Pattern} {v w : Value} {crumbs : List String}
      (step : Behind r p q) (rest : Trail r q v crumbs o w) : Trail r p v crumbs o w
  | member {r : Resolver} {fields : List (String × Pattern)} {traits : ObjectTraits}
      {actual : List (String × Value)} {field : String × Pattern} {u w : Value} {o : Pattern}
      {crumbs : List String} (mem : field ∈ fields)
      (found : Entries.get? actual (bareName field.1) = some u)
      (rest : Trail r.tolerant field.2 u crumbs o w) :
      Trail r (.object fields traits) (.object actual) (bareName field.1 :: crumbs) o w
  | element {r : Resolver} {elements : List Pattern} {knownAs : Option String} {i : Nat}
      {items : List Value} {q o : Pattern} {u w : Value} {crumbs : List String}
      (place : (Members.ofElements elements).at? i = some q) (there : items[i]? = some u)
      (rest : Trail r.tolerant q u crumbs o w) :
      Trail r (.array elements knownAs) (.array items) (Breadcrumb.index i :: crumbs) o w
  | item {r : Resolver} {p o : Pattern} {i : Nat} {items : List Value} {u w : Value}
      {crumbs : List String} (there : items[i]? = some u) (rest : Trail r p u crumbs o w) :
      Trail r (.repeated p) (.array items) (Breadcrumb.index i :: crumbs) o w

theorem Trail.follows {r : Resolver} {p q : Pattern} {v u : Value} {crumbs : List String}
    (h : Trail r p v crumbs q u) : v.follow? crumbs = some u := by
  induction h with
  | here => rfl
  | behind _ _ ih => exact ih
  | member _ found _ ih => rw [Value.follow?, Value.child?, found]; exact ih
  | element _ there _ ih | item there _ ih => rw [Value.follow?, Value.child?_index there]; exact ih

inductive Fault : Pattern → Value → Failure → Prop
  | whole {p : Pattern} {v : Value} {message : String} : Fault p v (.ofMessage message)
  | missing {fields : List (String × Pattern)} {traits : ObjectTraits}
      {actual : List (String × Value)} {key : String}
      (required : Entries.contains (requiredFields fields) key)
      (absent : Entries.contains actual key = false) :
      Fault (.object fields traits) (.object actual)
        ((Failure.ofMessage ("Key " ++ key ++ " is missing")).under key)
  | unexpected {fields : List (String × Pattern)} {traits : ObjectTraits}
      {actual : List (String × Value)} {key : String} (closed : traits.unexpected = .reject)
      (undeclared : field? fields key = none) (there : Entries.contains actual key) :
      Fault (.object fields traits) (.object actual)
        ((Failure.ofMessage ("Key " ++ key ++ " was unexpected")).under key)

def Failure.underAll (crumbs : List String) (failure : Failure) : Failure :=
  { failure with crumbs := crumbs ++ failure.crumbs }

def Located (r : Resolver) (p : Pattern) (v : Value) (failure : Failure) : Prop :=
  ∃ trail q u fault, Trail r p v trail q u ∧ Fault q u fault ∧ failure = fault.underAll trail

section Locating

variable {r : Resolver} {p q : Pattern} {v : Value} {failure : Failure}

theorem Located.whole {message : String} : Located r p v (.ofMessage message) :=
  ⟨[], p, v, _, .here, .whole, rfl⟩

theorem Located.behind (step : Behind r p q) (h : Located r q v failure) : Located r p v failure := by
  obtain ⟨trail, o, u, fault, leads, here, rfl⟩ := h
  exact ⟨trail, o, u, fault, .behind step leads, here, rfl⟩

variable {fields : List (String × Pattern)} {traits : ObjectTraits}
  {actual : List (String × Value)} {elements : List Pattern} {knownAs : Option String}
  {items : List Value} {u : Value} {i : Nat}

theorem Located.member {field : String × Pattern} (mem : field ∈ fields)
    (found : Entries.get? actual (bareName field.1) = some u)
    (h : Located r.tolerant field.2 u failure) :
    Located r (.object fields traits) (.object actual) (failure.under (bareName field.1)) := by
  obtain ⟨trail, o, w, fault, leads, here, rfl⟩ := h
  exact ⟨_ :: trail, o, w, fault, .member mem found leads, here, rfl⟩

theorem Located.element (place : (Members.ofElements elements).at? i = some q)
    (there : items[i]? = some u) (h : Located r.tolerant q u failure) :
    Located r (.array elements knownAs) (.array items) (failure.under (Breadcrumb.index i)) := by
  obtain ⟨trail, o, w, fault, leads, here, rfl⟩ := h
  exact ⟨_ :: trail, o, w, fault, .element place there leads, here, rfl⟩

theorem Located.item (there : items[i]? = some u) (h : Located r p u failure) :
    Located r (.repeated p) (.array items) (failure.under (Breadcrumb.index i)) := by
  obtain ⟨trail, o, w, fault, leads, here, rfl⟩ := h
  exact ⟨_ :: trail, o, w, fault, .item there leads, here, rfl⟩

variable {g : Pattern → Value → Option Verdict}

theorem exists_of_everyItem {check : Value → Option Verdict} {start : Nat}
    (h : everyItem check start items = some (.failure failure)) :
    ∃ i u inner, items[i]? = some u ∧ check u = some (.failure inner) ∧
      failure = inner.under (Breadcrumb.index (start + i)) := by
  obtain ⟨⟨u, n⟩, mem, failed⟩ := Verdict.exists_failure_of_every h
  obtain ⟨inner, own, rfl⟩ := Verdict.map_under_eq_failure.mp failed
  obtain ⟨after, there⟩ := List.mk_mem_zipIdx_iff_le_and_getElem?_sub.mp mem
  exact ⟨n - start, u, inner, there, own, by rw [Nat.add_sub_cancel' after]⟩

theorem exists_of_matchFixed {members : Members} {length start : Nat} {patterns : List Pattern}
    (h : matchFixed g members length start patterns items = some (.failure failure)) :
    (∃ i q u inner, patterns[i]? = some q ∧ items[i]? = some u ∧ g q u = some (.failure inner) ∧
      failure = inner.under (Breadcrumb.index (start + i))) ∨
      ∃ message, failure = .ofMessage message := by
  induction patterns generalizing start items with
  | nil => cases h
  | cons q patterns ih =>
    cases items with
    | nil =>
      cases h
      exact .inr ⟨_, rfl⟩
    | cons u items =>
      rcases Verdict.thenCheck_eq_failure.mp h with first | ⟨-, later⟩
      · obtain ⟨inner, failed, rfl⟩ := Verdict.map_under_eq_failure.mp first
        exact .inl ⟨0, q, u, inner, rfl, rfl, failed, rfl⟩
      · refine (ih later).imp_left ?_
        rintro ⟨i, o, w, inner, place, there, failed, rfl⟩
        exact ⟨i + 1, o, w, inner, place, there, failed, by rw [Nat.add_right_comm, Nat.add_assoc]⟩

theorem located_of_missingKeys {acceptsNull : Pattern → Option Verdict}
    (h : missingKeys acceptsNull fields actual = some (.failure failure)) :
    Located r (.object fields traits) (.object actual) failure := by
  obtain ⟨⟨key, q⟩, mem, failed⟩ := Verdict.exists_failure_of_every h
  by_cases there : Entries.contains actual key
  · simp [there] at failed
  · -- The outcome for null only decides whether the key may be missing.
    rcases outcome : acceptsNull q with _ | (_ | inner) <;>
      simp [there, outcome, Verdict.fail, Verdict.under] at failed
    subst failed
    exact ⟨[], _, _, _, .here, .missing (Entries.contains_of_mem mem) (by simpa using there), rfl⟩

theorem located_of_matchObject
    (parts : ∀ q u inner, g q u = some (.failure inner) → Located r.tolerant q u inner)
    (h : matchObject g fields traits v = some (.failure failure)) :
    Located r (.object fields traits) v failure := by
  cases v with
  | object actual =>
    rw [matchObject, Verdict.thenCheck_eq_failure] at h
    rcases h with missing | ⟨-, h⟩
    · exact located_of_missingKeys missing
    · split at h
      · next key closed extra =>
        cases h
        have undeclared := List.find?_some extra
        obtain ⟨⟨_, u⟩, mem, rfl⟩ := List.mem_map.mp (List.mem_of_find?_eq_some extra)
        exact ⟨[], _, _, _, .here, .unexpected closed (by simpa using undeclared)
          (Entries.contains_of_mem mem), rfl⟩
      · obtain ⟨field, mem, failed⟩ := Verdict.exists_failure_of_every h
        cases found : Entries.get? actual (bareName field.1) with
        | none => simp [found] at failed
        | some u =>
          by_cases absent : (isOptional field.1 && u.isNull) = true
          · simp [found, absent] at failed
          · rcases outcome : g field.2 u with _ | (_ | inner) <;>
              simp only [found, absent, outcome, Verdict.under] at failed
            all_goals cases failed
            exact .member mem found (parts _ _ _ outcome)
  | _ =>
    cases h
    exact .whole

theorem located_of_matchArray
    (parts : ∀ q u inner, g q u = some (.failure inner) → Located r.tolerant q u inner)
    (h : matchArray g elements v = some (.failure failure)) :
    Located r (.array elements knownAs) v failure := by
  cases v with
  | array items =>
    by_cases empty : elements.isEmpty
    · simp [matchArray, empty] at h
    · simp only [matchArray, empty, Bool.false_eq_true, if_false] at h
      rcases Verdict.thenCheck_eq_failure.mp h with fixed | ⟨-, h⟩
      · rcases exists_of_matchFixed fixed with ⟨i, q, u, inner, place, there, failed, rfl⟩ | ⟨_, rfl⟩
        · rw [Nat.zero_add]
          exact .element (by simp [Members.at?, place]) there (parts _ _ _ failed)
        · exact .whole
      · cases tail : (Members.ofElements elements).tail with
        | some q =>
          simp only [tail] at h
          obtain ⟨i, u, inner, there, failed, rfl⟩ := exists_of_everyItem h
          rw [List.getElem?_drop] at there
          refine .element ?_ there (parts _ _ _ failed)
          simp [Members.at?, tail]
        | none =>
          simp only [tail] at h
          split at h
          · cases h
            exact .whole
          · cases h
  | _ =>
    cases h
    exact .whole

theorem exists_of_onlyRefusal? {alternatives : List Pattern} {failures : List Failure}
    (each : List.Forall₂ (fun q failure => g q v = some (.failure failure)) alternatives failures)
    (only : onlyRefusal? alternatives failures = some failure) :
    ∃ q ∈ alternatives, g q v = some (.failure failure) := by
  simp only [onlyRefusal?] at only
  split at only
  · next q _ alone =>
    cases only
    have mem : (q, failure) ∈ alternatives.zip failures :=
      List.mem_of_mem_filter (alone ▸ List.mem_singleton_self _)
    exact ⟨q, (List.of_mem_zip mem).1, (List.forall₂_iff_zip.mp each).2 mem⟩
  · cases only

theorem located_of_checkStep {check : Resolver → Pattern → Value → Option Verdict}
    (parts : ∀ r q u inner, check r q u = some (.failure inner) → Located r q u inner)
    (h : p.checkStep check r v = some (.failure failure)) : Located r p v failure := by
  cases p with
  | string | number | boolean =>
    cases v <;> cases h
    all_goals exact .whole
  | null =>
    simp only [Pattern.checkStep] at h
    split at h <;> cases h
    exact .whole
  | url scheme =>
    cases v with
    | string s =>
      simp only [Pattern.checkStep, matchUrl] at h
      split at h <;> cases h
      exact .whole
    | _ =>
      cases h
      exact .whole
  | exact expected =>
    simp only [Pattern.checkStep] at h
    split at h <;> cases h
    exact .whole
  | repeated inner =>
    cases v with
    | array items =>
      obtain ⟨i, u, inner, there, failed, rfl⟩ := exists_of_everyItem h
      rw [Nat.zero_add]
      exact .item there (parts _ _ _ _ failed)
    | _ =>
      cases h
      exact .whole
  | reference name =>
    simp only [Pattern.checkStep] at h
    split at h
    · next q found => exact .behind (.reference found) (parts _ _ _ _ h)
    · cases h
      exact .whole
  | anyOf alternatives =>
    obtain ⟨outcome, run, rest⟩ := Option.bind_eq_some_iff.mp h
    cases outcome with
    | none => cases rest
    | some failures =>
      dsimp only at rest
      split at rest
      · next only =>
        cases rest
        obtain ⟨q, mem, failed⟩ := exists_of_onlyRefusal? (Verdict.forall₂_of_refusals run) only
        exact .behind (.anyOf mem) (parts _ _ _ _ failed)
      · cases rest
        exact .whole
  | object fields traits => exact located_of_matchObject (parts r.tolerant) h
  | array elements knownAs => exact located_of_matchArray (parts r.tolerant) h

theorem located_of_check (h : p.check r v = some (.failure failure)) : Located r p v failure := by
  have level (n : Nat) : ∀ r p v failure, Pattern.checkWithin n r p v = some (.failure failure) →
      Located r p v failure := by
    induction n with
    | zero => exact fun _ _ _ _ h => nomatch h
    | succ n ih => exact fun _ _ _ _ h => located_of_checkStep ih h
  exact level _ r p v failure h

theorem onlyRefusal?_of_null {before after : List Pattern} {failures : List Failure}
    (null : ∀ o ∈ before ++ after, o.isNull) (core : q.isNull = false)
    (each : List.Forall₂ (fun q failure => g q v = some (.failure failure))
      (before ++ q :: after) failures) :
    ∃ failure, failures[before.length]? = some failure ∧ g q v = some (.failure failure) ∧
      onlyRefusal? (before ++ q :: after) failures = some failure := by
  induction before generalizing failures with
  | nil =>
    obtain _ | ⟨own, rest⟩ := each
    next failure failures =>
    have others : (after.zip failures).filter (fun pair => !pair.1.isNull) = [] :=
      List.filter_eq_nil_iff.mpr fun pair mem => by simp [null _ (List.of_mem_zip mem).1]
    exact ⟨failure, rfl, own, by simp [onlyRefusal?, core, others]⟩
  | cons o before ih =>
    obtain _ | ⟨-, rest⟩ := each
    obtain ⟨first, others⟩ := List.forall_mem_cons.mp null
    obtain ⟨failure, place, own, only⟩ := ih others rest
    refine ⟨failure, place, own, ?_⟩
    rw [← only]
    simp [onlyRefusal?, first]

theorem Located.leads {trail : List String} {last : String} (h : Located r p v failure)
    (crumbs : failure.crumbs = trail ++ [last]) : ∃ u, v.follow? trail = some u ∧
      ((u.child? last).isSome ∨ ∃ fields traits actual, u = .object actual ∧
        Trail r p v trail (.object fields traits) u ∧
        Entries.contains (requiredFields fields) last ∧ Entries.contains actual last = false) := by
  obtain ⟨before, q, u, fault, reached, here, rfl⟩ := h
  cases here with
  | whole =>
    -- The last crumb is one of those that lead to the place at fault.
    obtain rfl : before = trail ++ [last] := by
      simpa [Failure.underAll, Failure.ofMessage] using crumbs
    obtain ⟨w, place, there⟩ := Value.follow?_concat reached.follows
    exact ⟨w, place, .inl (Option.isSome_iff_exists.mpr ⟨u, there⟩)⟩
  | missing required absent =>
    obtain ⟨rfl, same⟩ := List.append_inj' crumbs rfl
    cases same
    exact ⟨_, reached.follows, .inr ⟨_, _, _, rfl, reached, required, absent⟩⟩
  | unexpected _ _ there =>
    obtain ⟨rfl, same⟩ := List.append_inj' crumbs rfl
    cases same
    exact ⟨_, reached.follows, .inl there⟩

def Refused (r : Resolver) (v : Value) (alternatives : List Pattern) (failures : List Failure) : Prop :=
  Verdict.refusals (fun q => Pattern.check r q v) alternatives = some (some failures)

instance {r : Resolver} {v : Value} {alternatives : List Pattern} {failures : List Failure} :
    Decidable (Refused r v alternatives failures) :=
  inferInstanceAs (Decidable (_ = _))

/-- The crumbs of a failure lead into the value, and the last of them to a member or an item that
is there or to the key of a required field that is missing. The failure of a single alternative
stands among the failures where it is picked, and a tail starts within the items. -/
theorem failure_leads_into_value (r : Resolver) (p : Pattern) (v : Value) :
    (∀ failure trail last, p.check r v = some (.failure failure) →
      failure.crumbs = trail ++ [last] → ∃ u, v.follow? trail = some u ∧
        ((u.child? last).isSome ∨ ∃ fields traits actual, u = .object actual ∧
          Trail r p v trail (.object fields traits) u ∧
          Entries.contains (requiredFields fields) last ∧
          Entries.contains actual last = false)) ∧
    (∀ before q after failures, (∀ o ∈ before ++ after, o.isNull) → q.isNull = false →
      Refused r v (before ++ q :: after) failures →
      ∃ failure, failures[before.length]? = some failure ∧
        q.check r v = some (.failure failure) ∧
        (Pattern.anyOf (before ++ q :: after)).check r v = some (.failure failure)) ∧
    (∀ elements items, matchFixed (Pattern.check r.tolerant) (Members.ofElements elements)
        items.length 0 (Members.ofElements elements).fixed items = some .success →
      (Members.ofElements elements).fixed.length ≤ items.length) := by
  refine ⟨fun failure trail last failed => (located_of_check failed).leads, ?_,
    fun elements items fits => (matchFixed_eq_success.mp fits).1⟩
  intro before q after failures null core run
  obtain ⟨failure, place, own, only⟩ :=
    onlyRefusal?_of_null null core (Verdict.forall₂_of_refusals run)
  have union : (Pattern.anyOf (before ++ q :: after)).check r v = some (.failure failure) := by
    rw [Pattern.check_eq_step, Pattern.checkStep, run]
    simp [only]
  exact ⟨failure, place, own, union⟩

theorem namelessBoss_led : ∃ failure failures,
    crewList.check crew namelessBoss = some (.failure failure) ∧
      failure.crumbs = ["[2]", "friends", "[0]", "boss"] ++ ["name"] ∧
      (∃ u, namelessBoss.follow? ["[2]", "friends", "[0]", "boss"] = some u ∧
        ((u.child? "name").isSome ∨ ∃ fields traits actual, u = .object actual ∧
          Trail crew crewList namelessBoss ["[2]", "friends", "[0]", "boss"]
            (.object fields traits) u ∧
          Entries.contains (requiredFields fields) "name" ∧
          Entries.contains actual "name" = false)) ∧
      Refused crew namelessBoss [.null, .reference "Person"] failures ∧
      (∃ failure, failures[1]? = some failure ∧
        (Pattern.reference "Person").check crew namelessBoss = some (.failure failure) ∧
        (Pattern.anyOf [.null, .reference "Person"]).check crew namelessBoss =
          some (.failure failure)) ∧
      matchFixed (Pattern.check crew.tolerant) ⟨[.boolean], some .number⟩ 3 0 [.boolean]
        [.boolean true, .null, .null] = some .success ∧ 1 ≤ 3 := by
  obtain ⟨leads, picks, starts⟩ := failure_leads_into_value crew crewList namelessBoss
  have failed : crewList.check crew namelessBoss =
      some (.failure ⟨["[2]", "friends", "[0]", "boss", "name"], "Key name is missing", none⟩) := by
    decide +kernel
  have run : Refused crew namelessBoss [.null, .reference "Person"]
      [.ofMessage ("Expected null, actual was " ++ namelessBoss.display),
        .ofMessage ("Expected json object, actual was " ++ namelessBoss.display)] := by
    decide +kernel
  have fits : matchFixed (Pattern.check crew.tolerant) ⟨[.boolean], some .number⟩ 3 0 [.boolean]
      [.boolean true, .null, .null] = some .success := by decide +kernel
  exact ⟨_, _, failed, rfl, leads _ _ _ failed rfl, run,
    picks [.null] (.reference "Person") [] _ (by decide) rfl run, fits,
    starts [.boolean, .repeated .number] [.boolean true, .null, .null] fits⟩

end Locating

end ApiContract
