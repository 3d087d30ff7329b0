import ApiContract.Proofs.Bounds
import ApiContract.Proofs.Tidy

set_option autoImplicit false

namespace ApiContract

section Members

variable {fields : List (String × Pattern)} {members : List (String × Value)} {key : String}

def isMarkedKey (fields : List (String × Pattern)) (key : String) : Bool :=
  isOptional key && Entries.contains fields key

def unmarkedMembers (fields : List (String × Pattern)) (members : List (String × Value)) :
    List (String × Value) :=
  members.filter fun member => !isMarkedKey fields member.1

theorem mem_keys_unmarked : key ∈ Entries.keys (unmarkedMembers fields members) ↔
    key ∈ Entries.keys members ∧ isMarkedKey fields key = false := by
  simp only [Entries.keys, unmarkedMembers, List.mem_map, List.mem_filter, Bool.not_eq_true']
  constructor
  · rintro ⟨member, ⟨mem, unmarked⟩, rfl⟩
    exact ⟨⟨member, mem, rfl⟩, unmarked⟩
  · rintro ⟨⟨member, mem, rfl⟩, unmarked⟩
    exact ⟨member, ⟨mem, unmarked⟩, rfl⟩

theorem get?_unmarked (unmarked : isOptional key = false) :
    Entries.get? (unmarkedMembers fields members) key = Entries.get? members key := by
  induction members with
  | nil => rfl
  | cons member rest ih =>
    obtain ⟨other, v⟩ := member
    rw [unmarkedMembers, List.filter_cons]
    split
    · rw [Entries.get?_cons, Entries.get?_cons]
      exact congrArg (if other = key then some v else ·) ih
    · next marked =>
      -- What is left out stands under a marked key, so the lookup would have passed it by.
      have different : other ≠ key := by
        rintro rfl
        simp [isMarkedKey, unmarked] at marked
      rw [Entries.get?_cons, if_neg different]
      exact ih

theorem mem_keys_of_contains (h : Entries.contains fields key) : ∃ field ∈ fields, field.1 = key := by
  obtain ⟨p, found⟩ := Option.isSome_iff_exists.mp h
  exact ⟨(key, p), Entries.mem_of_get? found, rfl⟩

theorem field?_isSome_iff : (field? fields key).isSome ↔
    isMarkedKey fields key ∨ ∃ field ∈ fields, bareName field.1 = key := by
  constructor
  · intro found
    rw [isSome_field?, Bool.or_eq_true] at found
    rcases found with own | own
    · cases optional : isOptional key with
      | true => exact .inl (by simp [isMarkedKey, optional, own])
      | false =>
        obtain ⟨field, mem, rfl⟩ := mem_keys_of_contains own
        exact .inr ⟨field, mem, bareName_of_required optional⟩
    · -- The second lookup asks for the key with a mark of its own.
      obtain ⟨field, mem, same⟩ := mem_keys_of_contains own
      refine .inr ⟨field, mem, ?_⟩
      rw [same]
      simp [bareName, isOptional, String.toList_append]
  · rintro (marked | ⟨field, mem, rfl⟩)
    · rw [isSome_field?, (Bool.and_eq_true_iff.mp marked).2, Bool.true_or]
    · exact field?_isSome_of_mem mem

theorem fitsObject_unmarked {accepts : Pattern → Value → Prop} (keys : BareKeys fields) :
    FitsObject accepts fields .reject members ↔
      FitsObject accepts fields .reject (unmarkedMembers fields members) ∧
        ∀ key ∈ Entries.keys (unmarkedMembers fields members),
          ∃ field ∈ fields, bareName field.1 = key := by
  -- Members are looked up by bare names alone, which none of the keys left out is.
  have lookup (field : String × Pattern) (mem : field ∈ fields) :
      Entries.get? (unmarkedMembers fields members) (bareName field.1) =
        Entries.get? members (bareName field.1) := get?_unmarked (keys.unmarked field mem)
  have there (field : String × Pattern) (mem : field ∈ requiredFields fields) :
      Entries.contains (unmarkedMembers fields members) field.1 =
        Entries.contains members field.1 :=
    congrArg Option.isSome (get?_unmarked (mem_of_requiredFields mem).2)
  constructor
  · intro fits
    have named (key : String) (mem : key ∈ Entries.keys (unmarkedMembers fields members)) :
        ∃ field ∈ fields, bareName field.1 = key := by
      obtain ⟨known, unmarked⟩ := mem_keys_unmarked.mp mem
      refine (field?_isSome_iff.mp (fits.declared rfl key known)).resolve_left ?_
      simp [unmarked]
    refine ⟨⟨fun field mem => ?_, fun _ key mem => ?_, fun field mem => ?_⟩, named⟩
    · rw [there field mem]
      exact fits.required field mem
    · exact fits.declared rfl key (mem_keys_unmarked.mp mem).1
    · rw [lookup field mem]
      exact fits.members field mem
  · rintro ⟨fits, named⟩
    refine ⟨fun field mem => ?_, fun _ key mem => ?_, fun field mem => ?_⟩
    · rw [← there field mem]
      exact fits.required field mem
    · refine field?_isSome_iff.mpr ?_
      cases marked : isMarkedKey fields key with
      | true => exact .inl rfl
      | false => exact .inr (named key (mem_keys_unmarked.mpr ⟨mem, marked⟩))
    · rw [← lookup field mem]
      exact fits.members field mem

end Members

section Closed

variable {r : Resolver} {fields : List (String × Pattern)} {traits : ObjectTraits}
  {members : List (String × Value)}

/-- A closed object takes a value exactly when it takes what stands there under unmarked keys, and
each of these keys is the bare name of a field. -/
theorem closed_object_takes_iff (closed : traits.unexpected = .reject) (keys : BareKeys fields) :
    (Pattern.object fields traits).check r (.object members) = some .success ↔
      (Pattern.object fields traits).check r (.object (unmarkedMembers fields members)) =
          some .success ∧
        ∀ key ∈ Entries.keys (unmarkedMembers fields members),
          ∃ field ∈ fields, bareName field.1 = key := by
  have level (actual : List (String × Value)) :
      (Pattern.object fields traits).check r (.object actual) = some .success ↔
        FitsObject (Accepts r.tolerant) fields .reject actual := by
    rw [← closed]
    refine accepts_fields.trans ⟨?_, fun fits => ⟨actual, rfl, fits⟩⟩
    rintro ⟨_, same, fits⟩
    cases same
    exact fits
  rw [level, level]
  exact fitsObject_unmarked keys

def customerFields : List (String × Pattern) :=
  [("name", .string), ("address?", .object [("city", .string)] ⟨.reject, .json, none⟩)]

def markedCustomer : List (String × Value) :=
  [("name", .string "N"), ("address?", .boolean true)]

theorem customerFields_bare : BareKeys customerFields where
  distinct := by decide +kernel
  unmarked := by decide +kernel

theorem markedCustomer_taken :
    (Pattern.object customerFields ⟨.reject, .json, none⟩).check .empty (.object markedCustomer) =
        some .success ∧
      ∀ key ∈ Entries.keys (unmarkedMembers customerFields markedCustomer),
        ∃ field ∈ customerFields, bareName field.1 = key := by
  have taken : (Pattern.object customerFields ⟨.reject, .json, none⟩).check .empty
      (.object markedCustomer) = some .success := by decide +kernel
  exact ⟨taken, ((closed_object_takes_iff rfl customerFields_bare).mp taken).2⟩

theorem undeclared_key_taken :
    (Pattern.object customerFields ⟨.reject, .json, none⟩).check .empty (.object markedCustomer) =
        some .success ∧
      "address?" ∈ Entries.keys markedCustomer ∧
        ∀ field ∈ customerFields, bareName field.1 ≠ "address?" := by
  decide +kernel

end Closed

end ApiContract
