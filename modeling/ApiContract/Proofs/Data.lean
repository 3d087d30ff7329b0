import ApiContract.Proofs.Tidy

set_option autoImplicit false

namespace ApiContract

namespace Json

mutual

def keyed : Json → Bool
  | .object members => decide (Entries.Distinct members) && keyedMembers members
  | .array items => keyedItems items
  | _ => true

def keyedItems : List Json → Bool
  | [] => true
  | item :: rest => keyed item && keyedItems rest

def keyedMembers : List (String × Json) → Bool
  | [] => true
  | (_, value) :: rest => keyed value && keyedMembers rest

end

theorem keyedMembers_iff {members : List (String × Json)} :
    keyedMembers members ↔ ∀ member ∈ members, member.2.keyed := by
  induction members with
  | nil => simp [keyedMembers]
  | cons member rest ih => simp [keyedMembers, ih]

theorem keyedItems_iff {items : List Json} : keyedItems items ↔ ∀ item ∈ items, item.keyed := by
  induction items with
  | nil => simp [keyedItems]
  | cons item rest ih => simp [keyedItems, ih]

theorem keyed_object {members : List (String × Json)} :
    (object members).keyed ↔
      Entries.Distinct members ∧ ∀ member ∈ members, member.2.keyed := by
  rw [keyed, Bool.and_eq_true, decide_eq_true_eq, keyedMembers_iff]

theorem keyed_array {items : List Json} : (array items).keyed ↔ ∀ item ∈ items, item.keyed := by
  rw [keyed, keyedItems_iff]

theorem keyed_of_get? {members : List (String × Json)} {key : String} {json : Json}
    (whole : (object members).keyed) (found : Entries.get? members key = some json) : json.keyed :=
  (keyed_object.mp whole).2 _ (Entries.mem_of_get? found)

end Json

namespace Json

namespace Reader

variable {α β : Type} {P : α → Prop} {Q : β → Prop} {reader : Reader α} {a : α}

structure Yields (P : α → Prop) (reader : Reader α) : Prop where
  of_ok : ∀ {cs a rest}, reader cs = .ok (a, rest) → P a

theorem yields_trivial : Yields (fun _ => True) reader where
  of_ok _ := trivial

theorem yields_pure (h : P a) : Yields P (pure a) where
  of_ok read := by
    cases read
    exact h

theorem yields_fail {flaw : Flaw} : Yields P (fail flaw) where
  of_ok read := nomatch read

theorem Yields.bind {f : α → Reader β} (first : Yields P reader)
    (next : ∀ a, P a → Yields Q (f a)) : Yields Q (reader >>= f) where
  of_ok read := by
    obtain ⟨⟨a, left⟩, taken, done⟩ := Except.bind_eq_ok.mp read
    exact (next a (first.of_ok taken)).of_ok done

theorem yields_bind {f : α → Reader β} (next : ∀ a, Yields Q (f a)) : Yields Q (reader >>= f) :=
  yields_trivial.bind fun a _ => next a

theorem Yields.map {f : α → β} (first : Yields P reader) (next : ∀ a, P a → Q (f a)) :
    Yields Q (f <$> reader) := by
  rw [map_eq_pure_bind]
  exact first.bind fun a h => yields_pure (next a h)

theorem Yields.under {step : Step} (h : Yields P reader) : Yields P (under step reader) where
  of_ok {cs a rest} read := by
    unfold Reader.under at read
    cases taken : reader cs with
    | error fault => simp [taken] at read
    | ok result =>
      simp only [taken, Except.ok.injEq] at read
      exact h.of_ok (taken.trans (congrArg Except.ok read))

theorem yields_deeper {depth : Nat} {inner : Nat → Reader α} (h : ∀ depth, Yields P (inner depth)) :
    Yields P (deeper depth inner) := by
  cases depth with
  | zero => exact yields_fail
  | succ depth => exact yields_bind fun _ => h depth

theorem yields_elements (h : Yields P reader) (fuel i : Nat) (first : Bool) :
    Yields (fun items => ∀ a ∈ items, P a) (elements reader fuel i first) := by
  induction fuel generalizing i first with
  | zero => exact yields_fail
  | succ fuel ih =>
    apply yields_bind
    intro more
    cases more with
    | false => exact yields_bind fun _ => yields_pure nofun
    | true =>
      apply h.under.bind
      intro a ha
      apply (ih (i + 1) false).bind
      intro rest hrest
      apply yields_pure
      exact List.forall_mem_cons.mpr ⟨ha, hrest⟩

theorem yields_members (h : Yields P reader) (fuel : Nat) (first : Bool) :
    Yields (fun members => ∀ member ∈ members, P member.2) (members reader fuel first) := by
  induction fuel generalizing first with
  | zero => exact yields_fail
  | succ fuel ih =>
    apply yields_bind
    intro key?
    cases key? with
    | none => exact yields_bind fun _ => yields_pure nofun
    | some key =>
      apply yields_bind
      intro _
      apply h.under.bind
      intro a ha
      apply (ih false).bind
      intro rest hrest
      apply yields_pure
      exact List.forall_mem_cons.mpr ⟨ha, hrest⟩

theorem valueWithin_keyed (fuel depth : Nat) :
    Yields (fun json => json.keyed) (valueWithin fuel depth) := by
  induction fuel generalizing depth with
  | zero => exact yields_fail
  | succ fuel ih =>
    apply yields_bind
    intro start
    split
    · exact yields_fail
    -- Words and texts.
    · exact yields_bind fun _ => yields_bind fun _ => yields_pure rfl
    · exact yields_bind fun _ => yields_bind fun _ => yields_pure rfl
    · exact yields_bind fun _ => yields_bind fun _ => yields_pure rfl
    · exact yields_bind fun _ => yields_bind fun _ => yields_pure rfl
    · apply yields_deeper
      intro depth
      exact (yields_elements (ih depth) fuel 0 true).map fun items all => keyed_array.mpr all
    · apply yields_deeper
      intro depth
      refine (yields_members (ih depth) fuel true).map fun members all => ?_
      apply keyed_object.mpr
      exact ⟨Entries.distinct_ofList members,
        fun member mem => all _ (Entries.mem_of_mem_ofList mem)⟩
    · split
      · exact yields_trivial.map fun _ _ => rfl
      · exact yields_fail

end Reader

theorem keyed_of_read {text : String} {json : Json} (h : read text = .ok json) : json.keyed := by
  unfold read readWithin at h
  split at h
  · next json rest taken =>
    cases h
    have value : Reader.Yields (fun json => json.keyed) (Reader.value nestingLimit) :=
      Reader.yields_bind fun cs => Reader.valueWithin_keyed (cs.length + 1) nestingLimit
    have whole : Reader.Yields (fun json => json.keyed)
        (Reader.value nestingLimit <* Reader.ended) := by
      rw [seqLeft_eq_bind]
      apply value.bind
      intro json keyed
      exact Reader.yields_bind fun _ => Reader.yields_pure keyed
    exact whole.of_ok taken
  · cases h

end Json

namespace Xml

mutual

def isKeyed : Xml → Bool
  | .element _ attributes children => decide (Entries.Distinct attributes) && isKeyedAll children
  | .text _ => true

def isKeyedAll : List Xml → Bool
  | [] => true
  | child :: rest => isKeyed child && isKeyedAll rest

end

theorem sameAttributes_self {attributes : List (String × String)}
    (distinct : Entries.Distinct attributes) : sameAttributes attributes attributes := by
  refine Bool.and_eq_true_iff.mpr ⟨decide_eq_true rfl, List.all_eq_true.mpr fun entry mem => ?_⟩
  exact decide_eq_true (Entries.get?_of_mem distinct mem)

mutual

theorem same_self : ∀ node : Xml, node.isKeyed → node.same node
  | .element _ _ children, keyed => by
    simp only [isKeyed, Bool.and_eq_true, decide_eq_true_eq] at keyed
    simp [same, sameAttributes_self keyed.1, sameAll_self children keyed.2]
  | .text _, _ => decide_eq_true rfl

theorem sameAll_self : ∀ nodes : List Xml, isKeyedAll nodes → sameAll nodes nodes
  | [], _ => rfl
  | child :: rest, keyed => by
    simp only [isKeyedAll, Bool.and_eq_true] at keyed
    simp [sameAll, same_self child keyed.1, sameAll_self rest keyed.2]

end

end Xml

namespace Value

mutual

def isData : Value → Bool
  | .object members => decide (Entries.Distinct members) && isDataMembers members
  | .array items => isDataItems items
  | .xml _ => false
  | _ => true

def isDataItems : List Value → Bool
  | [] => true
  | item :: rest => isData item && isDataItems rest

def isDataMembers : List (String × Value) → Bool
  | [] => true
  | (_, value) :: rest => isData value && isDataMembers rest

end

theorem isDataItems_iff {items : List Value} : isDataItems items ↔ ∀ item ∈ items, item.isData := by
  induction items with
  | nil => simp [isDataItems]
  | cons item rest ih => simp [isDataItems, ih]

theorem isDataMembers_iff {members : List (String × Value)} :
    isDataMembers members ↔ ∀ member ∈ members, member.2.isData := by
  induction members with
  | nil => simp [isDataMembers]
  | cons member rest ih => simp [isDataMembers, ih]

theorem Part.isData {v u : Value} (h : Part v u) (data : v.isData) : u.isData := by
  cases h with
  | member mem =>
    rw [Value.isData, Bool.and_eq_true] at data
    exact isDataMembers_iff.mp data.2 _ mem
  | item mem => exact isDataItems_iff.mp data _ mem

theorem keys_ofJsonMembers (members : List (String × Json)) :
    Entries.keys (ofJsonMembers members) = Entries.keys members := by
  induction members with
  | nil => rfl
  | cons member rest ih => exact congrArg (member.1 :: ·) ih

theorem distinct_ofJsonMembers {members : List (String × Json)} :
    Entries.Distinct (ofJsonMembers members) ↔ Entries.Distinct members := by
  rw [Entries.Distinct, keys_ofJsonMembers]
  rfl

mutual

theorem isData_ofJson : ∀ json : Json, (ofJson json).isData = json.keyed
  | .null | .bool _ | .number _ | .string _ => rfl
  | .array items => isDataItems_ofJson items
  | .object members => by
    simp only [ofJson, isData, Json.keyed, isDataMembers_ofJson members, distinct_ofJsonMembers]

theorem isDataItems_ofJson : ∀ items : List Json,
    isDataItems (ofJsonItems items) = Json.keyedItems items
  | [] => rfl
  | item :: rest => by
    simp only [ofJsonItems, isDataItems, Json.keyedItems, isData_ofJson item,
      isDataItems_ofJson rest]

theorem isDataMembers_ofJson : ∀ members : List (String × Json),
    isDataMembers (ofJsonMembers members) = Json.keyedMembers members
  | [] => rfl
  | (_, value) :: rest => by
    simp only [ofJsonMembers, isDataMembers, Json.keyedMembers, isData_ofJson value,
      isDataMembers_ofJson rest]

end

mutual

theorem ofJson_toJson : ∀ v : Value, v.isData → ofJson v.toJson = v
  | .null, _ | .boolean _, _ | .number _, _ | .string _, _ => rfl
  | .array items, data => congrArg array (ofJsonItems_toJsonItems items data)
  | .object members, data => by
    rw [isData, Bool.and_eq_true] at data
    exact congrArg object (ofJsonMembers_toJsonMembers members data.2)

theorem ofJsonItems_toJsonItems : ∀ items : List Value, isDataItems items →
    ofJsonItems (toJsonItems items) = items
  | [], _ => rfl
  | item :: rest, data => by
    rw [isDataItems, Bool.and_eq_true] at data
    rw [toJsonItems, ofJsonItems, ofJson_toJson item data.1, ofJsonItems_toJsonItems rest data.2]

theorem ofJsonMembers_toJsonMembers : ∀ members : List (String × Value), isDataMembers members →
    ofJsonMembers (toJsonMembers members) = members
  | [], _ => rfl
  | (_, value) :: rest, data => by
    rw [isDataMembers, Bool.and_eq_true] at data
    rw [toJsonMembers, ofJsonMembers, ofJson_toJson value data.1,
      ofJsonMembers_toJsonMembers rest data.2]

end

def Keyed (v : Value) : Prop :=
  ∀ u, Relation.ReflTransGen Part v u → match u with
    | .object members => Entries.Distinct members
    | .xml node => node.isKeyed
    | _ => True

theorem Keyed.part {v u : Value} (h : v.Keyed) (part : Part v u) : u.Keyed :=
  fun w more => h w (.head part more)

theorem keyed_of_isData {v : Value} (data : v.isData) : v.Keyed := by
  intro u parts
  have inside : u.isData := by
    induction parts with
    | refl => exact data
    | tail _ part ih => exact part.isData ih
  cases u with
  | object members =>
    rw [isData, Bool.and_eq_true, decide_eq_true_eq] at inside
    exact inside.1
  | xml node => cases inside
  | _ => trivial

theorem keyed_of_scalar {v : Value} (scalar : v.isScalar) : v.Keyed :=
  keyed_of_isData (by cases v <;> first | rfl | cases scalar)

theorem same_of_keyed (v : Value) (keyed : v.Keyed) : v.same v := by
  cases v with
  | null | boolean | number | string => exact same_of_scalar rfl
  | xml node => exact Xml.same_self node (keyed _ .refl)
  | array items =>
    refine sameItems_iff.mpr ⟨rfl, fun i x y first second => ?_⟩
    cases first.symm.trans second
    have part : Part (.array items) x := .item (List.mem_of_getElem? first)
    have := part.depth_lt
    exact same_of_keyed x (keyed.part part)
  | object members =>
    have distinct : Entries.Distinct members := keyed _ .refl
    refine same_object.mpr ⟨rfl, fun key u mem => ?_⟩
    have part : Part (.object members) u := .member mem
    have := part.depth_lt
    exact ⟨u, Entries.get?_of_mem distinct mem, same_of_keyed u (keyed.part part)⟩
  termination_by v.depth

theorem same_self (v : Value) (data : v.isData) : v.same v :=
  same_of_keyed v (keyed_of_isData data)

end Value
end ApiContract
