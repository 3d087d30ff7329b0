import ApiContract.Proofs.Acceptance

set_option autoImplicit false

namespace ApiContract

namespace Pattern

mutual

def relaxed : Pattern → Pattern
  | .repeated inner => .repeated (relaxed inner)
  | .anyOf alternatives => .anyOf (relaxedAll alternatives)
  | .object fields traits => .object (relaxedFields fields) { traits with unexpected := .ignore }
  | .array elements knownAs => .array (relaxedAll elements) knownAs
  | other => other

def relaxedAll : List Pattern → List Pattern
  | [] => []
  | pattern :: rest => relaxed pattern :: relaxedAll rest

def relaxedFields : List (String × Pattern) → List (String × Pattern)
  | [] => []
  | (key, pattern) :: rest => (key, relaxed pattern) :: relaxedFields rest

end

theorem relaxedAll_eq (patterns : List Pattern) : relaxedAll patterns = patterns.map relaxed := by
  induction patterns with
  | nil => rfl
  | cons p rest ih => simp [relaxedAll, ih]

theorem relaxedFields_eq (fields : List (String × Pattern)) :
    relaxedFields fields = Entries.mapValues relaxed fields := by
  induction fields with
  | nil => rfl
  | cons field rest ih => simp [relaxedFields, Entries.mapValues, ih]

end Pattern

def Resolver.relaxed (resolver : Resolver) : Resolver :=
  { resolver with types := Entries.mapValues Pattern.relaxed resolver.types }

namespace Entries

variable {α β : Type} {f : α → β} {entries : Entries α} {key : String}

@[simp] theorem get?_mapValues : get? (mapValues f entries) key = (get? entries key).map f := by
  induction entries with
  | nil => rfl
  | cons entry rest ih =>
    obtain ⟨k, a⟩ := entry
    simp only [mapValues, List.map_cons, get?_cons] at ih ⊢
    split
    · rfl
    · exact ih

theorem mem_mapValues {b : β} :
    (key, b) ∈ mapValues f entries ↔ ∃ a, (key, a) ∈ entries ∧ f a = b := by
  simp only [mapValues, List.mem_map, Prod.mk.injEq]
  constructor
  · rintro ⟨⟨k, a⟩, mem, rfl, rfl⟩
    exact ⟨a, mem, rfl⟩
  · rintro ⟨a, mem, rfl⟩
    exact ⟨(key, a), mem, rfl, rfl⟩

end Entries

section Ways

variable {types : Entries Pattern} {p q : Pattern} {name : String}

theorem registered?_relaxed :
    registered? (Entries.mapValues Pattern.relaxed types) name =
      (registered? types name).map Pattern.relaxed :=
  Entries.get?_mapValues

theorem Unfolds.of_relaxed (h : Unfolds (Entries.mapValues Pattern.relaxed types) p.relaxed q) :
    ∃ o, q = o.relaxed ∧ Unfolds types p o := by
  cases p with
  | reference name =>
    cases h with
    | reference named =>
      rw [registered?_relaxed] at named
      obtain ⟨o, found, rfl⟩ := Option.map_eq_some_iff.mp named
      exact ⟨o, rfl, .reference found⟩
  | anyOf alternatives =>
    cases h with
    | anyOf mem =>
      rw [Pattern.relaxedAll_eq] at mem
      obtain ⟨o, there, rfl⟩ := List.mem_map.mp mem
      exact ⟨o, rfl, .anyOf there⟩
  | _ => cases h

theorem Part.of_relaxed (h : Part p.relaxed q) : ∃ o, q = o.relaxed ∧ Part p o := by
  cases p with
  | repeated inner =>
    cases h
    exact ⟨inner, rfl, .inner⟩
  | object fields traits =>
    cases h with
    | field mem =>
      rw [Pattern.relaxedFields_eq] at mem
      obtain ⟨o, there, rfl⟩ := Entries.mem_mapValues.mp mem
      exact ⟨o, rfl, .field there⟩
  | array elements knownAs =>
    cases h with
    | element mem =>
      rw [Pattern.relaxedAll_eq] at mem
      obtain ⟨o, there, rfl⟩ := List.mem_map.mp mem
      exact ⟨o, rfl, .element there⟩
    | tail mem =>
      rw [Pattern.relaxedAll_eq] at mem
      obtain ⟨o, there, same⟩ := List.mem_map.mp mem
      cases o with
      | repeated inner =>
        cases same
        exact ⟨inner, rfl, .tail there⟩
      | _ => cases same
  | _ => cases h

theorem Guarded.relaxed (guarded : Guarded types) :
    Guarded (Entries.mapValues Pattern.relaxed types) := by
  have chain {p q : Pattern}
      (h : Relation.TransGen (Unfolds (Entries.mapValues Pattern.relaxed types)) p.relaxed q) :
      ∃ o, q = o.relaxed ∧ Relation.TransGen (Unfolds types) p o := by
    induction h with
    | single step =>
      obtain ⟨o, rfl, before⟩ := step.of_relaxed
      exact ⟨o, rfl, .single before⟩
    | tail _ step ih =>
      obtain ⟨o, rfl, before⟩ := ih
      obtain ⟨c, rfl, last⟩ := step.of_relaxed
      exact ⟨c, rfl, .tail before last⟩
  intro name loop
  obtain ⟨o, same, back⟩ := chain (p := .reference name) loop
  cases o with
  | reference other =>
    cases same
    exact guarded _ back
  | _ => cases same

theorem Registered.relaxed (registered : Registered types p) :
    Registered (Entries.mapValues Pattern.relaxed types) p.relaxed := by
  have chain {q : Pattern} (h : Reaches (Entries.mapValues Pattern.relaxed types) p.relaxed q) :
      ∃ o, q = o.relaxed ∧ Reaches types p o := by
    induction h with
    | refl => exact ⟨p, rfl, .refl p⟩
    | tail _ step ih =>
      obtain ⟨o, rfl, before⟩ := ih
      rcases step with step | step
      · obtain ⟨c, rfl, last⟩ := step.of_relaxed
        exact ⟨c, rfl, before.trans last.reaches⟩
      · obtain ⟨c, rfl, last⟩ := step.of_relaxed
        exact ⟨c, rfl, before.trans last.reaches⟩
  intro name met
  obtain ⟨o, same, back⟩ := chain met
  cases o with
  | reference other =>
    cases same
    rw [registered?_relaxed, Option.isSome_map]
    exact registered _ back
  | _ => cases same

end Ways

def Takes (r : Resolver) (p : Pattern) (v : Value) : Prop :=
  Accepts r.relaxed p.relaxed v

section Taking

variable {r : Resolver} {p q : Pattern} {v : Value}

theorem mem_requiredFields_mapValues {f : Pattern → Pattern} {fields : List (String × Pattern)}
    {key : String} : (key, q) ∈ requiredFields (Entries.mapValues f fields) ↔
      ∃ p, (key, p) ∈ requiredFields fields ∧ f p = q := by
  simp only [requiredFields, List.mem_filter, Entries.mem_mapValues]
  constructor
  · rintro ⟨⟨p, mem, rfl⟩, required⟩
    exact ⟨p, ⟨mem, required⟩, rfl⟩
  · rintro ⟨p, ⟨mem, required⟩, rfl⟩
    exact ⟨⟨p, mem, rfl⟩, required⟩

theorem fitsObject_mapValues {f : Pattern → Value → Prop} {g : Pattern → Pattern}
    {fields : List (String × Pattern)} {unexpected : UnexpectedKeys}
    {actual : List (String × Value)} :
    FitsObject f (Entries.mapValues g fields) unexpected actual ↔
      FitsObject (fun p u => f (g p) u) fields unexpected actual := by
  have known (key : String) :
      (field? (Entries.mapValues g fields) key).isSome = (field? fields key).isSome := by
    simp only [field?, Entries.get?_mapValues]
    cases Entries.get? fields key <;> simp
  constructor
  · intro fits
    refine ⟨fun field mem => ?_, fun reject key mem => ?_, fun field mem => ?_⟩
    · exact fits.required _ (mem_requiredFields_mapValues.mpr ⟨field.2, mem, rfl⟩)
    · exact known key ▸ fits.declared reject key mem
    · exact fits.members (field.1, g field.2) (Entries.mem_mapValues.mpr ⟨_, mem, rfl⟩)
  · intro fits
    refine ⟨fun field mem => ?_, fun reject key mem => ?_, fun field mem => ?_⟩
    · obtain ⟨p, there, same⟩ := mem_requiredFields_mapValues.mp mem
      rw [← same]
      exact fits.required _ there
    · exact known key ▸ fits.declared reject key mem
    · obtain ⟨p, there, same⟩ := Entries.mem_mapValues.mp mem
      rw [← same]
      exact fits.members _ there

theorem fitsObject_relaxed {f : Pattern → Value → Prop} {fields : List (String × Pattern)}
    {actual : List (String × Value)} :
    FitsObject f (Pattern.relaxedFields fields) .ignore actual ↔
      FitsObject (fun p u => f p.relaxed u) fields .ignore actual := by
  rw [Pattern.relaxedFields_eq]
  exact fitsObject_mapValues

theorem ofElements_relaxed (elements : List Pattern) :
    Members.ofElements (elements.map Pattern.relaxed) =
      ⟨(Members.ofElements elements).fixed.map Pattern.relaxed,
        (Members.ofElements elements).tail.map Pattern.relaxed⟩ := by
  simp only [Members.ofElements, List.getLast?_map]
  cases elements.getLast? with
  | none => rfl
  | some last => cases last <;> simp [Pattern.relaxed]

theorem fitsMembers_relaxed {f : Pattern → Value → Prop} {members : Members}
    {items : List Value} :
    FitsMembers f ⟨members.fixed.map Pattern.relaxed, members.tail.map Pattern.relaxed⟩ items ↔
      FitsMembers (fun p u => f p.relaxed u) members items := by
  have place (i : Nat) : Members.at? ⟨members.fixed.map Pattern.relaxed,
      members.tail.map Pattern.relaxed⟩ i = (members.at? i).map Pattern.relaxed := by
    simp only [Members.at?, List.getElem?_map]
    cases members.fixed[i]? <;> rfl
  constructor
  · rintro ⟨length, fits⟩
    refine ⟨by simpa using length, fun i u found => ?_⟩
    obtain ⟨q, there, ok⟩ := fits i u found
    rw [place] at there
    obtain ⟨p, before, rfl⟩ := Option.map_eq_some_iff.mp there
    exact ⟨p, before, ok⟩
  · rintro ⟨length, fits⟩
    refine ⟨by simpa using length, fun i u found => ?_⟩
    obtain ⟨p, there, ok⟩ := fits i u found
    exact ⟨p.relaxed, by rw [place, there, Option.map_some], ok⟩

variable (guarded : Guarded r.types)
include guarded

theorem takes_reference {name : String} (registered : Registered r.types (.reference name))
    (named : registered? r.types name = some p) : Takes r (.reference name) v ↔ Takes r p v :=
  accepts_reference guarded.relaxed registered.relaxed
    (by rw [Resolver.relaxed, registered?_relaxed, named, Option.map_some])

theorem takes_anyOf {alternatives : List Pattern}
    (registered : Registered r.types (.anyOf alternatives)) :
    Takes r (.anyOf alternatives) v ↔ ∃ q ∈ alternatives, Takes r q v := by
  have relaxed := registered.relaxed
  simp only [Pattern.relaxed, Pattern.relaxedAll_eq] at relaxed
  simp only [Takes, Pattern.relaxed, Pattern.relaxedAll_eq]
  rw [accepts_anyOf guarded.relaxed relaxed]
  constructor
  · rintro ⟨q, mem, accepts⟩
    obtain ⟨p, there, rfl⟩ := List.mem_map.mp mem
    exact ⟨p, there, accepts⟩
  · rintro ⟨p, mem, accepts⟩
    exact ⟨p.relaxed, List.mem_map_of_mem mem, accepts⟩

theorem takes_object {fields : List (String × Pattern)} {traits : ObjectTraits}
    (registered : Registered r.types (.object fields traits)) :
    Takes r (.object fields traits) v ↔
      ∃ actual, v = .object actual ∧ FitsObject (Takes r) fields .ignore actual :=
  (accepts_object guarded.relaxed registered.relaxed).trans
    (exists_congr fun _ => and_congr_right fun _ => fitsObject_relaxed)

theorem takes_sequence {members : Members} (registered : Registered r.types p)
    (h : members? p = some members) :
    Takes r p v ↔ ∃ items, v = .array items ∧
      (isUnconstrained p ∨ FitsMembers (Takes r) members items) := by
  have relaxed : members? p.relaxed =
      some ⟨members.fixed.map Pattern.relaxed, members.tail.map Pattern.relaxed⟩ := by
    cases p with
    | array elements knownAs =>
      cases h
      simp only [Pattern.relaxed, Pattern.relaxedAll_eq, members?, ofElements_relaxed]
    | repeated inner =>
      cases h
      rfl
    | _ => cases h
  have open_ : isUnconstrained p.relaxed = isUnconstrained p := by
    cases p with
    | array elements knownAs => cases elements <;> rfl
    | _ => rfl
  rw [Takes, accepts_sequence guarded.relaxed registered.relaxed relaxed]
  simp only [open_, fitsMembers_relaxed]
  rfl

end Taking

end ApiContract
