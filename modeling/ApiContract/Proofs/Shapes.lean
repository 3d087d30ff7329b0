import ApiContract.Proofs.Variants

set_option autoImplicit false

namespace ApiContract

namespace Entries

variable {α : Type} {entries : Entries α} {key : String} {a : α}

theorem insert_of_new (new : key ∉ keys entries) : insert entries key a = entries ++ [(key, a)] := by
  induction entries with
  | nil => rfl
  | cons entry rest ih =>
    obtain ⟨k, b⟩ := entry
    simp only [keys, List.map_cons, List.mem_cons, not_or] at new
    simp [insert, Ne.symm new.1, ih new.2]

theorem ofList_concat (pairs : List (String × α)) (pair : String × α) :
    ofList (pairs ++ [pair]) = insert (ofList pairs) pair.1 pair.2 := by
  simp [ofList]

theorem ofList_of_distinct (h : Distinct entries) : ofList entries = entries := by
  induction entries using List.reverseRecOn with
  | nil => rfl
  | append_singleton rest entry ih =>
    unfold Distinct keys at h
    rw [List.map_append, List.nodup_append] at h
    obtain ⟨before, -, apart⟩ := h
    have new : entry.1 ∉ keys rest := fun mem => apart _ mem _ (by simp) rfl
    rw [ofList_concat, ih before, insert_of_new new]

theorem get?_ofList (pairs : List (String × α)) (key : String) :
    get? (ofList pairs) key = get? pairs.reverse key := by
  induction pairs using List.reverseRecOn with
  | nil => rfl
  | append_singleton pairs pair ih =>
    rw [ofList_concat, get?_insert, ih, List.reverse_append, List.reverse_singleton,
      List.singleton_append, get?_cons]

theorem keys_ofList (pairs : List (String × α)) : keys (ofList pairs) = (keys pairs).eraseDups := by
  induction pairs using List.reverseRecOn with
  | nil => rfl
  | append_singleton pairs pair ih =>
    have names : keys (pairs ++ [pair]) = keys pairs ++ [pair.1] := List.map_append
    rw [ofList_concat, keys_insert, ih, names, List.eraseDups_append]
    by_cases known : pair.1 ∈ keys pairs <;> simp [List.removeAll, known, List.eraseDups_cons]

theorem length_ofList_iff {pairs : List (String × α)} :
    (ofList pairs).length = pairs.length ↔ Distinct pairs := by
  refine ⟨fun same => ?_, fun distinct => by rw [ofList_of_distinct distinct]⟩
  have kept : keys (ofList pairs) ⊆ keys pairs := fun name mem => by
    rwa [keys_ofList, List.mem_eraseDups] at mem
  have fewer : (keys (ofList pairs)).Subperm (keys pairs) := (distinct_ofList pairs).subperm kept
  have all : (keys (ofList pairs)).Perm (keys pairs) :=
    fewer.perm_of_length_le (by simp [keys, same])
  exact all.nodup_iff.mp (distinct_ofList pairs)

theorem distinct_mapValues {β : Type} {f : α → β} :
    Distinct (mapValues f entries) ↔ Distinct entries := by
  have names : keys (mapValues f entries) = keys entries := by
    simp [keys, mapValues]
  rw [Distinct, names]
  rfl

end Entries

section Fields

variable {r : Resolver} {fuel : Nat} {entered : List String} {fields : List (String × Pattern)}
  {chosen : List FieldChoice} {x : Pattern}

def chosenFields (chosen : List FieldChoice) : List (String × Pattern) :=
  chosen.filterMap id

@[simp] theorem chosenFields_none : chosenFields (none :: chosen) = chosenFields chosen := rfl

@[simp] theorem chosenFields_some {field : String × Pattern} :
    chosenFields (some field :: chosen) = field :: chosenFields chosen := rfl

theorem mem_chosenFields {field : String × Pattern} :
    field ∈ chosenFields chosen ↔ some field ∈ chosen := by
  simp [chosenFields]

def Labels (field : String × Pattern) (choice : FieldChoice) : Prop :=
  ∀ entry, choice = some entry → entry.1 = bareName field.1

theorem keys_chosenFields_of_labels (labels : List.Forall₂ Labels fields chosen) :
    List.Sublist (Entries.keys (chosenFields chosen)) (fields.map fun field => bareName field.1) := by
  induction labels with
  | nil => exact .slnil
  | @cons field choice fields chosen first _ ih =>
    cases choice with
    | none => exact .cons _ ih
    | some entry =>
      obtain ⟨name, y⟩ := entry
      obtain rfl := first _ rfl
      exact .cons_cons _ ih

theorem keys_chosenFields (choices : List.Forall₂ (Choice r fuel entered) fields chosen) :
    List.Sublist (Entries.keys (chosenFields chosen)) (fields.map fun field => bareName field.1) := by
  refine keys_chosenFields_of_labels (choices.imp fun field choice chosen entry same => ?_)
  subst same
  exact chosen.1

variable (bare : (fields.map fun field => bareName field.1).Nodup)
include bare

theorem distinct_chosenFields (choices : List.Forall₂ (Choice r fuel entered) fields chosen) :
    Entries.Distinct (chosenFields chosen) :=
  bare.sublist (keys_chosenFields choices)

omit bare in
theorem exists_field_of_chosen {name : String} {entry : String × Pattern} (keys : BareKeys fields)
    (choices : List.Forall₂ (Choice r fuel entered) fields chosen)
    (found : field? (chosenFields chosen) name = some entry) :
    ∃ field ∈ fields, entry.1 = name ∧ bareName field.1 = name ∧
      Variant r fuel entered field.2 entry.2 := by
  obtain ⟨key, y⟩ := entry
  obtain ⟨field, known, own, inside⟩ :=
    exists_of_forall₂_mem choices (mem_chosenFields.mp (mem_of_field? found))
  -- What is put in has lost its mark.
  have same : key = name := by
    rcases field?_cases found with same | ⟨same, -⟩
    · exact same
    · have required := keys.unmarked field known
      rw [← own, same, isOptional_marked] at required
      cases required
  exact ⟨field, known, same, own.symm.trans same, inside⟩

theorem variant_tidyObject {traits : ObjectTraits} (exhaustive : r.combinations = .exhaustive) :
    Variant r (fuel + 1) entered (.object fields traits) x ↔
      ∃ chosen, List.Forall₂ (Choice r fuel entered) fields chosen ∧
        x = .object (chosenFields chosen) traits := by
  rw [variant_object exhaustive]
  refine exists_congr fun chosen => and_congr_right fun choices => ?_
  rw [← Entries.ofList_of_distinct (distinct_chosenFields bare choices)]
  rfl

theorem agree_of_shared {others : List FieldChoice}
    (choices : List.Forall₂ (Choice r fuel entered) fields chosen)
    (choices' : List.Forall₂ (Choice r fuel entered) fields others)
    (shared : ∀ name y, some (name, y) ∈ chosen → ∃ z, some (name, z) ∈ others ∧
      ∀ field ∈ fields, Variant r fuel entered field.2 y → Variant r fuel entered field.2 z → y = z) :
    List.Forall₂ (fun a b => a = none ∨ a = b) chosen others := by
  induction choices generalizing others with
  | nil =>
    cases choices'
    exact .nil
  | @cons field choice fields chosen first rest ih =>
    obtain ⟨other, others, first', rest', rfl⟩ := List.forall₂_cons_left_iff.mp choices'
    obtain ⟨new, bare⟩ := List.nodup_cons.mp bare
    have outside {chosen : List FieldChoice} {y : Pattern}
        (choices : List.Forall₂ (Choice r fuel entered) fields chosen) :
        some (bareName field.1, y) ∉ chosen := fun mem =>
      new ((keys_chosenFields choices).subset
        (List.mem_map.mpr ⟨_, mem_chosenFields.mpr mem, rfl⟩))
    refine .cons ?_ (ih bare rest' fun name y mem => ?_)
    · cases choice with
      | none => exact .inl rfl
      | some entry =>
        obtain ⟨name, y⟩ := entry
        obtain ⟨rfl, variant⟩ := first
        obtain ⟨z, there, equal⟩ := shared _ y List.mem_cons_self
        rcases List.mem_cons.mp there with rfl | later
        · rw [equal field List.mem_cons_self variant first'.2]
          exact .inr rfl
        · exact (outside rest' later).elim
    · obtain ⟨z, there, equal⟩ := shared name y (List.mem_cons_of_mem _ mem)
      refine ⟨z, ?_, fun field mem => equal field (List.mem_cons_of_mem _ mem)⟩
      rcases List.mem_cons.mp there with rfl | later
      · obtain ⟨rfl, -⟩ := first'
        exact (outside rest mem).elim
      · exact later

omit bare in
theorem length_chosenFields_le {others : List FieldChoice}
    (agree : List.Forall₂ (fun a b => a = none ∨ a = b) chosen others) :
    (chosenFields chosen).length ≤ (chosenFields others).length := by
  induction agree with
  | nil => exact Nat.le_refl _
  | @cons a b _ _ first _ ih =>
    rcases first with rfl | rfl
    · cases b <;> simp <;> omega
    · cases a <;> simp <;> omega

omit bare in
theorem eq_of_agree {others : List FieldChoice}
    (agree : List.Forall₂ (fun a b => a = none ∨ a = b) chosen others)
    (length : (chosenFields others).length ≤ (chosenFields chosen).length) : chosen = others := by
  induction agree with
  | nil => rfl
  | @cons a b _ _ first rest ih =>
    have shorter := length_chosenFields_le rest
    rcases first with rfl | rfl
    · cases b with
      | none => rw [ih (by simpa using length)]
      | some entry =>
        simp at length
        omega
    · rw [ih (by cases a <;> simpa using length)]

end Fields

namespace Pattern

theorem sameFields_iff {a b : List (String × Pattern)} :
    sameFields a b ↔ ∀ key p, (key, p) ∈ a → ∃ q, Entries.get? b key = some q ∧ p.same q := by
  induction a with
  | nil => simp [sameFields]
  | cons field rest ih =>
    obtain ⟨name, p⟩ := field
    rw [sameFields, Bool.and_eq_true, ih]
    constructor
    · rintro ⟨first, later⟩ key q mem
      rcases List.mem_cons.mp mem with same | mem
      · cases same
        cases found : Entries.get? b name with
        | none => simp [found] at first
        | some o => exact ⟨o, rfl, by simpa [found] using first⟩
      · exact later key q mem
    · intro all
      obtain ⟨q, found, same⟩ := all name p List.mem_cons_self
      exact ⟨by simp [found, same], fun key o mem => all key o (List.mem_cons_of_mem _ mem)⟩

theorem sameAll_iff {a b : List Pattern} : sameAll a b ↔ List.Forall₂ (fun p q => p.same q) a b := by
  induction a generalizing b with
  | nil => cases b <;> simp [sameAll]
  | cons p rest ih => cases b <;> simp [sameAll, ih]

end Pattern

section Sameness

variable {r : Resolver} {fuel : Nat} {entered : List String} {p x y : Pattern}

theorem regular_of_resolve (regular : Regular r.types p) (guarded : Guarded r.types) {q : Pattern}
    (found : r.resolve p = .ok q) :
    Relation.ReflTransGen (Unfolds r.types) p q ∧ Regular r.types q := by
  obtain ⟨o, -, unfolds, resolves⟩ := guarded.resolves p regular.registered
  rw [resolves r rfl] at found
  cases found
  exact ⟨unfolds, regular.of_reaches (.of_unfoldings unfolds)⟩

theorem eq_of_same_elements {elements a b : List Pattern}
    (first : List.Forall₂ (Variant r fuel entered) elements a)
    (second : List.Forall₂ (Variant r fuel entered) elements b)
    (same : List.Forall₂ (fun p q => p.same q) a b)
    (equal : ∀ p ∈ elements, ∀ x y, Variant r fuel entered p x → Variant r fuel entered p y →
      x.same y → x = y) : a = b := by
  induction first generalizing b with
  | nil =>
    cases second
    rfl
  | @cons element x elements a variant _ ih =>
    obtain ⟨y, b, variant', later, rfl⟩ := List.forall₂_cons_left_iff.mp second
    obtain ⟨first, rest⟩ := List.forall₂_cons.mp same
    rw [equal element List.mem_cons_self x y variant variant' first,
      ih later rest fun p mem => equal p (List.mem_cons_of_mem _ mem)]

theorem Variant.eq_of_same (guarded : Guarded r.types) (exhaustive : r.combinations = .exhaustive)
    (regular : Regular r.types p) (first : Variant r fuel entered p x)
    (second : Variant r fuel entered p y) (same : x.same y) : x = y := by
  induction fuel generalizing entered p x y with
  | zero => exact (not_expands_zero first.expands).elim
  | succ fuel ih =>
    cases p with
    | repeated inner =>
      obtain ⟨a, variant, rfl⟩ := variant_repeated.mp first
      obtain ⟨b, variant', rfl⟩ := variant_repeated.mp second
      rw [ih (regular.part .inner) variant variant' same]
    | reference name =>
      by_cases met : name ∈ entered
      · rw [(variant_entered met).mp first, (variant_entered met).mp second]
      · obtain ⟨q, found, first⟩ := (variant_reference met).mp first
        obtain ⟨o, found', second⟩ := (variant_reference met).mp second
        rw [found] at found'
        cases found'
        exact ih (regular_of_resolve regular guarded found).2 first second same
    | anyOf alternatives =>
      obtain ⟨o, rfl, -⟩ := regular.nullable
      rcases first.of_nullable with rfl | first
      · cases y <;> first | rfl | cases same
      · rcases second.of_nullable with rfl | second
        · cases x <;> first | rfl | cases same
        · exact ih (regular.unfold (.anyOf (by simp))) first second same
    | object fields traits =>
      have bare := regular.bare.distinct
      obtain ⟨chosen, choices, rfl⟩ := (variant_tidyObject bare exhaustive).mp first
      obtain ⟨others, choices', rfl⟩ := (variant_tidyObject bare exhaustive).mp second
      simp only [Pattern.same, Bool.and_eq_true, decide_eq_true_eq, Pattern.sameFields_iff] at same
      obtain ⟨⟨length, shared⟩, -⟩ := same
      rw [eq_of_agree (agree_of_shared bare choices choices' fun name y mem => ?_) (Nat.le_of_eq length.symm)]
      obtain ⟨z, found, same⟩ := shared name y (mem_chosenFields.mpr mem)
      exact ⟨z, mem_chosenFields.mp (Entries.mem_of_get? found), fun field there variant variant' =>
        ih (regular.part (.field there)) variant variant' same⟩
    | array elements knownAs =>
      obtain ⟨a, variants, rfl⟩ := variant_array.mp first
      obtain ⟨b, variants', rfl⟩ := variant_array.mp second
      rw [eq_of_same_elements variants variants' (Pattern.sameAll_iff.mp same) fun q mem _ _ =>
        ih (regular.part (.element mem))]
    | _ => rw [(variant_basic rfl).mp first, (variant_basic rfl).mp second]

end Sameness

section Composites

variable {r : Resolver} {fuel : Nat} {entered : List String} {p x : Pattern}

def Pattern.isComposite : Pattern → Bool
  | .repeated _ | .object _ _ | .array _ _ => true
  | _ => false

theorem concrete_of_composite (composite : p.isComposite) : p.Concrete := by
  intro name same
  subst same
  cases composite

theorem Variant.composite (exhaustive : r.combinations = .exhaustive) (composite : p.isComposite)
    (h : Variant r fuel entered p x) : x.isComposite ∧ x.name? = p.name? := by
  cases fuel with
  | zero => exact (not_expands_zero h.expands).elim
  | succ fuel =>
    cases p with
    | repeated inner =>
      obtain ⟨y, -, rfl⟩ := variant_repeated.mp h
      exact ⟨rfl, rfl⟩
    | object fields traits =>
      obtain ⟨chosen, -, rfl⟩ := (variant_object exhaustive).mp h
      exact ⟨rfl, rfl⟩
    | array elements knownAs =>
      obtain ⟨chosen, -, rfl⟩ := variant_array.mp h
      exact ⟨rfl, rfl⟩
    | _ => cases composite

theorem Variant.exists_fields {members : List (String × Pattern)} {traits : ObjectTraits}
    (exhaustive : r.combinations = .exhaustive) (composite : p.isComposite)
    (h : Variant r fuel entered p (.object members traits)) :
    ∃ fields, p = .object fields traits := by
  cases fuel with
  | zero => exact (not_expands_zero h.expands).elim
  | succ fuel =>
    cases p with
    | repeated inner =>
      obtain ⟨y, -, same⟩ := variant_repeated.mp h
      cases same
    | object fields traits =>
      obtain ⟨chosen, -, same⟩ := (variant_object exhaustive).mp h
      cases same
      exact ⟨fields, rfl⟩
    | array elements knownAs =>
      obtain ⟨chosen, -, same⟩ := variant_array.mp h
      cases same
    | _ => cases composite

theorem Variant.exists_members {members : Members} (exhaustive : r.combinations = .exhaustive)
    (composite : p.isComposite) (h : Variant r fuel entered p x) (found : members? x = some members) :
    ∃ those, members? p = some those := by
  cases p with
  | repeated inner => exact ⟨_, rfl⟩
  | object fields traits =>
    cases fuel with
    | zero => exact (not_expands_zero h.expands).elim
    | succ fuel =>
      obtain ⟨chosen, -, rfl⟩ := (variant_object exhaustive).mp h
      cases found
  | array elements knownAs => exact ⟨_, rfl⟩
  | _ => cases composite

end Composites

section Sequences

variable {r : Resolver} {fuel : Nat} {entered : List String} {p q x y : Pattern}

theorem Variant.not_repeated (guarded : Guarded r.types) (exhaustive : r.combinations = .exhaustive)
    (regular : Regular r.types p) (plain : p.isRepeated = false)
    (h : Variant r fuel entered p x) : x.isRepeated = false := by
  induction fuel generalizing entered p with
  | zero => exact (not_expands_zero h.expands).elim
  | succ fuel ih =>
    cases p with
    | repeated inner => cases plain
    | reference name =>
      by_cases met : name ∈ entered
      · rw [(variant_entered met).mp h]
        rfl
      · obtain ⟨q, found, variant⟩ := (variant_reference met).mp h
        obtain ⟨unfolds, below⟩ := regular_of_resolve regular guarded found
        refine ih below ?_ variant
        rcases Relation.ReflTransGen.cases_tail unfolds with rfl | ⟨c, chain, step⟩
        · rfl
        · exact (regular.of_reaches (.of_unfoldings chain)).not_repeated step
    | anyOf alternatives =>
      obtain ⟨o, rfl, -⟩ := regular.nullable
      have step : Unfolds r.types (.anyOf [.null, o]) o := .anyOf (by simp)
      rcases h.of_nullable with rfl | variant
      · rfl
      · exact ih (regular.unfold step) (regular.not_repeated step) variant
    | object fields traits =>
      obtain ⟨chosen, -, rfl⟩ := (variant_object exhaustive).mp h
      rfl
    | array elements knownAs =>
      obtain ⟨chosen, -, rfl⟩ := variant_array.mp h
      rfl
    | _ =>
      rw [(variant_basic rfl).mp h]
      rfl

theorem forall₂_concat {α β : Type} {R : α → β → Prop} {l : List α} {a : α} {bs : List β} :
    List.Forall₂ R (l ++ [a]) bs ↔ ∃ cs b, List.Forall₂ R l cs ∧ R a b ∧ bs = cs ++ [b] := by
  induction l generalizing bs with
  | nil =>
    simp only [List.nil_append, List.forall₂_cons_left_iff, List.forall₂_nil_left_iff]
    constructor
    · rintro ⟨b, _, related, rfl, rfl⟩
      exact ⟨[], b, rfl, related, rfl⟩
    · rintro ⟨_, b, rfl, related, rfl⟩
      exact ⟨b, [], related, rfl, rfl⟩
  | cons c rest ih =>
    simp only [List.cons_append, List.forall₂_cons_left_iff, ih]
    constructor
    · rintro ⟨d, _, first, ⟨cs, b, more, related, rfl⟩, rfl⟩
      exact ⟨d :: cs, b, ⟨d, cs, first, more, rfl⟩, related, rfl⟩
    · rintro ⟨_, b, ⟨d, cs, first, more, rfl⟩, related, rfl⟩
      exact ⟨d, cs ++ [b], first, ⟨cs, b, more, related, rfl⟩, rfl⟩

theorem ofElements_repeated {elements : List Pattern} :
    Members.ofElements (elements ++ [.repeated p]) = ⟨elements, some p⟩ := by
  simp [Members.ofElements]

theorem ofElements_fixed {elements : List Pattern}
    (h : ∀ last, elements.getLast? = some last → last.isRepeated = false) :
    Members.ofElements elements = ⟨elements, none⟩ := by
  unfold Members.ofElements
  split
  · next found => cases h _ found
  · rfl

theorem ofElements_cases (elements : List Pattern) :
    (∃ init inner, elements = init ++ [.repeated inner]) ∨
      ∀ last, elements.getLast? = some last → last.isRepeated = false := by
  induction elements using List.reverseRecOn with
  | nil => exact .inr nofun
  | append_singleton init last _ =>
    cases last with
    | repeated inner => exact .inl ⟨init, inner, rfl⟩
    | _ =>
      refine .inr fun other found => ?_
      simp only [List.getLast?_append, List.getLast?_singleton, Option.some_or,
        Option.some.injEq] at found
      subst found
      rfl

theorem option_rel_cases {α β : Type} {R : α → β → Prop} {a? : Option α} {b? : Option β}
    (h : Option.Rel R a? b?) : a? = none ∧ b? = none ∨ ∃ a b, a? = some a ∧ b? = some b ∧ R a b := by
  cases h with
  | some related => exact .inr ⟨_, _, rfl, rfl, related⟩
  | none => exact .inl ⟨rfl, rfl⟩

theorem Members.at?_of_related {R : Pattern → Pattern → Prop} {these those : Members} {i : Nat}
    (fixed : List.Forall₂ R these.fixed those.fixed) (tail : Option.Rel R these.tail those.tail)
    (place : those.at? i = some y) : ∃ q, these.at? i = some q ∧ R q y := by
  by_cases short : i < those.fixed.length
  · have there : those.fixed[i]? = some y := by
      simpa [Members.at?, short] using place
    obtain ⟨q, before, related⟩ := getElem?_of_forall₂ fixed there
    exact ⟨q, by simp [Members.at?, before], related⟩
  · have far : those.fixed.length ≤ i := Nat.le_of_not_lt short
    rw [Members.at?_eq_tail far] at place
    rw [← fixed.length_eq] at far
    rw [Members.at?_eq_tail far]
    rcases option_rel_cases tail with ⟨-, none⟩ | ⟨q, z, first, second, related⟩
    · rw [none] at place
      cases place
    · rw [second] at place
      cases place
      exact ⟨q, first, related⟩

structure MembersVary (r : Resolver) (entered : List String) (these those : Members) : Prop where
  fixed : List.Forall₂ (fun q y => ∃ fuel, Variant r fuel entered q y) these.fixed those.fixed
  tail : Option.Rel (fun q y => ∃ fuel, Variant r fuel entered q y) these.tail those.tail

namespace MembersVary

variable {these those : Members}

theorem length (h : MembersVary r entered these those) : those.fixed.length = these.fixed.length :=
  h.fixed.length_eq.symm

theorem at?_eq_some (h : MembersVary r entered these those) {i : Nat}
    (place : those.at? i = some y) :
    ∃ q, these.at? i = some q ∧ ∃ fuel, Variant r fuel entered q y :=
  Members.at?_of_related h.fixed h.tail place

theorem at?_isSome (h : MembersVary r entered these those) (i : Nat) :
    (those.at? i).isSome = (these.at? i).isSome := by
  have tail : those.tail.isSome = these.tail.isSome := by
    rcases option_rel_cases h.tail with ⟨first, second⟩ | ⟨q, z, first, second, -⟩ <;>
      rw [first, second]
    rfl
  by_cases short : i < these.fixed.length
  · simp [Members.at?, short, h.length]
  · have far := Nat.le_of_not_lt short
    rw [Members.at?_eq_tail far, Members.at?_eq_tail (by rw [h.length]; exact far), tail]

end MembersVary

variable (guarded : Guarded r.types) (exhaustive : r.combinations = .exhaustive)
  (regular : Regular r.types p)
include guarded exhaustive regular

theorem ofElements_of_fixed {elements chosen : List Pattern} {knownAs : Option String}
    (same : p = .array elements knownAs)
    (fixed : ∀ last, elements.getLast? = some last → last.isRepeated = false)
    (variants : List.Forall₂ (Variant r fuel entered) elements chosen) :
    Members.ofElements chosen = ⟨chosen, none⟩ := by
  subst same
  refine ofElements_fixed fun last found => ?_
  obtain ⟨init, rfl⟩ := List.getLast?_eq_some_iff.mp found
  obtain ⟨before, element, -, variant, rfl⟩ := forall₂_concat.mp variants.flip
  exact Variant.not_repeated guarded exhaustive (regular.part (.element (by simp)))
    (fixed element (by simp)) variant

theorem membersVary_of_array {elements chosen : List Pattern} {knownAs : Option String}
    (same : p = .array elements knownAs) (variants : List.Forall₂ (Variant r fuel entered) elements chosen) :
    MembersVary r entered (Members.ofElements elements) (Members.ofElements chosen) := by
  subst same
  rcases ofElements_cases elements with ⟨init, inner, rfl⟩ | fixed
  · obtain ⟨more, last, before, variant, rfl⟩ := forall₂_concat.mp variants
    cases fuel with
    | zero => exact (not_expands_zero variant.expands).elim
    | succ fuel =>
      obtain ⟨y, inside, rfl⟩ := variant_repeated.mp variant
      rw [ofElements_repeated, ofElements_repeated]
      exact ⟨before.imp fun _ _ h => ⟨_, h⟩, .some ⟨_, inside⟩⟩
  · rw [ofElements_fixed fixed,
      ofElements_of_fixed guarded exhaustive regular rfl fixed variants]
    exact ⟨variants.imp fun _ _ h => ⟨_, h⟩, .none⟩

theorem Variant.members? {members : Members} (found : members? p = some members)
    (h : Variant r fuel entered p x) : ∃ those, ApiContract.members? x = some those ∧
      isUnconstrained x = isUnconstrained p ∧ MembersVary r entered members those := by
  cases fuel with
  | zero => exact (not_expands_zero h.expands).elim
  | succ fuel =>
    cases p with
    | repeated inner =>
      cases found
      obtain ⟨y, variant, rfl⟩ := variant_repeated.mp h
      exact ⟨_, rfl, rfl, .nil, .some ⟨_, variant⟩⟩
    | array elements knownAs =>
      cases found
      obtain ⟨chosen, variants, rfl⟩ := variant_array.mp h
      refine ⟨_, rfl, ?_, membersVary_of_array guarded exhaustive regular rfl variants⟩
      cases variants <;> rfl
    | _ => cases found

omit guarded exhaustive in
theorem exists_variant_of_part (registry : WrittenTypes r.types)
    (exhaustive : r.combinations = .exhaustive) (part : Part p q)
    (expands : Expands r fuel entered q) : ∃ y, Variant r fuel entered q y :=
  exists_variant registry exhaustive (regular.arises q part.reaches) expands

def VariesAt (r : Resolver) (fuel : Nat) (entered : List String) (p : Pattern) (i : Nat)
    (q : Pattern) : Prop :=
  ∃ n, Expands r n entered q ∧ ∀ y, Variant r n entered q y →
    ∃ x those, Variant r fuel entered p x ∧ members? x = some those ∧ those.at? i = some y

section Arrays

omit guarded exhaustive regular

variable {elements : List Pattern} {knownAs : Option String} {i : Nat}

theorem variesAt_of_tail {inner : Pattern}
    (all : ∀ element ∈ elements ++ [.repeated inner], ∃ y, Variant r fuel entered element y)
    (place : Members.at? ⟨elements, some inner⟩ i = some q) :
    VariesAt r (fuel + 1) entered (.array (elements ++ [.repeated inner]) knownAs) i q := by
  have first (element : Pattern) (mem : element ∈ elements) := all element (by simp [mem])
  obtain ⟨last, variant⟩ := all (.repeated inner) (by simp)
  cases fuel with
  | zero => exact (not_expands_zero variant.expands).elim
  | succ fuel =>
    cases before : elements[i]? with
    | some o =>
      simp only [Members.at?, before, Option.some_or, Option.some.injEq] at place
      subst place
      obtain ⟨y, own⟩ := first o (List.mem_of_getElem? before)
      refine ⟨_, own.expands, fun y given => ?_⟩
      obtain ⟨chosen, variants, there⟩ := exists_forall₂_at first before given
      obtain ⟨z, inside, rfl⟩ := variant_repeated.mp variant
      refine ⟨_, _, variant_array.mpr
        ⟨_, forall₂_concat.mpr ⟨_, _, variants, variant, rfl⟩, rfl⟩, rfl, ?_⟩
      rw [ofElements_repeated]
      simp [Members.at?, there]
    | none =>
      simp only [Members.at?, before, Option.none_or, Option.some.injEq] at place
      subst place
      refine ⟨fuel, expands_repeated.mp variant.expands, fun y given => ?_⟩
      obtain ⟨chosen, variants⟩ := exists_forall₂ first
      refine ⟨_, _, variant_array.mpr ⟨_, forall₂_concat.mpr
        ⟨_, _, variants, variant_repeated.mpr ⟨y, given, rfl⟩, rfl⟩, rfl⟩, rfl, ?_⟩
      rw [ofElements_repeated]
      have short : chosen.length ≤ i := by
        rw [← variants.length_eq]
        exact List.getElem?_eq_none_iff.mp before
      simp [Members.at?, List.getElem?_eq_none short]

theorem variesAt_of_fixed (guarded : Guarded r.types) (exhaustive : r.combinations = .exhaustive)
    (regular : Regular r.types (.array elements knownAs))
    (fixed : ∀ last, elements.getLast? = some last → last.isRepeated = false)
    (all : ∀ element ∈ elements, ∃ y, Variant r fuel entered element y)
    (there : elements[i]? = some q) :
    VariesAt r (fuel + 1) entered (.array elements knownAs) i q := by
  obtain ⟨y, own⟩ := all q (List.mem_of_getElem? there)
  refine ⟨fuel, own.expands, fun y given => ?_⟩
  obtain ⟨chosen, variants, at_⟩ := exists_forall₂_at all there given
  refine ⟨_, _, variant_array.mpr ⟨chosen, variants, rfl⟩, rfl, ?_⟩
  rw [ofElements_of_fixed guarded exhaustive regular rfl fixed variants]
  simp [Members.at?, at_]

end Arrays

theorem exists_variant_at (registry : WrittenTypes r.types) (expands : Expands r fuel entered p)
    {members : Members} (found : members? p = some members) {i : Nat}
    (place : members.at? i = some q) : VariesAt r fuel entered p i q := by
  cases fuel with
  | zero => exact (not_expands_zero expands).elim
  | succ fuel =>
    cases p with
    | repeated inner =>
      cases found
      simp only [Members.at?, List.getElem?_nil, Option.none_or, Option.some.injEq] at place
      subst place
      refine ⟨fuel, expands_repeated.mp expands, fun y variant => ?_⟩
      exact ⟨_, _, variant_repeated.mpr ⟨y, variant, rfl⟩, rfl, rfl⟩
    | array elements knownAs =>
      cases found
      have total (element : Pattern) (mem : element ∈ elements) :
          ∃ y, Variant r fuel entered element y :=
        exists_variant_of_part regular registry exhaustive (.element mem)
          (expands_array.mp expands element mem)
      rcases ofElements_cases elements with ⟨init, inner, rfl⟩ | fixed
      · rw [ofElements_repeated] at place
        exact variesAt_of_tail total place
      · rw [ofElements_fixed fixed] at place
        exact variesAt_of_fixed guarded exhaustive regular fixed total
          (by simpa [Members.at?] using place)
    | _ => cases found

omit guarded regular in
theorem exists_choices {fields : List (String × Pattern)} {traits : ObjectTraits}
    (regular : Regular r.types (.object fields traits)) (registry : WrittenTypes r.types)
    (expands : Expands r (fuel + 1) entered (.object fields traits)) :
    ∀ field ∈ fields, ∃ choice, Choice r fuel entered field choice ∧
      (isOptional field.1 → choice = none) := by
  intro field mem
  have inside := (expands_object exhaustive).mp expands field mem
  by_cases optional : isOptional field.1
  · exact ⟨none, ⟨optional, inside⟩, fun _ => rfl⟩
  · obtain ⟨y, variant⟩ :=
      exists_variant_of_part regular registry exhaustive (.field mem) inside
    exact ⟨some (bareName field.1, y), ⟨rfl, variant⟩, fun h => absurd h optional⟩

end Sequences

end ApiContract
