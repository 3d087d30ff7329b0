import ApiContract.Proofs.Expanding
import ApiContract.Proofs.Narrowing

set_option autoImplicit false

/-!
What an exhaustive expansion covers. Keys, elements and unions choose independently, so each takes
the variant that its part of a value needs. A repeated pattern has one choice for many items: a
value is lost exactly where the items that fall to one need different variants of it.
-/
namespace ApiContract

structure Place where
  entered : List String
  pattern : Pattern
  value : Value

/-- From a place to the next one, in step with the expansion of the pattern. A reference that has
been entered stays as it is, so nothing lies behind it. -/
inductive Leads (r : Resolver) : Place → Place → Prop
  | reference {entered : List String} {name : String} {q : Pattern} {v : Value}
      (new : name ∉ entered) (found : r.resolve (.reference name) = .ok q) :
      Leads r ⟨entered, .reference name, v⟩ ⟨name :: entered, q, v⟩
  | anyOf {entered : List String} {alternatives : List Pattern} {q : Pattern} {v : Value}
      (mem : q ∈ alternatives) (taken : Accepts r q v) :
      Leads r ⟨entered, .anyOf alternatives, v⟩ ⟨entered, q, v⟩
  | member {entered : List String} {fields : List (String × Pattern)} {traits : ObjectTraits}
      {field : String × Pattern} {actual : List (String × Value)} {u : Value}
      (mem : field ∈ fields) (found : Entries.get? actual (bareName field.1) = some u) :
      Leads r ⟨entered, .object fields traits, .object actual⟩ ⟨entered, field.2, u⟩
  | item {entered : List String} {p q : Pattern} {members : Members} {items : List Value}
      {i : Nat} {u : Value} (found : members? p = some members)
      (place : members.at? i = some q) (there : items[i]? = some u) :
      Leads r ⟨entered, p, .array items⟩ ⟨entered, q, u⟩

def Meets (r : Resolver) : Place → Place → Prop :=
  Relation.ReflTransGen (Leads r)

namespace Place

structure Explicit (place : Place) : Prop where
  unmarked : ∀ actual, place.value = .object actual →
    ∀ key ∈ Entries.keys actual, isOptional key = false
  given : ∀ fields traits actual, place.pattern = .object fields traits →
    place.value = .object actual → ∀ field ∈ fields, isOptional field.1 →
      Entries.get? actual (bareName field.1) ≠ some .null

def Covered (r : Resolver) (place : Place) : Prop :=
  ∃ fuel x, Variant r fuel place.entered place.pattern x ∧ Accepts r x place.value

def Even (r : Resolver) (place : Place) : Prop :=
  ∀ members tail items, members? place.pattern = some members → members.tail = some tail →
    place.value = .array items → ∃ fuel y, Variant r fuel place.entered tail y ∧
      ∀ u ∈ items.drop members.fixed.length, Accepts r y u

end Place

section Places

variable {r : Resolver} {a b : Place}

theorem Leads.of_zip {entered : List String} {p : Pattern} {members : Members}
    {items : List Value} {pair : Pattern × Value} (found : members? p = some members)
    (mem : pair ∈ members.fixed.zip items) :
    Leads r ⟨entered, p, .array items⟩ ⟨entered, pair.1, pair.2⟩ := by
  obtain ⟨i, both⟩ := List.mem_iff_getElem?.mp mem
  obtain ⟨first, second⟩ := List.getElem?_zip_eq_some.mp both
  exact .item found (by simp [Members.at?, first]) second

theorem Leads.value_of_scalar (h : Leads r a b) (scalar : a.value.isScalar) :
    b.value = a.value := by
  cases h with
  | reference | anyOf => rfl
  | member | item => cases scalar

theorem Meets.value_of_scalar (h : Meets r a b) (scalar : a.value.isScalar) :
    b.value = a.value := by
  induction h with
  | refl => rfl
  | tail _ step ih => exact (step.value_of_scalar (ih ▸ scalar)).trans ih

theorem Place.even_of_scalar (scalar : a.value.isScalar) : a.Even r := by
  intro members tail items _ _ same
  rw [same] at scalar
  cases scalar

theorem Place.explicit_of_scalar (scalar : a.value.isScalar) : a.Explicit := by
  constructor
  · intro actual same
    rw [same] at scalar
    cases scalar
  · intro fields traits actual _ same
    rw [same] at scalar
    cases scalar

theorem Leads.reaches (guarded : Guarded r.types) (regular : Regular r.types a.pattern)
    (h : Leads r a b) : Reaches r.types a.pattern b.pattern := by
  cases h with
  | reference _ found => exact .of_unfoldings (regular_of_resolve regular guarded found).1
  | anyOf mem => exact Unfolds.reaches (.anyOf mem)
  | member mem => exact Part.reaches (.field mem)
  | item found place => exact (members?_part found place).reaches

def Place.Coverable (r : Resolver) (a : Place) : Prop :=
  ∀ b, Meets r a b → b.Explicit ∧ b.Even r

theorem Place.Coverable.leads (h : a.Coverable r) (step : Leads r a b) : b.Coverable r :=
  fun c more => h c (more.head step)

theorem Place.coverable_of_scalar (scalar : a.value.isScalar) : a.Coverable r := by
  intro b meets
  rw [← meets.value_of_scalar scalar] at scalar
  exact ⟨explicit_of_scalar scalar, even_of_scalar scalar⟩

end Places

section Depth

variable {r : Resolver} {p x : Pattern} {entered : List String} {n m : Nat}

theorem Variant.of_expands (guarded : Guarded r.types) (exhaustive : r.combinations = .exhaustive)
    (regular : Regular r.types p) (h : Variant r n entered p x) (expands : Expands r m entered p) :
    Variant r m entered p x := by
  -- By the one depth; the other one falls along with it.
  induction n generalizing m entered p x with
  | zero => exact (not_expands_zero h.expands).elim
  | succ n ih =>
    cases m with
    | zero => exact (not_expands_zero expands).elim
    | succ m =>
      cases p with
      | repeated inner =>
        obtain ⟨y, inside, rfl⟩ := variant_repeated.mp h
        exact variant_repeated.mpr
          ⟨y, ih (regular.part .inner) inside (expands_repeated.mp expands), rfl⟩
      | reference name =>
        by_cases met : name ∈ entered
        · exact (variant_entered met).mpr ((variant_entered met).mp h)
        · obtain ⟨q, found, inside⟩ := (variant_reference met).mp h
          obtain ⟨o, found', more⟩ := (expands_reference met).mp expands
          obtain rfl := Except.ok.inj (found.symm.trans found')
          exact (variant_reference met).mpr
            ⟨q, found, ih (regular_of_resolve regular guarded found).2 inside more⟩
      | anyOf alternatives =>
        obtain ⟨o, rfl, -⟩ := regular.nullable
        have below : Regular r.types o := regular.unfold (.anyOf (by simp))
        have more := expands_nullable.mp expands
        rw [variant_nullable fun y z => Variant.eq_of_same guarded exhaustive below]
        exact ⟨more, h.of_nullable.imp_right fun inside => ih below inside more⟩
      | object fields traits =>
        have all := (expands_object exhaustive).mp expands
        obtain ⟨chosen, choices, rfl⟩ := (variant_object exhaustive).mp h
        refine (variant_object exhaustive).mpr ⟨chosen, ?_, rfl⟩
        refine List.Forall₂.imp ?_ ((List.forall₂_and_left _ _).mpr ⟨fun _ mem => mem, choices⟩)
        rintro field choice ⟨mem, own⟩
        cases choice with
        | none => exact ⟨own.1, all field mem⟩
        | some entry => exact ⟨own.1, ih (regular.part (.field mem)) own.2 (all field mem)⟩
      | array elements knownAs =>
        have all := expands_array.mp expands
        obtain ⟨chosen, variants, rfl⟩ := variant_array.mp h
        refine variant_array.mpr ⟨chosen, ?_, rfl⟩
        refine List.Forall₂.imp ?_ ((List.forall₂_and_left _ _).mpr ⟨fun _ mem => mem, variants⟩)
        rintro element y ⟨mem, own⟩
        exact ih (regular.part (.element mem)) own (all element mem)
      | _ => exact (variant_basic rfl).mpr ((variant_basic rfl).mp h)

end Depth

theorem isUnconstrained_of_at? {p q : Pattern} {members : Members} {i : Nat}
    (found : members? p = some members) (place : members.at? i = some q) :
    isUnconstrained p = false := by
  cases p with
  | array elements knownAs =>
    cases elements with
    | nil =>
      cases found
      cases place
    | cons => rfl
  | _ => rfl

def Pattern.isStrict : Pattern → Bool
  | .object _ traits => traits.unexpected = .reject
  | _ => true

def Strict (types : Entries Pattern) (p : Pattern) : Prop :=
  ∀ fields traits, Reaches types p (.object fields traits) → traits.unexpected = .reject

section Lost

variable {r : Resolver} {a b : Place}

variable (guarded : Guarded r.types) (exhaustive : r.combinations = .exhaustive)
  (regular : Regular r.types a.pattern)
include guarded exhaustive regular

theorem covered_of_member {fields : List (String × Pattern)} {traits : ObjectTraits}
    {actual : List (String × Value)} {field : String × Pattern} {u : Value}
    (object : a.pattern = .object fields traits) (same : a.value = .object actual)
    (strict : traits.unexpected = .reject) (covered : a.Covered r) (mem : field ∈ fields)
    (found : Entries.get? actual (bareName field.1) = some u) :
    Place.Covered r ⟨a.entered, field.2, u⟩ := by
  obtain ⟨fuel, x, variant, accepted⟩ := covered
  have registered := variant.registered guarded exhaustive regular
  rw [object] at regular variant
  rw [same] at accepted
  have keys := regular.bare
  cases fuel with
  | zero => exact (not_expands_zero variant.expands).elim
  | succ fuel =>
    obtain ⟨chosen, choices, rfl⟩ := (variant_tidyObject keys.distinct exhaustive).mp variant
    obtain ⟨_, same, fits⟩ := (accepts_object guarded registered).mp accepted
    cases same
    have there : bareName field.1 ∈ Entries.keys actual :=
      List.mem_map_of_mem (f := Prod.fst) (Entries.mem_of_get? found)
    obtain ⟨⟨key, y⟩, declared⟩ := Option.isSome_iff_exists.mp (fits.declared strict _ there)
    obtain ⟨other, known, rfl, own, inside⟩ := exists_field_of_chosen keys choices declared
    obtain rfl : other = field := List.inj_on_of_nodup_map keys.distinct known mem own
    have unmarked := keys.unmarked other known
    refine ⟨fuel, y, inside, (fits.members _ (mem_of_field? declared) u ?_).resolve_left ?_⟩
    · rwa [bareName_of_required unmarked]
    · simp [unmarked]

theorem Place.Covered.fits {members : Members} {items : List Value} (covered : a.Covered r)
    (found : members? a.pattern = some members) (same : a.value = .array items)
    (constrained : isUnconstrained a.pattern = false) :
    ∃ those, MembersVary r a.entered members those ∧ FitsMembers (Accepts r) those items := by
  obtain ⟨fuel, x, variant, accepted⟩ := covered
  have registered := variant.registered guarded exhaustive regular
  obtain ⟨those, found', unconstrained, vary⟩ :=
    variant.members? guarded exhaustive regular found
  obtain ⟨_, same', fits⟩ := (accepts_sequence guarded registered found').mp accepted
  cases same.symm.trans same'
  exact ⟨those, vary, fits.resolve_left (by simp [unconstrained, constrained])⟩

theorem Leads.covered (strict : Strict r.types a.pattern) (h : Leads r a b)
    (covered : a.Covered r) : b.Covered r ∨ b.value.isScalar := by
  cases h with
  | reference new found =>
    obtain ⟨fuel, x, variant, accepted⟩ := covered
    cases fuel with
    | zero => exact (not_expands_zero variant.expands).elim
    | succ fuel =>
      obtain ⟨o, found', inside⟩ := (variant_reference new).mp variant
      obtain rfl := Except.ok.inj (found.symm.trans found')
      exact .inl ⟨fuel, x, inside, accepted⟩
  | @anyOf _ alternatives q v mem taken =>
    -- What null takes has no parts, so it does not matter which alternative the variant is of.
    have null (ok : Accepts r .null v) : v.isScalar := by
      rcases accepts_null.mp ok with rfl | rfl <;> rfl
    obtain ⟨o, rfl, -⟩ := regular.nullable
    rcases List.mem_cons.mp mem with rfl | mem
    · exact .inr (null taken)
    obtain rfl := List.mem_singleton.mp mem
    obtain ⟨fuel, x, variant, accepted⟩ := covered
    cases fuel with
    | zero => exact (not_expands_zero variant.expands).elim
    | succ fuel =>
      rcases variant.of_nullable with rfl | inside
      · exact .inr (null accepted)
      · exact .inl ⟨fuel, x, inside, accepted⟩
  | member mem found =>
    exact .inl (covered_of_member guarded exhaustive regular rfl rfl
      (strict _ _ (Reaches.refl _)) covered mem found)
  | item found place there =>
    obtain ⟨those, vary, fits⟩ := covered.fits guarded exhaustive regular found rfl
      (isUnconstrained_of_at? found place)
    obtain ⟨y, place', ok⟩ := fits.items _ _ there
    obtain ⟨_, again, fuel, inside⟩ := vary.at?_eq_some place'
    cases place.symm.trans again
    exact .inl ⟨fuel, y, inside, ok⟩

theorem Meets.covered (strict : Strict r.types a.pattern) (h : Meets r a b)
    (covered : a.Covered r) : Reaches r.types a.pattern b.pattern ∧
      (b.Covered r ∨ b.value.isScalar) := by
  induction h with
  | refl => exact ⟨Reaches.refl _, .inl covered⟩
  | tail _ step ih =>
    obtain ⟨reaches, here⟩ := ih
    have below := regular.of_reaches reaches
    refine ⟨reaches.trans (step.reaches guarded below), ?_⟩
    rcases here with covered | scalar
    · exact step.covered guarded exhaustive below
        (fun fields traits more => strict fields traits (reaches.trans more)) covered
    · exact .inr (step.value_of_scalar scalar ▸ scalar)

theorem Place.Covered.even (covered : a.Covered r) : a.Even r := by
  intro members tail items found endless same
  have beyond : members.at? members.fixed.length = some tail :=
    (Members.at?_eq_tail (Nat.le_refl _)).trans endless
  obtain ⟨those, vary, fits⟩ := covered.fits guarded exhaustive regular found same
    (isUnconstrained_of_at? found beyond)
  obtain ⟨-, -, rest⟩ := fitsMembers_iff.mp fits
  rcases option_rel_cases vary.tail with ⟨missing, -⟩ | ⟨_, y, first, second, fuel, inside⟩
  · rw [endless] at missing
    cases missing
  · cases endless.symm.trans first
    refine ⟨fuel, y, inside, fun u mem => ?_⟩
    rw [← vary.length] at mem
    obtain ⟨_, again, ok⟩ := rest u mem
    cases second.symm.trans again
    exact ok

end Lost

section Kept

variable {r : Resolver} {p : Pattern} {v : Value} {entered : List String} {fuel : Nat}

def Serves (r : Resolver) (actual : List (String × Value)) (field : String × Pattern) :
    FieldChoice → Prop
  | none => Entries.get? actual (bareName field.1) = none
  | some (_, y) => Accepts r y ((Entries.get? actual (bareName field.1)).getD .null)

theorem fitsObject_of_serves {fields : List (String × Pattern)} {chosen : List FieldChoice}
    {unexpected : UnexpectedKeys} {actual : List (String × Value)} (keys : BareKeys fields)
    (unmarked : ∀ key ∈ Entries.keys actual, isOptional key = false)
    (fits : FitsObject (Accepts r) fields unexpected actual)
    (choices : List.Forall₂ (fun field choice => Choice r fuel entered field choice ∧
      Serves r actual field choice) fields chosen) :
    FitsObject (Accepts r) (chosenFields chosen) unexpected actual := by
  have bare {field : String × Pattern} (mem : field ∈ fields) :
      bareName (bareName field.1) = bareName field.1 :=
    bareName_of_required (keys.unmarked field mem)
  constructor
  · intro entry mem
    obtain ⟨field, known, ⟨own, -⟩, serves⟩ :=
      exists_of_forall₂_mem choices (mem_chosenFields.mp (mem_of_requiredFields mem).1)
    rw [own]
    cases found : Entries.get? actual (bareName field.1) with
    | none => exact .inr (by simpa [Serves, found] using serves)
    | some u => exact .inl (by simp [Entries.contains, found])
  · intro reject key there
    obtain ⟨⟨name, q⟩, declared⟩ := Option.isSome_iff_exists.mp (fits.declared reject key there)
    have same : bareName name = key := bareName_of_field? declared (unmarked key there)
    obtain ⟨choice, put, own, serves⟩ :=
      exists_of_forall₂_mem choices.flip (mem_of_field? declared)
    cases choice with
    | none =>
      obtain ⟨⟨_, u⟩, mem, rfl⟩ := List.mem_map.mp there
      have given : Entries.contains actual (bareName name) := same ▸ Entries.contains_of_mem mem
      simp only [Serves] at serves
      simp [Entries.contains, serves] at given
    | some entry =>
      have kept := field?_isSome_of_mem (mem_chosenFields.mpr put)
      rwa [own.1, bare (mem_of_field? declared), same] at kept
  · intro entry mem u found
    obtain ⟨field, known, ⟨own, -⟩, serves⟩ :=
      exists_of_forall₂_mem choices (mem_chosenFields.mp mem)
    rw [own, bare known] at found
    exact .inr (by simpa [Serves, found] using serves)

theorem exists_forall₂_zip {α β γ : Type} {R : α → γ → Prop} {S : γ → β → Prop} {as : List α}
    {bs : List β} (long : as.length ≤ bs.length)
    (h : ∀ pair ∈ as.zip bs, ∃ c, R pair.1 c ∧ S c pair.2) :
    ∃ cs, List.Forall₂ R as cs ∧ ∀ pair ∈ cs.zip bs, S pair.1 pair.2 := by
  induction as generalizing bs with
  | nil => exact ⟨[], .nil, nofun⟩
  | cons a as ih =>
    cases bs with
    | nil => cases long
    | cons b bs =>
      rw [List.zip_cons_cons, List.forall_mem_cons] at h
      obtain ⟨⟨c, first, second⟩, later⟩ := h
      obtain ⟨cs, related, taken⟩ := ih (Nat.le_of_succ_le_succ long) later
      exact ⟨c :: cs, .cons first related, List.forall_mem_cons.mpr ⟨second, taken⟩⟩

theorem exists_choice {fields : List (String × Pattern)} {field : String × Pattern}
    {unexpected : UnexpectedKeys} {actual : List (String × Value)}
    (fits : FitsObject (Accepts r) fields unexpected actual) (mem : field ∈ fields)
    (given : isOptional field.1 → Entries.get? actual (bareName field.1) ≠ some .null)
    (expands : Expands r fuel entered field.2)
    (inside : ∀ u, Entries.get? actual (bareName field.1) = some u ∨ u = .null →
      Accepts r field.2 u → ∃ y, Variant r fuel entered field.2 y ∧ Accepts r y u) :
    ∃ choice, Choice r fuel entered field choice ∧ Serves r actual field choice := by
  cases found : Entries.get? actual (bareName field.1) with
  | some u =>
    have some_ (absent : isOptional field.1 ∧ u.isNull) : False := by
      refine given absent.1 (found.trans ?_)
      cases u <;> first | rfl | cases absent.2
    obtain ⟨y, variant, taken⟩ :=
      inside u (.inl found) ((fits.members field mem u found).resolve_left some_)
    exact ⟨some (bareName field.1, y), ⟨rfl, variant⟩, by simpa [Serves, found] using taken⟩
  | none =>
    by_cases optional : isOptional field.1
    · exact ⟨none, ⟨optional, expands⟩, found⟩
    · -- A required key may only be missing where null does for it.
      have required : isOptional field.1 = false := by simpa using optional
      have missing : ¬ Entries.contains actual field.1 := by
        rw [bareName_of_required required] at found
        simp [Entries.contains, found]
      have null := (fits.required field (List.mem_filter.mpr ⟨mem, by simp [required]⟩)).resolve_left
        missing
      obtain ⟨y, variant, taken⟩ := inside .null (.inr rfl) null
      exact ⟨some (bareName field.1, y), ⟨rfl, variant⟩, by simpa [Serves, found] using taken⟩

variable (guarded : Guarded r.types) (exhaustive : r.combinations = .exhaustive)
include guarded exhaustive

theorem exists_elements {elements : List Pattern} {knownAs : Option String} {items : List Value}
    (regular : Regular r.types (.array elements knownAs))
    (all : ∀ element ∈ elements, Expands r fuel entered element)
    (fits : FitsMembers (Accepts r) (Members.ofElements elements) items)
    (inside : ∀ pair ∈ (Members.ofElements elements).fixed.zip items,
      ∃ y, Variant r fuel entered pair.1 y ∧ Accepts r y pair.2)
    (even : Place.Even r ⟨entered, .array elements knownAs, .array items⟩) :
    ∃ chosen, List.Forall₂ (Variant r fuel entered) elements chosen ∧
      FitsMembers (Accepts r) (Members.ofElements chosen) items := by
  -- The items in front choose one by one, those of the tail all at once.
  obtain ⟨chosen, variants, taken⟩ := exists_forall₂_zip fits.length inside
  have length := variants.length_eq
  rcases ofElements_cases elements with ⟨init, inner, rfl⟩ | fixed
  · obtain ⟨_, y, variant, each⟩ := even _ inner items rfl (by rw [ofElements_repeated]) rfl
    rw [ofElements_repeated] at variants length each fits
    have last : Variant r fuel entered (.repeated inner) (.repeated y) := by
      have more := all (.repeated inner) (by simp)
      cases fuel with
      | zero => exact (not_expands_zero more).elim
      | succ fuel =>
        exact variant_repeated.mpr ⟨y, variant.of_expands guarded exhaustive
          (regular.part (.tail (by simp))) (expands_repeated.mp more), rfl⟩
    refine ⟨chosen ++ [.repeated y], forall₂_concat.mpr ⟨_, _, variants, last, rfl⟩, ?_⟩
    rw [ofElements_repeated, fitsMembers_iff]
    exact ⟨length ▸ fits.length, taken, fun u mem => ⟨y, rfl, each u (length ▸ mem)⟩⟩
  · rw [ofElements_fixed fixed] at variants length fits
    obtain ⟨long, -, rest⟩ := fitsMembers_iff.mp fits
    refine ⟨chosen, variants, ?_⟩
    rw [ofElements_of_fixed guarded exhaustive regular rfl fixed variants, fitsMembers_iff]
    exact ⟨length ▸ long, taken, fun u mem => by
      obtain ⟨_, none_, -⟩ := rest u (length ▸ mem)
      cases none_⟩

theorem exists_variant_taking (regular : Regular r.types p) (expands : Expands r fuel entered p)
    (accepted : Accepts r p v) (coverable : Place.Coverable r ⟨entered, p, v⟩) :
    ∃ x, Variant r fuel entered p x ∧ Accepts r x v := by
  -- By the depth: each kind of pattern puts its variant together from those for what comes next.
  induction fuel generalizing entered p v with
  | zero => exact (not_expands_zero expands).elim
  | succ fuel ih =>
    obtain ⟨explicit, even⟩ := coverable _ .refl
    have registered {x : Pattern} (variant : Variant r (fuel + 1) entered p x) :
        Registered r.types x := variant.registered guarded exhaustive regular
    cases p with
    | repeated inner =>
      obtain ⟨items, rfl, -⟩ := (accepts_sequence guarded regular.registered rfl).mp accepted
      obtain ⟨_, y, variant, each⟩ := even _ inner items rfl rfl rfl
      have whole : Variant r (fuel + 1) entered (.repeated inner) (.repeated y) :=
        variant_repeated.mpr ⟨y, variant.of_expands guarded exhaustive (regular.part .inner)
          (expands_repeated.mp expands), rfl⟩
      refine ⟨_, whole, (accepts_sequence guarded (registered whole) rfl).mpr
        ⟨items, rfl, .inr (fitsMembers_iff.mpr ⟨Nat.zero_le _, nofun, fun u mem => ?_⟩)⟩⟩
      exact ⟨y, rfl, each u mem⟩
    | reference name =>
      by_cases met : name ∈ entered
      · exact ⟨_, (variant_entered met).mpr rfl, accepted⟩
      · obtain ⟨q, found, more⟩ := (expands_reference met).mp expands
        have ok : Accepts r q v := by
          rwa [Accepts, Pattern.check_resolved guarded regular.registered found] at accepted
        obtain ⟨x, inside, taken⟩ := ih (regular_of_resolve regular guarded found).2 more ok
          (coverable.leads (.reference met found))
        exact ⟨x, (variant_reference met).mpr ⟨q, found, inside⟩, taken⟩
    | anyOf alternatives =>
      obtain ⟨o, rfl, -⟩ := regular.nullable
      have below : Regular r.types o := regular.unfold (.anyOf (by simp))
      have more := expands_nullable.mp expands
      have either (x : Pattern) (h : x = .null ∨ Variant r fuel entered o x) :
          Variant r (fuel + 1) entered (.anyOf [.null, o]) x :=
        (variant_nullable fun y z => Variant.eq_of_same guarded exhaustive below).mpr ⟨more, h⟩
      obtain ⟨q, mem, ok⟩ := (accepts_anyOf guarded regular.registered).mp accepted
      rcases List.mem_cons.mp mem with rfl | mem
      · exact ⟨.null, either _ (.inl rfl), ok⟩
      · obtain rfl := List.mem_singleton.mp mem
        obtain ⟨x, inside, taken⟩ := ih below more ok (coverable.leads (.anyOf (by simp) ok))
        exact ⟨x, either x (.inr inside), taken⟩
    | object fields traits =>
      obtain ⟨actual, rfl, fits⟩ := (accepts_object guarded regular.registered).mp accepted
      have all := (expands_object exhaustive).mp expands
      obtain ⟨chosen, choices⟩ := exists_forall₂ fun field mem =>
        exists_choice fits mem (explicit.given _ _ _ rfl rfl field mem) (all field mem)
          fun u falls ok => ih (regular.part (.field mem)) (all field mem) ok <|
            falls.elim (fun found => coverable.leads (.member mem found))
              fun null => Place.coverable_of_scalar (null ▸ rfl)
      have whole : Variant r (fuel + 1) entered (.object fields traits)
          (.object (chosenFields chosen) traits) :=
        (variant_tidyObject regular.bare.distinct exhaustive).mpr
          ⟨chosen, choices.imp fun _ _ h => h.1, rfl⟩
      exact ⟨_, whole, (accepts_object guarded (registered whole)).mpr ⟨actual, rfl,
        fitsObject_of_serves regular.bare (explicit.unmarked _ rfl) fits choices⟩⟩
    | array elements knownAs =>
      obtain ⟨items, rfl, open_ | fits⟩ :=
        (accepts_sequence guarded regular.registered rfl).mp accepted
      · obtain rfl : elements = [] := List.isEmpty_iff.mp open_
        exact ⟨_, variant_array.mpr ⟨[], .nil, rfl⟩, accepted⟩
      · have all := expands_array.mp expands
        have inside (pair : Pattern × Value)
            (mem : pair ∈ (Members.ofElements elements).fixed.zip items) :
            ∃ y, Variant r fuel entered pair.1 y ∧ Accepts r y pair.2 := by
          have element := Members.mem_of_fixed (List.of_mem_zip mem).1
          exact ih (regular.part (.element element)) (all _ element)
            ((fitsMembers_iff.mp fits).2.1 pair mem) (coverable.leads (.of_zip rfl mem))
        obtain ⟨chosen, variants, fits⟩ :=
          exists_elements guarded exhaustive regular all fits inside even
        have whole : Variant r (fuel + 1) entered (.array elements knownAs)
            (.array chosen knownAs) := variant_array.mpr ⟨chosen, variants, rfl⟩
        exact ⟨_, whole, (accepts_sequence guarded (registered whole) rfl).mpr
          ⟨items, rfl, .inr fits⟩⟩
    | _ => exact ⟨_, (variant_basic rfl).mpr rfl, accepted⟩

end Kept

/-- An exhaustive expansion of a pattern of a document ends, and one of its variants takes a value
that the pattern takes exactly when no tail that the value meets asks for two of them. -/
theorem variants_cover_iff {r : Resolver} {json : Json} {p : Pattern} {v : Value}
    (registry : WrittenTypes r.types) (guarded : Guarded r.types)
    (exhaustive : r.combinations = .exhaustive) (read : Pattern.ofJson json = .ok p)
    (tidy : Tidy r.types p) (strict : Strict r.types p) (accepted : Accepts r p v)
    (explicit : ∀ place, Meets r ⟨[], p, v⟩ place → place.Explicit) :
    ∃ variants, p.expand r [] = pure variants ∧ ((∃ x ∈ variants, Accepts r x v) ↔
      ∀ place, Meets r ⟨[], p, v⟩ place → place.Even r) := by
  have regular : Regular r.types p := .of_written registry (written_ofJson read) tidy
  obtain ⟨variants, expansion⟩ := exists_expansion guarded exhaustive regular
  refine ⟨variants, expansion, ?_, fun even => ?_⟩
  · rintro ⟨x, mem, taken⟩ place meets
    have start : Place.Covered r ⟨[], p, v⟩ :=
      ⟨_, x, (variant_of_expand expansion).mpr mem, taken⟩
    obtain ⟨reaches, covered | scalar⟩ := meets.covered guarded exhaustive regular strict start
    · exact covered.even guarded exhaustive (regular.of_reaches reaches)
    · exact Place.even_of_scalar scalar
  · obtain ⟨x, variant, taken⟩ := exists_variant_taking guarded exhaustive regular
      ⟨variants, expansion⟩ accepted fun place meets => ⟨explicit place meets, even place meets⟩
    exact ⟨x, (variant_of_expand expansion).mp variant, taken⟩

section Listing

variable {r : Resolver} {a b : Place}

def itemPlaces (entered : List String) (members : Members) (items : List Value) : List Place :=
  items.zipIdx.filterMap fun item =>
    (members.at? item.2).map fun q => ⟨entered, q, item.1⟩

def placesAfter (r : Resolver) (a : Place) : List Place :=
  match a.pattern, a.value with
  | .reference name, v =>
      if name ∈ a.entered then [] else
        (r.resolve (.reference name)).toOption.toList.map fun q => ⟨name :: a.entered, q, v⟩
  | .anyOf alternatives, v => alternatives.map fun q => ⟨a.entered, q, v⟩
  | .object fields _, .object actual => fields.filterMap fun field =>
      (Entries.get? actual (bareName field.1)).map fun u => ⟨a.entered, field.2, u⟩
  | p, .array items => ((members? p).map fun members => itemPlaces a.entered members items).getD []
  | _, _ => []

theorem mem_itemPlaces {entered : List String} {members : Members} {items : List Value} {i : Nat}
    {q : Pattern} {u : Value} (place : members.at? i = some q) (there : items[i]? = some u) :
    ⟨entered, q, u⟩ ∈ itemPlaces entered members items :=
  List.mem_filterMap.mpr ⟨(u, i), List.mk_mem_zipIdx_iff_getElem?.mpr there, by simp [place]⟩

theorem mem_placesAfter (h : Leads r a b) : b ∈ placesAfter r a := by
  cases h with
  | reference new found => simp [placesAfter, new, found, Except.toOption]
  | anyOf mem => exact List.mem_map_of_mem mem
  | member mem found => exact List.mem_filterMap.mpr ⟨_, mem, by simp [found]⟩
  | @item _ p _ _ _ _ _ found place there =>
    cases p with
    | array | repeated =>
      cases found
      exact mem_itemPlaces place there
    | _ => cases found

namespace Place

def isExplicit (a : Place) : Bool :=
  match a.value with
  | .object actual => (Entries.keys actual).all (fun key => !isOptional key) &&
      match a.pattern with
      | .object fields _ => fields.all fun field =>
          !isOptional field.1 || !(Entries.get? actual (bareName field.1)).any Value.isNull
      | _ => true
  | _ => true

theorem explicit_of_isExplicit (h : a.isExplicit) : a.Explicit := by
  constructor
  · intro actual same key mem
    simp only [isExplicit, same, Bool.and_eq_true, List.all_eq_true, Bool.not_eq_true'] at h
    exact h.1 key mem
  · intro fields traits actual object same field mem optional null
    simp only [isExplicit, same, object, Bool.and_eq_true, List.all_eq_true] at h
    simpa [optional, null, Value.isNull] using h.2 field mem

def isEven (n : Nat) (r : Resolver) (a : Place) : Bool :=
  match members? a.pattern, a.value with
  | some members, .array items => members.tail.all fun tail =>
      match tail.expandWithin n r [] a.entered with
      | some (.ok variants) => variants.any fun y =>
          (items.drop members.fixed.length).all fun u => y.check r u = some .success
      | _ => false
  | _, _ => true

theorem even_of_isEven {n : Nat} (h : a.isEven n r) : a.Even r := by
  intro members tail items found endless same
  simp only [isEven, found, same, endless, Option.all_some] at h
  split at h
  · next variants expansion =>
    obtain ⟨y, mem, each⟩ := List.any_eq_true.mp h
    refine ⟨n, y, ⟨variants, expansion, mem⟩, fun u there => ?_⟩
    exact show y.check r u = some .success from
      of_decide_eq_true (List.all_eq_true.mp each u there)
  · cases h

end Place

def holdsWithin (check : Place → Bool) : Nat → Resolver → Place → Bool
  | 0, _, _ => false
  | depth + 1, r, a => check a && (placesAfter r a).all (holdsWithin check depth r)

theorem Meets.of_holdsWithin {check : Place → Bool} {depth : Nat} (meets : Meets r a b)
    (h : holdsWithin check depth r a) : check b := by
  induction meets using Relation.ReflTransGen.head_induction_on generalizing depth with
  | refl =>
    cases depth with
    | zero => cases h
    | succ depth => exact (Bool.and_eq_true_iff.mp h).1
  | head first _ ih =>
    cases depth with
    | zero => cases h
    | succ depth =>
      exact ih (List.all_eq_true.mp (Bool.and_eq_true_iff.mp h).2 _ (mem_placesAfter first))

theorem Strict.of_all {types : Entries Pattern} {p : Pattern}
    (h : (reachable types p).all Pattern.isStrict) : Strict types p := by
  intro fields traits reach
  exact of_decide_eq_true (List.all_eq_true.mp h _ reach.mem_reachable)

@[simp] theorem Resolver.types_withCombinations (r : Resolver) (combinations : KeyCombinations) :
    (r.withCombinations combinations).types = r.types := rfl

@[simp] theorem Resolver.combinations_withCombinations (r : Resolver)
    (combinations : KeyCombinations) :
    (r.withCombinations combinations).combinations = combinations := rfl

def shelvesText : String :=
  "[\"\",\x7b\"S\":\x7b\"tags\":[\"(string)\",\"(number?...)\"],\"next?\":\"(S)\"\x7d\x7d,\x7b\x7d,"
    ++ "[[\"\",[],[\"PUT\",\"/\",\x7b\x7d,\x7b\x7d,\"(S)\"],[200]]]]"

def shelves : Resolver :=
  (featureOf shelvesText).resolver.withCombinations .exhaustive

def shelf : Value :=
  .object [("tags", .array [.string "a", .number (.whole ⟨1, by decide⟩)]),
    ("next", .object [("tags", .array [.string "b", .null, .number (.whole ⟨2, by decide⟩)])])]

theorem shelf_covered : ∃ variants, (patternOf (.string "(S)")).expand shelves [] = pure variants ∧
    ∃ x ∈ variants, Accepts shelves x shelf := by
  have fine : (Pattern.ofJson (.string "(S)")).isOk && !(featureOf shelvesText).active.isEmpty &&
      isTidyPattern 1 shelves.types (patternOf (.string "(S)")) &&
      (reachable shelves.types (patternOf (.string "(S)"))).all Pattern.isStrict &&
      decide ((patternOf (.string "(S)")).check shelves shelf = some .success) &&
      holdsWithin Place.isExplicit 5 shelves ⟨[], patternOf (.string "(S)"), shelf⟩ &&
      holdsWithin (Place.isEven 4 shelves) 5 shelves ⟨[], patternOf (.string "(S)"), shelf⟩ := by
    decide +kernel
  simp only [Bool.and_eq_true, Bool.not_eq_true', List.isEmpty_eq_false_iff, decide_eq_true_eq]
    at fine
  obtain ⟨⟨⟨⟨⟨⟨read, active⟩, tidy⟩, strict⟩, accepted⟩, explicit⟩, even⟩ := fine
  obtain ⟨guarded, tidy⟩ := guarded_and_tidy tidy
  have registry : WrittenTypes shelves.types := by
    rw [shelves, Resolver.types_withCombinations]
    exact (documented_feature (read_featureOf active)).written
  have exhaustive : shelves.combinations = .exhaustive := by
    rw [shelves, Resolver.combinations_withCombinations]
  obtain ⟨variants, expansion, covered⟩ := variants_cover_iff registry guarded exhaustive
    (ofJson_patternOf read) tidy (.of_all strict) accepted fun place meets =>
      Place.explicit_of_isExplicit (meets.of_holdsWithin explicit)
  exact ⟨variants, expansion, covered.mpr fun place meets =>
    Place.even_of_isEven (meets.of_holdsWithin even)⟩

def untyped : Resolver :=
  Resolver.empty.withCombinations .exhaustive

def mixedItems : Value :=
  .array [.null, .number (.whole ⟨1, by decide⟩)]

theorem mixed_items_lost : ∃ p, Pattern.ofJson (.array [.string "(number?...)"]) = .ok p ∧
    WrittenTypes untyped.types ∧ Guarded untyped.types ∧ Tidy untyped.types p ∧
      Strict untyped.types p ∧ Accepts untyped p mixedItems ∧ mixedItems.integral ∧
        (∀ place, Meets untyped ⟨[], p, mixedItems⟩ place → place.Explicit) ∧
          ∃ variants, p.expand untyped [] = pure variants ∧
            ∀ x ∈ variants, ¬ Accepts untyped x mixedItems := by
  obtain ⟨p, same⟩ : ∃ p, p = patternOf (.array [.string "(number?...)"]) := ⟨_, rfl⟩
  have fine : (Pattern.ofJson (.array [.string "(number?...)"])).isOk &&
      isTidyPattern 1 untyped.types p && (reachable untyped.types p).all Pattern.isStrict &&
      decide (p.check untyped mixedItems = some .success) && mixedItems.integral &&
      holdsWithin Place.isExplicit 4 untyped ⟨[], p, mixedItems⟩ &&
      !(variantsOf untyped [] p).isEmpty &&
      (variantsOf untyped [] p).all fun x => x.check untyped mixedItems ≠ some .success := by
    rw [same]
    decide +kernel
  simp only [Bool.and_eq_true, Bool.not_eq_true', List.isEmpty_eq_false_iff, List.all_eq_true,
    decide_eq_true_eq] at fine
  obtain ⟨⟨⟨⟨⟨⟨⟨read, tidy⟩, strict⟩, accepted⟩, integral⟩, explicit⟩, given⟩, lost⟩ := fine
  obtain ⟨guarded, tidy⟩ := guarded_and_tidy tidy
  refine ⟨p, same ▸ ofJson_patternOf read, fun _ _ _ named => ?_, guarded, tidy,
    .of_all (List.all_eq_true.mpr strict), accepted, integral, fun place meets =>
      Place.explicit_of_isExplicit (meets.of_holdsWithin explicit),
    _, expand_variantsOf given, lost⟩
  cases named

end Listing

end ApiContract
