import Mathlib.Data.List.Forall2
import Mathlib.Data.List.Induction
import ApiContract.Pattern.Expansion
import ApiContract.Proofs.Tidy

set_option autoImplicit false

namespace ApiContract

namespace Attempt

variable {α β : Type}

theorem bind_eq_pure {x : Attempt α} {f : α → Attempt β} {b : β} :
    x >>= f = pure b ↔ ∃ a, x = pure a ∧ f a = pure b := by
  have pure_eq {γ : Type} (c : γ) : (pure c : Attempt γ) = (some (.ok c) : Option (Contractual γ)) :=
    rfl
  simp only [pure_eq]
  cases (x : Option (Contractual α)) with
  | none => exact ⟨nofun, nofun⟩
  | some result =>
    cases result with
    | error e => exact ⟨nofun, nofun⟩
    | ok a =>
      constructor
      · exact fun h => ⟨a, rfl, h⟩
      · rintro ⟨c, same, h⟩
        cases same
        exact h

theorem pure_inj {a b : α} : (pure a : Attempt α) = pure b ↔ a = b := by
  constructor
  · intro h
    cases h
    rfl
  · rintro rfl
    rfl

theorem bind_pure_eq_pure {x : Attempt α} {f : α → β} {b : β} :
    (x >>= fun a => pure (f a)) = pure b ↔ ∃ a, x = pure a ∧ f a = b := by
  simp only [bind_eq_pure, pure_inj]

theorem under_eq_pure {crumb : String} {x : Attempt α} {a : α} :
    under crumb x = pure a ↔ x = pure a := by
  cases (x : Option (Contractual α)) with
  | none => exact ⟨nofun, nofun⟩
  | some result =>
    cases result with
    | error e => exact ⟨nofun, nofun⟩
    | ok b => exact Iff.rfl

theorem ofContractual_eq_pure {x : Contractual α} {a : α} :
    ofContractual x = pure a ↔ x = .ok a := by
  constructor
  · intro h
    cases h
    rfl
  · rintro rfl
    rfl

theorem mapM_eq_pure {f : α → Attempt β} {l : List α} {bs : List β} :
    l.mapM f = pure bs ↔ List.Forall₂ (fun a b => f a = pure b) l bs := by
  induction l generalizing bs with
  | nil => simp [pure_inj, eq_comm]
  | cons a rest ih =>
    simp only [List.mapM_cons, bind_eq_pure, pure_inj, List.forall₂_cons_left_iff, ih]
    constructor
    · rintro ⟨b, first, more, later, rfl⟩
      exact ⟨b, more, first, later, rfl⟩
    · rintro ⟨b, more, first, later, rfl⟩
      exact ⟨b, first, more, later, rfl⟩

end Attempt

section Lists

variable {α β : Type} {R : α → β → Prop} {l : List α}

theorem mem_combinations {options : List (List α)} {chosen : List α} :
    chosen ∈ combinations options ↔ List.Forall₂ (fun as a => a ∈ as) options chosen := by
  induction options generalizing chosen with
  | nil => simp [combinations]
  | cons first rest ih =>
    simp only [combinations, List.mem_flatMap, List.mem_map, ih, List.forall₂_cons_left_iff]
    constructor
    · rintro ⟨a, mem, more, later, rfl⟩
      exact ⟨a, more, mem, later, rfl⟩
    · rintro ⟨a, more, mem, later, rfl⟩
      exact ⟨a, mem, more, later, rfl⟩

theorem forall₂_exists {γ : Type} {S : β → γ → Prop} {cs : List γ} :
    (∃ bs, List.Forall₂ R l bs ∧ List.Forall₂ S bs cs) ↔
      List.Forall₂ (fun a c => ∃ b, R a b ∧ S b c) l cs := by
  induction l generalizing cs with
  | nil => simp
  | cons a rest ih =>
    simp only [List.forall₂_cons_left_iff, ← ih]
    constructor
    · rintro ⟨_, ⟨b, bs, first, later, rfl⟩, more⟩
      obtain ⟨c, cs, second, last, rfl⟩ := List.forall₂_cons_left_iff.mp more
      exact ⟨c, cs, ⟨b, first, second⟩, ⟨bs, later, last⟩, rfl⟩
    · rintro ⟨c, cs, ⟨b, first, second⟩, ⟨bs, later, last⟩, rfl⟩
      exact ⟨b :: bs, ⟨b, bs, first, later, rfl⟩, .cons second last⟩

theorem exists_forall₂ (h : ∀ a ∈ l, ∃ b, R a b) : ∃ bs, List.Forall₂ R l bs := by
  induction l with
  | nil => exact ⟨[], .nil⟩
  | cons a rest ih =>
    obtain ⟨b, first⟩ := h a List.mem_cons_self
    obtain ⟨bs, later⟩ := ih fun c mem => h c (List.mem_cons_of_mem a mem)
    exact ⟨b :: bs, .cons first later⟩

theorem exists_forall₂_at (h : ∀ a ∈ l, ∃ b, R a b) {i : Nat} {a : α} {b : β}
    (place : l[i]? = some a) (given : R a b) : ∃ bs, List.Forall₂ R l bs ∧ bs[i]? = some b := by
  induction l generalizing i with
  | nil => cases place
  | cons first rest ih =>
    have later := fun c mem => h c (List.mem_cons_of_mem first mem)
    cases i with
    | zero =>
      cases place
      obtain ⟨bs, more⟩ := exists_forall₂ later
      exact ⟨b :: bs, .cons given more, rfl⟩
    | succ i =>
      obtain ⟨c, related⟩ := h first List.mem_cons_self
      obtain ⟨bs, more, there⟩ := ih later place
      exact ⟨c :: bs, .cons related more, there⟩

theorem exists_forall₂_mem (h : ∀ a ∈ l, ∃ b, R a b) {a : α} {b : β} (mem : a ∈ l)
    (given : R a b) : ∃ bs, List.Forall₂ R l bs ∧ b ∈ bs := by
  obtain ⟨i, place⟩ := List.mem_iff_getElem?.mp mem
  obtain ⟨bs, related, there⟩ := exists_forall₂_at h place given
  exact ⟨bs, related, List.mem_of_getElem? there⟩

theorem getElem?_of_forall₂ {bs : List β} (h : List.Forall₂ R l bs) {i : Nat} {b : β}
    (there : bs[i]? = some b) : ∃ a, l[i]? = some a ∧ R a b := by
  induction h generalizing i with
  | nil => cases there
  | @cons a c l bs related _ ih =>
    cases i with
    | zero =>
      cases there
      exact ⟨a, rfl, related⟩
    | succ i => exact ih there

theorem exists_of_forall₂_mem {bs : List β} (h : List.Forall₂ R l bs) {b : β} (mem : b ∈ bs) :
    ∃ a ∈ l, R a b := by
  obtain ⟨i, there⟩ := List.mem_iff_getElem?.mp mem
  obtain ⟨a, place, related⟩ := getElem?_of_forall₂ h there
  exact ⟨a, List.mem_of_getElem? place, related⟩

theorem exists_of_forall₂_mem_dropLast {bs : List β} (h : List.Forall₂ R l bs) {b : β}
    (mem : b ∈ bs.dropLast) : ∃ a ∈ l.dropLast, R a b := by
  obtain ⟨i, there⟩ := List.mem_iff_getElem?.mp mem
  rw [List.getElem?_dropLast] at there
  split at there
  · next front =>
    obtain ⟨a, place, related⟩ := getElem?_of_forall₂ h there
    refine ⟨a, List.mem_of_getElem? (i := i) ?_, related⟩
    rw [List.getElem?_dropLast, h.length_eq, if_pos front, place]
  · cases there

end Lists

section Unions

variable {variants : List Pattern} {x : Pattern}

theorem distinctVariants_concat : distinctVariants (variants ++ [x]) =
    if (distinctVariants variants).any fun pattern => pattern.same x then distinctVariants variants
    else distinctVariants variants ++ [x] := by
  simp [distinctVariants, List.foldl_append]

theorem mem_of_mem_distinctVariants (mem : x ∈ distinctVariants variants) : x ∈ variants := by
  induction variants using List.reverseRecOn with
  | nil => exact mem
  | append_singleton variants y ih =>
    rw [distinctVariants_concat] at mem
    rw [List.mem_append]
    split at mem
    · exact .inl (ih mem)
    · exact (List.mem_append.mp mem).imp_left ih

theorem mem_distinctVariants (equal : ∀ y ∈ variants, ∀ z ∈ variants, y.same z → y = z) :
    x ∈ distinctVariants variants ↔ x ∈ variants := by
  -- Nothing is lost where the same variants are equal.
  refine ⟨mem_of_mem_distinctVariants, fun mem => ?_⟩
  induction variants using List.reverseRecOn with
  | nil => exact mem
  | append_singleton variants y ih =>
    have earlier : x ∈ variants → x ∈ distinctVariants variants := ih fun z first w second =>
      equal z (List.mem_append_left _ first) w (List.mem_append_left _ second)
    rw [distinctVariants_concat]
    rcases List.mem_append.mp mem with before | last
    · split
      · exact earlier before
      · exact List.mem_append_left _ (earlier before)
    · obtain rfl := List.mem_singleton.mp last
      split
      · next found =>
        obtain ⟨z, there, same⟩ := List.any_eq_true.mp found
        have kept := mem_of_mem_distinctVariants there
        rwa [← equal z (List.mem_append_left _ kept) x (by simp) same]
      · simp

theorem distinctVariants_ne_nil (h : variants ≠ []) : distinctVariants variants ≠ [] := by
  induction variants using List.reverseRecOn with
  | nil => exact h
  | append_singleton variants y _ =>
    rw [distinctVariants_concat]
    split
    · next found =>
      obtain ⟨z, there, -⟩ := List.any_eq_true.mp found
      exact List.ne_nil_of_mem there
    · simp

end Unions

section Levels

variable {expand : Pattern → Attempt (List Pattern)} {r : Resolver}

theorem fieldChoices_eq_pure (exhaustive : r.combinations = .exhaustive)
    {field : String × Pattern} {choices : List FieldChoice} :
    fieldChoices expand r [] field = pure choices ↔ ∃ variants, expand field.2 = pure variants ∧
      choices = (if isOptional field.1 then [none] else []) ++
        variants.map fun variant => some (bareName field.1, variant) := by
  simp only [fieldChoices, Entries.get?_nil, Entries.contains, Option.isSome_none, Bool.or_false,
    exhaustive, Attempt.bind_eq_pure, Attempt.under_eq_pure]
  refine exists_congr fun variants => and_congr_right fun _ => ?_
  cases isOptional field.1 <;> simp [Attempt.pure_inj, eq_comm]

inductive FieldVariant (expand : Pattern → Attempt (List Pattern)) (row : Row)
    (field : String × Pattern) : Pattern → Prop
  | declared {variants : List Pattern} {y : Pattern} (expansion : expand field.2 = pure variants)
      (mem : y ∈ variants) : FieldVariant expand row field y
  | token {cell : String} {token : Pattern} {variants : List Pattern} {y : Pattern}
      (given : Entries.get? row (bareName field.1) = some cell) (text : Token.isTokenText cell)
      (read : Pattern.read cell = .ok token) (expansion : expand token = pure variants)
      (mem : y ∈ variants) : FieldVariant expand row field y
  | literal {cell : String} {v : Value}
      (given : Entries.get? row (bareName field.1) = some cell) :
      FieldVariant expand row field (.exact v)

def fieldVariants (expand : Pattern → Attempt (List Pattern)) (r : Resolver) (row : Row)
    (field : String × Pattern) : Attempt (List Pattern) :=
  match Entries.get? row (bareName field.1) with
  | some cell => cellVariants expand r (bareName field.1) cell field.2
  | none => Attempt.under (bareName field.1) (expand field.2)

def keyChoices (r : Resolver) (row : Row) (field : String × Pattern) (variants : List Pattern) :
    Attempt (List FieldChoice) := do
  let included := variants.map fun variant => some (bareName field.1, variant)
  if !isOptional field.1 || Entries.contains row (bareName field.1) then return included
  match r.combinations with
  | .exhaustive => return none :: included
  | .compositeOnly =>
      if ← Attempt.ofOption (field.2.isScalar r) then return [none]
      else return none :: included

theorem fieldChoices_eq {row : Row} {field : String × Pattern} :
    fieldChoices expand r row field =
      fieldVariants expand r row field >>= keyChoices r row field := by
  unfold fieldChoices fieldVariants
  dsimp only
  cases Entries.get? row (bareName field.1) <;> rfl

theorem keyChoices_required {row : Row} {field : String × Pattern} {variants : List Pattern}
    (required : isOptional field.1 = false) :
    keyChoices r row field variants =
      pure (variants.map fun y => some (bareName field.1, y)) := by
  simp [keyChoices, required]

theorem keyChoices_sublist {row : Row} {field : String × Pattern} {variants : List Pattern}
    {choices : List FieldChoice} (chosen : keyChoices r row field variants = pure choices) :
    choices.Sublist (none :: variants.map fun y => some (bareName field.1, y)) := by
  unfold keyChoices at chosen
  dsimp only at chosen
  split at chosen
  · obtain rfl := Attempt.pure_inj.mp chosen
    exact List.sublist_cons_self _ _
  · split at chosen
    · obtain rfl := Attempt.pure_inj.mp chosen
      exact .refl _
    · obtain ⟨scalar, -, chosen⟩ := Attempt.bind_eq_pure.mp chosen
      split at chosen
      · obtain rfl := Attempt.pure_inj.mp chosen
        exact .cons_cons _ (List.nil_sublist _)
      · obtain rfl := Attempt.pure_inj.mp chosen
        exact .refl _

theorem read_eq_of_known {cell : String} {token : Pattern} {f : ContractError → ContractError} :
    Attempt.ofContractual ((Pattern.read cell).mapError f) = pure token ↔
      Pattern.read cell = .ok token := by
  rw [Attempt.ofContractual_eq_pure]
  cases Pattern.read cell <;> simp [Except.mapError]

theorem cellVariants_cases {key cell : String} {declared : Pattern} {variants : List Pattern}
    (h : cellVariants expand r key cell declared = pure variants) :
    (∃ token, Token.isTokenText cell ∧ Pattern.read cell = .ok token ∧
      expand token = pure variants) ∨ ∃ v, variants = [.exact v] := by
  unfold cellVariants at h
  split at h
  · next text =>
    obtain ⟨token, known, h⟩ := Attempt.bind_eq_pure.mp h
    obtain ⟨verdict, -, h⟩ := Attempt.bind_eq_pure.mp h
    cases verdict with
    | failure => cases h
    | success => exact .inl ⟨token, text, read_eq_of_known.mp known, Attempt.under_eq_pure.mp h⟩
  · obtain ⟨v, -, h⟩ := Attempt.bind_eq_pure.mp h
    obtain ⟨verdict, -, h⟩ := Attempt.bind_eq_pure.mp h
    cases verdict with
    | failure => cases h
    | success => exact .inr ⟨v, (Attempt.pure_inj.mp h).symm⟩

theorem fieldVariant_of_choice {field : String × Pattern} {row : Row} {choices : List FieldChoice}
    {entry : String × Pattern} (h : fieldChoices expand r row field = pure choices)
    (mem : some entry ∈ choices) :
    entry.1 = bareName field.1 ∧ FieldVariant expand row field entry.2 := by
  rw [fieldChoices_eq] at h
  obtain ⟨variants, filling, chosen⟩ := Attempt.bind_eq_pure.mp h
  rcases List.mem_cons.mp ((keyChoices_sublist chosen).subset mem) with absent | inside
  · cases absent
  · obtain ⟨y, there, same⟩ := List.mem_map.mp inside
    obtain rfl := Option.some.inj same
    refine ⟨rfl, ?_⟩
    unfold fieldVariants at filling
    split at filling
    · next cell given =>
      rcases cellVariants_cases filling with ⟨token, text, read, expansion⟩ | ⟨v, rfl⟩
      · exact .token given text read expansion there
      · obtain rfl := List.mem_singleton.mp there
        exact .literal given
    · exact .declared (Attempt.under_eq_pure.mp filling) there

theorem elementChoices_eq_pure {elements : List Pattern} {i : Nat} {choices : List (List Pattern)} :
    elementChoices expand i elements = pure choices ↔
      List.Forall₂ (fun element variants => expand element = pure variants) elements choices := by
  induction elements generalizing i choices with
  | nil => simp [elementChoices, Attempt.pure_inj, eq_comm]
  | cons element rest ih =>
    simp only [elementChoices, Attempt.bind_eq_pure, Attempt.under_eq_pure, Attempt.pure_inj, ih,
      List.forall₂_cons_left_iff]
    constructor
    · rintro ⟨variants, first, more, later, rfl⟩
      exact ⟨variants, more, first, later, rfl⟩
    · rintro ⟨variants, more, first, later, rfl⟩
      exact ⟨variants, first, more, later, rfl⟩

end Levels

def Expands (r : Resolver) (fuel : Nat) (entered : List String) (p : Pattern) : Prop :=
  ∃ variants, p.expandWithin fuel r [] entered = pure variants

def Variant (r : Resolver) (fuel : Nat) (entered : List String) (p x : Pattern) : Prop :=
  ∃ variants, p.expandWithin fuel r [] entered = pure variants ∧ x ∈ variants

def Choice (r : Resolver) (fuel : Nat) (entered : List String) (field : String × Pattern) :
    FieldChoice → Prop
  | none => isOptional field.1 ∧ Expands r fuel entered field.2
  | some (name, y) => name = bareName field.1 ∧ Variant r fuel entered field.2 y

def Pattern.isBasic : Pattern → Bool
  | .repeated _ | .reference _ | .anyOf _ | .object _ _ | .array _ _ => false
  | _ => true

section Kinds

variable {r : Resolver} {fuel : Nat} {entered : List String} {p x : Pattern}

theorem Variant.expands (h : Variant r fuel entered p x) : Expands r fuel entered p := by
  obtain ⟨variants, expansion, -⟩ := h
  exact ⟨variants, expansion⟩

theorem exists_expandBound_eq (r : Resolver) (row : Row) (p : Pattern) :
    ∃ fuel, Pattern.expandBound r row p = fuel + 1 :=
  Nat.exists_eq_succ_of_ne_zero (by simp [Pattern.expandBound])

theorem not_expands_zero : ¬ Expands r 0 entered p := by
  rintro ⟨variants, unending⟩
  cases unending

theorem expandWithin_basic (basic : p.isBasic) :
    p.expandWithin (fuel + 1) r [] entered = pure [p] := by
  cases p <;> first | rfl | cases basic

theorem expands_basic (basic : p.isBasic) : Expands r (fuel + 1) entered p :=
  ⟨[p], expandWithin_basic basic⟩

theorem variant_basic (basic : p.isBasic) : Variant r (fuel + 1) entered p x ↔ x = p := by
  simp [Variant, expandWithin_basic basic, Attempt.pure_inj]

theorem expandWithin_repeated {variants : List Pattern} :
    (Pattern.repeated p).expandWithin (fuel + 1) r [] entered = pure variants ↔
      ∃ inner, p.expandWithin fuel r [] entered = pure inner ∧ inner.map .repeated = variants := by
  simp only [Pattern.expandWithin, Pattern.expandStep, Attempt.bind_eq_pure, Attempt.pure_inj]

theorem expands_repeated :
    Expands r (fuel + 1) entered (.repeated p) ↔ Expands r fuel entered p := by
  simp [Expands, expandWithin_repeated]

theorem variant_repeated : Variant r (fuel + 1) entered (.repeated p) x ↔
    ∃ y, Variant r fuel entered p y ∧ x = .repeated y := by
  simp only [Variant, expandWithin_repeated]
  constructor
  · rintro ⟨_, ⟨inner, expansion, rfl⟩, mem⟩
    obtain ⟨y, there, rfl⟩ := List.mem_map.mp mem
    exact ⟨y, ⟨inner, expansion, there⟩, rfl⟩
  · rintro ⟨y, ⟨inner, expansion, there⟩, rfl⟩
    exact ⟨_, ⟨inner, expansion, rfl⟩, List.mem_map_of_mem there⟩

section References

variable {name : String}

theorem expandWithin_entered (mem : name ∈ entered) :
    (Pattern.reference name).expandWithin (fuel + 1) r [] entered = pure [.reference name] := by
  simp [Pattern.expandWithin, Pattern.expandStep, mem]

theorem expands_entered (mem : name ∈ entered) : Expands r (fuel + 1) entered (.reference name) :=
  ⟨_, expandWithin_entered mem⟩

theorem variant_entered (mem : name ∈ entered) :
    Variant r (fuel + 1) entered (.reference name) x ↔ x = .reference name := by
  simp [Variant, expandWithin_entered mem, Attempt.pure_inj]

theorem expandWithin_reference (new : name ∉ entered) {variants : List Pattern} :
    (Pattern.reference name).expandWithin (fuel + 1) r [] entered = pure variants ↔
      ∃ q, r.resolve (.reference name) = .ok q ∧
        q.expandWithin fuel r [] (name :: entered) = pure variants := by
  simp only [Pattern.expandWithin, Pattern.expandStep, new, if_false, Attempt.bind_eq_pure]
  refine exists_congr fun q => and_congr_left fun _ => ?_
  cases r.resolve (.reference name) with
  | error e => exact ⟨nofun, nofun⟩
  | ok o => exact ⟨fun h => by cases h; rfl, fun h => by cases h; rfl⟩

theorem expands_reference (new : name ∉ entered) :
    Expands r (fuel + 1) entered (.reference name) ↔
      ∃ q, r.resolve (.reference name) = .ok q ∧ Expands r fuel (name :: entered) q := by
  simp only [Expands, expandWithin_reference new]
  constructor
  · rintro ⟨variants, q, found, expansion⟩
    exact ⟨q, found, variants, expansion⟩
  · rintro ⟨q, found, variants, expansion⟩
    exact ⟨variants, q, found, expansion⟩

theorem variant_reference (new : name ∉ entered) :
    Variant r (fuel + 1) entered (.reference name) x ↔
      ∃ q, r.resolve (.reference name) = .ok q ∧ Variant r fuel (name :: entered) q x := by
  simp only [Variant, expandWithin_reference new]
  constructor
  · rintro ⟨variants, ⟨q, found, expansion⟩, mem⟩
    exact ⟨q, found, variants, expansion, mem⟩
  · rintro ⟨q, found, variants, expansion, mem⟩
    exact ⟨variants, ⟨q, found, expansion⟩, mem⟩

end References

section Composites

variable {elements : List Pattern} {knownAs : Option String}

theorem expandWithin_array {variants : List Pattern} :
    (Pattern.array elements knownAs).expandWithin (fuel + 1) r [] entered = pure variants ↔
      ∃ choices, List.Forall₂ (fun element variants =>
          element.expandWithin fuel r [] entered = pure variants) elements choices ∧
        (combinations choices).map (fun chosen => .array chosen knownAs) = variants := by
  simp only [Pattern.expandWithin, Pattern.expandStep, Attempt.bind_eq_pure, Attempt.pure_inj,
    elementChoices_eq_pure]

theorem expands_array : Expands r (fuel + 1) entered (.array elements knownAs) ↔
    ∀ element ∈ elements, Expands r fuel entered element := by
  simp only [Expands, expandWithin_array]
  constructor
  · rintro ⟨_, choices, expansions, -⟩ element mem
    obtain ⟨i, place⟩ := List.mem_iff_getElem?.mp mem
    obtain ⟨variants, -, expansion⟩ := getElem?_of_forall₂ expansions.flip place
    exact ⟨variants, expansion⟩
  · intro all
    obtain ⟨choices, expansions⟩ := exists_forall₂ all
    exact ⟨_, choices, expansions, rfl⟩

theorem variant_array : Variant r (fuel + 1) entered (.array elements knownAs) x ↔
    ∃ chosen, List.Forall₂ (Variant r fuel entered) elements chosen ∧ x = .array chosen knownAs := by
  have independent {chosen : List Pattern} :
      List.Forall₂ (Variant r fuel entered) elements chosen ↔
        ∃ choices, List.Forall₂ (fun element variants =>
          element.expandWithin fuel r [] entered = pure variants) elements choices ∧
            chosen ∈ combinations choices := by
    simp only [mem_combinations, forall₂_exists]
    rfl
  simp only [independent]
  constructor
  · rintro ⟨variants, expansion, mem⟩
    obtain ⟨choices, expansions, rfl⟩ := expandWithin_array.mp expansion
    obtain ⟨chosen, there, rfl⟩ := List.mem_map.mp mem
    exact ⟨chosen, ⟨choices, expansions, there⟩, rfl⟩
  · rintro ⟨chosen, ⟨choices, expansions, there⟩, rfl⟩
    exact ⟨_, expandWithin_array.mpr ⟨choices, expansions, rfl⟩, List.mem_map_of_mem there⟩

variable (exhaustive : r.combinations = .exhaustive)
include exhaustive

theorem choice_iff {field : String × Pattern} {choice : FieldChoice} :
    Choice r fuel entered field choice ↔ ∃ choices,
      fieldChoices (Pattern.expandWithin fuel r [] entered) r [] field = pure choices ∧
        choice ∈ choices := by
  simp only [fieldChoices_eq_pure exhaustive]
  cases choice with
  | none =>
    simp only [Choice, Expands]
    constructor
    · rintro ⟨optional, variants, expansion⟩
      exact ⟨_, ⟨variants, expansion, rfl⟩, by simp [optional]⟩
    · rintro ⟨_, ⟨variants, expansion, rfl⟩, mem⟩
      exact ⟨by simpa using mem, variants, expansion⟩
  | some entry =>
    obtain ⟨name, y⟩ := entry
    simp only [Choice, Variant]
    constructor
    · rintro ⟨rfl, variants, expansion, mem⟩
      exact ⟨_, ⟨variants, expansion, rfl⟩, by simp [mem]⟩
    · rintro ⟨_, ⟨variants, expansion, rfl⟩, mem⟩
      obtain ⟨there, rfl⟩ : y ∈ variants ∧ bareName field.1 = name := by
        cases optional : isOptional field.1 <;> simpa [optional] using mem
      exact ⟨rfl, variants, expansion, there⟩

theorem exists_fieldChoices_iff {field : String × Pattern} :
    (∃ choices, fieldChoices (Pattern.expandWithin fuel r [] entered) r [] field = pure choices) ↔
      Expands r fuel entered field.2 := by
  simp only [fieldChoices_eq_pure exhaustive]
  constructor
  · rintro ⟨_, variants, expansion, -⟩
    exact ⟨variants, expansion⟩
  · rintro ⟨variants, expansion⟩
    exact ⟨_, variants, expansion, rfl⟩

variable {fields : List (String × Pattern)} {traits : ObjectTraits}

omit exhaustive in
theorem expandWithin_object {variants : List Pattern} :
    (Pattern.object fields traits).expandWithin (fuel + 1) r [] entered = pure variants ↔
      ∃ choices, List.Forall₂ (fun field choices =>
          fieldChoices (Pattern.expandWithin fuel r [] entered) r [] field = pure choices)
          fields choices ∧
        (combinations choices).map (fun chosen =>
          .object (Entries.ofList (chosen.filterMap id)) traits) = variants := by
  simp only [Pattern.expandWithin, Pattern.expandStep, Attempt.bind_eq_pure, Attempt.pure_inj,
    Attempt.mapM_eq_pure]

theorem expands_object : Expands r (fuel + 1) entered (.object fields traits) ↔
    ∀ field ∈ fields, Expands r fuel entered field.2 := by
  simp only [Expands, expandWithin_object]
  constructor
  · rintro ⟨_, choices, expansions, -⟩ field mem
    obtain ⟨i, place⟩ := List.mem_iff_getElem?.mp mem
    obtain ⟨options, -, expansion⟩ := getElem?_of_forall₂ expansions.flip place
    exact (exists_fieldChoices_iff exhaustive).mp ⟨options, expansion⟩
  · intro all
    obtain ⟨choices, expansions⟩ := exists_forall₂ fun field mem =>
      (exists_fieldChoices_iff exhaustive).mpr (all field mem)
    exact ⟨_, choices, expansions, rfl⟩

theorem variant_object : Variant r (fuel + 1) entered (.object fields traits) x ↔
    ∃ chosen, List.Forall₂ (Choice r fuel entered) fields chosen ∧
      x = .object (Entries.ofList (chosen.filterMap id)) traits := by
  have independent {chosen : List FieldChoice} :
      List.Forall₂ (Choice r fuel entered) fields chosen ↔
        ∃ choices, List.Forall₂ (fun field choices =>
          fieldChoices (Pattern.expandWithin fuel r [] entered) r [] field = pure choices)
          fields choices ∧ chosen ∈ combinations choices := by
    simp only [mem_combinations, forall₂_exists, ← choice_iff exhaustive]
  simp only [independent]
  constructor
  · rintro ⟨variants, expansion, mem⟩
    obtain ⟨choices, expansions, rfl⟩ := expandWithin_object.mp expansion
    obtain ⟨chosen, there, rfl⟩ := List.mem_map.mp mem
    exact ⟨chosen, ⟨choices, expansions, there⟩, rfl⟩
  · rintro ⟨chosen, ⟨choices, expansions, there⟩, rfl⟩
    exact ⟨_, expandWithin_object.mpr ⟨choices, expansions, rfl⟩, List.mem_map_of_mem there⟩

end Composites

section Nullables

theorem expandWithin_union_null {row : Row} :
    (Pattern.anyOf [.null, p]).expandWithin (fuel + 1) r row entered =
      p.expandWithin fuel r row entered >>= fun others =>
        pure (distinctVariants (.null :: others)) := by
  cases fuel with
  | zero => rfl
  | succ fuel =>
    have null : Pattern.null.expandWithin (fuel + 1) r row entered = pure [.null] := rfl
    rw [Pattern.expandWithin]
    simp [Pattern.expandStep, List.mapM_cons, null]

theorem expandWithin_nullable {variants : List Pattern} :
    (Pattern.anyOf [.null, p]).expandWithin (fuel + 1) r [] entered = pure variants ↔
      ∃ others, p.expandWithin fuel r [] entered = pure others ∧
        distinctVariants (.null :: others) = variants := by
  simp only [expandWithin_union_null, Attempt.bind_eq_pure, Attempt.pure_inj]

theorem expands_nullable :
    Expands r (fuel + 1) entered (.anyOf [.null, p]) ↔ Expands r fuel entered p := by
  simp [Expands, expandWithin_nullable]

theorem Variant.of_nullable (h : Variant r (fuel + 1) entered (.anyOf [.null, p]) x) :
    x = .null ∨ Variant r fuel entered p x := by
  obtain ⟨variants, expansion, mem⟩ := h
  obtain ⟨others, inner, rfl⟩ := expandWithin_nullable.mp expansion
  rcases List.mem_cons.mp (mem_of_mem_distinctVariants mem) with rfl | there
  · exact .inl rfl
  · exact .inr ⟨others, inner, there⟩

theorem variant_nullable
    (equal : ∀ y z, Variant r fuel entered p y → Variant r fuel entered p z → y.same z → y = z) :
    Variant r (fuel + 1) entered (.anyOf [.null, p]) x ↔
      Expands r fuel entered p ∧ (x = .null ∨ Variant r fuel entered p x) := by
  constructor
  · intro h
    exact ⟨expands_nullable.mp h.expands, h.of_nullable⟩
  · rintro ⟨⟨others, expansion⟩, h⟩
    refine ⟨_, expandWithin_nullable.mpr ⟨others, expansion, rfl⟩, ?_⟩
    rw [mem_distinctVariants]
    · rcases h with rfl | ⟨variants, again, mem⟩
      · exact List.mem_cons_self
      · rw [expansion, Attempt.pure_inj] at again
        subst again
        exact List.mem_cons_of_mem _ mem
    · have null {y z : Pattern} (same : y.same z) : y = .null ∨ z = .null → y = z := by
        rintro (rfl | rfl)
        · cases z <;> first | rfl | cases same
        · cases y <;> first | rfl | cases same
      intro y first z second same
      rcases List.mem_cons.mp first with rfl | first
      · exact null same (.inl rfl)
      · rcases List.mem_cons.mp second with rfl | second
        · exact null same (.inr rfl)
        · exact equal y z ⟨others, expansion, first⟩ ⟨others, expansion, second⟩ same

end Nullables

end Kinds

section Existence

variable {r : Resolver} {fuel : Nat} {entered : List String} {p q x : Pattern}

theorem Resolver.resolve_induction {motive : Pattern → Prop} (found : r.resolve p = .ok q)
    (start : motive p) (null : motive .null)
    (step : ∀ name o, motive (.reference name) → registered? r.types name = some o → motive o) :
    motive q := by
  have main (hops : Nat) (p : Pattern) (h : r.follow hops p = .ok q) (start : motive p) :
      motive q := by
    induction hops generalizing p with
    | zero =>
      cases p with
      | reference name =>
        obtain ⟨_, -, h⟩ := Except.bind_eq_ok.mp h
        cases h
      | _ =>
        cases h
        exact start
    | succ hops ih =>
      cases p with
      | reference name =>
        obtain ⟨o, got, h⟩ := Except.bind_eq_ok.mp h
        refine ih o h ?_
        simp only [Resolver.get] at got
        split at got
        · next named =>
          cases got
          exact step name o start named
        · split at got
          · cases got
            exact null
          · cases got
      | _ =>
        cases h
        exact start
  exact main _ p found start

theorem Resolver.unfoldings_of_resolve (found : r.resolve p = .ok q) :
    q = .null ∨ Relation.ReflTransGen (Unfolds r.types) p q := by
  refine Resolver.resolve_induction
    (motive := fun o => o = .null ∨ Relation.ReflTransGen (Unfolds r.types) p o) found
    (.inr .refl) (.inl rfl) fun name o chain named => ?_
  rcases chain with null | chain
  · cases null
  · exact .inr (chain.tail (.reference named))

theorem exists_variant (registry : WrittenTypes r.types) (exhaustive : r.combinations = .exhaustive)
    (arises : Arises r.types p) (expands : Expands r fuel entered p) :
    ∃ x, Variant r fuel entered p x := by
  induction fuel generalizing entered p with
  | zero => exact (not_expands_zero expands).elim
  | succ fuel ih =>
    have inside {q : Pattern} (part : Part p q) (more : Expands r fuel entered q) :
        ∃ x, Variant r fuel entered q x := ih (arises.of_reaches registry part.reaches) more
    cases p with
    | repeated inner =>
      obtain ⟨y, variant⟩ := inside .inner (expands_repeated.mp expands)
      exact ⟨_, variant_repeated.mpr ⟨y, variant, rfl⟩⟩
    | reference name =>
      by_cases met : name ∈ entered
      · exact ⟨_, (variant_entered met).mpr rfl⟩
      · obtain ⟨q, found, more⟩ := (expands_reference met).mp expands
        have below : Arises r.types q := by
          rcases Resolver.unfoldings_of_resolve found with rfl | chain
          · exact .inl .null
          · exact arises.of_reaches registry (.of_unfoldings chain)
        obtain ⟨x, variant⟩ := ih below more
        exact ⟨x, (variant_reference met).mpr ⟨q, found, variant⟩⟩
    | anyOf alternatives =>
      obtain ⟨o, rfl, -⟩ := arises.nullable
      obtain ⟨variants, expansion⟩ := expands
      obtain ⟨others, -, rfl⟩ := expandWithin_nullable.mp expansion
      obtain ⟨x, mem⟩ := List.exists_mem_of_ne_nil _
        (distinctVariants_ne_nil (List.cons_ne_nil .null others))
      exact ⟨x, _, expansion, mem⟩
    | object fields traits =>
      have all := (expands_object exhaustive).mp expands
      obtain ⟨chosen, choices⟩ : ∃ chosen, List.Forall₂ (Choice r fuel entered) fields chosen := by
        refine exists_forall₂ fun field mem => ?_
        obtain ⟨y, variant⟩ := inside (.field mem) (all field mem)
        exact ⟨some (bareName field.1, y), rfl, variant⟩
      exact ⟨_, (variant_object exhaustive).mpr ⟨chosen, choices, rfl⟩⟩
    | array elements knownAs =>
      obtain ⟨chosen, variants⟩ := exists_forall₂ fun element mem =>
        inside (.element mem) (expands_array.mp expands element mem)
      exact ⟨_, variant_array.mpr ⟨chosen, variants, rfl⟩⟩
    | _ => exact ⟨_, (variant_basic rfl).mpr rfl⟩

end Existence

section Listing

variable {r : Resolver} {row : Row} {p : Pattern}

def variantsOf (r : Resolver) (row : Row) (p : Pattern) : List Pattern :=
  match p.expand r row with
  | some (.ok variants) => variants
  | _ => []

theorem expand_variantsOf (given : variantsOf r row p ≠ []) :
    p.expand r row = pure (variantsOf r row p) := by
  unfold variantsOf at given ⊢
  split
  · next expanded => exact expanded
  · next other =>
    split at given
    · next expanded => exact absurd expanded (other _)
    · exact absurd rfl given

end Listing

end ApiContract
