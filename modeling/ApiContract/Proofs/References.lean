import Mathlib.Logic.Relation
import ApiContract.Resolver

set_option autoImplicit false

namespace ApiContract

def registered? (types : Entries Pattern) (name : String) : Option Pattern :=
  Entries.get? types (Token.typeName name)

/-- From a name to its type, or from a union to an alternative. -/
inductive Unfolds (types : Entries Pattern) : Pattern → Pattern → Prop
  | reference {name : String} {p : Pattern} (named : registered? types name = some p) :
      Unfolds types (.reference name) p
  | anyOf {alternatives : List Pattern} {p : Pattern} (mem : p ∈ alternatives) :
      Unfolds types (.anyOf alternatives) p

/-- From a composite to a pattern that members or items of a value have to fit. -/
inductive Part : Pattern → Pattern → Prop
  | inner {p : Pattern} : Part (.repeated p) p
  | field {fields : List (String × Pattern)} {traits : ObjectTraits} {key : String} {p : Pattern}
      (mem : (key, p) ∈ fields) : Part (.object fields traits) p
  | element {elements : List Pattern} {knownAs : Option String} {p : Pattern}
      (mem : p ∈ elements) : Part (.array elements knownAs) p
  | tail {elements : List Pattern} {knownAs : Option String} {p : Pattern}
      (mem : .repeated p ∈ elements) : Part (.array elements knownAs) p

def Reaches (types : Entries Pattern) : Pattern → Pattern → Prop :=
  Relation.ReflTransGen fun p q => Unfolds types p q ∨ Part p q

/-- No type leads to itself through names and unions alone. -/
def Guarded (types : Entries Pattern) : Prop :=
  ∀ name, ¬ Relation.TransGen (Unfolds types) (.reference name) (.reference name)

def Registered (types : Entries Pattern) (p : Pattern) : Prop :=
  ∀ name, Reaches types p (.reference name) → (registered? types name).isSome

section Reaching

variable {types : Entries Pattern} {p q r : Pattern}

theorem Reaches.refl (p : Pattern) : Reaches types p p :=
  Relation.ReflTransGen.refl

theorem Reaches.trans (first : Reaches types p q) (second : Reaches types q r) :
    Reaches types p r :=
  Relation.ReflTransGen.trans first second

theorem Unfolds.reaches (h : Unfolds types p q) : Reaches types p q :=
  Relation.ReflTransGen.single (.inl h)

theorem Part.reaches (h : Part p q) : Reaches types p q :=
  Relation.ReflTransGen.single (.inr h)

theorem Reaches.eq_null (h : Reaches types .null q) : q = .null := by
  induction h with
  | refl => rfl
  | tail _ step ih =>
    subst ih
    rcases step with step | step <;> cases step

theorem Reaches.of_unfoldings (h : Relation.ReflTransGen (Unfolds types) p q) :
    Reaches types p q :=
  Relation.ReflTransGen.mono (fun _ _ => .inl) _ _ h

theorem Registered.of_reaches (h : Registered types p) (reach : Reaches types p q) :
    Registered types q :=
  fun name met => h name (reach.trans met)

end Reaching

section Sizes

variable {types : Entries Pattern} {p q : Pattern}

theorem Pattern.size_pos (p : Pattern) : 0 < p.size := by
  cases p <;> simp [Pattern.size]

theorem Pattern.size_le_sizeAll {patterns : List Pattern} (h : p ∈ patterns) :
    p.size ≤ Pattern.sizeAll patterns := by
  induction patterns with
  | nil => cases h
  | cons q rest ih =>
    simp only [Pattern.sizeAll]
    rcases List.mem_cons.mp h with rfl | h
    · omega
    · have := ih h
      omega

theorem Pattern.size_le_sizeFields {fields : List (String × Pattern)} {key : String}
    (h : (key, p) ∈ fields) : p.size ≤ Pattern.sizeFields fields := by
  induction fields with
  | nil => cases h
  | cons field rest ih =>
    obtain ⟨other, q⟩ := field
    simp only [Pattern.sizeFields]
    rcases List.mem_cons.mp h with h | h
    · cases h
      omega
    · have := ih h
      omega

theorem Part.size_lt (h : Part p q) : q.size < p.size := by
  cases h with
  | inner => simp [Pattern.size]
  | field mem =>
    have := Pattern.size_le_sizeFields mem
    simp only [Pattern.size]
    omega
  | element mem =>
    have := Pattern.size_le_sizeAll mem
    simp only [Pattern.size]
    omega
  | tail mem =>
    have := Pattern.size_le_sizeAll mem
    simp only [Pattern.size] at this ⊢
    omega

theorem Entries.mem_of_get? {α : Type} {entries : Entries α} {key : String} {a : α}
    (h : Entries.get? entries key = some a) : (key, a) ∈ entries := by
  induction entries with
  | nil => cases h
  | cons entry rest ih =>
    obtain ⟨k, v⟩ := entry
    rw [Entries.get?_cons] at h
    split at h
    · next same =>
      cases h
      subst same
      exact List.mem_cons_self
    · exact List.mem_cons_of_mem _ (ih h)

theorem size_le_of_registered {name : String} (h : registered? types name = some p) :
    p.size ≤ Pattern.sizeFields types :=
  Pattern.size_le_sizeFields (Entries.mem_of_get? h)

theorem Unfolds.size_le (h : Unfolds types p q) :
    q.size ≤ max p.size (Pattern.sizeFields types) := by
  cases h with
  | reference named => exact Nat.le_trans (size_le_of_registered named) (Nat.le_max_right _ _)
  | anyOf mem =>
    have := Pattern.size_le_sizeAll mem
    simp only [Pattern.size]
    omega

theorem Reaches.size_le (h : Reaches types p q) : q.size ≤ max p.size (Pattern.sizeFields types) := by
  induction h with
  | refl => exact Nat.le_max_left _ _
  | tail _ step ih =>
    rcases step with step | step
    · have := step.size_le
      omega
    · have := step.size_lt
      omega

theorem Entries.erase_cons {α : Type} (k : String) (a : α) (rest : Entries α) (key : String) :
    Entries.erase ((k, a) :: rest) key =
      if k = key then Entries.erase rest key else (k, a) :: Entries.erase rest key := by
  by_cases h : k = key <;> simp [Entries.erase, h]

theorem sizeFields_erase_le (key : String) :
    Pattern.sizeFields (Entries.erase types key) ≤ Pattern.sizeFields types := by
  induction types with
  | nil => exact Nat.le_refl _
  | cons field rest ih =>
    obtain ⟨other, q⟩ := field
    rw [Entries.erase_cons]
    split <;> simp only [Pattern.sizeFields] <;> omega

theorem sizeFields_erase {key : String} (h : (key, p) ∈ types) :
    p.size + Pattern.sizeFields (Entries.erase types key) ≤ Pattern.sizeFields types := by
  induction types with
  | nil => cases h
  | cons field rest ih =>
    obtain ⟨other, q⟩ := field
    rw [Entries.erase_cons]
    rcases List.mem_cons.mp h with h | h
    · cases h
      have := @sizeFields_erase_le rest key
      simp only [Pattern.sizeFields, if_true]
      omega
    · have := ih h
      split <;> simp only [Pattern.sizeFields] <;> omega

end Sizes

namespace Pattern

mutual

def subpatterns : Pattern → List Pattern
  | .repeated inner => .repeated inner :: subpatterns inner
  | .anyOf alternatives => .anyOf alternatives :: subpatternsAll alternatives
  | .object fields traits => .object fields traits :: subpatternsFields fields
  | .array elements knownAs => .array elements knownAs :: subpatternsAll elements
  | other => [other]

def subpatternsAll : List Pattern → List Pattern
  | [] => []
  | pattern :: rest => subpatterns pattern ++ subpatternsAll rest

def subpatternsFields : List (String × Pattern) → List Pattern
  | [] => []
  | (_, pattern) :: rest => subpatterns pattern ++ subpatternsFields rest

end

mutual

theorem length_subpatterns : ∀ p : Pattern, p.subpatterns.length = p.size
  | .repeated inner => by simp [subpatterns, size, length_subpatterns inner]
  | .anyOf alternatives => by simp [subpatterns, size, length_subpatternsAll alternatives]
  | .object fields _ => by simp [subpatterns, size, length_subpatternsFields fields]
  | .array elements _ => by simp [subpatterns, size, length_subpatternsAll elements]
  | .string | .number | .boolean | .null | .url _ | .exact _ | .reference _ => rfl

theorem length_subpatternsAll : ∀ patterns : List Pattern,
    (subpatternsAll patterns).length = sizeAll patterns
  | [] => rfl
  | p :: rest => by
    simp [subpatternsAll, sizeAll, length_subpatterns p, length_subpatternsAll rest]

theorem length_subpatternsFields : ∀ fields : List (String × Pattern),
    (subpatternsFields fields).length = sizeFields fields
  | [] => rfl
  | (_, p) :: rest => by
    simp [subpatternsFields, sizeFields, length_subpatterns p, length_subpatternsFields rest]

end

variable {p q o : Pattern}

theorem mem_subpatterns_self (p : Pattern) : p ∈ p.subpatterns := by
  cases p <;> simp [subpatterns]

theorem mem_subpatternsAll {patterns : List Pattern} :
    q ∈ subpatternsAll patterns ↔ ∃ p ∈ patterns, q ∈ p.subpatterns := by
  induction patterns with
  | nil => simp [subpatternsAll]
  | cons p rest ih => simp [subpatternsAll, ih]

theorem mem_subpatternsFields {fields : List (String × Pattern)} :
    q ∈ subpatternsFields fields ↔ ∃ key p, (key, p) ∈ fields ∧ q ∈ p.subpatterns := by
  induction fields with
  | nil => simp [subpatternsFields]
  | cons field rest ih =>
    obtain ⟨key, p⟩ := field
    simp only [subpatternsFields, List.mem_append, ih, List.mem_cons]
    constructor
    · rintro (first | ⟨other, p', mem, inside⟩)
      · exact ⟨key, p, .inl rfl, first⟩
      · exact ⟨other, p', .inr mem, inside⟩
    · rintro ⟨other, p', same | mem, inside⟩
      · cases same
        exact .inl inside
      · exact .inr ⟨other, p', mem, inside⟩

theorem mem_subpatterns_inside (h : (∃ alternatives, p = .anyOf alternatives ∧ o ∈ alternatives) ∨
    Part p o) (inside : q ∈ o.subpatterns) : q ∈ p.subpatterns := by
  rcases h with ⟨alternatives, rfl, mem⟩ | part
  · exact List.mem_cons_of_mem _ (mem_subpatternsAll.mpr ⟨o, mem, inside⟩)
  · cases part with
    | inner => exact List.mem_cons_of_mem _ inside
    | field mem => exact List.mem_cons_of_mem _ (mem_subpatternsFields.mpr ⟨_, o, mem, inside⟩)
    | element mem => exact List.mem_cons_of_mem _ (mem_subpatternsAll.mpr ⟨o, mem, inside⟩)
    | tail mem =>
      exact List.mem_cons_of_mem _
        (mem_subpatternsAll.mpr ⟨_, mem, List.mem_cons_of_mem _ inside⟩)

theorem mem_subpatterns_of_step (h : (∃ alternatives, p = .anyOf alternatives ∧ q ∈ alternatives) ∨
    Part p q) : q ∈ p.subpatterns :=
  mem_subpatterns_inside h (mem_subpatterns_self q)

theorem mem_subpatterns_cases (inside : q ∈ p.subpatterns) : q = p ∨ ∃ o,
    ((∃ alternatives, p = .anyOf alternatives ∧ o ∈ alternatives) ∨ Part p o) ∧
      o.size < p.size ∧ q ∈ o.subpatterns := by
  have part {o : Pattern} (step : Part p o) (more : q ∈ o.subpatterns) : q = p ∨ ∃ o,
      ((∃ alternatives, p = .anyOf alternatives ∧ o ∈ alternatives) ∨ Part p o) ∧
        o.size < p.size ∧ q ∈ o.subpatterns := .inr ⟨o, .inr step, step.size_lt, more⟩
  cases p with
  | repeated inner => exact (List.mem_cons.mp inside).elim .inl (part .inner)
  | anyOf alternatives =>
    rcases List.mem_cons.mp inside with rfl | inside
    · exact .inl rfl
    · obtain ⟨o, mem, more⟩ := mem_subpatternsAll.mp inside
      have smaller := size_le_sizeAll mem
      exact .inr ⟨o, .inl ⟨_, rfl, mem⟩, by simp only [size]; omega, more⟩
  | object fields traits =>
    rcases List.mem_cons.mp inside with rfl | inside
    · exact .inl rfl
    · obtain ⟨key, o, mem, more⟩ := mem_subpatternsFields.mp inside
      exact part (.field mem) more
  | array elements knownAs =>
    rcases List.mem_cons.mp inside with rfl | inside
    · exact .inl rfl
    · obtain ⟨o, mem, more⟩ := mem_subpatternsAll.mp inside
      exact part (.element mem) more
  | _ => exact .inl (List.mem_singleton.mp inside)

theorem mem_subpatterns_trans (p : Pattern) (first : o ∈ p.subpatterns) (second : q ∈ o.subpatterns) :
    q ∈ p.subpatterns := by
  rcases mem_subpatterns_cases first with rfl | ⟨next, step, smaller, inside⟩
  · exact second
  · exact mem_subpatterns_inside step (mem_subpatterns_trans next inside second)
  termination_by p.size

theorem size_le_of_subpattern (p : Pattern) (inside : q ∈ p.subpatterns) : q.size ≤ p.size := by
  rcases mem_subpatterns_cases inside with rfl | ⟨next, -, smaller, inside⟩
  · exact Nat.le_refl _
  · exact Nat.le_trans (size_le_of_subpattern next inside) (Nat.le_of_lt smaller)
  termination_by p.size

theorem mem_namesAll {patterns : List Pattern} {name : String} :
    name ∈ namesAll patterns ↔ ∃ p ∈ patterns, name ∈ p.names := by
  induction patterns with
  | nil => simp [namesAll]
  | cons p rest ih => simp [namesAll, ih]

theorem mem_namesFields {fields : List (String × Pattern)} {name : String} :
    name ∈ namesFields fields ↔ ∃ key p, (key, p) ∈ fields ∧ name ∈ p.names := by
  induction fields with
  | nil => simp [namesFields]
  | cons field rest ih =>
    obtain ⟨key, p⟩ := field
    simp only [namesFields, List.mem_append, ih, List.mem_cons]
    constructor
    · rintro (first | ⟨other, p', mem, inside⟩)
      · exact ⟨key, p, .inl rfl, first⟩
      · exact ⟨other, p', .inr mem, inside⟩
    · rintro ⟨other, p', same | mem, inside⟩
      · cases same
        exact .inl inside
      · exact .inr ⟨other, p', mem, inside⟩

theorem mem_names_self {name : String} (h : p.name? = some name) : name ∈ p.names := by
  cases p with
  | reference other => cases h; simp [names]
  | object fields traits => exact List.mem_append_left _ (Option.mem_toList.mpr h)
  | array elements knownAs => exact List.mem_append_left _ (Option.mem_toList.mpr h)
  | _ => cases h

theorem mem_names_of_step {name : String} (h : (∃ alternatives, p = .anyOf alternatives ∧
    q ∈ alternatives) ∨ Part p q) (mem : name ∈ q.names) : name ∈ p.names := by
  rcases h with ⟨alternatives, rfl, known⟩ | part
  · exact mem_namesAll.mpr ⟨q, known, mem⟩
  · cases part with
    | inner => exact mem
    | field known => exact List.mem_append_right _ (mem_namesFields.mpr ⟨_, q, known, mem⟩)
    | element known => exact List.mem_append_right _ (mem_namesAll.mpr ⟨q, known, mem⟩)
    | tail known => exact List.mem_append_right _ (mem_namesAll.mpr ⟨_, known, mem⟩)

theorem mem_names_of_subpattern {name : String} (p : Pattern) (inside : q ∈ p.subpatterns)
    (h : name ∈ q.names) : name ∈ p.names := by
  rcases mem_subpatterns_cases inside with rfl | ⟨next, step, smaller, inside⟩
  · exact h
  · exact mem_names_of_step step (mem_names_of_subpattern next inside h)
  termination_by p.size

end Pattern

def reachable (types : Entries Pattern) (p : Pattern) : List Pattern :=
  p.subpatterns ++ Pattern.subpatternsFields types

def reachableNames (types : Entries Pattern) (p : Pattern) : List String :=
  p.names ++ Pattern.namesFields types

theorem length_reachable (types : Entries Pattern) (p : Pattern) :
    (reachable types p).length = p.size + Pattern.sizeFields types := by
  simp [reachable, Pattern.length_subpatterns, Pattern.length_subpatternsFields]

theorem mem_reachableNames {types : Entries Pattern} {p q : Pattern} {name : String}
    (h : q ∈ reachable types p) (named : q.name? = some name) : name ∈ reachableNames types p := by
  have own := Pattern.mem_names_self named
  rcases List.mem_append.mp h with inside | inside
  · exact List.mem_append_left _ (Pattern.mem_names_of_subpattern p inside own)
  · obtain ⟨key, t, mem, inside⟩ := Pattern.mem_subpatternsFields.mp inside
    exact List.mem_append_right _ (Pattern.mem_namesFields.mpr
      ⟨key, t, mem, Pattern.mem_names_of_subpattern t inside own⟩)

theorem reachable_trans {types : Entries Pattern} {p q o : Pattern} (h : q ∈ reachable types p)
    (more : Reaches types q o) : o ∈ reachable types p := by
  have inside {o q : Pattern} (mem : o ∈ reachable types p) (step : q ∈ o.subpatterns) :
      q ∈ reachable types p := by
    rcases List.mem_append.mp mem with own | named
    · exact List.mem_append_left _ (Pattern.mem_subpatterns_trans p own step)
    · obtain ⟨key, t, mem, own⟩ := Pattern.mem_subpatternsFields.mp named
      exact List.mem_append_right _ (Pattern.mem_subpatternsFields.mpr
        ⟨key, t, mem, Pattern.mem_subpatterns_trans t own step⟩)
  induction more with
  | refl => exact h
  | tail _ step ih =>
    rcases step with (named | mem) | part
    · exact List.mem_append_right _ (Pattern.mem_subpatternsFields.mpr
        ⟨_, _, Entries.mem_of_get? named, Pattern.mem_subpatterns_self _⟩)
    · exact inside ih (Pattern.mem_subpatterns_of_step (.inl ⟨_, rfl, mem⟩))
    · exact inside ih (Pattern.mem_subpatterns_of_step (.inr part))

theorem Reaches.mem_reachable {types : Entries Pattern} {p q : Pattern} (h : Reaches types p q) :
    q ∈ reachable types p :=
  reachable_trans (List.mem_append_left _ (Pattern.mem_subpatterns_self p)) h

theorem mem_reachable_of_type {types : Entries Pattern} {type : String × Pattern} {q : Pattern}
    (p : Pattern) (mem : type ∈ types) (reach : Reaches types type.2 q) : q ∈ reachable types p :=
  reachable_trans (List.mem_append_right _
    (Pattern.mem_subpatternsFields.mpr ⟨_, _, mem, Pattern.mem_subpatterns_self _⟩)) reach

theorem Reaches.of_subpattern {types : Entries Pattern} {q : Pattern} (p : Pattern)
    (inside : q ∈ p.subpatterns) : Reaches types p q := by
  rcases Pattern.mem_subpatterns_cases inside with rfl | ⟨o, step, smaller, more⟩
  · exact .refl q
  · have later : Reaches types o q := Reaches.of_subpattern o more
    rcases step with ⟨alternatives, rfl, mem⟩ | part
    · exact (Unfolds.reaches (.anyOf mem)).trans later
    · exact part.reaches.trans later
  termination_by p.size

theorem Reaches.inside_or_named {types : Entries Pattern} {p q : Pattern} (h : Reaches types p q) :
    q ∈ p.subpatterns ∨ ∃ type ∈ types, Reaches types type.2 q := by
  induction h with
  | refl => exact .inl (Pattern.mem_subpatterns_self p)
  | tail _ step ih =>
    rcases ih with inside | ⟨type, mem, reach⟩
    · rcases step with (named | mem) | part
      · exact .inr ⟨_, Entries.mem_of_get? named, .refl _⟩
      · exact .inl (Pattern.mem_subpatterns_trans p inside
          (Pattern.mem_subpatterns_of_step (.inl ⟨_, rfl, mem⟩)))
      · exact .inl (Pattern.mem_subpatterns_trans p inside
          (Pattern.mem_subpatterns_of_step (.inr part)))
    · exact .inr ⟨type, mem, Relation.ReflTransGen.tail reach step⟩

def settlesWithin (types : Entries Pattern) : Nat → Pattern → Bool
  | 0, _ => false
  | n + 1, .reference name =>
      match registered? types name with
      | some p => settlesWithin types n p
      | none => true
  | n + 1, .anyOf alternatives => alternatives.all (settlesWithin types n)
  | _ + 1, _ => true

section Settling

variable {types : Entries Pattern} {p q : Pattern} {n m : Nat}

theorem settlesWithin_succ :
    settlesWithin types (n + 1) p ↔ ∀ q, Unfolds types p q → settlesWithin types n q := by
  constructor
  · intro h q step
    cases step with
    | reference named => simpa [settlesWithin, named] using h
    | anyOf mem => exact List.all_eq_true.mp h q mem
  · intro h
    cases p with
    | reference name =>
      cases named : registered? types name with
      | none => simp [settlesWithin, named]
      | some q => simpa [settlesWithin, named] using h q (.reference named)
    | anyOf alternatives => exact List.all_eq_true.mpr fun q mem => h q (.anyOf mem)
    | _ => rfl

theorem settlesWithin_mono (h : settlesWithin types n p) (le : n ≤ m) :
    settlesWithin types m p := by
  induction n generalizing p m with
  | zero => cases h
  | succ n ih =>
    obtain ⟨m, rfl⟩ : ∃ k, m = k + 1 := ⟨m - 1, by omega⟩
    exact settlesWithin_succ.mpr fun q step => ih (settlesWithin_succ.mp h q step) (by omega)

theorem settlesWithin_of_unfoldings (h : settlesWithin types (n + 1) p)
    (unfolds : Relation.TransGen (Unfolds types) p q) : settlesWithin types n q := by
  induction unfolds with
  | single step => exact settlesWithin_succ.mp h _ step
  | tail _ step ih =>
    exact settlesWithin_succ.mp (settlesWithin_mono ih (Nat.le_succ n)) _ step

theorem not_loop_of_settles (h : settlesWithin types n p) :
    ¬ Relation.TransGen (Unfolds types) p p := by
  induction n generalizing p with
  | zero => cases h
  | succ n ih =>
    intro loop
    obtain ⟨q, step, back⟩ := Relation.TransGen.head'_iff.mp loop
    exact ih (settlesWithin_succ.mp h q step) (Relation.TransGen.tail' back step)

theorem Guarded.of_settles (n : Nat)
    (h : types.all fun type => settlesWithin types n type.2) : Guarded types := by
  intro name loop
  obtain ⟨q, step, back⟩ := Relation.TransGen.head'_iff.mp loop
  cases step with
  | reference named =>
    have settles := List.all_eq_true.mp h _ (Entries.mem_of_get? named)
    exact not_loop_of_settles settles (Relation.TransGen.tail' back (.reference named))

def Enterable (types left : Entries Pattern) (p : Pattern) : Prop :=
  ∀ name q, Relation.ReflTransGen (Unfolds types) p (.reference name) →
    registered? types name = some q → (Token.typeName name, q) ∈ left

theorem Enterable.unfold {left : Entries Pattern} (h : Enterable types left p)
    (step : Unfolds types p q) : Enterable types left q :=
  fun name r met => h name r (.head step met)

theorem Enterable.erase {left : Entries Pattern} {name : String} (guarded : Guarded types)
    (h : Enterable types left (.reference name)) (named : registered? types name = some q) :
    Enterable types (Entries.erase left (Token.typeName name)) q := by
  intro other r met hr
  refine List.mem_filter.mpr ⟨h.unfold (.reference named) other r met hr, ?_⟩
  refine decide_eq_true fun (same : Token.typeName other = Token.typeName name) => ?_
  have back : registered? types other = some q := by
    rw [registered?, same]
    exact named
  exact guarded other (.head' (.reference back) met)

theorem Enterable.settles (guarded : Guarded types) (left : Entries Pattern) (p : Pattern)
    (h : Enterable types left p) :
    settlesWithin types (p.size + Pattern.sizeFields left) p := by
  obtain ⟨s, hs⟩ : ∃ s, p.size = s + 1 := ⟨p.size - 1, by have := p.size_pos; omega⟩
  rw [hs, Nat.add_right_comm]
  refine settlesWithin_succ.mpr fun q step => ?_
  cases step with
  | @reference name q named =>
    have mem := h name q .refl named
    have sizes := sizeFields_erase mem
    have fewer : (Entries.erase left (Token.typeName name)).length < left.length :=
      List.length_filter_lt_length_iff_exists.mpr ⟨_, mem, by simp⟩
    exact settlesWithin_mono (Enterable.settles guarded _ q (h.erase guarded named)) (by omega)
  | @anyOf alternatives q mem =>
    have smaller := Pattern.size_le_sizeAll mem
    have : q.size < (Pattern.anyOf alternatives).size := by
      simp only [Pattern.size]
      omega
    exact settlesWithin_mono (Enterable.settles guarded left q (h.unfold (.anyOf mem))) (by omega)
  termination_by (left.length, p.size)

theorem Guarded.settles (guarded : Guarded types) (p : Pattern) :
    settlesWithin types (p.size + Pattern.sizeFields types) p :=
  Enterable.settles guarded types p fun _ _ _ named => Entries.mem_of_get? named

theorem Guarded.not_loop (guarded : Guarded types) (p : Pattern) :
    ¬ Relation.TransGen (Unfolds types) p p :=
  not_loop_of_settles (guarded.settles p)

theorem Guarded.unfold_induction {motive : Pattern → Prop} (guarded : Guarded types)
    (step : ∀ p, (∀ q, Unfolds types p q → motive q) → motive p) (p : Pattern) : motive p := by
  -- A chain enters each type at most once, so all types together bound its length.
  have main (n : Nat) (p : Pattern) (h : settlesWithin types n p) : motive p := by
    induction n generalizing p with
    | zero => cases h
    | succ n ih => exact step p fun q unfolds => ih q (settlesWithin_succ.mp h q unfolds)
  exact main _ p (guarded.settles p)

end Settling

def Pattern.Concrete (p : Pattern) : Prop :=
  ∀ name, p ≠ .reference name

theorem Pattern.concrete_null : Pattern.null.Concrete := by
  intro name same
  cases same

section Resolving

variable {resolver : Resolver} {p q : Pattern} {name : String}

theorem Resolver.get_of_registered (h : registered? resolver.types name = some p) :
    resolver.get name = .ok p := by
  simp only [registered?] at h
  simp [Resolver.get, h]

theorem Resolver.follow_of_concrete {hops : Nat} (h : p.Concrete) :
    resolver.follow hops p = .ok p := by
  cases p with
  | reference name => exact absurd rfl (h name)
  | _ => cases hops <;> rfl

theorem Resolver.resolve_of_concrete (h : p.Concrete) : resolver.resolve p = .ok p :=
  follow_of_concrete h

theorem Resolver.concrete_of_follow {hops : Nat} (found : resolver.follow hops p = .ok q) :
    q.Concrete := by
  induction hops generalizing p with
  | zero =>
    cases p with
    | reference name =>
      cases got : resolver.get name <;> simp [follow, got, bind, Except.bind] at found
    | _ => cases found; nofun
  | succ hops ih =>
    cases p with
    | reference name =>
      cases got : resolver.get name with
      | error => simp [follow, got, bind, Except.bind] at found
      | ok o =>
        simp only [follow, got, bind, Except.bind] at found
        exact ih found
    | _ => cases found; nofun

theorem Enterable.follow_succ (guarded : Guarded resolver.types) (hops : Nat) :
    ∀ (left : Entries Pattern) (p : Pattern), Enterable resolver.types left p →
      left.length < hops → resolver.follow (hops + 1) p = resolver.follow hops p := by
  -- One more hop changes nothing where the types left are fewer than the hops.
  induction hops with
  | zero => intro left p _ h; omega
  | succ hops ih =>
    intro left p enterable short
    cases p with
    | reference name =>
      cases named : registered? resolver.types name with
      | some q =>
        have mem := enterable name q .refl named
        have fewer : (Entries.erase left (Token.typeName name)).length < left.length :=
          List.length_filter_lt_length_iff_exists.mpr ⟨_, mem, by simp⟩
        have rest := ih _ q (enterable.erase guarded named) (by omega)
        simpa [Resolver.follow, Resolver.get_of_registered named, bind, Except.bind] using rest
      | none =>
        simp only [registered?] at named
        simp only [Resolver.follow, Resolver.get, named]
        by_cases tolerated : resolver.nullTolerant && Token.typeName name = "null"
        · simp only [tolerated, if_true, bind, Except.bind]
          cases hops <;> rfl
        · simp [tolerated, bind, Except.bind]
    | _ => rfl

theorem Guarded.resolve_reference (guarded : Guarded resolver.types)
    (h : resolver.get name = .ok p) :
    resolver.resolve (.reference name) = resolver.resolve p := by
  have more := Enterable.follow_succ guarded (resolver.types.length + 1) resolver.types
    (.reference name) (fun _ _ _ named => Entries.mem_of_get? named) (by omega)
  rw [Resolver.resolve, ← more]
  simp [Resolver.follow, Resolver.resolve, h, bind, Except.bind]

def Resolves (types : Entries Pattern) (p q : Pattern) : Prop :=
  ∀ resolver : Resolver, resolver.types = types → resolver.resolve p = .ok q

theorem Resolves.unique {types : Entries Pattern} {o : Pattern} (first : Resolves types p o)
    (second : Resolves types p q) : o = q := by
  have both := (first { Resolver.empty with types } rfl).symm.trans (second _ rfl)
  cases both
  rfl

theorem Guarded.resolves {types : Entries Pattern} (guarded : Guarded types) :
    ∀ p : Pattern, Registered types p → ∃ q, q.Concrete ∧
      Relation.ReflTransGen (Unfolds types) p q ∧ Resolves types p q := by
  refine guarded.unfold_induction fun p ih registered => ?_
  by_cases concrete : p.Concrete
  · exact ⟨p, concrete, .refl, fun resolver _ => Resolver.resolve_of_concrete concrete⟩
  · obtain ⟨name, rfl⟩ : ∃ name, p = .reference name := by
      simpa [Pattern.Concrete] using concrete
    obtain ⟨q, named⟩ := Option.isSome_iff_exists.mp (registered name (Reaches.refl _))
    obtain ⟨r, concrete, unfolds, resolves⟩ := ih q (.reference named)
      (registered.of_reaches (Unfolds.reaches (.reference named)))
    refine ⟨r, concrete, .head (.reference named) unfolds, fun resolver same => ?_⟩
    subst same
    rw [guarded.resolve_reference (Resolver.get_of_registered named)]
    exact resolves resolver rfl

end Resolving

end ApiContract
