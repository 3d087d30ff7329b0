import Mathlib.Logic.Function.Basic
import ApiContract.Proofs.Bounds
import ApiContract.Proofs.Covering

set_option autoImplicit false

namespace ApiContract

def Pattern.isLeaf : Pattern → Bool
  | .string | .number | .boolean | .null | .url _ => true
  | _ => false

def Pattern.takesScalar : Pattern → Value → Bool
  | .string, .string _ => true
  | .number, .number _ => true
  | .boolean, .boolean _ => true
  | .null, v => v.isNull || v.isEmptyString
  | .url scheme, .string s => scheme.accepts s
  | _, _ => false

def Members.areLeaves (members : Members) : Bool :=
  members.fixed.all Pattern.isLeaf && members.tail.all Pattern.isLeaf

theorem Members.leaf_at {members : Members} {i : Nat} {p : Pattern}
    (leaves : members.areLeaves) (place : members.at? i = some p) : p.isLeaf := by
  obtain ⟨fixed, tail⟩ := Bool.and_eq_true_iff.mp leaves
  rcases Option.or_eq_some_iff.mp place with own | ⟨-, own⟩
  · exact List.all_eq_true.mp fixed p (List.mem_of_getElem? own)
  · exact (Option.all_eq_true _ _).mp tail p own

section Leaves

variable {r : Resolver} {p q : Pattern} {v : Value}
  {compare : Resolver → Resolver → Pattern → Pattern → Option Verdict}
  {accepts : Resolver → Pattern → Value → Option Verdict} {these those : Resolver}

theorem accepts_leaf (leaf : p.isLeaf) : Accepts r p v ↔ p.takesScalar v := by
  cases p with
  | string => cases v <;> simp [accepts_string, Pattern.takesScalar]
  | number => cases v <;> simp [accepts_number, Pattern.takesScalar]
  | boolean => cases v <;> simp [accepts_boolean, Pattern.takesScalar]
  | null => cases v <;>
      simp [accepts_null, Pattern.takesScalar, Value.isNull, Value.isEmptyString]
  | url scheme => cases v <;> simp [accepts_url, Pattern.takesScalar]
  | _ => cases leaf

theorem refuses_object (p : Pattern) (members : List (String × Value)) :
    p.takesScalar (.object members) = false := by
  cases p <;> rfl

theorem eq_number_of_takes {n : Number} (h : p.takesScalar (.number n)) : p = .number := by
  cases p <;> first | rfl | cases h

theorem eq_boolean_of_takes {b : Bool} (h : p.takesScalar (.boolean b)) : p = .boolean := by
  cases p <;> first | rfl | cases h

theorem eq_null_of_takes (h : p.takesScalar .null) : p = .null := by
  cases p <;> first | rfl | cases h

theorem takes_text {s : String} (nonempty : s ≠ "") (h : p.takesScalar (.string s)) :
    p = .string ∨ ∃ scheme, p = .url scheme ∧ scheme.accepts s := by
  cases p with
  | string => exact .inl rfl
  | null => exact absurd (of_decide_eq_true h) nonempty
  | url scheme => exact .inr ⟨scheme, rfl, h⟩
  | _ => cases h

def UrlScheme.example (scheme : UrlScheme) : String :=
  scheme.start ++ "://"

theorem UrlScheme.accepts_example (scheme : UrlScheme) : scheme.accepts scheme.example := by
  cases scheme <;> decide

theorem exists_taken (leaf : p.isLeaf) : ∃ v, p.takesScalar v := by
  cases p with
  | string => exact ⟨.string "", rfl⟩
  | number => exact ⟨.number (.ofNat 0 (by decide)), rfl⟩
  | boolean => exact ⟨.boolean true, rfl⟩
  | null => exact ⟨.null, rfl⟩
  | url scheme => exact ⟨.string scheme.example, scheme.accepts_example⟩
  | _ => cases leaf

theorem UrlScheme.encompasses_iff {wider scheme : UrlScheme} :
    wider.encompasses scheme ↔ ∀ text, scheme.accepts text → wider.accepts text := by
  constructor
  · intro wide text ok
    simp only [UrlScheme.encompasses, Bool.or_eq_true, Bool.and_eq_true, decide_eq_true_eq] at wide
    rcases wide with rfl | ⟨rfl, rfl | rfl⟩
    · exact ok
    · exact Bool.or_eq_true_iff.mpr (.inl ok)
    · exact Bool.or_eq_true_iff.mpr (.inr ok)
  · intro covers
    -- Three texts tell the schemes apart.
    have http := covers "http://"
    have https := covers "https://"
    have path := covers "/"
    revert http https path
    cases wider <;> cases scheme <;> decide

theorem compareResolved_leaf (bigger : p.isLeaf) (smaller : q.isLeaf) :
    compareResolved compare accepts these those p q = some .success ↔
      ∀ v, q.takesScalar v → p.takesScalar v := by
  constructor
  · intro success v taken
    cases succeeds_of_compareResolved success with
    | string | number | boolean | null => exact taken
    | text =>
      cases v with
      | string => rfl
      | _ => cases taken
    | url wide =>
      cases v with
      | string s => exact UrlScheme.encompasses_iff.mp wide s taken
      | _ => cases taken
    | right | same | literal | object => cases smaller
    | left => cases bigger
    | sequence first _ _ =>
      cases p with
      | repeated | array => cases bigger
      | _ => cases first
  · intro covers
    cases q with
    | number =>
      obtain rfl := eq_number_of_takes (covers (.number (.ofNat 0 (by decide))) rfl)
      rfl
    | boolean =>
      obtain rfl := eq_boolean_of_takes (covers (.boolean true) rfl)
      rfl
    | null =>
      obtain rfl := eq_null_of_takes (covers .null rfl)
      rfl
    | string =>
      rcases takes_text (by decide) (covers (.string "-") rfl) with rfl | ⟨wider, rfl, starts⟩
      · rfl
      · cases wider <;> cases starts
    | url scheme =>
      have nonempty : scheme.example ≠ "" := by cases scheme <;> decide
      rcases takes_text nonempty (covers (.string scheme.example) scheme.accepts_example) with
        rfl | ⟨wider, rfl, -⟩
      · rfl
      · have wide := UrlScheme.encompasses_iff.mpr fun text => covers (.string text)
        simp [compareResolved, wide]
    | _ => cases smaller

end Leaves

section Positions

variable {takes : Pattern → Value → Prop} {these those : Members}
  {f : Pattern → Pattern → Option Verdict}

theorem fitsMembers_of_items {members : Members} {length : Nat} (item : Nat → Value)
    (enough : members.fixed.length ≤ length)
    (more : members.fixed.length < length → members.isEndless)
    (fits : ∀ i p, members.at? i = some p → takes p (item i)) :
    FitsMembers takes members ((List.range length).map item) := by
  refine ⟨by simpa using enough, fun i u found => ?_⟩
  obtain ⟨inside, same⟩ := List.getElem?_eq_some_iff.mp found
  rw [List.getElem_map, List.getElem_range] at same
  subst same
  have short : i < length := by simpa using inside
  obtain ⟨p, place⟩ : ∃ p, members.at? i = some p := by
    refine Option.isSome_iff_exists.mp ?_
    by_cases before : i < members.fixed.length
    · simp [Members.at?, before]
    · rw [Members.at?_eq_tail (Nat.le_of_not_lt before)]
      exact more (by omega)
  exact ⟨p, place, fits i p place⟩

theorem exists_items {members : Members} (h : ∀ i p, members.at? i = some p → ∃ u, takes p u) :
    ∃ item : Nat → Value, ∀ i p, members.at? i = some p → takes p (item i) := by
  have each (i : Nat) : ∃ u, ∀ p, members.at? i = some p → takes p u := by
    cases place : members.at? i with
    | none => exact ⟨.null, nofun⟩
    | some p =>
      obtain ⟨u, ok⟩ := h i p place
      exact ⟨u, fun q same => Option.some.inj same ▸ ok⟩
  exact ⟨fun i => (each i).choose, fun i => (each i).choose_spec⟩

theorem exists_at_of_covers
    (covers : ∀ items, FitsMembers takes those items → FitsMembers takes these items)
    (inhabited : ∀ i q, those.at? i = some q → ∃ u, takes q u) {i : Nat} {q : Pattern} {u : Value}
    (place : those.at? i = some q) (ok : takes q u) : ∃ p, these.at? i = some p ∧ takes p u := by
  obtain ⟨item, fits⟩ := exists_items inhabited
  have longer (far : those.fixed.length < max those.fixed.length (i + 1)) : those.isEndless := by
    rw [Members.at?_eq_tail (by omega)] at place
    simp [Members.isEndless, place]
  have replaced (k : Nat) (p : Pattern) (there : those.at? k = some p) :
      takes p (Function.update item i u k) := by
    by_cases same : k = i
    · subst same
      cases there.symm.trans place
      simpa using ok
    · simpa [same] using fits k p there
  have given := covers _ (fitsMembers_of_items _ (Nat.le_max_left _ (i + 1)) longer replaced)
  have short : i < max those.fixed.length (i + 1) := by omega
  exact given.items i u (by simp [short])

theorem compareMembers_iff
    (each : ∀ p q i, these.at? i = some p → those.at? i = some q →
      (f p q = some .success ↔ ∀ u, takes q u → takes p u))
    (inhabited : ∀ i q, those.at? i = some q → ∃ u, takes q u) :
    compareMembers f these those = some .success ∧
        (those.isEndless → these.fixed.length ≤ those.fixed.length) ↔
      ∀ items, FitsMembers takes those items → FitsMembers takes these items := by
  rw [compareMembers_eq_success]
  constructor
  · rintro ⟨positions, longer⟩ items fits
    have position (i : Nat) := comparePosition_eq_success.mp (positions i)
    refine fitsMembers_of_positions longer (fun i => (position i).2.1) (fun i => (position i).2.2)
      (fun i p q own place u _ ok => ?_) fits
    exact (each p q i own place).mp ((position i).1 p q own place) u ok
  · intro covers
    have shortest : these.fixed.length ≤ those.fixed.length := by
      obtain ⟨item, fits⟩ := exists_items inhabited
      have given := covers _ (fitsMembers_of_items item (Nat.le_refl _) (by omega) fits)
      simpa using given.length
    refine ⟨fun i => comparePosition_eq_success.mpr ⟨fun p q own place => ?_, fun given => ?_,
      fun before => ?_⟩, fun _ => shortest⟩
    · refine (each p q i own place).mpr fun u ok => ?_
      obtain ⟨o, there, taken⟩ := exists_at_of_covers covers inhabited place ok
      cases own.symm.trans there
      exact taken
    · obtain ⟨q, place⟩ := Option.isSome_iff_exists.mp given
      obtain ⟨u, ok⟩ := inhabited i q place
      obtain ⟨p, own, -⟩ := exists_at_of_covers covers inhabited place ok
      exact own ▸ rfl
    · simp [Members.at?, Nat.lt_of_lt_of_le before shortest]

end Positions

section Comparisons

variable {r these those : Resolver} {a b p q : Pattern} {m n : Members} {v : Value}

theorem accepts_members (first : members? a = some m) (leaves : m.areLeaves) :
    Accepts r a v ↔ ∃ items, v = .array items ∧
      (isUnconstrained a ∨ FitsMembers (fun p u => p.takesScalar u) m items) := by
  have same {s : Resolver} {items : List Value} : FitsMembers (Accepts s) m items ↔
      FitsMembers (fun p u => p.takesScalar u) m items :=
    ⟨fun fits => fits.imp fun p i place u _ => (accepts_leaf (Members.leaf_at leaves place)).mp,
      fun fits => fits.imp fun p i place u _ => (accepts_leaf (Members.leaf_at leaves place)).mpr⟩
  cases a with
  | array elements knownAs =>
    cases first
    rw [accepts_elements]
    simp only [same, isUnconstrained, List.isEmpty_iff]
  | repeated inner =>
    cases first
    rw [accepts_repeated]
    refine exists_congr fun items => and_congr_right fun _ => ?_
    rw [← @same r, fitsMembers_iff]
    simp [isUnconstrained]
  | _ => cases first

theorem compareAt_leaf {fuel : Nat} {stack : TypeStack} (bigger : p.isLeaf) (smaller : q.isLeaf) :
    Pattern.compareAt (fuel + 1) stack these those p q = some .success ↔
      ∀ u, q.takesScalar u → p.takesScalar u := by
  have plain {o : Pattern} (leaf : o.isLeaf) : o.Concrete ∧ o.name? = none := by
    cases o <;> first | exact ⟨nofun, rfl⟩ | cases leaf
  have free : isHeld stack p q = false := by simp [isHeld, namePair?, (plain bigger).2]
  rw [Pattern.compareAt_concrete free (plain bigger).1 (plain smaller).1]
  exact compareResolved_leaf bigger smaller

theorem encompasses_sequence (these those : Resolver) (first : members? a = some m)
    (second : members? b = some n) :
    ∃ fuel stack, Pattern.encompasses these those a b =
      compareSequences (Pattern.compareAt (fuel + 1) stack these.tolerant those.tolerant) a b := by
  have concrete {o : Pattern} {l : Members} (h : members? o = some l) : o.Concrete := by
    intro name same
    rw [same] at h
    cases h
  have free : isHeld [] a b = false := by
    cases named : namePair? a b <;> simp [isHeld, named]
  have twice : 2 * 1 ≤ Pattern.compareBound these those a b :=
    Nat.mul_le_mul (Nat.le_add_left 2 _) (Nat.le_add_left_of_le (by decide))
  obtain ⟨fuel, bound⟩ := Nat.exists_eq_add_of_le' twice
  refine ⟨fuel, entering [] a b, ?_⟩
  rw [Pattern.encompasses_eq_compareAt, bound,
    Pattern.compareAt_concrete free (concrete first) (concrete second),
    compareResolved_sequence first second]

theorem not_fits_objects :
    ¬ FitsMembers (fun p u => p.takesScalar u) m
      (List.replicate (m.fixed.length + 1) (.object [])) := by
  intro fits
  obtain ⟨p, -, taken⟩ := fits.items m.fixed.length (.object []) (by simp)
  rw [refuses_object] at taken
  cases taken

/-- A sequence of scalars encompasses another one, and asks for no more items where that is endless,
just when it takes every value that the other takes. -/
theorem encompasses_scalars_iff (first : members? a = some m) (second : members? b = some n)
    (leaves : m.areLeaves) (leaves' : n.areLeaves) :
    Pattern.encompasses these those a b = some .success ∧
        (n.isEndless → m.fixed.length ≤ n.fixed.length) ↔
      ∀ v, b.check those v = some .success → a.check these v = some .success := by
  have left (v : Value) := accepts_members (r := these) (v := v) first leaves
  have right (v : Value) := accepts_members (r := those) (v := v) second leaves'
  show _ ↔ ∀ v, Accepts those b v → Accepts these a v
  obtain ⟨fuel, stack, level⟩ := encompasses_sequence these those first second
  rw [level, compareSequences_eq_success first second]
  cases open_ : isUnconstrained a with
  | true =>
    have empty : m.fixed = [] := by
      cases a with
      | array elements knownAs =>
        cases first
        simp [List.isEmpty_iff.mp open_, Members.ofElements]
      | _ => cases open_
    refine iff_of_true ⟨.inl rfl, fun _ => by simp [empty]⟩ fun v ok => ?_
    obtain ⟨items, rfl, -⟩ := (right v).mp ok
    exact (left _).mpr ⟨items, rfl, .inl open_⟩
  | false =>
    cases closed : isUnconstrained b with
    | true =>
      refine iff_of_false (by simp) fun covers => ?_
      obtain ⟨_, same, fits⟩ := (left _).mp (covers _ ((right _).mpr
        ⟨List.replicate (m.fixed.length + 1) (.object []), rfl, .inl closed⟩))
      cases same
      exact not_fits_objects (fits.resolve_left (by simp [open_]))
    | false =>
      simp only [open_, closed, Bool.false_eq_true, false_or, true_and] at left right ⊢
      refine Iff.trans (compareMembers_iff (fun p q i own place =>
        compareAt_leaf (Members.leaf_at leaves own) (Members.leaf_at leaves' place))
        fun i q place => exists_taken (Members.leaf_at leaves' place)) ?_
      constructor
      · intro covers v ok
        obtain ⟨items, rfl, fits⟩ := (right v).mp ok
        exact (left _).mpr ⟨items, rfl, covers items fits⟩
      · intro covers items fits
        obtain ⟨_, same, fits⟩ := (left _).mp (covers _ ((right _).mpr ⟨items, rfl, fits⟩))
        cases same
        exact fits

def titledLinks : Pattern :=
  .array [.string, .repeated (.url .any)] none

def sitemap : Pattern :=
  .array [.url .path, .url .http, .repeated (.url .http)] none

theorem titledLinks_take_sitemap :
    Pattern.encompasses .empty .empty titledLinks sitemap = some .success ∧
      ∀ v, sitemap.check .empty v = some .success → titledLinks.check .empty v = some .success := by
  have compared : Pattern.encompasses .empty .empty titledLinks sitemap = some .success := by
    decide +kernel
  exact ⟨compared, (encompasses_scalars_iff (a := titledLinks) (b := sitemap) rfl rfl rfl rfl).mp
    ⟨compared, by decide⟩⟩

theorem one_or_more_encompasses_any :
    Pattern.encompasses .empty .empty (.array [.number, .repeated .number] none)
        (.array [.repeated .number] none) = some .success ∧
      Pattern.check .empty (.array [.repeated .number] none) (.array []) = some .success ∧
      Pattern.check .empty (.array [.number, .repeated .number] none) (.array []) ≠
        some .success := by
  decide +kernel

end Comparisons

end ApiContract
