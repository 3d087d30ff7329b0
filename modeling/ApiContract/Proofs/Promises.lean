import ApiContract.Proofs.Requests
import ApiContract.Proofs.Shapes

set_option autoImplicit false

/-!
What the comparison of two contracts promises. Each variant of an older request is compared by
itself, and a variant keeps the name of what it is a variant of. A pair of names that is met again
inside one variant therefore stands for all the others too, so what is proved by induction on the
value is that all variants together cover it.
-/
namespace ApiContract

section Composites

variable {compare : Resolver → Resolver → Pattern → Pattern → Option Verdict}
  {accepts : Resolver → Pattern → Value → Option Verdict} {these those : Resolver}
  {c x : Pattern}

theorem Succeeds.composite (h : Succeeds compare accepts these those c x)
    (composite : x.isComposite) :
    (∃ alternatives, c = .anyOf alternatives ∧
      ∃ p ∈ alternatives, compare these those p x = some .success) ∨
    (∃ a s b t, c = .object a s ∧ x = .object b t ∧
      compareObjects (fun p => accepts these.tolerant p .null)
        (compare these.tolerant those.tolerant) a b = some .success) ∨
    ∃ m n, members? c = some m ∧ members? x = some n ∧ (isUnconstrained c ∨
      isUnconstrained x = false ∧
        compareMembers (compare these.tolerant those.tolerant) m n = some .success) := by
  cases h with
  | left mem one => exact .inl ⟨_, rfl, _, mem, one⟩
  | object h => exact .inr (.inl ⟨_, _, _, _, rfl, rfl, h⟩)
  | sequence first second h => exact .inr (.inr ⟨_, _, first, second, h⟩)
  | _ => cases composite

theorem Succeeds.of_union {alternatives : List Pattern}
    (h : Succeeds compare accepts these those (.anyOf alternatives) x)
    (composite : x.isComposite) :
    ∃ p ∈ alternatives, compare these those p x = some .success := by
  rcases h.composite composite with ⟨_, same, one⟩ | ⟨_, _, _, _, same, _⟩ | ⟨_, _, same, _⟩
  · cases same
    exact one
  · cases same
  · cases same

theorem Succeeds.of_objects {a b : List (String × Pattern)} {s t : ObjectTraits}
    (h : Succeeds compare accepts these those (.object a s) (.object b t)) :
    compareObjects (fun p => accepts these.tolerant p .null)
      (compare these.tolerant those.tolerant) a b = some .success := by
  rcases h.composite rfl with ⟨_, same, _⟩ | ⟨_, _, _, _, same, same', compared⟩ | ⟨_, _, same, _⟩
  · cases same
  · cases same
    cases same'
    exact compared
  · cases same

theorem Succeeds.of_sequences {m n : Members}
    (h : Succeeds compare accepts these those c x) (composite : x.isComposite)
    (first : members? c = some m) (second : members? x = some n) :
    isUnconstrained c ∨ isUnconstrained x = false ∧
      compareMembers (compare these.tolerant those.tolerant) m n = some .success := by
  rcases h.composite composite with
    ⟨_, same, _⟩ | ⟨_, _, _, _, same, _⟩ | ⟨_, _, same, same', compared⟩
  · subst same
    cases first
  · subst same
    cases first
  · rw [first] at same
    rw [second] at same'
    cases same
    cases same'
    exact compared

theorem not_compareAt_null {fuel : Nat} {stack : TypeStack} (composite : x.isComposite) :
    Pattern.compareAt fuel stack these those .null x ≠ some .success := by
  intro success
  cases fuel with
  | zero => cases success
  | succ fuel =>
    have free : isHeld stack .null x = false := rfl
    rw [Pattern.compareAt, free] at success
    simp only [Bool.false_eq_true, if_false, Pattern.compareStep,
      Resolver.resolve_of_concrete Pattern.concrete_null,
      Resolver.resolve_of_concrete (concrete_of_composite composite)] at success
    rcases (succeeds_of_compareResolved success).composite composite with
      ⟨_, same, _⟩ | ⟨_, _, _, _, same, _⟩ | ⟨_, _, same, _⟩ <;> cases same

end Composites

theorem isHeld_congr {stack : TypeStack} {a x y : Pattern} (h : x.name? = y.name?) :
    isHeld stack a x = isHeld stack a y := by
  simp [isHeld, namePair?, h]

theorem entering_congr {stack : TypeStack} {a x y : Pattern} (h : x.name? = y.name?) :
    entering stack a x = entering stack a y := by
  simp [entering, namePair?, h]

section Variants

variable {those : Resolver} {fuel : Nat} {entered : List String} {b x : Pattern}
  (exhaustive : those.combinations = .exhaustive)
include exhaustive

theorem succeeds_of_variant {depth : Nat} {stack : TypeStack} {r s : Resolver} {a c : Pattern}
    (composite : b.isComposite) (free : ¬isHeld stack a b) (resolved : r.resolve a = .ok c)
    (variant : Variant those fuel entered b x)
    (success : Pattern.compareAt (depth + 1) stack r s a x = some .success) :
    x.isComposite ∧ Succeeds (Pattern.compareAt depth (entering stack a b)) Pattern.check r s c x := by
  obtain ⟨composite, named⟩ := variant.composite exhaustive composite
  rw [Pattern.compareAt, isHeld_congr named, entering_congr named] at success
  refine ⟨composite, succeeds_of_compareResolved ?_⟩
  simpa [Pattern.compareStep, free, resolved,
    Resolver.resolve_of_concrete (concrete_of_composite composite)] using success

variable {fields : List (String × Pattern)} {traits : ObjectTraits}
  (registry : WrittenTypes those.types) (regular : Regular those.types (.object fields traits))
  (expands : Expands those (fuel + 1) entered (.object fields traits))
include registry regular expands

theorem exists_required_variant : ∃ chosen,
    Variant those (fuel + 1) entered (.object fields traits) (.object (chosenFields chosen) traits) ∧
      ∀ name y, (name, y) ∈ chosenFields chosen → Entries.contains fields name := by
  obtain ⟨chosen, choices⟩ := exists_forall₂ (exists_choices exhaustive regular registry expands)
  refine ⟨chosen, (variant_tidyObject regular.bare.distinct exhaustive).mpr
    ⟨chosen, choices.imp fun _ _ h => h.1, rfl⟩, fun name y mem => ?_⟩
  obtain ⟨field, there, choice, absent⟩ := exists_of_forall₂_mem choices (mem_chosenFields.mp mem)
  cases optional : isOptional field.1 with
  | true => cases absent optional
  | false =>
    obtain ⟨rfl, -⟩ := choice
    rw [bareName_of_required optional]
    exact Entries.contains_of_mem there

theorem exists_variant_with {field : String × Pattern} {y : Pattern} (mem : field ∈ fields)
    (given : Variant those fuel entered field.2 y) : ∃ members,
    Variant those (fuel + 1) entered (.object fields traits) (.object members traits) ∧
      Entries.get? members (bareName field.1) = some y := by
  have total (other : String × Pattern) (there : other ∈ fields) :
      ∃ choice, Choice those fuel entered other choice := by
    obtain ⟨choice, h, -⟩ := exists_choices exhaustive regular registry expands other there
    exact ⟨choice, h⟩
  have put : Choice those fuel entered field (some (bareName field.1, y)) := ⟨rfl, given⟩
  obtain ⟨chosen, choices, inside⟩ := exists_forall₂_mem total mem put
  have bare := regular.bare.distinct
  exact ⟨_, (variant_tidyObject bare exhaustive).mpr ⟨chosen, choices, rfl⟩,
    Entries.get?_of_mem (distinct_chosenFields bare choices) (mem_chosenFields.mpr inside)⟩

section Compared

variable {a : List (String × Pattern)} {acceptsNull : Pattern → Option Verdict}
  {f : Pattern → Pattern → Option Verdict}
  (all : ∀ members,
    Variant those (fuel + 1) entered (.object fields traits) (.object members traits) →
      compareObjects acceptsNull f a members = some .success)
include all

theorem kept_of_variants {field : String × Pattern} (mem : field ∈ requiredFields a) :
    Entries.contains fields field.1 ∨ acceptsNull field.2 = some .success := by
  obtain ⟨chosen, variant, known⟩ := exists_required_variant exhaustive registry regular expands
  have kept := (Verdict.thenCheck_eq_success.mp (all _ variant)).1
  rw [keptKeys_eq_success] at kept
  refine (kept field mem).imp_left fun there => ?_
  obtain ⟨y, found⟩ := Option.isSome_iff_exists.mp there
  exact known _ y (Entries.mem_of_get? found)

theorem shared_of_variants {field : String × Pattern} (mem : field ∈ a)
    (bare : isOptional (bareName field.1) = false) {key : String} {q y : Pattern}
    (found : field? fields (bareName field.1) = some (key, q))
    (given : Variant those fuel entered q y) : f field.2 y = some .success := by
  have same : bareName key = bareName field.1 := bareName_of_field? found bare
  obtain ⟨members, variant, there⟩ := exists_variant_with exhaustive registry regular expands
    (mem_of_field? found) given
  have shared := (Verdict.thenCheck_eq_success.mp (all _ variant)).2
  rw [sharedFields_eq_success] at shared
  rw [same] at there
  exact shared field mem (bareName field.1) y (by rw [field?, there])

end Compared

end Variants

theorem Supports.unfold {these those : Resolver} {weight : Nat} {stack : TypeStack}
    {a b q : Pattern} (supports : Supports these those weight stack a b)
    (chain : Relation.ReflTransGen (Unfolds those.types) b q) :
    Supports these those weight stack a q := by
  intro pair mem
  obtain ⟨settled, more⟩ := supports pair mem
  refine ⟨settled, more.imp_right ?_⟩
  rintro ⟨c, d, hc, hd, down, down', proper⟩
  exact ⟨c, d, hc, hd, down, down'.trans chain, proper.imp_right fun again => .trans_left again chain⟩

/-- Of all variants of a pattern together: where comparisons with each of them succeed, they cover
the pattern at the values of one weight. -/
def CoversVariants (these those : Resolver) (weight fuel depth : Nat) (b : Pattern) : Prop :=
  ∀ (stack : TypeStack) (entered : List String) (r s : Resolver) (a : Pattern),
    r.types = these.types → s.types = those.types → Decisive these.types a →
    Supports these those weight stack a b → Expands those fuel entered b →
    (∀ x, Variant those fuel entered b x →
      Pattern.compareAt depth stack r s a x = some .success) →
    ∀ v : Value, v.weight ≤ weight → Covers these those a b v

section Covering

variable {these those : Resolver} (guarded : Guarded these.types) (guarded' : Guarded those.types)
  (exhaustive : those.combinations = .exhaustive) (registry : WrittenTypes those.types)
  {weight fuel depth : Nat} {b : Pattern} (decisive' : Decisive those.types b)
include guarded guarded' decisive'

include exhaustive registry

theorem covers_object_of_variants {r : Resolver} (hr : r.types = these.types)
    {f : Pattern → Pattern → Option Verdict} {entered : List String}
    {a fields : List (String × Pattern)} {s traits : ObjectTraits} {v : Value}
    (decisive : Decisive these.types (.object a s)) (same : b = .object fields traits)
    (expands : Expands those (fuel + 1) entered b)
    (all : ∀ members, Variant those (fuel + 1) entered b (.object members traits) →
      compareObjects (fun p => Pattern.check r.tolerant p .null) f a members = some .success)
    (parts : ∀ p q, Part (.object a s) p → Part b q → Expands those fuel entered q →
      (∀ y, Variant those fuel entered q y → f p y = some .success) →
      ∀ u : Value, u.weight < v.weight → Covers these those p q u) :
    Covers these those (.object a s) b v := by
  subst same
  have regular := decisive'.regular
  intro accepted
  obtain ⟨actual, rfl, fits⟩ := (accepts_object guarded' regular.registered).mp accepted
  rw [decisive'.narrow.strict _ _ (Reaches.refl _)] at fits
  refine (takes_object guarded decisive.regular.registered).mpr ⟨actual, rfl, ?_⟩
  have bare := decisive.regular.bare.unmarked
  refine fitsObject_of_shared bare (fun x mem => ?_) (fun x mem key q found u less given => ?_) fits
  · refine (kept_of_variants exhaustive registry regular expands all mem).imp_right fun ok => ?_
    have below := decisive.of_reaches (Part.reaches (.field (mem_of_requiredFields mem).1))
    exact takes_of_literal guarded hr below.wide rfl rfl ok
  · have there := mem_of_field? found
    refine parts x.2 q (.field mem) (.field there) ?_ (fun y variant => ?_) u less given
    · exact (expands_object exhaustive).mp expands _ there
    · exact shared_of_variants exhaustive registry regular expands all mem (bare x mem) found variant

theorem covers_sequence_of_variants {f : Pattern → Pattern → Option Verdict}
    {entered : List String} {c : Pattern} {m n : Members} {v : Value}
    (decisive : Decisive these.types c) (first : members? c = some m) (second : members? b = some n)
    (expands : Expands those fuel entered b)
    (all : ∀ x, Variant those fuel entered b x → ∀ more, members? x = some more →
      isUnconstrained c ∨ isUnconstrained x = false ∧ compareMembers f m more = some .success)
    (parts : ∀ p q fuel, Part c p → Part b q → Expands those fuel entered q →
      (∀ y, Variant those fuel entered q y → f p y = some .success) →
      ∀ u : Value, u.weight < v.weight → Covers these those p q u) :
    Covers these those c b v := by
  have regular := decisive'.regular
  intro accepted
  obtain ⟨items, rfl, fits⟩ := (accepts_sequence guarded' regular.registered second).mp accepted
  refine (takes_sequence guarded decisive.regular.registered first).mpr ⟨items, rfl, ?_⟩
  cases open_ : isUnconstrained c with
  | true => exact .inl rfl
  | false =>
    have positions {x : Pattern} {more : Members} (variant : Variant those fuel entered b x)
        (found : members? x = some more) (i : Nat) :=
      comparePosition_eq_success.mp (compareMembers_eq_success.mp
        ((all x variant more found).resolve_left (by simp [open_])).2 i)
    obtain ⟨x, variant⟩ :=
      exists_variant registry exhaustive (regular.arises b (Reaches.refl b)) expands
    obtain ⟨more, found, constrained, vary⟩ :=
      variant.members? guarded' exhaustive regular second
    have closed := ((all x variant more found).resolve_left (by simp [open_])).1
    rw [constrained] at closed
    have governed (i : Nat) : (n.at? i).isSome → (m.at? i).isSome := by
      rw [← vary.at?_isSome]
      exact (positions variant found i).2.1
    refine .inr (fitsMembers_of_positions
      (length_le_of_governed (decisive.wide.members first) governed) governed
      (fun i short => ?_) (fun i p q atFirst atSecond u mem given => ?_)
      (fits.resolve_left (by simp [closed])))
    · rw [← vary.at?_isSome]
      exact (positions variant found i).2.2 short
    · obtain ⟨k, inside, choose⟩ :=
        exists_variant_at guarded' exhaustive regular registry expands second atSecond
      refine parts p q k (members?_part first atFirst) (members?_part second atSecond) inside
        (fun y given => ?_) u (Value.Part.weight_lt (.item mem)) given
      obtain ⟨x, more, variant, found, place⟩ := choose y given
      exact (positions variant found i).1 p y atFirst place

theorem coversVariants_composite (composite : b.isComposite)
    (left : CoversVariants these those weight (fuel + 1) depth b)
    (lighter : ∀ lower < weight, ∀ fuel depth q, Decisive those.types q →
      CoversVariants these those lower fuel depth q) :
    CoversVariants these those weight (fuel + 1) (depth + 1) b := by
  intro stack entered r s a hr hs decisive supports expands all v le
  have wide := decisive.wide
  have narrow := decisive'.narrow
  by_cases held : isHeld stack a b
  · exact covers_of_held guarded guarded' wide narrow supports held le
  obtain ⟨c, concrete, unfolds, resolves⟩ := guarded.resolves a wide.registered
  have decisive₁ := decisive.of_reaches (.of_unfoldings unfolds)
  have concrete' := concrete_of_composite composite
  have level (x : Pattern) (variant : Variant those (fuel + 1) entered b x) :=
    succeeds_of_variant exhaustive composite held (resolves r hr) variant (all x variant)
  -- The pair that is put on the stack holds for lighter values, by the same comparisons.
  have settled : ∀ pair ∈ entering stack a b, Settled these those weight pair := by
    intro pair mem
    rcases List.mem_append.mp mem with old | new
    · exact (supports pair old).1
    · intro u less
      apply (covers_names guarded guarded' wide narrow (Option.mem_toList.mp new)).mpr
      exact lighter u.weight less (fuel + 1) (depth + 1) b decisive' stack entered r s a hr hs
        decisive (supports_of_settled (fun pair mem => (supports pair mem).1.mono less) a b)
        expands all u (Nat.le_refl _)
  have parts {p q : Pattern} {k : Nat} (first : Part c p) (second : Part b q)
      (inside : Expands those k entered q)
      (each : ∀ y, Variant those k entered q y →
        Pattern.compareAt depth (entering stack a b) r.tolerant s.tolerant p y = some .success)
      (u : Value) (less : u.weight < v.weight) : Covers these those p q u :=
    lighter u.weight (Nat.lt_of_lt_of_le less le) k depth q (decisive'.of_reaches second.reaches)
      (entering stack a b) entered r.tolerant s.tolerant p hr hs
      (decisive₁.of_reaches first.reaches)
      (supports_of_settled (fun pair mem => (settled pair mem).mono (Nat.lt_of_lt_of_le less le))
        p q) inside each u (Nat.le_refl _)
  intro accepted
  apply takes_of_unfoldings guarded wide.registered unfolds
  obtain ⟨x, variant⟩ :=
    exists_variant registry exhaustive (decisive'.regular.arises b (Reaches.refl b)) expands
  obtain ⟨there, succeeds⟩ := level x variant
  rcases succeeds.composite there with
    ⟨alternatives, rfl, -⟩ | ⟨m, t, n, u, rfl, rfl, -⟩ | ⟨m, n, first, second, -⟩
  · -- Null takes no composite, so it is the other alternative that takes all variants.
    obtain ⟨o, rfl, -⟩ := decisive₁.regular.nullable
    have step : Unfolds these.types (.anyOf [.null, o]) o := .anyOf (by simp)
    refine (takes_anyOf guarded decisive₁.regular.registered).mpr ⟨o, by simp, ?_⟩
    refine left (entering stack a b) entered r s o hr hs (decisive₁.of_reaches step.reaches) ?_
      expands (fun y variant => ?_) v le accepted
    · exact supports_entering guarded guarded' (fun name => wide.aliases a name (Reaches.refl a))
        (fun name => narrow.aliases b name (Reaches.refl b)) resolves
        (fun _ _ => Resolver.resolve_of_concrete concrete') unfolds .refl (.single step) .refl
        (.inl (.single step)) supports settled
    · obtain ⟨there, succeeds⟩ := level y variant
      obtain ⟨p, mem, one⟩ := succeeds.of_union there
      rcases List.mem_cons.mp mem with rfl | mem
      · exact absurd one (not_compareAt_null there)
      · obtain rfl := List.mem_singleton.mp mem
        exact one
  · obtain ⟨fields, rfl⟩ := variant.exists_fields exhaustive composite
    exact covers_object_of_variants guarded guarded' exhaustive registry decisive' hr decisive₁ rfl
      expands (fun members variant => (level _ variant).2.of_objects) (fun p q => parts) accepted
  · obtain ⟨those', second'⟩ := variant.exists_members exhaustive composite second
    refine covers_sequence_of_variants guarded guarded' exhaustive registry decisive' decisive₁ first
      second' expands (fun y variant more found => ?_) (fun p q k => parts) accepted
    obtain ⟨there, succeeds⟩ := level y variant
    exact succeeds.of_sequences there first found

omit decisive' in
theorem coversVariants (weight : Nat) : ∀ fuel depth b, Decisive those.types b →
    CoversVariants these those weight fuel depth b := by
  -- By the weight of the value, then down the expansion, then down the comparison.
  induction weight using Nat.strongRecOn with
  | _ weight lighter =>
  intro fuel
  induction fuel with
  | zero =>
    intro depth b _ stack entered r s a _ _ _ _ expands
    exact (not_expands_zero expands).elim
  | succ fuel ih =>
    intro depth b decisive'
    have composite (composite : b.isComposite) :
        CoversVariants these those weight (fuel + 1) depth b := by
      induction depth with
      | zero =>
        intro stack entered r s a _ _ _ _ expands all
        obtain ⟨x, variant⟩ :=
          exists_variant registry exhaustive (decisive'.regular.arises b (Reaches.refl b)) expands
        cases all x variant
      | succ depth left =>
        exact coversVariants_composite guarded guarded' exhaustive registry decisive' composite left
          lighter
    cases b with
    | repeated | object | array => exact composite rfl
    | reference name =>
      intro stack entered r s a hr hs decisive supports expands all v le
      by_cases met : name ∈ entered
      · exact covers_of_compareAt guarded guarded' weight depth stack r s a _ hr hs decisive.wide
          decisive'.narrow supports (all _ ((variant_entered met).mpr rfl)) v le
      · obtain ⟨q, found, more⟩ := (expands_reference met).mp expands
        obtain ⟨unfolds, regular⟩ := regular_of_resolve decisive'.regular guarded' found
        intro accepted
        refine ih depth q (decisive'.of_reaches (.of_unfoldings unfolds)) stack (name :: entered) r s a
          hr hs decisive (supports.unfold unfolds) more
          (fun x variant => all x ((variant_reference met).mpr ⟨q, found, variant⟩)) v le ?_
        rwa [Accepts, ← Pattern.check_resolved guarded' decisive'.regular.registered found]
    | anyOf alternatives =>
      obtain ⟨o, rfl, -⟩ := decisive'.regular.nullable
      have step (q : Pattern) (mem : q ∈ [Pattern.null, o]) :
          Unfolds those.types (.anyOf [.null, o]) q := .anyOf mem
      intro stack entered r s a hr hs decisive supports expands all v le accepted
      have more := expands_nullable.mp expands
      have each (x : Pattern) (h : x = .null ∨ Variant those fuel entered o x) :
          Pattern.compareAt depth stack r s a x = some .success :=
        all x ((variant_nullable fun y z => Variant.eq_of_same guarded' exhaustive
          (decisive'.regular.unfold (step o (by simp)))).mpr ⟨more, h⟩)
      obtain ⟨q, mem, taken⟩ := (accepts_anyOf guarded' decisive'.regular.registered).mp accepted
      have below := decisive'.of_reaches (step q mem).reaches
      have held := supports.unfold (.single (step q mem))
      rcases List.mem_cons.mp mem with rfl | mem
      · exact covers_of_compareAt guarded guarded' weight depth stack r s a .null hr hs decisive.wide
          below.narrow held (each .null (.inl rfl)) v le taken
      · obtain rfl := List.mem_singleton.mp mem
        exact ih depth q below stack entered r s a hr hs decisive held more
          (fun x variant => each x (.inr variant)) v le taken
    | _ =>
      intro stack entered r s a hr hs decisive supports expands all v le
      exact covers_of_compareAt guarded guarded' weight depth stack r s a _ hr hs decisive.wide
        decisive'.narrow supports (all _ ((variant_basic rfl).mpr rfl)) v le

omit decisive' in
theorem takes_of_all_variants {a : Pattern} {variants : List Pattern} {s : Resolver} {v : Value}
    (decisive : Decisive these.types a) (decisive' : Decisive those.types b)
    (expansion : b.expand those [] = pure variants) (hs : s.types = those.types)
    (all : ∀ x ∈ variants, Pattern.encompasses these s a x = some .success)
    (accepted : Pattern.check s b v = some .success) :
    Pattern.check these.relaxed a.relaxed v = some .success := by
  -- The comparisons have a bound each; one bound does for all.
  obtain ⟨depth, deep⟩ : ∃ depth, ∀ x ∈ variants, Pattern.compareBound these s a x ≤ depth := by
    clear expansion all
    induction variants with
    | nil => exact ⟨0, by simp⟩
    | cons x rest ih =>
      obtain ⟨depth, deep⟩ := ih
      refine ⟨max (Pattern.compareBound these s a x) depth, List.forall_mem_cons.mpr ⟨?_, ?_⟩⟩
      · exact Nat.le_max_left _ _
      · exact fun y mem => Nat.le_trans (deep y mem) (Nat.le_max_right _ _)
  have compared (x : Pattern) (variant : Variant those (Pattern.expandBound those [] b) [] b x) :
      Pattern.compareAt depth [] these s a x = some .success := by
    have mem := (variant_of_expand expansion).mp variant
    have success := all x mem
    rw [Pattern.encompasses_eq_compareAt] at success
    exact Pattern.compareAt_mono (deep x mem) _ success
  have supports : Supports these those v.weight [] a b := by
    intro pair mem
    cases mem
  refine coversVariants guarded guarded' exhaustive registry v.weight _ depth b decisive' [] [] these
    s a rfl hs decisive supports (expands_of_expand expansion) compared v (Nat.le_refl _) ?_
  exact (accepts_congr (r := s) guarded' decisive'.regular.registered hs rfl).mp accepted

end Covering

section Scenarios

structure DecisiveBodies (s : Scenario) : Prop where
  guarded : Guarded s.resolver.types
  request : Tidy s.resolver.types s.request.body ∧ Sharp s.resolver.types s.request.body
  response : Tidy s.resolver.types s.response.body ∧ Sharp s.resolver.types s.response.body

def hasDecisiveBodies (n : Nat) (s : Scenario) : Bool :=
  (s.resolver.types.all fun type => settlesWithin s.resolver.types n type.2)
    && [s.request.body, s.response.body].all fun body =>
      (reachable s.resolver.types body).all fun q => q.isTidy s.resolver.types && q.isSharp

theorem DecisiveBodies.of_all {n : Nat} {s : Scenario} (h : hasDecisiveBodies n s) :
    DecisiveBodies s := by
  simp only [hasDecisiveBodies, List.all_cons, List.all_nil, Bool.and_true, Bool.and_eq_true] at h
  obtain ⟨settles, request, response⟩ := h
  have both {body : Pattern} (h : (reachable s.resolver.types body).all fun q =>
      q.isTidy s.resolver.types && q.isSharp) :
      Tidy s.resolver.types body ∧ Sharp s.resolver.types body := by
    simp only [List.all_eq_true, Bool.and_eq_true] at h
    exact ⟨fun q reach => (h q reach.mem_reachable).1, fun q reach => (h q reach.mem_reachable).2⟩
  exact ⟨.of_settles n settles, both request, both response⟩

def chainOfTwo : Value :=
  .object [("v", .number (.ofNat 1)), ("n", .object [("v", .number (.ofNat 2))])]

def isPassing (older newer : Feature) (v : Value) : Bool :=
  match older.active, newer.active with
  | [s], [t] => hasDecisiveBodies 1 s && hasDecisiveBodies 1 t && t.request.sameShape s.request
      && (Compatibility.compareScenario [t] s = some [.success, .success] : Bool)
      && (Pattern.check s.resolver s.request.body v = some .success : Bool)
  | _, _ => false

/-- The verdict on bodies is right both ways, unexpected keys apart. A scenario that passes against
its only counterpart has its requests taken by it, and takes the answers of the counterpart. -/
theorem bodies_of_passing {older newer : Feature} {source source' : String}
    (read : Feature.read source = .ok older) (read' : Feature.read source' = .ok newer)
    {s t : Scenario} (active : s ∈ older.active)
    (counterpart : (newer.active.filter fun c => c.request.sameShape s.request) = [t])
    (decisive : DecisiveBodies s) (decisive' : DecisiveBodies t) {verdicts : List Verdict}
    (compared : Compatibility.compareScenario newer.active s = some verdicts)
    (passed : ∀ verdict ∈ verdicts, verdict = .success) :
    (∀ v, Pattern.check s.resolver s.request.body v = some .success →
      Pattern.check t.resolver.relaxed t.request.body.relaxed v = some .success) ∧
    t.response.status = s.response.status ∧
    ∀ v, Pattern.check t.resolver t.response.body v = some .success →
      Pattern.check s.resolver.relaxed s.response.body.relaxed v = some .success := by
  have active' : t ∈ newer.active :=
    (List.mem_filter.mp (counterpart ▸ List.mem_singleton_self t)).1
  have written := written_feature read
  have written' := written_feature read'
  have ofScenario := written.scenarios s (List.mem_filter.mp active).1
  have ofScenario' := written'.scenarios t (List.mem_filter.mp active').1
  have registry : WrittenTypes s.resolver.types := ofScenario.resolver ▸ written.types
  have expanding : WrittenTypes (s.resolver.withCombinations .exhaustive).types := registry
  have registry' : WrittenTypes t.resolver.types := ofScenario'.resolver ▸ written'.types
  have request : Decisive s.resolver.types s.request.body :=
    ⟨.of_written registry ofScenario.body decisive.request.1, decisive.request.2⟩
  have response : Decisive s.resolver.types s.response.body :=
    ⟨.of_written registry ofScenario.body' decisive.response.1, decisive.response.2⟩
  have request' : Decisive t.resolver.types t.request.body :=
    ⟨.of_written registry' ofScenario'.body decisive'.request.1, decisive'.request.2⟩
  have response' : Decisive t.resolver.types t.response.body :=
    ⟨.of_written registry' ofScenario'.body' decisive'.response.1, decisive'.response.2⟩
  obtain ⟨-, variants, expansion, each⟩ :=
    Compatibility.compareScenario_passes.mp ⟨verdicts, compared, passed⟩
  rw [counterpart] at each
  obtain ⟨paths, queries, bodies, ofPath, ofQuery, ofBody, all⟩ :=
    requestVariants_forall.mp ⟨variants, expansion, each⟩
  -- Some path and some query there is, so every body is compared.
  obtain ⟨path, somePath⟩ := exists_path_of_expand expanding rfl ofScenario.params ofPath
  obtain ⟨members, someQuery⟩ :=
    exists_object_of_expand expanding rfl (.object ofScenario.query rfl) ofQuery
  have taken (body : Pattern) (mem : body ∈ bodies) :
      Pattern.encompasses t.resolver s.resolver t.request.body body = some .success ∧
        t.response.status = s.response.status ∧
        Pattern.encompasses s.resolver t.resolver s.response.body t.response.body =
          some .success := by
    obtain ⟨taken, status, answer⟩ :=
      Compatibility.compareVariant_single.mp (all path somePath _ someQuery body mem _ rfl)
    exact ⟨(RequestPattern.encompasses_eq_success.mp taken).2.2.2, status,
      (ResponsePattern.encompasses_eq_success.mp answer).2.2⟩
  refine ⟨fun v => ?_, ?_⟩
  · have guarded : Guarded (s.resolver.withCombinations .exhaustive).types := decisive.guarded
    exact takes_of_all_variants decisive'.guarded guarded rfl expanding request' request ofBody rfl
      fun body mem => (taken body mem).1
  · obtain ⟨body, variant⟩ := exists_variant expanding rfl
      (request.regular.arises _ (Reaches.refl _)) (expands_of_expand ofBody)
    obtain ⟨-, status, answer⟩ := taken body ((variant_of_expand ofBody).mp variant)
    exact ⟨status, fun v => covers_of_encompasses decisive.guarded decisive'.guarded response.wide
      response'.narrow answer⟩

theorem chain_is_taken :
    ∃ s t, (featureOf (chainsText "(number)")).active = [s] ∧
      (featureOf (chainsText "(number?)")).active = [t] ∧
      Pattern.check s.resolver s.request.body chainOfTwo = some .success ∧
      Pattern.check t.resolver.relaxed t.request.body.relaxed chainOfTwo = some .success := by
  have passing : isPassing (featureOf (chainsText "(number)")) (featureOf (chainsText "(number?)"))
      chainOfTwo := by decide +kernel
  unfold isPassing at passing
  split at passing
  · next s t first second =>
    simp only [Bool.and_eq_true, decide_eq_true_eq] at passing
    obtain ⟨⟨⟨⟨own, other⟩, shape⟩, compared⟩, given⟩ := passing
    have read : Feature.read (chainsText "(number)") = .ok _ := read_featureOf (by simp [first])
    have read' : Feature.read (chainsText "(number?)") = .ok _ := read_featureOf (by simp [second])
    have promises := bodies_of_passing read read' (s := s) (t := t) (by simp [first])
      (by simp [second, shape]) (.of_all own) (.of_all other) (second ▸ compared) (by simp)
    exact ⟨s, t, first, second, given, promises.1 chainOfTwo given⟩
  · cases passing

end Scenarios

end ApiContract
