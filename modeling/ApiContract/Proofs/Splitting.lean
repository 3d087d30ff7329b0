import ApiContract.Proofs.Expanding
import ApiContract.Proofs.Narrowing

set_option autoImplicit false

/-!
A pattern that takes another one takes each of its variants. The comparison with a variant follows
the comparison with the whole. Where that one stopped at a pair of names, it goes on with the
comparison that had put the pair on the stack, which succeeds too. Such a jump gives no bound on its
own, but the variant has a name then, so a pair of names is used up.
-/
namespace ApiContract

structure Passing (types others : Entries Pattern) (limit depth : Nat) (stack : TypeStack)
    (a b : Pattern) : Prop where
  regular : Regular types a
  regular' : Regular others b
  deep : depth ≤ limit
  run : ∃ r s : Resolver, r.types = types ∧ s.types = others ∧
    Pattern.compareAt depth stack r s a b = some .success

/-- Every pair of names was put on the stack by a comparison that succeeds. -/
inductive Grounded (types others : Entries Pattern) (limit : Nat) : TypeStack → Prop
  | empty : Grounded types others limit []
  | enter {stack : TypeStack} {depth : Nat} {a b : Pattern}
      (below : Grounded types others limit stack) (free : isHeld stack a b = false)
      (passing : Passing types others limit depth stack a b) :
      Grounded types others limit (entering stack a b)

def Shown (types others : Entries Pattern) (limit depth : Nat) (a b : Pattern) : Prop :=
  ∃ stack, Grounded types others limit stack ∧ Passing types others limit depth stack a b

structure Level (types others : Entries Pattern) (limit depth : Nat) (c d : Pattern) : Prop where
  regular : Regular types c
  regular' : Regular others d
  deep : depth ≤ limit
  run : ∃ (stack : TypeStack) (r s : Resolver), Grounded types others limit stack ∧
    r.types = types ∧ s.types = others ∧
      compareResolved (Pattern.compareAt depth stack) Pattern.check r s c d = some .success

section Steps

variable {types others : Entries Pattern} {limit depth k : Nat} {stack : TypeStack}
  {a b c d p q x : Pattern}

theorem Grounded.of_mem {pair : String × String} (h : Grounded types others limit stack)
    (mem : pair ∈ stack) : ∃ stack depth a b, Grounded types others limit stack ∧
      isHeld stack a b = false ∧ Passing types others limit depth stack a b ∧
        namePair? a b = some pair := by
  induction h with
  | empty => cases mem
  | enter below free passing ih =>
    rcases mem_entering.mp mem with before | named
    · exact ih before
    · exact ⟨_, _, _, _, below, free, passing, named⟩

theorem Resolves.of_same_name {name : String} (guarded : Guarded types) (regular : Regular types p)
    (regular' : Regular types q) (named : p.name? = some name) (named' : q.name? = some name)
    (resolves : Resolves types p c) : Resolves types q c := by
  have aliased {o : Pattern} (h : Regular types o) (known : o.knownAs = some name) :
      registered? types name = some o := (h.arises o (Reaches.refl o)).alias known
  obtain ⟨o, -, -, found⟩ := guarded.resolves q regular'.registered
  have first := resolves.of_name guarded (aliased regular) named
  have second := found.of_name guarded (aliased regular') named'
  rwa [first.unique second]

theorem Resolves.chain (guarded : Guarded types) (regular : Regular types p)
    (resolves : Resolves types p c) :
    c.Concrete ∧ Relation.ReflTransGen (Unfolds types) p c := by
  obtain ⟨o, concrete, chain, found⟩ := guarded.resolves p regular.registered
  rw [resolves.unique found]
  exact ⟨concrete, chain⟩

theorem Regular.of_resolves (guarded : Guarded types) (regular : Regular types p)
    (resolves : Resolves types p c) : Regular types c :=
  regular.of_reaches (.of_unfoldings (resolves.chain guarded regular).2)

theorem resolves_self (concrete : p.Concrete) : Resolves types p p :=
  fun _ _ => Resolver.resolve_of_concrete concrete

theorem Level.shown (level : Level types others limit k c d) (regular : Regular types p)
    (regular' : Regular others q) (h : ∀ stack r s, r.types = types → s.types = others →
      compareResolved (Pattern.compareAt k stack) Pattern.check r s c d = some .success →
        ∃ x y : Resolver, x.types = r.types ∧ y.types = s.types ∧
          Pattern.compareAt k stack x y p q = some .success) :
    Shown types others limit k p q := by
  obtain ⟨stack, r, s, grounded, first, second, success⟩ := level.run
  obtain ⟨x, y, same, same', run⟩ := h stack r s first second success
  exact ⟨stack, grounded, regular, regular', level.deep, x, y, same.trans first, same'.trans second,
    run⟩

section Registries

variable (guarded : Guarded types) (guarded' : Guarded others)
include guarded guarded'

theorem Passing.level (h : Passing types others limit depth stack a b)
    (grounded : Grounded types others limit stack) (free : isHeld stack a b = false)
    (resolves : Resolves types a c) (resolves' : Resolves others b d) :
    ∃ k, k < depth ∧ Level types others limit k c d := by
  obtain ⟨r, s, first, second, success⟩ := h.run
  have deep := h.deep
  cases depth with
  | zero => cases success
  | succ k =>
    have enough : k ≤ limit := by omega
    refine ⟨k, Nat.lt_succ_self k, h.regular.of_resolves guarded resolves,
      h.regular'.of_resolves guarded' resolves', enough,
      entering stack a b, r, s, .enter grounded free h, first, second, ?_⟩
    simpa [Pattern.compareAt, Pattern.compareStep, free, resolves r first, resolves' s second]
      using success

theorem Shown.level (h : Shown types others limit depth a b) (resolves : Resolves types a c)
    (resolves' : Resolves others b d) :
    ∃ k, (k < depth ∨ (namePair? a b).isSome) ∧ Level types others limit k c d := by
  obtain ⟨stack, grounded, passing⟩ := h
  by_cases held : isHeld stack a b
  · obtain ⟨pair, mem, named⟩ := isHeld_iff.mp held
    obtain ⟨before, n, p, q, below, free, earlier, same⟩ := grounded.of_mem mem
    obtain ⟨left, right⟩ := namePair?_eq_some.mp named
    obtain ⟨left', right'⟩ := namePair?_eq_some.mp same
    obtain ⟨k, -, level⟩ := earlier.level guarded guarded' below free
      (resolves.of_same_name guarded passing.regular earlier.regular left left')
      (resolves'.of_same_name guarded' passing.regular' earlier.regular' right right')
    exact ⟨k, .inr (by simp [named]), level⟩
  · obtain ⟨k, less, level⟩ :=
      passing.level guarded guarded' grounded (by simpa using held) resolves resolves'
    exact ⟨k, .inl less, level⟩

end Registries

section Chains

theorem named_of_step (registry : WrittenTypes others) (regular : Regular others p)
    (step : Unfolds others p x) (single : ∀ alternatives, x ≠ .anyOf alternatives) :
    x.isBasic ∨ x.name?.isSome := by
  have named (composite : x.isComposite) : x.name?.isSome :=
    Option.isSome_iff_ne_none.mpr (named_of_unfolds registry regular step composite)
  cases x with
  | repeated | object | array => exact .inr (named rfl)
  | reference name => exact .inr rfl
  | anyOf alternatives => exact absurd rfl (single alternatives)
  | _ => exact .inl rfl

theorem named_of_chain (registry : WrittenTypes others) (regular : Regular others b)
    (chain : Relation.ReflTransGen (Unfolds others) b x)
    (single : ∀ alternatives, x ≠ .anyOf alternatives) (named : b.name?.isSome) :
    x.isBasic ∨ x.name?.isSome := by
  rcases Relation.ReflTransGen.cases_tail chain with rfl | ⟨o, before, step⟩
  · exact .inr named
  · exact named_of_step registry (regular.of_reaches (.of_unfoldings before)) step single

theorem Level.alternative {alternatives : List Pattern}
    (level : Level types others limit k c (.anyOf alternatives)) (mem : q ∈ alternatives) :
    Shown types others limit k c q := by
  refine level.shown level.regular (level.regular'.unfold (.anyOf mem)) fun stack r s _ _ success => ?_
  rw [compareResolved_right, Verdict.every_eq_success] at success
  exact ⟨r, s, rfl, rfl, success q mem⟩

theorem Level.settle (guarded : Guarded types) (guarded' : Guarded others)
    (registry : WrittenTypes others) (concrete : c.Concrete) (regular : Regular others b)
    (chain : Relation.ReflTransGen (Unfolds others) b x)
    (single : ∀ alternatives, x ≠ .anyOf alternatives)
    (level : Level types others limit k c d) (resolves : Resolves others b d) :
    ∃ n o, Level types others limit n c o ∧ Resolves others x o ∧
      (n ≤ k ∨ c.name?.isSome ∧ (x.isBasic ∨ x.name?.isSome)) := by
  induction chain using Relation.ReflTransGen.head_induction_on generalizing k d with
  | refl => exact ⟨k, d, level, resolves, .inl (Nat.le_refl k)⟩
  | @head b q step rest ih =>
    have below := regular.unfold step
    cases step with
    | reference named =>
      refine ih below level fun resolver same => ?_
      rw [← same] at guarded' named
      rw [← guarded'.resolve_reference (Resolver.get_of_registered named)]
      exact resolves resolver same
    | anyOf mem =>
      have union : d = .anyOf _ := (resolves.unique (resolves_self (by nofun)))
      subst union
      obtain ⟨o, -, -, found⟩ := guarded'.resolves q below.registered
      obtain ⟨m, less, next⟩ :=
        (level.alternative mem).level guarded guarded' (resolves_self concrete) found
      obtain ⟨n, e, settled, behind, less'⟩ := ih below next found
      refine ⟨n, e, settled, behind, ?_⟩
      rcases less with less | named
      · exact less'.imp_left fun le => by omega
      · obtain ⟨pair, named⟩ := Option.isSome_iff_exists.mp named
        obtain ⟨left, right⟩ := namePair?_eq_some.mp named
        exact .inr ⟨by simp [left], named_of_chain registry below rest single (by simp [right])⟩

end Chains

end Steps

section Variants

variable {types : Entries Pattern} {r : Resolver} {limit depth k : Nat} {a b c d o y : Pattern}

theorem name?_of_resolves {name : String} (resolves : Resolves types a c)
    (named : c.name? = some name) : a.name?.isSome := by
  rcases resolves_cases resolves with rfl | ⟨other, rfl⟩
  · simp [named]
  · rfl

theorem not_basic_of_composite (composite : o.isComposite) : o.isBasic = false := by
  cases o <;> first | rfl | cases composite

theorem Splits.basic_or_named (exhaustive : r.combinations = .exhaustive) (split : Splits r o y)
    (form : o.isComposite ∨ y = o) (h : o.isBasic ∨ o.name?.isSome) :
    y.isBasic ∨ y.name?.isSome := by
  rcases form with composite | rfl
  · obtain ⟨-, same⟩ := split.composite exhaustive composite
    rw [not_basic_of_composite composite] at h
    rw [same]
    exact .inr (h.resolve_left nofun)
  · exact h

theorem Shown.settle (guarded : Guarded types) (guarded' : Guarded r.types)
    (registry : WrittenTypes r.types) (exhaustive : r.combinations = .exhaustive)
    (shown : Shown types r.types limit depth a b) (concrete : c.Concrete)
    (resolves : Resolves types a c) (split : Splits r b y) :
    ∃ n o d, Level types r.types limit n c o ∧ Reaches r.types b o ∧ o.Concrete ∧
      Resolves r.types y d ∧ Splits r o d ∧ (o.isComposite ∨ d = o) ∧
        (n < depth ∨ (namePair? a y).isSome ∨ y.isBasic) := by
  obtain ⟨stack, -, passing⟩ := id shown
  obtain ⟨d, plain, down, found⟩ := guarded'.resolves b passing.regular'.registered
  obtain ⟨m, less, level⟩ := shown.level guarded guarded' resolves found
  cases split with
  | self =>
    exact ⟨m, d, d, level, .of_unfoldings down, plain, found, .self, .inr rfl, less.imp_right .inl⟩
  | variant variant =>
    obtain ⟨o, chain, single, split, form⟩ := variant.exists_chain guarded' passing.regular'
    obtain ⟨n, e, settled, behind, less'⟩ :=
      level.settle guarded guarded' registry concrete passing.regular' chain single found
    have bounded : n < depth ∨ (namePair? a y).isSome ∨ y.isBasic := by
      have jump (left : a.name?.isSome) (right : o.isBasic ∨ o.name?.isSome) :
          (namePair? a y).isSome ∨ y.isBasic := by
        obtain ⟨name, left⟩ := Option.isSome_iff_exists.mp left
        rcases split.basic_or_named exhaustive form right with basic | named
        · exact .inr basic
        · obtain ⟨other, named⟩ := Option.isSome_iff_exists.mp named
          exact .inl (by simp [namePair?, left, named])
      rcases less with less | named
      · rcases less' with le | ⟨left, right⟩
        · exact .inl (by omega)
        · obtain ⟨name, left⟩ := Option.isSome_iff_exists.mp left
          exact .inr (jump (name?_of_resolves resolves left) right)
      · obtain ⟨pair, named⟩ := Option.isSome_iff_exists.mp named
        obtain ⟨left, right⟩ := namePair?_eq_some.mp named
        refine .inr (jump (by simp [left]) ?_)
        exact named_of_chain registry passing.regular' chain single (by simp [right])
    obtain ⟨plain, more⟩ :=
      behind.chain guarded' (passing.regular'.of_reaches (.of_unfoldings chain))
    refine ⟨n, e, ?_⟩
    rcases form with composite | rfl
    · have same := behind.unique (resolves_self (concrete_of_composite composite))
      subst same
      obtain ⟨composite', -⟩ := split.composite exhaustive composite
      exact ⟨y, settled, .of_unfoldings chain, plain,
        resolves_self (concrete_of_composite composite'), split, .inl composite, bounded⟩
    · exact ⟨e, settled, .of_unfoldings (chain.trans more), plain, behind, .self, .inr rfl, bounded⟩

end Variants

section Levels

variable {types : Entries Pattern} {r these those : Resolver} {limit k : Nat} {c d o : Pattern}
  {f : Resolver → Resolver → Pattern → Pattern → Option Verdict}
  {accepts : Resolver → Pattern → Value → Option Verdict}

theorem Level.of_union {alternatives : List Pattern} (same : c = .anyOf alternatives)
    (level : Level types r.types limit k c o) (single : ∀ others, o ≠ .anyOf others)
    (single' : ∀ others, d ≠ .anyOf others) (null : (f these those .null d).isSome)
    (nested : ∀ p ∈ alternatives, Shown types r.types limit k p o →
      f these those p d = some .success) :
    compareResolved f accepts these those c d = some .success := by
  subst same
  obtain ⟨q, rfl, -⟩ := level.regular.nullable
  obtain ⟨stack, x, y, grounded, first, second, success⟩ := level.run
  rw [compareResolved_left single] at success
  obtain ⟨p, mem, one⟩ := compareUnion_success success
  have shown : Shown types r.types limit k p o :=
    ⟨stack, grounded, level.regular.unfold (.anyOf mem), level.regular', level.deep, x, y, first,
      second, one⟩
  have taken := nested p mem shown
  rw [compareResolved_left single']
  apply compareUnion_nullable null
  rcases List.mem_cons.mp mem with rfl | mem
  · exact .inl taken
  · rw [← List.mem_singleton.mp mem]
    exact .inr taken

theorem Level.of_plain (guarded : Guarded types) (level : Level types r.types limit k c d)
    (basic : d.isBasic) (plain : ∀ alternatives, c ≠ .anyOf alternatives)
    (first : these.types = types) :
    compareResolved f Pattern.check these those c d = some .success := by
  obtain ⟨stack, x, y, -, same, -, success⟩ := level.run
  rw [← success]
  cases d with
  | exact value =>
    have congr := Pattern.check_congr (r := these.tolerant) (s := x.tolerant) (v := value) guarded
      level.regular.registered first same
    cases c with
    | anyOf alternatives => exact absurd rfl (plain alternatives)
    | exact expected => rfl
    | _ => exact congr
  | repeated | reference | anyOf | object | array => cases basic
  | _ =>
    cases c with
    | anyOf alternatives => exact absurd rfl (plain alternatives)
    | _ => rfl

theorem Level.of_basic (guarded : Guarded types) (level : Level types r.types limit k c d)
    (basic : d.isBasic) (first : these.types = types) (null : (f these those .null d).isSome)
    (nested : ∀ p, Shown types r.types limit k p d → f these those p d = some .success) :
    compareResolved f Pattern.check these those c d = some .success := by
  have single (others : List Pattern) : d ≠ .anyOf others := by
    rintro rfl
    cases basic
  by_cases choice : ∃ alternatives, c = .anyOf alternatives
  · obtain ⟨alternatives, same⟩ := choice
    exact level.of_union same single single null fun p _ => nested p
  · exact level.of_plain guarded basic (fun alternatives same => choice ⟨alternatives, same⟩) first

section Composites

variable (guarded : Guarded types) (guarded' : Guarded r.types)
  (exhaustive : r.combinations = .exhaustive) (first : these.types = types)
  (level : Level types r.types limit k c o) (split : Splits r o d)
  (nested : ∀ x z p t, Nested these those c d x z p t → ∀ q, Reaches r.types o q →
    Shown types r.types limit k p q → Splits r q t → f x z p t = some .success)
include exhaustive level split nested

include guarded in
theorem Level.of_object {a e : List (String × Pattern)} {traits traits' : ObjectTraits}
    (left : c = .object a traits) (right : o = .object e traits') (first : these.types = types) :
    compareResolved f Pattern.check these those c d = some .success := by
  subst left right
  obtain ⟨stack, x, y, grounded, same, same', success⟩ := level.run
  obtain ⟨b, rfl, kept, shared⟩ := split.object exhaustive level.regular'
  have success : compareObjects (fun p => Pattern.check x.tolerant p .null)
      (Pattern.compareAt k stack x.tolerant y.tolerant) a e = some .success := success
  show compareObjects _ (f these.tolerant those.tolerant) a b = some .success
  rw [compareObjects, Verdict.thenCheck_eq_success, keptKeys_eq_success, sharedFields_eq_success]
    at success ⊢
  constructor
  · intro field mem
    refine (success.1 field mem).imp (fun there => ?_) fun accepted => ?_
    · obtain ⟨q, found⟩ := Option.isSome_iff_exists.mp there
      have required := (mem_of_requiredFields mem).2
      exact kept (field.1, q) (List.mem_filter.mpr ⟨Entries.mem_of_get? found, by simp [required]⟩)
    · have part : Part (.object a traits) field.2 := .field (mem_of_requiredFields mem).1
      have registered := (level.regular.part part).registered
      rw [← accepted]
      exact Pattern.check_congr (r := these.tolerant) (s := x.tolerant) guarded registered first same
  · intro field mem key t found
    obtain ⟨q, there, inside⟩ := shared _ _ found
    have part : Part (.object a traits) field.2 := .field mem
    have part' : Part (.object e traits') q.2 := .field (mem_of_field? there)
    refine nested _ _ field.2 t (.fields mem found) q.2 part'.reaches ?_ inside
    exact ⟨stack, grounded, level.regular.part part, level.regular'.part part', level.deep,
      x.tolerant, y.tolerant, same, same', success.2 field mem q.1 q.2 there⟩

include guarded'

theorem Level.of_sequence {m n : Members} (left : members? c = some m) (right : members? o = some n) :
    compareResolved f Pattern.check these those c d = some .success := by
  obtain ⟨stack, x, y, grounded, same, same', success⟩ := level.run
  obtain ⟨n', found, unconstrained, length, governed, positions⟩ :=
    split.members guarded' exhaustive level.regular' right
  rw [compareResolved_sequence left right, compareSequences_eq_success left right] at success
  rw [compareResolved_sequence left found, compareSequences_eq_success left found, unconstrained]
  refine success.imp_right fun ⟨constrained, each⟩ => ⟨constrained, ?_⟩
  rw [compareMembers_eq_success] at each ⊢
  intro i
  obtain ⟨both, endless, fixed⟩ := comparePosition_eq_success.mp (each i)
  refine comparePosition_eq_success.mpr ⟨fun p t place place' => ?_, ?_, ?_⟩
  · obtain ⟨q, there⟩ : ∃ q, n.at? i = some q := by
      rw [← Option.isSome_iff_exists, ← governed i, place']
      rfl
    have part := members?_part right there
    refine nested _ _ p t (.items left found place place') q part.reaches ?_
      (positions i q t there place')
    exact ⟨stack, grounded, level.regular.part (members?_part left place), level.regular'.part part,
      level.deep, x.tolerant, y.tolerant, same, same', both p q place there⟩
  · rwa [governed i]
  · rwa [governed i]

include guarded in
theorem Level.of_splits (first : these.types = types) (form : o.isComposite ∨ d = o)
    (null : (∀ others, d ≠ .anyOf others) → (f these those .null d).isSome) :
    compareResolved f Pattern.check these those c d = some .success := by
  by_cases union : ∃ others, o = .anyOf others
  · obtain ⟨others, rfl⟩ := union
    obtain rfl := form.resolve_left nofun
    rw [compareResolved_right, Verdict.every_eq_success]
    intro q mem
    exact nested these those c q (.right mem) q (Unfolds.reaches (.anyOf mem))
      (level.alternative mem) .self
  have single (others : List Pattern) (same : o = .anyOf others) : False := union ⟨others, same⟩
  have single' (others : List Pattern) (same : d = .anyOf others) : False := by
    rcases form with composite | rfl
    · rw [same] at split
      cases (split.composite exhaustive composite).1
    · exact single others same
  by_cases choice : ∃ alternatives, c = .anyOf alternatives
  · obtain ⟨alternatives, same⟩ := choice
    refine level.of_union same single single' (null single') fun p mem shown => ?_
    subst same
    exact nested these those p d (.left mem single') o (Reaches.refl o) shown split
  have plain (alternatives : List Pattern) (same : c = .anyOf alternatives) : False :=
    choice ⟨alternatives, same⟩
  obtain ⟨stack, x, y, grounded, same, same', success⟩ := level.run
  cases o with
  | anyOf others => exact (single others rfl).elim
  | reference name => cases c <;> first | cases success | exact (plain _ rfl).elim
  | object e traits' =>
    cases c with
    | object a traits => exact level.of_object guarded exhaustive split nested rfl rfl first
    | anyOf alternatives => exact (plain _ rfl).elim
    | _ => cases success
  | array | repeated =>
    cases c with
    | array | repeated => exact level.of_sequence guarded' exhaustive split nested rfl rfl
    | anyOf alternatives => exact (plain _ rfl).elim
    | _ => cases success
  | _ =>
    obtain rfl := form.resolve_left nofun
    exact level.of_plain guarded rfl plain first

end Composites

end Levels

section Descent

variable {types : Entries Pattern} {r : Resolver} {limit : Nat} {root root' : Pattern}

theorem single_of_basic {y : Pattern} (basic : y.isBasic) :
    y.Concrete ∧ (∀ others, y ≠ .anyOf others) ∧ y.name? = none := by
  refine ⟨?_, ?_, ?_⟩
  · rintro name rfl
    cases basic
  · rintro others rfl
    cases basic
  · cases y <;> first | rfl | cases basic

/-- What is left of a comparison: pairs of names first, then its depth. -/
def splitCost (pairs : List (String × String)) (limit : Nat) (stack : TypeStack) (depth : Nat) :
    Nat :=
  (pairs.length - stack.length + 1) * (limit + 1) + depth

theorem splitCost_named {pairs : List (String × String)} {stack more : TypeStack} {depth k : Nat}
    (longer : stack.length < more.length) (room : more.length ≤ pairs.length) (deep : k ≤ limit) :
    splitCost pairs limit more k < splitCost pairs limit stack depth := by
  have fewer := Nat.mul_le_mul_right (limit + 1)
    (show pairs.length - more.length + 1 + 1 ≤ pairs.length - stack.length + 1 by omega)
  rw [Nat.add_one_mul (pairs.length - more.length + 1)] at fewer
  unfold splitCost
  omega

structure Descent (types : Entries Pattern) (r : Resolver) (limit : Nat) (root root' : Pattern)
    (stack : TypeStack) (depth : Nat) (a b y : Pattern) : Prop where
  reaches : Reaches types root a
  reaches' : Reaches r.types root' b
  shown : Shown types r.types limit depth a b
  split : Splits r b y
  distinct : stack.Nodup
  names : stack ⊆ reachableNames types root ×ˢ reachableNames r.types root'

variable (guarded : Guarded types) (guarded' : Guarded r.types)
include guarded guarded'

theorem compareAt_of_basic (n : Nat) : ∀ {stack : TypeStack} {these those : Resolver}
    {a y : Pattern} {depth : Nat}, these.types = types → those.types = r.types →
    Shown types r.types limit depth a y → y.isBasic → depth < n →
    Pattern.compareAt n stack these those a y = some .success := by
  -- A pattern without parts has no name either, so nothing is ever on the stack for it.
  induction n with
  | zero => omega
  | succ n ih =>
    intro stack these those a y depth first second shown basic deep
    obtain ⟨before, -, passing⟩ := id shown
    obtain ⟨c, -, -, resolves⟩ := guarded.resolves a passing.regular.registered
    obtain ⟨concrete, single, nameless⟩ := single_of_basic basic
    have unnamed : namePair? a y = none := by
      unfold namePair?
      rw [nameless]
      cases a.name? <;> rfl
    obtain ⟨k, less, level⟩ := shown.level guarded guarded' resolves (resolves_self concrete)
    have shallow : k < depth := less.resolve_right (by simp [unnamed])
    have free : isHeld stack a y = false := by simp [isHeld, unnamed]
    rw [Pattern.compareAt, free]
    simp only [Bool.false_eq_true, if_false, Pattern.compareStep, resolves these first,
      Resolver.resolve_of_concrete concrete]
    obtain ⟨m, rfl⟩ : ∃ m, n = m + 1 := ⟨n - 1, by omega⟩
    refine level.of_basic guarded basic first ?_ fun p shown => ?_
    · exact compareAt_null_isSome (first ▸ guarded) concrete single
    · exact ih first second shown basic (by omega)

omit guarded in
theorem Descent.enter {stack : TypeStack} {depth k : Nat} {a b p q t y : Pattern}
    (h : Descent types r limit root root' stack depth a b y)
    (exhaustive : r.combinations = .exhaustive) (free : isHeld stack a y = false)
    (reaches : Reaches types a p) (reaches' : Reaches r.types b q)
    (shown : Shown types r.types limit k p q) (split : Splits r q t) :
    Descent types r limit root root' (entering stack a y) k p q t := by
  refine ⟨h.reaches.trans reaches, h.reaches'.trans reaches', shown, split,
    nodup_entering h.distinct free, fun pair mem => ?_⟩
  rcases mem_entering.mp mem with held | named
  · exact h.names held
  · obtain ⟨first, second⟩ := namePair?_eq_some.mp named
    obtain ⟨before, -, passing⟩ := h.shown
    obtain ⟨o, chain, same⟩ : ∃ o, Relation.ReflTransGen (Unfolds r.types) b o ∧ y.name? = o.name? := by
      cases h.split with
      | self => exact ⟨b, .refl, rfl⟩
      | variant variant =>
        obtain ⟨o, chain, -, split, composite | rfl⟩ := variant.exists_chain guarded' passing.regular'
        · exact ⟨o, chain, (split.composite exhaustive composite).2⟩
        · exact ⟨_, chain, rfl⟩
    rw [same] at second
    refine List.mem_product.mpr ⟨mem_reachableNames h.reaches.mem_reachable first, ?_⟩
    exact mem_reachableNames (h.reaches'.trans (.of_unfoldings chain)).mem_reachable second

variable (registry : WrittenTypes r.types) (exhaustive : r.combinations = .exhaustive)
include registry exhaustive

theorem compareAt_of_descent (n : Nat) : ∀ {stack : TypeStack} {these those : Resolver}
    {a b y : Pattern} {depth : Nat}, these.types = types → those.types = r.types →
    Descent types r limit root root' stack depth a b y →
    splitCost (reachableNames types root ×ˢ reachableNames r.types root') limit stack depth < n →
    Pattern.compareAt n stack these those a y = some .success := by
  induction n with
  | zero => omega
  | succ n ih =>
    intro stack these those a b y depth first second descent cheap
    by_cases held : isHeld stack a y
    · simp [Pattern.compareAt, held]
    have free : isHeld stack a y = false := by simpa using held
    have room : limit + 1 ≤ splitCost (reachableNames types root ×ˢ reachableNames r.types root') limit
        stack depth := by
      unfold splitCost
      rw [Nat.add_one_mul]
      omega
    obtain ⟨m, rfl⟩ : ∃ m, n = m + 1 := ⟨n - 1, by omega⟩
    obtain ⟨before, -, passing⟩ := id descent.shown
    obtain ⟨c, concrete, chain, resolves⟩ := guarded.resolves a passing.regular.registered
    obtain ⟨k, o, d, level, down, plain, resolves', split, form, bounded⟩ :=
      descent.shown.settle guarded guarded' registry exhaustive concrete resolves descent.split
    rw [Pattern.compareAt, free]
    simp only [Bool.false_eq_true, if_false, Pattern.compareStep, resolves these first,
      resolves' those second]
    have null (single : ∀ others, d ≠ .anyOf others) :
        (Pattern.compareAt (m + 1) (entering stack a y) these those .null d).isSome := by
      refine compareAt_null_isSome (first ▸ guarded) ?_ single
      rcases form with composite | rfl
      · exact concrete_of_composite (split.composite exhaustive composite).1
      · exact plain
    by_cases basic : y.isBasic
    · -- The comparison may have jumped, but what is left of it has no name and is bounded.
      obtain ⟨concrete', single, -⟩ := single_of_basic basic
      obtain rfl := resolves'.unique (resolves_self concrete')
      have same : d = o := by
        refine form.resolve_left fun composite => ?_
        rw [not_basic_of_composite (split.composite exhaustive composite).1] at basic
        cases basic
      subst same
      refine level.of_basic guarded basic first (null single) fun p shown => ?_
      have deep := level.deep
      exact compareAt_of_basic guarded guarded' (m + 1) first second shown basic (by omega)
    · refine level.of_splits guarded guarded' exhaustive split ?_ first form null
      intro x z p t nested q reaches' shown split'
      obtain ⟨resolvers, reaches, -⟩ :
          (x = these ∧ z = those ∨ x = these.tolerant ∧ z = those.tolerant) ∧
            Reaches types c p ∧ Reaches r.types d t := nested.reaches
      have types : x.types = types ∧ z.types = r.types := by
        rcases resolvers with ⟨rfl, rfl⟩ | ⟨rfl, rfl⟩ <;> exact ⟨first, second⟩
      have next := descent.enter guarded' exhaustive free
        (.trans (.of_unfoldings chain) reaches) (down.trans reaches') shown split'
      refine ih types.1 types.2 next (Nat.lt_of_lt_of_le ?_ (Nat.le_of_lt_succ cheap))
      have deep := level.deep
      cases named : namePair? a y with
      | some pair =>
        exact splitCost_named (by simp [entering, named])
          (next.distinct.subperm next.names).length_le deep
      | none =>
        have same : entering stack a y = stack := by simp [entering, named]
        have less : k < depth := bounded.resolve_right (by simp [named, basic])
        rw [same]
        unfold splitCost
        omega

end Descent

theorem encompasses_variants {these those : Resolver} {json json' : Json} {bigger smaller : Pattern}
    (documented : Documented these.types) (documented' : Documented those.types)
    (guarded : Guarded these.types) (guarded' : Guarded those.types)
    (read : Pattern.ofJson json = .ok bigger) (read' : Pattern.ofJson json' = .ok smaller)
    (tidy : Tidy these.types bigger) (tidy' : Tidy those.types smaller)
    (success : Pattern.encompasses these those bigger smaller = some .success) :
    ∃ variants, smaller.expand (those.withCombinations .exhaustive) [] = pure variants ∧
      ∀ variant ∈ variants, Pattern.encompasses these those bigger variant = some .success := by
  have regular : Regular these.types bigger :=
    .of_written documented.written (written_ofJson read) tidy
  have regular' : Regular (those.withCombinations .exhaustive).types smaller :=
    .of_written documented'.written (written_ofJson read') tidy'
  have expanding : Guarded (those.withCombinations .exhaustive).types := guarded'
  have registry : WrittenTypes (those.withCombinations .exhaustive).types := documented'.written
  obtain ⟨variants, expansion⟩ := exists_expansion expanding rfl regular'
  refine ⟨variants, expansion, fun variant mem => ?_⟩
  have split := (variant_of_expand expansion).mpr mem
  rw [Pattern.encompasses_eq_compareAt] at success
  have shown : Shown these.types (those.withCombinations .exhaustive).types
      (Pattern.compareBound these those bigger smaller)
      (Pattern.compareBound these those bigger smaller) bigger smaller :=
    ⟨[], .empty, regular, regular', Nat.le_refl _, these, those, rfl, rfl, success⟩
  have descent : Descent these.types (those.withCombinations .exhaustive)
      (Pattern.compareBound these those bigger smaller) bigger smaller []
      (Pattern.compareBound these those bigger smaller) bigger smaller variant :=
    ⟨Reaches.refl _, Reaches.refl _, shown, .variant split, List.nodup_nil, List.nil_subset _⟩
  have taken : Pattern.compareAt _ [] these those bigger variant = some .success :=
    compareAt_of_descent guarded expanding registry rfl _ rfl rfl descent (Nat.lt_succ_self _)
  have known : Registered (those.withCombinations .exhaustive).types variant :=
    split.registered expanding rfl regular'
  exact encompasses_of_compareAt guarded guarded' regular.registered known taken

theorem wider_chain_takes_variants : ∃ variants,
    (patternOf (.string "(C)")).expand
        ((featureOf (chainsText "(number)")).resolver.withCombinations .exhaustive) [] =
      pure variants ∧ ∀ variant ∈ variants,
        Pattern.encompasses (featureOf (chainsText "(number?)")).resolver
          (featureOf (chainsText "(number)")).resolver (patternOf (.string "(C?)")) variant =
            some .success := by
  have fine : (Pattern.ofJson (.string "(C)")).isOk && (Pattern.ofJson (.string "(C?)")).isOk &&
      !(featureOf (chainsText "(number)")).active.isEmpty &&
      !(featureOf (chainsText "(number?)")).active.isEmpty &&
      isTidyPattern 1 (featureOf (chainsText "(number)")).resolver.types
        (patternOf (.string "(C)")) &&
      isTidyPattern 1 (featureOf (chainsText "(number?)")).resolver.types
        (patternOf (.string "(C?)")) &&
      (Pattern.encompasses (featureOf (chainsText "(number?)")).resolver
        (featureOf (chainsText "(number)")).resolver (patternOf (.string "(C?)"))
          (patternOf (.string "(C)")) = some .success : Bool) := by decide +kernel
  simp only [Bool.and_eq_true, Bool.not_eq_true', List.isEmpty_eq_false_iff, decide_eq_true_eq]
    at fine
  obtain ⟨⟨⟨⟨⟨⟨read', read⟩, active'⟩, active⟩, tidy'⟩, tidy⟩, success⟩ := fine
  obtain ⟨guarded, tidy⟩ := guarded_and_tidy tidy
  obtain ⟨guarded', tidy'⟩ := guarded_and_tidy tidy'
  exact encompasses_variants (documented_feature (read_featureOf active))
    (documented_feature (read_featureOf active')) guarded guarded' (ofJson_patternOf read)
    (ofJson_patternOf read') tidy tidy' success

end ApiContract
