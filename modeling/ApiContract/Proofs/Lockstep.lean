import ApiContract.Proofs.Narrowing

set_option autoImplicit false

namespace ApiContract

def reachLimit (types : Entries Pattern) (root : Pattern) : Nat :=
  root.size + 2 * Pattern.sizeFields types

def ownPairs (types : Entries Pattern) (root : Pattern) : List (String × String) :=
  reachableNames types root ×ˢ reachableNames types root

/-- What is left of a comparison: pairs of names first, then size, then chains of `i` and `j`. -/
def lockstepCost (types : Entries Pattern) (root : Pattern) (stack : TypeStack) (p : Pattern)
    (i j : Nat) : Nat :=
  ((ownPairs types root).length - stack.length) *
      ((reachLimit types root + 1) * (2 * reachLimit types root + 1))
    + (p.bulk * (2 * reachLimit types root + 1) + (i + j))

section Costs

variable {types : Entries Pattern} {root p q : Pattern} {stack : TypeStack} {i j : Nat}

theorem size_le_reachLimit (reaches : Reaches types root q) : q.size ≤ reachLimit types root := by
  have le := reaches.size_le
  unfold reachLimit
  omega

theorem settlesWithin_reachLimit (guarded : Guarded types) (reaches : Reaches types root q) :
    settlesWithin types (reachLimit types root) q := by
  apply settlesWithin_mono (guarded.settles q)
  have le := reaches.size_le
  unfold reachLimit
  omega

theorem lockstepCost_named (reaches : Reaches types root q) {more : TypeStack}
    (longer : stack.length < more.length) (room : more.length ≤ (ownPairs types root).length) :
    lockstepCost types root more q (reachLimit types root) (reachLimit types root) <
      lockstepCost types root stack p i j := by
  have size : q.bulk ≤ reachLimit types root :=
    Nat.le_trans Pattern.bulk_le_size (size_le_reachLimit reaches)
  have small : q.bulk * (2 * reachLimit types root + 1)
      + (reachLimit types root + reachLimit types root) <
        (reachLimit types root + 1) * (2 * reachLimit types root + 1) := by
    have scaled := Nat.mul_le_mul_right (2 * reachLimit types root + 1) size
    rw [Nat.succ_mul (reachLimit types root)]
    omega
  have fewer := Nat.mul_le_mul_right
    ((reachLimit types root + 1) * (2 * reachLimit types root + 1))
    (show (ownPairs types root).length - more.length + 1 ≤
      (ownPairs types root).length - stack.length by omega)
  rw [Nat.succ_mul] at fewer
  unfold lockstepCost
  omega

theorem lockstepCost_bulk (less : q.bulk < p.bulk) :
    lockstepCost types root stack q (reachLimit types root) (reachLimit types root) <
      lockstepCost types root stack p i j := by
  have scaled := Nat.mul_le_mul_right (2 * reachLimit types root + 1) (Nat.succ_le_of_lt less)
  rw [Nat.succ_mul] at scaled
  unfold lockstepCost
  omega

theorem lockstepCost_chain {m n : Nat} (le : q.bulk ≤ p.bulk) (less : m + n < i + j) :
    lockstepCost types root stack q m n < lockstepCost types root stack p i j := by
  have scaled := Nat.mul_le_mul_right (2 * reachLimit types root + 1) le
  unfold lockstepCost
  omega

end Costs

structure Lockstep (r : Resolver) (root : Pattern) (stack : TypeStack) (p x : Pattern) : Prop where
  reaches : Reaches r.types root p
  narrows : Narrows r p x
  distinct : stack.Nodup
  names : stack ⊆ ownPairs r.types root

namespace Lockstep

variable {r : Resolver} {root p x c d : Pattern} {stack : TypeStack}

theorem length_le (h : Lockstep r root stack p x) :
    stack.length ≤ (ownPairs r.types root).length :=
  (h.distinct.subperm h.names).length_le

theorem names_mem (h : Lockstep r root stack p x) (exhaustive : r.combinations = .exhaustive)
    {pair : String × String} (named : namePair? p x = some pair) :
    pair ∈ ownPairs r.types root := by
  obtain ⟨first, second⟩ := namePair?_eq_some.mp named
  have known {q : Pattern} {name : String} (reaches : Reaches r.types root q)
      (named : q.name? = some name) : name ∈ reachableNames r.types root :=
    mem_reachableNames reaches.mem_reachable named
  refine List.mem_product.mpr ⟨known h.reaches first, ?_⟩
  cases h.narrows with
  | unfolding chain => exact known (h.reaches.trans (.of_unfoldings chain)) second
  | variant chain composite variant =>
    rw [(variant.composite exhaustive composite).2] at second
    exact known (h.reaches.trans (.of_unfoldings chain)) second

theorem enter (h : Lockstep r root stack p x) (exhaustive : r.combinations = .exhaustive)
    (free : isHeld stack p x = false) {q y : Pattern} (reaches : Reaches r.types root q)
    (narrows : Narrows r q y) : Lockstep r root (entering stack p x) q y := by
  refine ⟨reaches, narrows, nodup_entering h.distinct free, fun pair mem => ?_⟩
  rcases mem_entering.mp mem with held | named
  · exact h.names held
  · exact h.names_mem exhaustive named

end Lockstep

section Ends

variable {r : Resolver} {root : Pattern} (guarded : Guarded r.types)
  (registry : WrittenTypes r.types) (exhaustive : r.combinations = .exhaustive)
  (regular : Regular r.types root)
include guarded registry exhaustive regular

omit guarded regular in
theorem exists_cheaper {these those x y : Resolver} {stack : TypeStack} {p s c d q t : Pattern}
    {i j : Nat} (guarded : Guarded r.types) (regular : Regular r.types p) (resolves : Resolves r.types p c)
    (resolves' : Resolves r.types s d)
    (chain : Relation.ReflTransGen (Unfolds r.types) p c)
    (chain' : Relation.ReflTransGen (Unfolds r.types) s d)
    (narrows : Narrows r c d) (next : Lockstep r root (entering stack p s) q t)
    (nested : Nested these those c d x y q t)
    (settles : settlesWithin r.types i p) (settles' : settlesWithin r.types j s) :
    ∃ m n, settlesWithin r.types m q ∧ settlesWithin r.types n t ∧
      lockstepCost r.types root (entering stack p s) q m n < lockstepCost r.types root stack p i j := by
  have limits := settlesWithin_reachLimit guarded next.reaches
  have limits' := next.narrows.settles exhaustive limits
  cases named : namePair? p s with
  | some pair =>
    refine ⟨_, _, limits, limits', lockstepCost_named next.reaches ?_ next.length_le⟩
    simp [entering, named]
  | none =>
    have same : entering stack p s = stack := by simp [entering, named]
    rw [same]
    have behind := settlesWithin_of_chain settles chain
    have behind' := settlesWithin_of_chain settles' chain'
    have lighter := bulk_of_chain registry regular chain
    have below := regular.of_reaches (.of_unfoldings chain)
    -- Composites are entered from the start of a chain only, and have no name.
    have entered (composite : c.isComposite) (smaller : q.size < c.size) : q.bulk < p.bulk := by
      have names := (narrows.composite exhaustive composite).2
      obtain ⟨rfl, nameless⟩ := unnamed_composite registry regular resolves resolves' chain
        composite names named
      have bulk : p.bulk = p.size := by simp [Pattern.bulk, composite, nameless]
      rw [bulk]
      exact Nat.lt_of_le_of_lt Pattern.bulk_le_size smaller
    cases nested with
    | right mem =>
      cases j with
      | zero => cases behind'
      | succ j =>
        have shorter := settlesWithin_succ.mp behind' t (.anyOf mem)
        exact ⟨i, j, behind, shorter, lockstepCost_chain lighter (by omega)⟩
    | left mem single =>
      cases i with
      | zero => cases behind
      | succ i =>
        have shorter := settlesWithin_succ.mp behind q (.anyOf mem)
        have bulk := bulk_of_unfolds registry below (.anyOf mem)
        refine ⟨i, j, shorter, behind', lockstepCost_chain ?_ (by omega)⟩
        rw [bulk]
        exact Nat.zero_le _
    | fields mem found =>
      exact ⟨_, _, limits, limits', lockstepCost_bulk (entered rfl (Part.size_lt (.field mem)))⟩
    | items found found' place place' =>
      have part := (members?_part found place).size_lt
      have composite : c.isComposite := by
        cases c <;> first | rfl | cases found
      exact ⟨_, _, limits, limits', lockstepCost_bulk (entered composite part)⟩

theorem compareAt_of_lockstep (n : Nat) : ∀ {stack : TypeStack} {these those : Resolver}
    {p x : Pattern} {i j : Nat}, these.types = r.types → those.types = r.types →
    Lockstep r root stack p x → settlesWithin r.types i p → settlesWithin r.types j x →
    lockstepCost r.types root stack p i j < n →
    Pattern.compareAt n stack these those p x = some .success := by
  -- By the depth of the comparison, which the cost bounds.
  induction n with
  | zero =>
    intro stack these those p x i j _ _ _ _ _ cheap
    omega
  | succ n ih =>
    intro stack these those p x i j first second lockstep settles settles' cheap
    have below := regular.of_reaches lockstep.reaches
    unfold Pattern.compareAt
    by_cases held : isHeld stack p x
    · simp [held]
    have narrows := lockstep.narrows
    have known := narrows.registered guarded exhaustive below
    obtain ⟨c, concrete, chain, resolves⟩ := guarded.resolves p below.registered
    obtain ⟨d, concrete', chain', resolves'⟩ := guarded.resolves x known
    simp only [held, Bool.false_eq_true, if_false, Pattern.compareStep, resolves these first,
      resolves' those second]
    have behind := narrows.resolved guarded exhaustive resolves resolves' concrete' chain'
    have reaches := lockstep.reaches.trans (.of_unfoldings chain)
    apply compareResolved_of_narrows guarded exhaustive ?_ (regular.of_reaches reaches) concrete
      behind
    · intro single
      -- A chain has a length, so some depth is left.
      have deep : n ≠ 0 := by
        rintro rfl
        cases i with
        | zero => cases settles
        | succ i =>
          unfold lockstepCost at cheap
          omega
      obtain ⟨m, rfl⟩ := Nat.exists_eq_succ_of_ne_zero deep
      have guarded' : Guarded these.types := first ▸ guarded
      exact compareAt_null_isSome guarded' concrete' single
    · intro y z q t nested more
      obtain ⟨resolvers, down, -⟩ :
          (y = these ∧ z = those ∨ y = these.tolerant ∧ z = those.tolerant) ∧
            Reaches r.types c q ∧ Reaches r.types d t := nested.reaches
      have next := lockstep.enter exhaustive (by simpa using held) (reaches.trans down) more
      obtain ⟨k, l, chains, chains', cheaper⟩ := exists_cheaper registry exhaustive guarded below
        resolves resolves' chain chain' behind next nested settles settles'
      have types : y.types = r.types ∧ z.types = r.types := by
        rcases resolvers with ⟨rfl, rfl⟩ | ⟨rfl, rfl⟩ <;> exact ⟨first, second⟩
      exact ih types.1 types.2 next chains chains' (by omega)

omit regular in
theorem encompasses_of_narrows {these those : Resolver} {p x : Pattern} (regular : Regular r.types p)
    (first : these.types = r.types) (second : those.types = r.types) (narrows : Narrows r p x) :
    Pattern.encompasses these those p x = some .success := by
  have lockstep : Lockstep r p [] p x := ⟨Reaches.refl p, narrows, List.nodup_nil, List.nil_subset _⟩
  have settles := guarded.settles p
  have success := compareAt_of_lockstep guarded registry exhaustive regular _ first second lockstep
    settles (narrows.settles exhaustive settles) (Nat.lt_succ_self _)
  have known := narrows.registered guarded exhaustive regular
  exact encompasses_of_compareAt (first ▸ guarded) (second ▸ guarded) (first ▸ regular.registered)
    (second ▸ known) success

end Ends

end ApiContract
