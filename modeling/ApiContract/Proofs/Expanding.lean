import ApiContract.Proofs.Requests
import ApiContract.Proofs.Shapes

set_option autoImplicit false

namespace ApiContract

def expandCost (types : Entries Pattern) (root : Pattern) (entered : List String) (p : Pattern) :
    Nat :=
  ((reachableNames types root).length - entered.length) * (root.size + Pattern.sizeFields types + 1)
    + p.size

section Expansion

variable {r : Resolver} {root p q : Pattern} {entered : List String} {fuel : Nat}

theorem expandCost_smaller {types : Entries Pattern} (smaller : q.size < p.size)
    (cheap : expandCost types root entered p ≤ fuel + 1) :
    expandCost types root entered q ≤ fuel := by
  unfold expandCost at cheap ⊢
  omega

theorem expandCost_entered {types : Entries Pattern} {name : String}
    (room : (name :: entered).length ≤ (reachableNames types root).length)
    (reaches : Reaches types root q) (cheap : expandCost types root entered p ≤ fuel + 1) :
    expandCost types root (name :: entered) q ≤ fuel := by
  have size := reaches.size_le
  have some_ := p.size_pos
  have fewer : (reachableNames types root).length - (name :: entered).length + 1 =
      (reachableNames types root).length - entered.length := by
    simp only [List.length_cons] at room ⊢
    omega
  unfold expandCost at cheap ⊢
  rw [← fewer, Nat.add_one_mul] at cheap
  omega

theorem expandCost_le_bound (p : Pattern) :
    expandCost r.types p [] p ≤ Pattern.expandBound r [] p := by
  have names : (reachableNames r.types p).length =
      p.names.length + (Pattern.namesFields r.types).length := by
    simp [reachableNames]
  unfold expandCost Pattern.expandBound
  rw [names]
  simp only [List.length_nil, Nat.sub_zero, List.foldl_nil, Nat.add_zero, Resolver.size]
  generalize p.names.length + (Pattern.namesFields r.types).length = n
  have wider := Nat.mul_le_mul_left n
    (show p.size + Pattern.sizeFields r.types + 1 ≤ p.size + Pattern.sizeFields r.types + 4 by omega)
  rw [Nat.add_mul n 2]
  omega

variable (guarded : Guarded r.types) (exhaustive : r.combinations = .exhaustive)
include guarded exhaustive

theorem expands_of_regular (regular : Regular r.types root) (reaches : Reaches r.types root p)
    (distinct : entered.Nodup) (known : entered ⊆ reachableNames r.types root)
    (cheap : expandCost r.types root entered p ≤ fuel) : Expands r fuel entered p := by
  -- By the depth, which the cost bounds.
  have own := regular.of_reaches reaches
  induction fuel generalizing entered p with
  | zero =>
    have some_ := p.size_pos
    unfold expandCost at cheap
    omega
  | succ fuel ih =>
    have inside {q : Pattern} (step : Reaches r.types p q) (smaller : q.size < p.size) :
        Expands r fuel entered q :=
      ih (reaches.trans step) distinct known (expandCost_smaller smaller cheap) (own.of_reaches step)
    cases p with
    | repeated inner =>
      exact expands_repeated.mpr (inside (Part.reaches .inner) (Part.size_lt .inner))
    | reference name =>
      by_cases met : name ∈ entered
      · exact expands_entered met
      obtain ⟨q, -, chain, resolves⟩ := guarded.resolves _ own.registered
      have named : name ∈ reachableNames r.types root :=
        mem_reachableNames reaches.mem_reachable rfl
      have distinct' : (name :: entered).Nodup := List.nodup_cons.mpr ⟨met, distinct⟩
      have known' : name :: entered ⊆ reachableNames r.types root := List.cons_subset.mpr ⟨named, known⟩
      have room := (distinct'.subperm known').length_le
      have step : Reaches r.types (.reference name) q := .of_unfoldings chain
      refine (expands_reference met).mpr ⟨q, resolves r rfl, ?_⟩
      exact ih (reaches.trans step) distinct' known'
        (expandCost_entered room (reaches.trans step) cheap) (own.of_reaches step)
    | anyOf alternatives =>
      obtain ⟨o, rfl, -⟩ := own.nullable
      have smaller : o.size < (Pattern.anyOf [.null, o]).size := by
        simp only [Pattern.size, Pattern.sizeAll]
        omega
      exact expands_nullable.mpr (inside (Unfolds.reaches (.anyOf (by simp))) smaller)
    | object fields traits =>
      refine (expands_object exhaustive).mpr fun field mem => ?_
      exact inside (Part.reaches (.field mem)) (Part.size_lt (.field mem))
    | array elements knownAs =>
      refine expands_array.mpr fun element mem => ?_
      exact inside (Part.reaches (.element mem)) (Part.size_lt (.element mem))
    | _ => exact expands_basic rfl

omit guarded exhaustive in
theorem length_names_le {fields : List (String × Pattern)} {field : String × Pattern}
    (mem : field ∈ fields) : field.2.names.length ≤ (Pattern.namesFields fields).length := by
  induction fields with
  | nil => cases mem
  | cons first rest ih =>
    rw [Pattern.namesFields, List.length_append]
    rcases List.mem_cons.mp mem with rfl | later
    · exact Nat.le_add_right _ _
    · have := ih later
      omega

omit guarded exhaustive in
theorem expandBound_field_lt {fields : List (String × Pattern)} {traits : ObjectTraits}
    {field : String × Pattern} (mem : field ∈ fields) :
    Pattern.expandBound r [] field.2 < Pattern.expandBound r [] (.object fields traits) := by
  have names := length_names_le mem
  have size := Pattern.size_le_sizeFields mem
  unfold Pattern.expandBound
  refine Nat.mul_lt_mul_of_le_of_lt ?_ ?_ ?_
  · simp only [Pattern.names, List.length_append]
    omega
  · simp only [Pattern.size]
    omega
  · omega

theorem exists_expansion_of_fields {fields : List (String × Pattern)} {traits : ObjectTraits}
    (regular : ∀ field ∈ fields, Regular r.types field.2) :
    ∃ variants, (Pattern.object fields traits).expand r [] = pure variants := by
  obtain ⟨depth, deep⟩ := exists_expandBound_eq r [] (.object fields traits)
  have expands : Expands r (depth + 1) [] (.object fields traits) := by
    refine (expands_object exhaustive).mpr fun field mem => ?_
    refine expands_of_regular guarded exhaustive (regular field mem) (Reaches.refl _) List.nodup_nil
      (List.nil_subset _) ?_
    have cost := expandCost_le_bound (r := r) field.2
    have less : Pattern.expandBound r [] field.2 <
        Pattern.expandBound r [] (.object fields traits) := expandBound_field_lt mem
    omega
  unfold Pattern.expand
  rw [deep]
  exact expands

theorem exists_expansion (regular : Regular r.types p) : ∃ variants, p.expand r [] = pure variants :=
  expands_of_regular guarded exhaustive regular (Reaches.refl p) List.nodup_nil (List.nil_subset _)
    (expandCost_le_bound p)

end Expansion

end ApiContract
