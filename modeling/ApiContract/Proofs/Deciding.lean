import ApiContract.Proofs.Levels

set_option autoImplicit false

namespace ApiContract

def Acyclic (types : Entries Pattern) : Prop :=
  ∀ name, ¬ Relation.TransGen (fun p q => Unfolds types p q ∨ Part p q) (.reference name)
    (.reference name)

theorem Acyclic.of_rank {types : Entries Pattern} (rank : String → Nat)
    (falls : ∀ type ∈ types, ∀ name ∈ type.2.names, rank (Token.typeName name) < rank type.1) :
    Acyclic types := by
  intro name back
  have below {q : Pattern} (chain : Relation.TransGen (fun p q => Unfolds types p q ∨ Part p q)
      (.reference name) q) :
      ∀ other ∈ q.names, rank (Token.typeName other) < rank (Token.typeName name) := by
    -- The rank has fallen with the first step, and later ones never raise it.
    induction chain with
    | single step =>
      rcases step with (named | _) | part
      · exact falls _ (Entries.mem_of_get? named)
      · cases part
    | tail _ step ih =>
      rcases step with (named | mem) | part
      · intro other inside
        exact Nat.lt_trans (falls _ (Entries.mem_of_get? named) other inside)
          (ih _ (Pattern.mem_names_self rfl))
      · exact fun other inside => ih other (Pattern.mem_names_of_step (.inl ⟨_, rfl, mem⟩) inside)
      · exact fun other inside => ih other (Pattern.mem_names_of_step (.inr part) inside)
  exact Nat.lt_irrefl _ (below back name (Pattern.mem_names_self rfl))

namespace Pattern

def isDecided : Pattern → Bool
  | .reference _ | .anyOf _ => false
  | .object fields _ =>
      (fields.all fun field => !isOptional field.1) && decide (Entries.Distinct fields)
  | _ => true

def Decided (p : Pattern) : Prop :=
  ∀ q ∈ p.subpatterns, q.isDecided

theorem Decided.part {p q : Pattern} (h : p.Decided) (part : Part p q) : q.Decided :=
  fun o inside => h o (mem_subpatterns_inside (.inr part) inside)

theorem isDecided_object {fields : List (String × Pattern)} {traits : ObjectTraits} :
    (Pattern.object fields traits).isDecided ↔
      (∀ field ∈ fields, isOptional field.1 = false) ∧ Entries.Distinct fields := by
  simp [isDecided]

end Pattern

section Fixed

variable {r : Resolver} {x : Pattern} {entered : List String} {fuel : Nat}

theorem combinations_single {α β : Type} (f : α → β) (l : List α) :
    combinations (l.map fun a => [f a]) = [l.map f] := by
  induction l with
  | nil => rfl
  | cons a rest ih => simp [combinations, ih]

theorem mapM_eq_pure_map {α β : Type} {f : α → Attempt β} {g : α → β} {l : List α}
    (h : ∀ a ∈ l, f a = pure (g a)) : l.mapM f = pure (l.map g) := by
  rw [Attempt.mapM_eq_pure, List.forall₂_map_right_iff, List.forall₂_same]
  exact h

theorem fieldChoices_of_decided {expand : Pattern → Attempt (List Pattern)}
    {field : String × Pattern} (required : isOptional field.1 = false)
    (decided : expand field.2 = pure [field.2]) :
    fieldChoices expand r [] field = pure [some field] := by
  rw [fieldChoices_eq]
  show Attempt.under (bareName field.1) (expand field.2) >>= _ = _
  rw [Attempt.under_eq_pure.mpr decided, pure_bind, keyChoices_required required,
    bareName_of_required required]
  rfl

theorem Pattern.Decided.expandWithin (decided : x.Decided) (enough : x.size ≤ fuel) :
    x.expandWithin fuel r [] entered = pure [x] := by
  induction fuel generalizing x with
  | zero =>
    have := x.size_pos
    omega
  | succ fuel ih =>
    have inside {q : Pattern} (part : Part x q) : q.expandWithin fuel r [] entered = pure [q] := by
      have := part.size_lt
      exact ih (decided.part part) (by omega)
    have here := decided x (mem_subpatterns_self x)
    cases x with
    | reference | anyOf => cases here
    | repeated inner => exact expandWithin_repeated.mpr ⟨_, inside .inner, rfl⟩
    | object fields traits =>
      -- Every key is required, so each field has one choice and there is one combination.
      obtain ⟨required, distinct⟩ := isDecided_object.mp here
      have each (field : String × Pattern) (mem : field ∈ fields) :
          fieldChoices (Pattern.expandWithin fuel r [] entered) r [] field = pure [some field] :=
        fieldChoices_of_decided (required field mem) (inside (.field mem))
      refine expandWithin_object.mpr ⟨fields.map fun field => [some field],
        Attempt.mapM_eq_pure.mp (mapM_eq_pure_map each), ?_⟩
      have chosen : (fields.map some).filterMap id = fields := by simp
      rw [combinations_single, List.map_singleton, chosen, Entries.ofList_of_distinct distinct]
    | array elements knownAs =>
      have each (q : Pattern) (mem : q ∈ elements) :
          q.expandWithin fuel r [] entered = pure [q] := inside (.element mem)
      refine expandWithin_array.mpr ⟨elements.map fun q => [q],
        Attempt.mapM_eq_pure.mp (mapM_eq_pure_map each), ?_⟩
      rw [combinations_single fun q => q, List.map_id', List.map_singleton]
    | _ => exact expandWithin_basic rfl

theorem size_le_expandBound (r : Resolver) (row : Row) (p : Pattern) :
    p.size ≤ Pattern.expandBound r row p := by
  refine Nat.le_trans ?_ openCost_le_bound
  unfold openCost
  omega

theorem Pattern.Decided.expand (decided : x.Decided) : x.expand r [] = pure [x] :=
  decided.expandWithin (size_le_expandBound r [] x)

end Fixed

section Variants

variable {r : Resolver} {row : Row} {p q x : Pattern} {entered : List String} {fuel : Nat}
  {variants : List Pattern}

def Plain (types : Entries Pattern) (row : Row) : Prop :=
  ∀ cell ∈ row, ∀ token, cellToken? cell.2 = some token →
    ∀ name ∈ token.names, registered? types name = none

def isPlain (types : Entries Pattern) (row : Row) : Bool :=
  row.all fun cell => (cellToken? cell.2).all fun token =>
    token.names.all fun name => (registered? types name).isNone

theorem Plain.of_isPlain {types : Entries Pattern} (h : isPlain types row) : Plain types row := by
  intro cell mem token known name inside
  have own := List.all_eq_true.mp h cell mem
  rw [known, Option.all_some] at own
  simpa using List.all_eq_true.mp own name inside

theorem Reaches.inside_of_unregistered {types : Entries Pattern} (reach : Reaches types p q)
    (unregistered : ∀ name ∈ p.names, registered? types name = none) : q ∈ p.subpatterns := by
  induction reach with
  | refl => exact Pattern.mem_subpatterns_self p
  | tail _ step ih =>
    rcases step with (named | mem) | part
    · rw [unregistered _ (Pattern.mem_names_of_subpattern p ih (Pattern.mem_names_self rfl))] at named
      cases named
    · exact Pattern.mem_subpatterns_trans p ih (Pattern.mem_subpatterns_of_step (.inl ⟨_, rfl, mem⟩))
    · exact Pattern.mem_subpatterns_trans p ih (Pattern.mem_subpatterns_of_step (.inr part))

structure Untangled (types : Entries Pattern) (entered : List String) (p : Pattern) : Prop where
  registered : ∀ name ∈ entered, (registered? types name).isSome
  fresh : ∀ name ∈ entered, ¬ Reaches types p (.reference name)
  keys : ∀ fields traits, Reaches types p (.object fields traits) → BareKeys fields

namespace Untangled

variable {types : Entries Pattern}

theorem of_reaches (h : Untangled types entered p) (reach : Reaches types p q) :
    Untangled types entered q where
  registered := h.registered
  fresh name mem more := h.fresh name mem (reach.trans more)
  keys fields traits more := h.keys fields traits (reach.trans more)

theorem enter {name : String} (acyclic : Acyclic types)
    (h : Untangled types entered (.reference name))
    (chain : Relation.TransGen (Unfolds types) (.reference name) q) :
    Untangled types (name :: entered) q where
  registered := by
    obtain ⟨o, step, -⟩ := Relation.TransGen.head'_iff.mp chain
    cases step with
    | reference named => exact List.forall_mem_cons.mpr ⟨by simp [named], h.registered⟩
  fresh := by
    have below := h.of_reaches (.of_unfoldings chain.to_reflTransGen)
    refine List.forall_mem_cons.mpr ⟨fun back => ?_, below.fresh⟩
    -- The name would lead to itself, by the unfoldings and then on the way back.
    refine acyclic name (Relation.TransGen.trans_left ?_ back)
    exact Relation.TransGen.mono (fun _ _ => Or.inl) _ _ chain
  keys := (h.of_reaches (.of_unfoldings chain.to_reflTransGen)).keys

theorem of_token {token : Pattern} (h : Untangled types entered p) (flat : token.Flat)
    (unregistered : ∀ name ∈ token.names, registered? types name = none) :
    Untangled types entered token where
  registered := h.registered
  fresh name mem reach := by
    have inside := reach.inside_of_unregistered unregistered
    have known := h.registered name mem
    have named := Pattern.mem_names_of_subpattern token inside (Pattern.mem_names_self rfl)
    rw [unregistered name named] at known
    cases known
  keys fields traits reach := by
    cases flat _ (reach.inside_of_unregistered unregistered)

end Untangled

theorem upholds_decided (acyclic : Acyclic r.types) (plain : Plain r.types row) :
    Upholds r row (fun entered q => q = .null ∨ Untangled r.types entered q)
      (fun q => q.isDecided) where
  next := by
    rintro entered entered' p q (rfl | state) opens
    · cases opens
    · cases opens with
      | inner => exact .inr (state.of_reaches (Part.reaches .inner))
      | reference _ found =>
        rcases (Behind.reference found).unfolds with rfl | chain
        · exact .inl rfl
        · exact .inr (state.enter acyclic chain)
      | anyOf mem => exact .inr (state.of_reaches (Unfolds.reaches (.anyOf mem)))
      | field mem => exact .inr (state.of_reaches (Part.reaches (.field mem)))
      | token _ given text read =>
        exact .inr (state.of_token (flat_of_tokenText text read)
          (plain _ (Entries.mem_of_get? given) _ (cellToken?_eq_some.mpr ⟨text, read⟩)))
      | element mem => exact .inr (state.of_reaches (Part.reaches (.element mem)))
  basic := by
    rintro entered p - basic
    cases p <;> first | rfl | cases basic
  literal _ _ := rfl
  folded := by
    rintro entered name (null | state) met
    · cases null
    · exact (state.fresh name met (.refl _)).elim
  repeated _ := rfl
  array _ _ := rfl
  object := by
    rintro entered fields traits chosen (null | state) labels
    · cases null
    · have bare := state.keys _ _ (.refl _)
      refine Pattern.isDecided_object.mpr ⟨fun entry inside => ?_, Entries.distinct_ofList _⟩
      obtain ⟨field, known, label⟩ :=
        exists_of_forall₂_mem labels (mem_chosenFields.mp (Entries.mem_of_mem_ofList inside))
      rw [label entry rfl]
      exact bare.unmarked field known

theorem variants_decided (acyclic : Acyclic r.types)
    (keys : ∀ fields traits, Reaches r.types p (.object fields traits) → BareKeys fields)
    (plain : Plain r.types row) (expanded : p.expand r row = pure variants) :
    ∀ x ∈ variants, x.Decided ∧ ∀ s : Resolver, x.expand s [] = pure [x] := by
  intro x mem
  have start : Untangled r.types [] p := ⟨nofun, nofun, keys⟩
  have decided : x.Decided := (upholds_decided acyclic plain).inside (.inr start) expanded mem
  exact ⟨decided, fun _ => decided.expand⟩

def shop : Resolver where
  types := [("Price", .object [("amount", .number), ("currency?", .string)] ⟨.reject, .json, none⟩),
    ("Line", .object [("sku", .anyOf [.null, .string]), ("price", .reference "Price")]
      ⟨.reject, .json, none⟩),
    ("Order", .object [("id", .number), ("lines", .array [.repeated (.reference "Line")] none),
      ("total?", .anyOf [.null, .reference "Price"])] ⟨.reject, .json, none⟩)]
  nullTolerant := false
  row := none
  combinations := .compositeOnly

def orderRow : Row := [("id", "7"), ("sku", "(string?)")]

theorem order_variants_decided : variantsOf shop orderRow (.reference "Order") ≠ [] ∧
    ∀ x ∈ variantsOf shop orderRow (.reference "Order"),
      x.Decided ∧ ∀ s : Resolver, x.expand s [] = pure [x] := by
  have acyclic : Acyclic shop.types :=
    .of_rank (fun name => if name = "Order" then 2 else if name = "Line" then 1 else 0)
      (by decide +kernel)
  have tidy : Tidy shop.types (.reference "Order") := .of_all (by decide +kernel)
  have plain : Plain shop.types orderRow := .of_isPlain (by decide +kernel)
  have given : variantsOf shop orderRow (.reference "Order") ≠ [] := by decide +kernel
  exact ⟨given, variants_decided acyclic (fun _ _ => tidy.keys) plain (expand_variantsOf given)⟩

end Variants

end ApiContract
