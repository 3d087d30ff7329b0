import ApiContract.Proofs.Expanding
import ApiContract.Proofs.Halting

set_option autoImplicit false

namespace ApiContract

section Resolvers

variable {r s : Resolver} (types : r.types = s.types) (tolerant : r.nullTolerant = s.nullTolerant)
include types tolerant

theorem Resolver.get_congr (name : String) : r.get name = s.get name := by
  simp only [get, types, tolerant]

theorem Resolver.follow_congr (hops : Nat) (p : Pattern) : r.follow hops p = s.follow hops p := by
  induction hops generalizing p with
  | zero => cases p <;> simp only [follow, get_congr types tolerant]
  | succ hops ih => cases p <;> simp only [follow, get_congr types tolerant, ih]

theorem Resolver.resolve_congr (p : Pattern) : r.resolve p = s.resolve p := by
  rw [resolve, resolve, types, follow_congr types tolerant]

end Resolvers

inductive Opens (r : Resolver) (row : Row) (entered : List String) :
    Pattern → List String → Pattern → Prop
  | inner {p : Pattern} : Opens r row entered (.repeated p) entered p
  | reference {name : String} {q : Pattern} (new : name ∉ entered)
      (found : r.resolve (.reference name) = .ok q) :
      Opens r row entered (.reference name) (name :: entered) q
  | anyOf {alternatives : List Pattern} {q : Pattern} (mem : q ∈ alternatives) :
      Opens r row entered (.anyOf alternatives) entered q
  | field {fields : List (String × Pattern)} {traits : ObjectTraits} {field : String × Pattern}
      (mem : field ∈ fields) (free : Entries.get? row (bareName field.1) = none) :
      Opens r row entered (.object fields traits) entered field.2
  | token {fields : List (String × Pattern)} {traits : ObjectTraits} {field : String × Pattern}
      {cell : String} {token : Pattern} (mem : field ∈ fields)
      (given : Entries.get? row (bareName field.1) = some cell) (text : Token.isTokenText cell)
      (read : Pattern.read cell = .ok token) :
      Opens r row entered (.object fields traits) entered token
  | element {elements : List Pattern} {knownAs : Option String} {q : Pattern}
      (mem : q ∈ elements) : Opens r row entered (.array elements knownAs) entered q

theorem Opens.leads {r : Resolver} {row : Row} {entered entered' : List String} {p q : Pattern}
    (opens : Opens r row entered p entered' q) : Reaches r.types p q ∨ q = .null ∨
      ∃ key cell, Entries.get? row key = some cell ∧ Token.isTokenText cell ∧
        Pattern.read cell = .ok q := by
  cases opens with
  | inner => exact .inl (Part.reaches .inner)
  | reference _ found =>
    rcases Resolver.unfoldings_of_resolve found with null | chain
    · exact .inr (.inl null)
    · exact .inl (.of_unfoldings chain)
  | anyOf mem => exact .inl (Unfolds.reaches (.anyOf mem))
  | field mem => exact .inl (Part.reaches (.field mem))
  | token _ given text read => exact .inr (.inr ⟨_, _, given, text, read⟩)
  | element mem => exact .inl (Part.reaches (.element mem))

section Agreement

variable {r : Resolver} {row : Row} {entered : List String}

theorem mapM_congr_of_mem {α β : Type} {f g : α → Attempt β} {l : List α}
    (h : ∀ a ∈ l, f a = g a) : l.mapM f = l.mapM g := by
  induction l with
  | nil => rfl
  | cons a rest ih =>
    obtain ⟨first, later⟩ := List.forall_mem_cons.mp h
    rw [List.mapM_cons, List.mapM_cons, first, ih later]

theorem fieldVariants_congr {f g : Pattern → Attempt (List Pattern)} {field : String × Pattern}
    (declared : Entries.get? row (bareName field.1) = none → f field.2 = g field.2)
    (tokens : ∀ cell token, Entries.get? row (bareName field.1) = some cell →
      Token.isTokenText cell → Pattern.read cell = .ok token → f token = g token) :
    fieldVariants f r row field = fieldVariants g r row field := by
  unfold fieldVariants
  split
  · next cell given =>
    unfold cellVariants tokenVariants
    by_cases text : Token.isTokenText cell
    · rw [if_pos text, if_pos text]
      cases read : Pattern.read cell with
      | error e => rfl
      | ok token =>
        have known : Attempt.ofContractual ((Except.ok token).mapError fun e : ContractError =>
            invalidExample (bareName field.1) e.message) = pure token := rfl
        rw [known, pure_bind, pure_bind, tokens cell token given text read]
    · rw [if_neg text, if_neg text]
  · next free => rw [declared free]

theorem elementChoices_congr {f g : Pattern → Attempt (List Pattern)} {elements : List Pattern}
    {i : Nat} (h : ∀ q ∈ elements, f q = g q) :
    elementChoices f i elements = elementChoices g i elements := by
  induction elements generalizing i with
  | nil => rfl
  | cons q rest ih =>
    obtain ⟨first, later⟩ := List.forall_mem_cons.mp h
    simp only [elementChoices, first, ih later]

theorem Pattern.expandStep_congr {f g : List String → Pattern → Attempt (List Pattern)} {p : Pattern}
    (h : ∀ entered' q, Opens r row entered p entered' q → f entered' q = g entered' q) :
    p.expandStep f r row entered = p.expandStep g r row entered := by
  cases p with
  | repeated inner => simp only [expandStep, h _ _ .inner]
  | reference name =>
    simp only [expandStep]
    split
    · rfl
    · next new =>
      cases found : r.resolve (.reference name) with
      | error e => rfl
      | ok q => exact h _ q (.reference new found)
  | anyOf alternatives =>
    simp only [expandStep, mapM_congr_of_mem fun q mem => h entered q (.anyOf mem)]
  | object fields traits =>
    have same (field : String × Pattern) (mem : field ∈ fields) :
        fieldChoices (f entered) r row field = fieldChoices (g entered) r row field := by
      rw [fieldChoices_eq, fieldChoices_eq, fieldVariants_congr (fun free => h _ _ (.field mem free))
        fun cell token given text read => h _ _ (.token mem given text read)]
    simp only [expandStep, mapM_congr_of_mem same]
  | array elements knownAs =>
    simp only [expandStep, elementChoices_congr fun q mem => h entered q (.element mem)]
  | _ => rfl

end Agreement

section Levels

variable {r : Resolver} {row : Row} {entered : List String} {expand : Pattern → Attempt (List Pattern)}
  {fields : List (String × Pattern)} {traits : ObjectTraits} {field : String × Pattern}
  {variants : List Pattern} {choices : List FieldChoice}

theorem opens_of_fieldVariants (entered : List String) (traits : ObjectTraits) (mem : field ∈ fields)
    (filling : fieldVariants expand r row field = pure variants) :
    (∃ q, Opens r row entered (.object fields traits) entered q ∧ expand q = pure variants) ∨
      ∃ cell v, Entries.get? row (bareName field.1) = some cell ∧ variants = [.exact v] := by
  unfold fieldVariants at filling
  split at filling
  · next cell given =>
    rcases cellVariants_cases filling with ⟨token, text, read, expansion⟩ | ⟨v, rfl⟩
    · exact .inl ⟨token, .token mem given text read, expansion⟩
    · exact .inr ⟨cell, v, given, rfl⟩
  · next free => exact .inl ⟨field.2, .field mem free, Attempt.under_eq_pure.mp filling⟩

inductive Chosen (expand : Pattern → Attempt (List Pattern)) (r : Resolver) (row : Row)
    (field : String × Pattern) : FieldChoice → Prop
  | omitted (optional : isOptional field.1) : Chosen expand r row field none
  | filled {variants : List Pattern} {y : Pattern}
      (filling : fieldVariants expand r row field = pure variants) (mem : y ∈ variants) :
      Chosen expand r row field (some (bareName field.1, y))

theorem chosen_of_choice {choice : FieldChoice}
    (expansion : fieldChoices expand r row field = pure choices) (mem : choice ∈ choices) :
    Chosen expand r row field choice := by
  rw [fieldChoices_eq] at expansion
  obtain ⟨variants, filling, chosen⟩ := Attempt.bind_eq_pure.mp expansion
  have put (inside : choice ∈ variants.map fun y => some (bareName field.1, y)) :
      Chosen expand r row field choice := by
    obtain ⟨y, there, rfl⟩ := List.mem_map.mp inside
    exact .filled filling there
  cases required : isOptional field.1 with
  | false =>
    rw [keyChoices_required required] at chosen
    obtain rfl := Attempt.pure_inj.mp chosen
    exact put mem
  | true =>
    rcases List.mem_cons.mp ((keyChoices_sublist chosen).subset mem) with rfl | inside
    · exact .omitted required
    · exact put inside

theorem Chosen.labels {choice : FieldChoice} (h : Chosen expand r row field choice) :
    Labels field choice := by
  intro entry same
  cases h <;> cases same
  rfl

theorem object_of_expandStep {expand : List String → Pattern → Attempt (List Pattern)} {x : Pattern}
    (expanded : (Pattern.object fields traits).expandStep expand r row entered = pure variants)
    (mem : x ∈ variants) : ∃ chosen, List.Forall₂ (Chosen (expand entered) r row) fields chosen ∧
      x = .object (Entries.ofList (chosenFields chosen)) traits := by
  obtain ⟨choices, expansions, rfl⟩ := Attempt.bind_pure_eq_pure.mp expanded
  obtain ⟨chosen, there, rfl⟩ := List.mem_map.mp mem
  have each := forall₂_exists.mp
    ⟨choices, Attempt.mapM_eq_pure.mp expansions, mem_combinations.mp there⟩
  exact ⟨chosen, each.imp fun _ _ ⟨_, expansion, among⟩ => chosen_of_choice expansion among, rfl⟩

end Levels

section Everywhere

variable {r : Resolver} {row : Row} {entered : List String} {p q x : Pattern}
  {variants : List Pattern} {fuel : Nat} {stands : List String → Pattern → Prop}
  {holds : Pattern → Prop}

structure Upholds (r : Resolver) (row : Row) (stands : List String → Pattern → Prop)
    (holds : Pattern → Prop) : Prop where
  next : ∀ {entered entered' p q}, stands entered p → Opens r row entered p entered' q →
    stands entered' q
  basic : ∀ {entered p}, stands entered p → p.isBasic → holds p
  literal : ∀ {key cell} (v : Value), Entries.get? row key = some cell → holds (.exact v)
  folded : ∀ {entered name}, stands entered (.reference name) → name ∈ entered →
    holds (.reference name)
  repeated : ∀ inner, holds (.repeated inner)
  array : ∀ elements knownAs, holds (.array elements knownAs)
  object : ∀ {entered fields traits chosen}, stands entered (.object fields traits) →
    List.Forall₂ Labels fields chosen → holds (.object (Entries.ofList (chosenFields chosen)) traits)

theorem everywhere_of_parts (here : holds p) (plain : ∀ alternatives, p ≠ .anyOf alternatives)
    (parts : ∀ o, Part p o → ∀ q ∈ o.subpatterns, holds q) : ∀ q ∈ p.subpatterns, holds q := by
  intro q inside
  rcases Pattern.mem_subpatterns_cases inside with rfl | ⟨o, step, -, more⟩
  · exact here
  · rcases step with ⟨alternatives, same, -⟩ | part
    · exact (plain _ same).elim
    · exact parts o part q more

theorem everywhere_of_basic (basic : p.isBasic) (here : holds p) : ∀ q ∈ p.subpatterns, holds q := by
  refine everywhere_of_parts here ?_ ?_
  · rintro alternatives rfl
    cases basic
  · intro o part
    cases part <;> cases basic

namespace Upholds

variable (upholds : Upholds r row stands holds)
include upholds

theorem fields {expand : List String → Pattern → Attempt (List Pattern)}
    {fields : List (String × Pattern)} {traits : ObjectTraits}
    (below : ∀ q variants, stands entered q → expand entered q = pure variants →
      ∀ x ∈ variants, ∀ o ∈ x.subpatterns, holds o)
    (place : stands entered (.object fields traits))
    (expanded : (Pattern.object fields traits).expandStep expand r row entered = pure variants)
    (mem : x ∈ variants) : ∀ o ∈ x.subpatterns, holds o := by
  obtain ⟨chosen, each, rfl⟩ := object_of_expandStep expanded mem
  refine everywhere_of_parts (upholds.object place (each.imp fun _ _ => Chosen.labels)) (by simp)
    fun o part => ?_
  cases part with
  | field inside =>
    obtain ⟨field, known, choice⟩ :=
      exists_of_forall₂_mem each (mem_chosenFields.mp (Entries.mem_of_mem_ofList inside))
    cases choice with
    | filled filling there =>
      rcases opens_of_fieldVariants entered traits known filling with
        ⟨q, opens, expansion⟩ | ⟨cell, v, given, rfl⟩
      · have opened : stands entered q := by
          cases opens with
          | field mem free => exact upholds.next place (.field mem free)
          | token mem given text read => exact upholds.next place (.token mem given text read)
        exact below q _ opened expansion o there
      · obtain rfl := List.mem_singleton.mp there
        exact everywhere_of_basic rfl (upholds.literal v given)

theorem inside (place : stands entered p)
    (expanded : p.expandWithin fuel r row entered = pure variants) (mem : x ∈ variants) :
    ∀ q ∈ x.subpatterns, holds q := by
  -- On the bound: what a name or a cell stands for need not be smaller than the pattern.
  induction fuel generalizing entered p variants x with
  | zero => cases expanded
  | succ fuel ih =>
    cases p with
    | repeated inner =>
      obtain ⟨others, expansion, rfl⟩ := Attempt.bind_pure_eq_pure.mp expanded
      obtain ⟨y, there, rfl⟩ := List.mem_map.mp mem
      refine everywhere_of_parts (upholds.repeated y) (by simp) fun o part => ?_
      cases part
      exact ih (upholds.next place .inner) expansion there
    | reference name =>
      rw [Pattern.expandWithin, Pattern.expandStep] at expanded
      split at expanded
      · next met =>
        -- The name stays in the variant.
        obtain rfl := Attempt.pure_inj.mp expanded
        obtain rfl := List.mem_singleton.mp mem
        exact everywhere_of_parts (upholds.folded place met) (by simp) fun o part => by cases part
      · next new =>
        obtain ⟨q, found, expansion⟩ := Attempt.bind_eq_pure.mp expanded
        have opens : Opens r row entered (.reference name) (name :: entered) q :=
          .reference new (Attempt.ofContractual_eq_pure.mp found)
        exact ih (upholds.next place opens) expansion mem
    | anyOf alternatives =>
      obtain ⟨blocks, expansions, rfl⟩ := Attempt.bind_pure_eq_pure.mp expanded
      obtain ⟨block, there, inside⟩ := List.mem_flatten.mp (mem_of_mem_distinctVariants mem)
      obtain ⟨q, known, expansion⟩ :=
        exists_of_forall₂_mem (Attempt.mapM_eq_pure.mp expansions) there
      exact ih (upholds.next place (.anyOf known)) expansion inside
    | object fields traits =>
      exact upholds.fields (fun _ _ place expansion _ mem => ih place expansion mem) place expanded mem
    | array elements knownAs =>
      obtain ⟨chosen, rfl, each⟩ := elements_of_expandStep expanded mem
      have element {y : Pattern} (inside : y ∈ chosen) : ∀ q ∈ y.subpatterns, holds q := by
        obtain ⟨q, known, others, expansion, there⟩ := exists_of_forall₂_mem each inside
        exact ih (upholds.next place (.element known)) expansion there
      refine everywhere_of_parts (upholds.array chosen knownAs) (by simp) fun o part q more => ?_
      cases part with
      | element inside => exact element inside q more
      | tail inside =>
        -- A tail is what the last element repeats, so it is inside an element.
        exact element inside q (Pattern.mem_subpatterns_inside (.inr .inner) more)
    | string | number | boolean | null | url | exact =>
      obtain rfl := Attempt.pure_inj.mp expanded
      obtain rfl := List.mem_singleton.mp mem
      exact everywhere_of_basic rfl (upholds.basic place rfl)

end Upholds

end Everywhere

section Bound

variable {r : Resolver} {row : Row} {root p q : Pattern} {entered entered' : List String}
  {fuel more : Nat}

theorem mem_drawable_of_opens (mem : p ∈ drawable (r.withRow row) root)
    (opens : Opens r row entered p entered' q) : q ∈ drawable (r.withRow row) root := by
  cases opens with
  | inner => exact mem_drawable_of_draws mem .inner
  | reference _ found =>
    rw [r.resolve_congr (s := r.withRow row) rfl rfl] at found
    exact mem_drawable_of_draws mem (.behind (.reference found))
  | anyOf known => exact mem_drawable_of_draws mem (.behind (.anyOf known))
  | field known free => exact mem_drawable_of_draws mem (.field known free)
  | token known given text read => exact mem_drawable_of_draws mem (.token known given text read)
  | element known =>
    rcases List.mem_append.mp mem with mem | mem
    · exact List.mem_append_left _ (met_part mem (.element known))
    · obtain ⟨t, there, inside⟩ := List.mem_flatMap.mp mem
      refine List.mem_append_right _ (List.mem_flatMap.mpr ⟨t, there, ?_⟩)
      exact Pattern.mem_subpatterns_trans t inside
        (Pattern.mem_subpatterns_of_step (.inr (.element known)))

def Pattern.holdsInline (p : Pattern) : Bool :=
  p.subpatterns.any isInline

def spareDepth (r : Resolver) (p : Pattern) : Nat :=
  if p.holdsInline then cellsLength r + 2 else 0

theorem spareDepth_le_of_inside (inside : q ∈ p.subpatterns) : spareDepth r q ≤ spareDepth r p := by
  unfold spareDepth
  split
  · next holds =>
    obtain ⟨o, there, inlined⟩ := List.any_eq_true.mp holds
    have above : p.holdsInline :=
      List.any_eq_true.mpr ⟨o, Pattern.mem_subpatterns_trans p inside there, inlined⟩
    rw [if_pos above]
  · exact Nat.zero_le _

theorem spareDepth_of_flat (flat : p.Flat) : spareDepth r p = 0 := by
  have none : p.holdsInline = false := by
    simpa [Pattern.holdsInline, Pattern.Flat] using flat
  simp [spareDepth, none]

theorem size_add_spareDepth_le (mem : p ∈ drawable r root) :
    p.size + spareDepth r p ≤ drawWidth r root := by
  unfold spareDepth
  split
  · next holds =>
    unfold drawWidth Resolver.size
    rcases List.mem_append.mp mem with mem | mem
    · rcases List.mem_cons.mp mem with rfl | mem
      · cases holds
      · rcases List.mem_append.mp mem with inside | inside
        · have := Pattern.size_le_of_subpattern root inside
          omega
        · obtain ⟨key, t, known, inside⟩ := Pattern.mem_subpatternsFields.mp inside
          have := Pattern.size_le_of_subpattern t inside
          have := Pattern.size_le_sizeFields known
          omega
    · -- Nothing inside a token is an object or an array.
      obtain ⟨t, known, inside⟩ := List.mem_flatMap.mp mem
      obtain ⟨cell, -, token⟩ := List.mem_filterMap.mp known
      obtain ⟨text, read⟩ := cellToken?_eq_some.mp token
      obtain ⟨o, there, inlined⟩ := List.any_eq_true.mp holds
      rw [flat_of_tokenText text read o (Pattern.mem_subpatterns_trans t inside there)] at inlined
      cases inlined
  · exact Nat.le_of_lt (size_lt_drawWidth mem)

structure Opened (r : Resolver) (row : Row) (root : Pattern) (entered : List String) (p : Pattern) :
    Prop where
  mem : p ∈ drawable (r.withRow row) root
  distinct : entered.Nodup
  known : entered ⊆ drawNames (r.withRow row) root

theorem Opened.start (r : Resolver) (row : Row) (p : Pattern) : Opened r row p [] p where
  mem := List.mem_append_left _ (met_self _ p)
  distinct := List.nodup_nil
  known := List.nil_subset _

theorem Opened.next (state : Opened r row root entered p) (opens : Opens r row entered p entered' q) :
    Opened r row root entered' q := by
  have mem := mem_drawable_of_opens state.mem opens
  cases opens with
  | reference new =>
    exact ⟨mem, List.nodup_cons.mpr ⟨new, state.distinct⟩,
      List.cons_subset.mpr ⟨mem_drawNames state.mem, state.known⟩⟩
  | _ => exact ⟨mem, state.distinct, state.known⟩

def openCost (r : Resolver) (root : Pattern) (entered : List String) (p : Pattern) : Nat :=
  -- The names left to enter, then the size of the pattern and of a token in it.
  (drawRoom r root + 1 - entered.length) * drawWidth r root + p.size + spareDepth r p

theorem openCost_smaller (inside : q ∈ p.subpatterns) (smaller : q.size < p.size)
    (cheap : openCost r root entered p ≤ fuel + 1) : openCost r root entered q ≤ fuel := by
  have spare := spareDepth_le_of_inside (r := r) inside
  unfold openCost at cheap ⊢
  omega

theorem openCost_enter {name : String} (state : Opened r row root (name :: entered) q)
    (cheap : openCost (r.withRow row) root entered p ≤ fuel + 1) :
    openCost (r.withRow row) root (name :: entered) q ≤ fuel := by
  have narrow := size_add_spareDepth_le state.mem
  have room := Nat.le_trans (state.distinct.subperm state.known).length_le length_drawNames_le
  have fewer : drawRoom (r.withRow row) root + 1 - entered.length =
      (drawRoom (r.withRow row) root + 1 - (name :: entered).length) + 1 := by
    simp only [List.length_cons] at room ⊢
    omega
  unfold openCost at cheap ⊢
  rw [fewer, Nat.add_one_mul] at cheap
  have := p.size_pos
  omega

theorem openCost_token {fields : List (String × Pattern)} {traits : ObjectTraits}
    (token : q ∈ cellTokens r) (cheap : openCost r root entered (.object fields traits) ≤ fuel + 1) :
    openCost r root entered q ≤ fuel := by
  have small := size_cellToken_le token
  obtain ⟨cell, -, read⟩ := List.mem_filterMap.mp token
  obtain ⟨text, read⟩ := cellToken?_eq_some.mp read
  have holds : (Pattern.object fields traits).holdsInline :=
    List.any_eq_true.mpr ⟨_, Pattern.mem_subpatterns_self _, rfl⟩
  have := (Pattern.object fields traits).size_pos
  unfold openCost at cheap ⊢
  rw [spareDepth_of_flat (flat_of_tokenText text read)]
  rw [spareDepth, if_pos holds] at cheap
  omega

theorem openCost_next (state : Opened r row root entered p)
    (opens : Opens r row entered p entered' q)
    (cheap : openCost (r.withRow row) root entered p ≤ fuel + 1) :
    openCost (r.withRow row) root entered' q ≤ fuel := by
  have inside {o : Pattern} (step : (∃ alternatives, p = .anyOf alternatives ∧ o ∈ alternatives) ∨
      Part p o) (smaller : o.size < p.size) : openCost (r.withRow row) root entered o ≤ fuel :=
    openCost_smaller (Pattern.mem_subpatterns_of_step step) smaller cheap
  cases opens with
  | inner => exact inside (.inr .inner) (Part.size_lt .inner)
  | reference new found => exact openCost_enter (state.next (.reference new found)) cheap
  | anyOf mem =>
    refine inside (.inl ⟨_, rfl, mem⟩) ?_
    have := Pattern.size_le_sizeAll mem
    simp only [Pattern.size]
    omega
  | field mem => exact inside (.inr (.field mem)) (Part.size_lt (.field mem))
  | token mem given text read =>
    exact openCost_token (mem_cellTokens (r := r.withRow row) given text read) cheap
  | element mem => exact inside (.inr (.element mem)) (Part.size_lt (.element mem))

theorem openCost_le_bound : openCost (r.withRow row) p [] p ≤ Pattern.expandBound r row p := by
  have cells (row : Row) (total : Nat) : row.foldl (fun total cell => total + cell.2.length) total =
      total + (row.map fun cell => cell.2.length).sum := by
    induction row generalizing total with
    | nil => rfl
    | cons cell rest ih => rw [List.foldl_cons, ih, List.map_cons, List.sum_cons, Nat.add_assoc]
  have bound : Pattern.expandBound r row p =
      (drawRoom (r.withRow row) p + 2) * drawWidth (r.withRow row) p := by
    simp only [Pattern.expandBound, cells, Nat.zero_add]
    rfl
  have narrow := size_add_spareDepth_le (Opened.start r row p).mem
  rw [bound, openCost, List.length_nil, Nat.sub_zero]
  generalize drawRoom (r.withRow row) p = room
  rw [Nat.add_one_mul (room + 1)]
  omega

theorem openCost_pos : 0 < openCost r root entered p := by
  have := p.size_pos
  unfold openCost
  omega

theorem expandWithin_eq_of_cost (state : Opened r row root entered p)
    (cheap : openCost (r.withRow row) root entered p ≤ fuel)
    (cheap' : openCost (r.withRow row) root entered p ≤ more) :
    p.expandWithin fuel r row entered = p.expandWithin more r row entered := by
  have positive : 0 < openCost (r.withRow row) root entered p := openCost_pos
  induction fuel generalizing more entered p with
  | zero => omega
  | succ fuel ih =>
    obtain ⟨more, rfl⟩ : ∃ k, more = k + 1 := ⟨more - 1, by omega⟩
    refine Pattern.expandStep_congr fun entered' q opens => ?_
    have first := openCost_next state opens cheap
    have second := openCost_next state opens cheap'
    exact ih (state.next opens) first second openCost_pos

theorem expandWithin_eq_expand (enough : Pattern.expandBound r row p ≤ fuel) :
    p.expandWithin fuel r row [] = p.expand r row :=
  expandWithin_eq_of_cost (.start r row p) (Nat.le_trans openCost_le_bound enough) openCost_le_bound

theorem expandWithin_field {fields : List (String × Pattern)} {traits : ObjectTraits}
    {field : String × Pattern} (bound : Pattern.expandBound r [] (.object fields traits) = fuel + 1)
    (mem : field ∈ fields) : field.2.expandWithin fuel r [] [] = field.2.expand r [] := by
  have less : Pattern.expandBound r [] field.2 < Pattern.expandBound r [] (.object fields traits) :=
    expandBound_field_lt mem
  exact expandWithin_eq_expand (by omega)

end Bound

end ApiContract
