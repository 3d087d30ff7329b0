import ApiContract.Proofs.Levels
import ApiContract.Proofs.Likeness

set_option autoImplicit false

namespace ApiContract

def Apart (variants : List Pattern) : Prop :=
  variants.Pairwise fun x y => ¬ x.same y

section Products

variable {α : Type} {R : α → α → Prop} {blocks : List (List α)}

theorem combinations_pairwise (apart : ∀ block ∈ blocks, block.Pairwise fun a b => ¬ R a b) :
    (combinations blocks).Pairwise fun as bs => ¬ List.Forall₂ R as bs := by
  induction blocks with
  | nil => exact List.pairwise_singleton _ _
  | cons block rest ih =>
    -- Under one first choice the others differ, and different first choices differ at once.
    obtain ⟨first, later⟩ := List.forall_mem_cons.mp apart
    refine List.pairwise_flatMap.mpr ⟨fun a _ => ?_, first.imp fun {a b} differ as mem bs mem' => ?_⟩
    · exact List.pairwise_map.mpr ((ih later).imp fun differ alike => by
        cases alike
        exact differ ‹_›)
    · obtain ⟨more, -, rfl⟩ := List.mem_map.mp mem
      obtain ⟨more', -, rfl⟩ := List.mem_map.mp mem'
      exact fun alike => differ (List.forall₂_cons.mp alike).1

theorem length_combinations : (combinations blocks).length = (blocks.map List.length).prod := by
  induction blocks with
  | nil => rfl
  | cons block rest ih => simp [combinations, List.length_flatMap, ih]

end Products

theorem distinctVariants_apart (variants : List Pattern) : Apart (distinctVariants variants) := by
  induction variants using List.reverseRecOn with
  | nil => exact .nil
  | append_singleton variants x ih =>
    rw [distinctVariants_concat]
    split
    · exact ih
    · next fresh =>
      refine List.pairwise_append.mpr ⟨ih, List.pairwise_singleton _ _, fun y mem z last same => ?_⟩
      obtain rfl := List.mem_singleton.mp last
      exact fresh (List.any_eq_true.mpr ⟨y, mem, same⟩)

def sameChoice : FieldChoice → FieldChoice → Bool
  | none, none => true
  | some a, some b => a.2.same b.2
  | _, _ => false

section Objects

variable {fields : List (String × Pattern)} {chosen others : List FieldChoice}
  {traits traits' : ObjectTraits}

theorem choice_of_label (bare : (fields.map fun field => bareName field.1).Nodup)
    (labels : List.Forall₂ Labels fields chosen) {i : Nat} {field : String × Pattern} {y : Pattern}
    (place : fields[i]? = some field) (mem : some (bareName field.1, y) ∈ chosen) :
    chosen[i]? = some (some (bareName field.1, y)) := by
  obtain ⟨j, there⟩ := List.mem_iff_getElem?.mp mem
  obtain ⟨other, place', label⟩ := getElem?_of_forall₂ labels there
  have same : bareName field.1 = bareName other.1 := label _ rfl
  have bound : i < (fields.map fun field => bareName field.1).length := by
    simpa using (List.getElem?_eq_some_iff.mp place).1
  obtain rfl : i = j := (List.getElem?_inj bound bare).mp (by simp [place, place', same])
  exact there

theorem sameChoices_of_same (bare : (fields.map fun field => bareName field.1).Nodup)
    (labels : List.Forall₂ Labels fields chosen) (labels' : List.Forall₂ Labels fields others)
    (same : (Pattern.object (Entries.ofList (chosenFields chosen)) traits).same
      (.object (Entries.ofList (chosenFields others)) traits')) :
    List.Forall₂ (fun a b => sameChoice a b) chosen others := by
  have distinct : Entries.Distinct (chosenFields chosen) :=
    bare.sublist (keys_chosenFields_of_labels labels)
  have distinct' : Entries.Distinct (chosenFields others) :=
    bare.sublist (keys_chosenFields_of_labels labels')
  rw [Entries.ofList_of_distinct distinct, Entries.ofList_of_distinct distinct'] at same
  obtain ⟨length, matched, -⟩ := Pattern.same_object.mp same
  refine List.forall₂_iff_get.mpr ⟨labels.length_eq.symm.trans labels'.length_eq, fun i h h' => ?_⟩
  have bound : i < fields.length := labels.length_eq ▸ h
  have place : fields[i]? = some fields[i] := List.getElem?_eq_getElem bound
  cases first : chosen.get ⟨i, h⟩ with
  | some entry =>
    obtain ⟨name, y⟩ := entry
    obtain rfl : name = bareName fields[i].1 := labels.get bound h _ first
    have mem : some (bareName fields[i].1, y) ∈ chosen := first ▸ List.get_mem _ _
    obtain ⟨z, found, alike⟩ := matched _ _ (mem_chosenFields.mpr mem)
    have there := choice_of_label bare labels' place
      (mem_chosenFields.mp (Entries.mem_of_get? found))
    rw [show others.get ⟨i, h'⟩ = _ from (List.getElem?_eq_some_iff.mp there).2]
    exact alike
  | none =>
    cases second : others.get ⟨i, h'⟩ with
    | none => rfl
    | some entry =>
      -- The key would be there on the other side too.
      obtain ⟨name, z⟩ := entry
      obtain rfl : name = bareName fields[i].1 := labels'.get bound h' _ second
      have mem : some (bareName fields[i].1, z) ∈ others := second ▸ List.get_mem _ _
      obtain ⟨y, found, -⟩ := Entries.exists_of_matched distinct length matched
        (Entries.get?_of_mem distinct' (mem_chosenFields.mpr mem))
      have there := choice_of_label bare labels place
        (mem_chosenFields.mp (Entries.mem_of_get? found))
      cases first.symm.trans (List.getElem?_eq_some_iff.mp there).2

end Objects

def Named (types : Entries Pattern) (p : Pattern) : Prop :=
  ∀ fields traits, Reaches types p (.object fields traits) →
    (fields.map fun field => bareName field.1).Nodup

section Steps

variable {r : Resolver} {row : Row} {p q x : Pattern} {entered entered' : List String}
  {variants : List Pattern} {fuel : Nat} {fields : List (String × Pattern)} {traits : ObjectTraits}

theorem keyChoices_apart {field : String × Pattern} {choices : List FieldChoice}
    (apart : Apart variants) (chosen : keyChoices r row field variants = pure choices) :
    choices.Pairwise fun a b => ¬ sameChoice a b := by
  refine List.Pairwise.sublist (keyChoices_sublist chosen) (List.pairwise_cons.mpr ⟨?_, ?_⟩)
  · intro other mem
    obtain ⟨y, -, rfl⟩ := List.mem_map.mp mem
    exact Bool.false_ne_true
  · exact List.pairwise_map.mpr apart

theorem fieldChoices_apart {expand : Pattern → Attempt (List Pattern)} {field : String × Pattern}
    {choices : List FieldChoice} (mem : field ∈ fields)
    (below : ∀ q variants, Opens r row entered (.object fields traits) entered q →
      expand q = pure variants → Apart variants)
    (expansion : fieldChoices expand r row field = pure choices) :
    choices.Pairwise fun a b => ¬ sameChoice a b := by
  rw [fieldChoices_eq] at expansion
  obtain ⟨variants, filling, chosen⟩ := Attempt.bind_eq_pure.mp expansion
  refine keyChoices_apart ?_ chosen
  rcases opens_of_fieldVariants entered traits mem filling with ⟨q, opens, expanded⟩ | ⟨_, v, -, rfl⟩
  · exact below q variants opens expanded
  · exact List.pairwise_singleton _ _

theorem expandStep_apart {expand : List String → Pattern → Attempt (List Pattern)}
    (below : ∀ entered' q variants, Opens r row entered p entered' q →
      expand entered' q = pure variants → Apart variants)
    (named : Named r.types p) (expanded : p.expandStep expand r row entered = pure variants) :
    Apart variants := by
  cases p with
  | repeated inner =>
    obtain ⟨others, expansion, rfl⟩ := Attempt.bind_pure_eq_pure.mp expanded
    exact List.pairwise_map.mpr (below entered inner others .inner expansion)
  | reference name =>
    rw [Pattern.expandStep] at expanded
    split at expanded
    · obtain rfl := Attempt.pure_inj.mp expanded
      exact List.pairwise_singleton _ _
    · next new =>
      obtain ⟨q, found, expansion⟩ := Attempt.bind_eq_pure.mp expanded
      exact below _ q variants (.reference new (Attempt.ofContractual_eq_pure.mp found)) expansion
  | anyOf alternatives =>
    -- A union drops duplicates itself, whatever its alternatives give.
    obtain ⟨blocks, -, rfl⟩ := Attempt.bind_pure_eq_pure.mp expanded
    exact distinctVariants_apart _
  | object fields traits =>
    obtain ⟨choices, expansions, rfl⟩ := Attempt.bind_pure_eq_pure.mp expanded
    have each := Attempt.mapM_eq_pure.mp expansions
    have bare := named fields traits (.refl _)
    have labels {chosen : List FieldChoice} (mem : chosen ∈ combinations choices) :
        List.Forall₂ Labels fields chosen := by
      refine (forall₂_exists.mp ⟨choices, each, mem_combinations.mp mem⟩).imp ?_
      rintro field choice ⟨_, expansion, among⟩
      exact (chosen_of_choice expansion among).labels
    have apart : (combinations choices).Pairwise fun as bs =>
        ¬ List.Forall₂ (fun a b => sameChoice a b) as bs := by
      refine combinations_pairwise fun block mem => ?_
      obtain ⟨field, known, expansion⟩ := exists_of_forall₂_mem each mem
      exact fieldChoices_apart known (below entered) expansion
    refine List.pairwise_map.mpr (apart.imp_of_mem fun {as bs} mem mem' differ same => ?_)
    exact differ (sameChoices_of_same bare (labels mem) (labels mem') same)
  | array elements knownAs =>
    obtain ⟨choices, expansions, rfl⟩ := Attempt.bind_pure_eq_pure.mp expanded
    have apart : (combinations choices).Pairwise fun xs ys =>
        ¬ List.Forall₂ (fun x y => x.same y) xs ys := by
      refine combinations_pairwise fun block mem => ?_
      obtain ⟨q, known, expansion⟩ :=
        exists_of_forall₂_mem (elementChoices_eq_pure.mp expansions) mem
      exact below entered q block (.element known) expansion
    exact List.pairwise_map.mpr (apart.imp fun differ same => differ (Pattern.sameAll_iff.mp same))
  | _ =>
    obtain rfl := Attempt.pure_inj.mp expanded
    exact List.pairwise_singleton _ _

def NamedRow (types : Entries Pattern) (row : Row) : Prop :=
  ∀ key cell token, Entries.get? row key = some cell → Token.isTokenText cell →
    Pattern.read cell = .ok token → Named types token

theorem namedRow_nil {types : Entries Pattern} : NamedRow types [] := by
  intro key cell token given
  cases given

theorem Named.of_reaches {types : Entries Pattern} (h : Named types p) (reach : Reaches types p q) :
    Named types q :=
  fun fields traits more => h fields traits (reach.trans more)

theorem Named.opens (h : Named r.types p) (rows : NamedRow r.types row)
    (opens : Opens r row entered p entered' q) : Named r.types q := by
  rcases opens.leads with reach | rfl | ⟨key, cell, given, text, read⟩
  · exact h.of_reaches reach
  · exact fun fields traits reach => nomatch reach.eq_null
  · exact rows key cell q given text read

theorem expandWithin_apart (rows : NamedRow r.types row) (named : Named r.types p)
    (expanded : p.expandWithin fuel r row entered = pure variants) : Apart variants := by
  induction fuel generalizing entered p variants with
  | zero => cases expanded
  | succ fuel ih =>
    exact expandStep_apart (fun _ _ _ opens expansion => ih (named.opens rows opens) expansion)
      named expanded

end Steps

section Listing

variable {r : Resolver} {p : Pattern} {variants : List Pattern} {fields : List (String × Pattern)}
  {traits : ObjectTraits}

theorem upholds_keyed :
    Upholds r [] (fun _ q => ∀ v, Reaches r.types q (.exact v) → v.Keyed) Pattern.KeyedHere where
  next literals opens v reach := by
    rcases opens.leads with before | rfl | ⟨_, _, given, -⟩
    · exact literals v (before.trans reach)
    · cases reach.eq_null
    · cases given
  basic := by
    intro _ p literals basic
    cases p with
    | exact v => exact literals v (.refl _)
    | object => cases basic
    | _ => trivial
  literal v given := by cases given
  folded _ _ := trivial
  repeated _ := trivial
  array _ _ := trivial
  object _ _ := Entries.distinct_ofList _

theorem variantsOf_of_expand {row : Row} (expanded : p.expand r row = pure variants) :
    variantsOf r row p = variants := by
  rw [variantsOf, expanded]
  rfl

variable (exhaustive : r.combinations = .exhaustive)
include exhaustive

theorem length_fieldChoices {expand : Pattern → Attempt (List Pattern)} {field : String × Pattern}
    {choices : List FieldChoice} (expansion : fieldChoices expand r [] field = pure choices) :
    ∃ variants, expand field.2 = pure variants ∧
      choices.length = variants.length + if isOptional field.1 then 1 else 0 := by
  obtain ⟨variants, expanded, rfl⟩ := (fieldChoices_eq_pure exhaustive).mp expansion
  refine ⟨variants, expanded, ?_⟩
  split <;> simp

theorem length_variants_of_object
    (expanded : (Pattern.object fields traits).expand r [] = pure variants) :
    (∀ field ∈ fields, field.2.expand r [] = pure (variantsOf r [] field.2)) ∧
      variants.length = (fields.map fun field =>
        (variantsOf r [] field.2).length + if isOptional field.1 then 1 else 0).prod := by
  obtain ⟨fuel, bound⟩ := exists_expandBound_eq r [] (.object fields traits)
  rw [Pattern.expand, bound] at expanded
  obtain ⟨choices, expansions, rfl⟩ := expandWithin_object.mp expanded
  have each : List.Forall₂ (fun field choices =>
      field.2.expand r [] = pure (variantsOf r [] field.2) ∧ choices.length =
        (variantsOf r [] field.2).length + if isOptional field.1 then 1 else 0) fields choices := by
    refine ((List.forall₂_and_left _ _).mpr ⟨fun _ mem => mem, expansions⟩).imp ?_
    rintro field choices ⟨mem, expansion⟩
    obtain ⟨own, inner, length⟩ := length_fieldChoices exhaustive expansion
    rw [expandWithin_field bound mem] at inner
    rw [variantsOf_of_expand inner]
    exact ⟨inner, length⟩
  refine ⟨fun field mem => ?_, ?_⟩
  · obtain ⟨choices, -, known, -⟩ := exists_of_forall₂_mem each.flip mem
    exact known
  · have lengths : choices.map List.length = fields.map fun field =>
        (variantsOf r [] field.2).length + if isOptional field.1 then 1 else 0 := by
      rw [← List.forall₂_eq_eq_eq, List.forall₂_map_left_iff, List.forall₂_map_right_iff]
      exact each.flip.imp fun _ _ known => known.2
    rw [List.length_map, length_combinations, lengths]

omit exhaustive in
theorem Apart.not_same (apart : Apart variants) (keyed : ∀ x ∈ variants, x.Keyed) {i j : Nat}
    {x y : Pattern} (differ : i ≠ j) (first : variants[i]? = some x) (second : variants[j]? = some y) :
    x.same y = false := by
  obtain ⟨bound, rfl⟩ := List.getElem?_eq_some_iff.mp first
  obtain ⟨bound', rfl⟩ := List.getElem?_eq_some_iff.mp second
  have ordered := List.pairwise_iff_getElem.mp apart
  refine Bool.eq_false_iff.mpr fun same => ?_
  rcases Nat.lt_or_gt_of_ne differ with before | after
  · exact ordered i j bound bound' before same
  · -- Sameness looks up the entries of one side, so turning it round takes distinct keys.
    have turned := (keyed _ (List.getElem_mem bound)).same_symm _ _ same
    exact ordered j i bound' bound after turned

theorem expansion_lists_once (literals : ∀ v, Reaches r.types p (.exact v) → v.Keyed)
    (named : Named r.types p) (expanded : p.expand r [] = pure variants) :
    (∀ (i j : Nat) (x y : Pattern), i ≠ j → variants[i]? = some x → variants[j]? = some y →
        x.same y = false) ∧
      ∀ fields traits, p = .object fields traits →
        (∀ field ∈ fields, field.2.expand r [] = pure (variantsOf r [] field.2)) ∧
          variants.length = (fields.map fun field =>
            (variantsOf r [] field.2).length + if isOptional field.1 then 1 else 0).prod := by
  have apart : Apart variants := expandWithin_apart namedRow_nil named expanded
  have keyed (x : Pattern) (mem : x ∈ variants) : x.Keyed :=
    upholds_keyed.inside literals expanded mem
  refine ⟨fun i j x y differ first second => apart.not_same keyed differ first second, ?_⟩
  rintro fields traits rfl
  exact length_variants_of_object exhaustive expanded

end Listing

def orchard : Resolver where
  types := [("Tree", .object [("label", .anyOf [.null, .string]), ("graft?", .reference "Tree"),
    ("kind?", .exact (.string "apple"))] ⟨.reject, .json, none⟩)]
  nullTolerant := false
  row := none
  combinations := .exhaustive

def plot : Pattern :=
  .object [("tree?", .reference "Tree"), ("owner", .anyOf [.null, .string])] ⟨.reject, .json, none⟩

theorem plot_lists_once : (variantsOf orchard [] plot).length = (8 + 1) * 2 ∧
    (∀ (i j : Nat) (x y : Pattern), i ≠ j → (variantsOf orchard [] plot)[i]? = some x →
      (variantsOf orchard [] plot)[j]? = some y → x.same y = false) ∧
    (variantsOf orchard [] plot).length = ([("tree?", .reference "Tree"),
      ("owner", .anyOf [.null, .string])].map fun field =>
        (variantsOf orchard [] field.2).length + if isOptional field.1 then 1 else 0).prod := by
  have crisp : Crisp orchard.types plot := .of_all (by decide +kernel)
  have tidy : Tidy orchard.types plot := .of_all (by decide +kernel)
  have given : (variantsOf orchard [] plot).length = (8 + 1) * 2 := by decide +kernel
  obtain ⟨once, count⟩ := expansion_lists_once rfl (fun v reach => (crisp.literals v reach).keyed)
    (fun _ _ reach => (tidy.keys reach).distinct)
    (expand_variantsOf (List.ne_nil_of_length_eq_add_one given))
  exact ⟨given, once, (count _ _ rfl).2⟩

end ApiContract
