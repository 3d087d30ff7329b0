import ApiContract.Proofs.Levels
import ApiContract.Proofs.Paths
import ApiContract.Proofs.Rendering

set_option autoImplicit false

namespace ApiContract

section Names

variable {text name : String} {p : Pattern} {path : PathPattern}

theorem trimChars_subset (cs : List Char) : Text.trimChars cs ⊆ cs := by
  intro c mem
  rw [Text.trimChars, Text.trimEndChars, List.mem_reverse] at mem
  have inner := List.mem_reverse.mp ((List.dropWhile_sublist _).subset mem)
  exact (List.dropWhile_sublist _).subset inner

theorem body_subset (cs : List Char) : Token.body cs ⊆ cs := by
  unfold Token.body
  dsimp only
  split
  · refine List.Subset.trans (trimChars_subset _) (List.Subset.trans ?_ (trimChars_subset cs))
    exact List.Subset.trans (List.dropLast_subset _) (List.tail_sublist _).subset
  · exact trimChars_subset cs

theorem plain_of_keyed? {cs name type : List Char} (keyed : Token.keyed? cs = some (name, type)) :
    Token.isTypeName name := by
  unfold Token.keyed? at keyed
  dsimp only at keyed
  split at keyed
  · next plain =>
    split at keyed
    · split at keyed
      · cases keyed
        exact plain
      · cases keyed
    · cases keyed
  · cases keyed

theorem name_of_read (whole : IsSegment text)
    (read : PathSegment.read text = .ok (.param name p)) :
    isOptional name = false ∧ name ≠ openKey := by
  unfold PathSegment.read at read
  split at read
  · cases keyed : Token.keyedText? text with
    | some pair =>
      obtain ⟨key, type⟩ := pair
      simp only [keyed] at read
      obtain ⟨q, -, same⟩ := Except.bind_eq_ok.mp read
      cases same
      obtain ⟨⟨cs, cs'⟩, found, same⟩ := Option.map_eq_some_iff.mp keyed
      cases same
      -- Neither the mark nor a dot is among the characters of a name.
      have chars := isNameChar_of_plain (plain_of_keyed? found)
      constructor
      · refine decide_eq_false fun last => ?_
        rw [String.toList_ofList] at last
        exact absurd (chars _ (List.mem_of_getLast? last)) (by decide)
      · intro same
        have dots : cs = ['.', '.', '.'] := by simpa [openKey] using congrArg String.toList same
        exact absurd (chars '.' (by simp [dots])) (by decide)
    | none =>
      simp only [keyed] at read
      obtain ⟨q, found, same⟩ := Except.bind_eq_ok.mp read
      cases same
      constructor
      · -- A name that comes from the type is cut from the segment, and no segment holds a `?`.
        refine decide_eq_false fun last => whole.path ?_
        rw [Token.typeName, String.toList_ofList] at last
        exact body_subset _ (List.mem_of_getLast? last)
      · -- The key of an open object reads as no pattern.
        intro same
        have open_ : (Pattern.read (Pattern.inParentheses openKey)).isOk = false := by decide +kernel
        rw [same, Contractual.under_eq_ok] at found
        rw [found] at open_
        cases open_
  · cases read

theorem names_of_read (read : PathPattern.read text = .ok path) :
    ∀ param ∈ path.params, isOptional param.1 = false ∧ param.1 ≠ openKey := by
  obtain ⟨segments, each, same⟩ := Except.bind_eq_ok.mp read
  cases same
  intro param mem
  obtain ⟨segment, there, known⟩ := List.mem_filterMap.mp mem
  obtain ⟨piece, inside, ok⟩ := mem_of_mapM_eq_ok each segment there
  cases segment with
  | literal => cases known
  | param name p =>
    cases known
    exact name_of_read (isSegment_of_mem_pathSegments inside) ok

end Names

def PathPattern.declared? (path : PathPattern) (name : String) : Option Pattern :=
  Entries.get? path.params.reverse name

section Variants

variable {r : Resolver} {p x : Pattern} {variants : List Pattern}
  {fields : List (String × Pattern)} {traits : ObjectTraits}

theorem required_of_expand (bare : (fields.map fun field => bareName field.1).Nodup)
    (expanded : (Pattern.object fields traits).expand r [] = pure variants) (mem : x ∈ variants) :
    ∃ members, x = .object members traits ∧ ∀ field ∈ fields, isOptional field.1 = false →
      ∃ own y, field.2.expand r [] = pure own ∧ y ∈ own ∧
        Entries.get? members field.1 = some y := by
  obtain ⟨fuel, bound⟩ := exists_expandBound_eq r [] (.object fields traits)
  rw [Pattern.expand, bound] at expanded
  obtain ⟨chosen, each, rfl⟩ := object_of_expandStep expanded mem
  have distinct : Entries.Distinct (chosenFields chosen) :=
    bare.sublist (keys_chosenFields_of_labels (each.imp fun _ _ => Chosen.labels))
  refine ⟨_, rfl, fun field known required => ?_⟩
  obtain ⟨choice, there, filled⟩ := exists_of_forall₂_mem each.flip known
  cases filled with
  | omitted optional => simp [required] at optional
  | @filled own y filling inside =>
    have expansion : field.2.expandWithin fuel r [] [] = pure own := Attempt.under_eq_pure.mp filling
    rw [expandWithin_field bound known] at expansion
    refine ⟨own, y, expansion, inside, ?_⟩
    rw [Entries.ofList_of_distinct distinct, ← bareName_of_required required]
    exact Entries.get?_of_mem distinct (mem_chosenFields.mpr there)

theorem PathPattern.params_expand {text : String} {path : PathPattern} {paths : List PathPattern}
    (read : PathPattern.read text = .ok path) (expanded : path.expand r [] = pure paths) :
    ∀ variant ∈ paths, ∃ members, variant = path.withParams members ∧
      ∀ name q, path.declared? name = some q →
        ∃ own y, q.expand r [] = pure own ∧ y ∈ own ∧ Entries.get? members name = some y := by
  have names {param : String × Pattern} (mem : param ∈ Entries.ofList path.params) :
      isOptional param.1 = false ∧ param.1 ≠ openKey :=
    names_of_read read param (Entries.mem_of_mem_ofList mem)
  have closed : openKey ∉ Entries.keys (Entries.ofList path.params) := fun mem => by
    obtain ⟨param, there, same⟩ := List.mem_map.mp mem
    exact (names there).2 same
  have bare : ((Entries.ofList path.params).map fun param => bareName param.1).Nodup := by
    have same : ((Entries.ofList path.params).map fun param => bareName param.1) =
        Entries.keys (Entries.ofList path.params) :=
      List.map_congr_left fun param mem => bareName_of_required (names mem).1
    rw [same]
    exact Entries.distinct_ofList _
  obtain ⟨variants, expansion, rfl⟩ := PathPattern.expand_eq_pure.mp expanded
  rw [PathPattern.paramsObject, objectOf_closed closed] at expansion
  intro variant mem
  obtain ⟨x, inside, filled⟩ := List.mem_filterMap.mp mem
  obtain ⟨members, rfl, each⟩ := required_of_expand bare expansion inside
  refine ⟨members, (Option.some.inj filled).symm, fun name q last => ?_⟩
  rw [PathPattern.declared?, ← Entries.get?_ofList] at last
  have there : (name, q) ∈ Entries.ofList path.params := Entries.mem_of_get? last
  exact each (name, q) there (names there).1

/-- A variant of a path keeps the literals and the names of the parameters, and each parameter has a
variant of the pattern that the last one of its name declares: of its own, where those of its name
are declared alike. -/
theorem path_variants_filled {text : String} {path : PathPattern} {paths : List PathPattern}
    (read : PathPattern.read text = .ok path) (expanded : path.expand r [] = pure paths) :
    ∀ variant ∈ paths, variant.segments.length = path.segments.length ∧
      (∀ (i : Nat) (literal : String), path.segments[i]? = some (.literal literal) →
        variant.segments[i]? = some (.literal literal)) ∧
      ∀ (i : Nat) (name : String) (p : Pattern), path.segments[i]? = some (.param name p) →
        ∃ q own y, path.declared? name = some q ∧
          ((∀ other, (name, other) ∈ path.params → other = p) → q = p) ∧
          q.expand r [] = pure own ∧ y ∈ own ∧ variant.segments[i]? = some (.param name y) := by
  intro variant mem
  obtain ⟨members, rfl, each⟩ := PathPattern.params_expand read expanded variant mem
  refine ⟨List.length_map _, fun i literal place => ?_, fun i name p place => ?_⟩
  · simp [PathPattern.withParams, place]
  · have own : (name, p) ∈ path.params :=
      PathPattern.mem_params (List.mem_of_getElem? place)
    have known : Entries.contains path.params.reverse name :=
      Entries.contains_of_mem (a := p) (List.mem_reverse.mpr own)
    obtain ⟨q, last⟩ := Option.isSome_iff_exists.mp known
    obtain ⟨variants, y, expansion, inside, found⟩ := each name q last
    refine ⟨q, variants, y, last, fun alike => alike q ?_, expansion, inside, ?_⟩
    · exact List.mem_reverse.mp (Entries.mem_of_get? last)
    · simp [PathPattern.withParams, place, found]

end Variants

def idsText : String :=
  "/(id:number)/(id:string)"

theorem first_id_replaced :
    PathPattern.read idsText = .ok ⟨[.param "id" .number, .param "id" .string]⟩ ∧
      PathPattern.expand .empty [] ⟨[.param "id" .number, .param "id" .string]⟩ =
        pure [⟨[.param "id" .string, .param "id" .string]⟩] :=
  ⟨by with_unfolding_all rfl, rfl⟩

def sizes : Resolver :=
  { Resolver.empty with types := [("Size", .anyOf [.null, .string])] }

def wareText : String :=
  "/by/(id:number)/(id:number)/(Size)"

def warePath : PathPattern :=
  ⟨[.literal "by", .param "id" .number, .param "id" .number, .param "Size" (.reference "Size")]⟩

def wareVariants : List PathPattern :=
  [.null, .string].map fun size =>
    ⟨[.literal "by", .param "id" .number, .param "id" .number, .param "Size" size]⟩

theorem ware_filled : PathPattern.read wareText = .ok warePath ∧
    warePath.expand sizes [] = pure wareVariants ∧ ∀ variant ∈ wareVariants,
      variant.segments[1]? = some (.param "id" .number) ∧
        variant.segments[2]? = some (.param "id" .number) := by
  have read : PathPattern.read wareText = .ok warePath := by with_unfolding_all rfl
  have expanded : warePath.expand sizes [] = pure wareVariants := rfl
  refine ⟨read, expanded, fun variant mem => ?_⟩
  obtain ⟨-, -, params⟩ := path_variants_filled read expanded variant mem
  have filled (i : Nat) (place : warePath.segments[i]? = some (.param "id" .number)) :
      variant.segments[i]? = some (.param "id" .number) := by
    obtain ⟨q, own, y, -, alike, expansion, inside, there⟩ := params i "id" .number place
    obtain rfl := alike (by simp [PathPattern.params, warePath])
    obtain rfl := Attempt.pure_inj.mp (show pure [.number] = pure own from expansion)
    rwa [List.mem_singleton.mp inside] at there
  exact ⟨filled 1 rfl, filled 2 rfl⟩

end ApiContract
