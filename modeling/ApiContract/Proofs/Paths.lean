import ApiContract.Contract.Path
import ApiContract.Proofs.Printing
import ApiContract.Proofs.Written

set_option autoImplicit false

namespace ApiContract

section Splitting

variable {sep : Char} {cs front piece : List Char} {pieces : List (List Char)}

theorem exists_splitChars (sep : Char) (cs : List Char) :
    ∃ piece pieces, Text.splitChars sep cs = piece :: pieces := by
  induction cs with
  | nil => exact ⟨[], [], rfl⟩
  | cons c rest ih =>
    obtain ⟨piece, pieces, same⟩ := ih
    rw [Text.splitChars, same]
    split
    · exact ⟨[], _, rfl⟩
    · exact ⟨_, _, rfl⟩

theorem splitChars_append (free : sep ∉ front) (h : Text.splitChars sep cs = piece :: pieces) :
    Text.splitChars sep (front ++ cs) = (front ++ piece) :: pieces := by
  induction front with
  | nil => exact h
  | cons c rest ih =>
    rw [List.cons_append, Text.splitChars, ih (List.not_mem_of_not_mem_cons free),
      if_neg (Ne.symm (List.ne_of_not_mem_cons free))]
    rfl

theorem splitChars_flatMap {texts : List (List Char)} (free : ∀ t ∈ texts, sep ∉ t) :
    Text.splitChars sep (texts.flatMap fun t => sep :: t) = [] :: texts := by
  induction texts with
  | nil => rfl
  | cons t rest ih =>
    obtain ⟨first, later⟩ := List.forall_mem_cons.mp free
    rw [List.flatMap_cons, List.cons_append, Text.splitChars, if_pos rfl,
      splitChars_append first (ih later), List.append_nil]

theorem free_of_mem_splitChars (mem : piece ∈ Text.splitChars sep cs) : sep ∉ piece ∧ piece ⊆ cs := by
  induction cs generalizing piece with
  | nil =>
    obtain rfl := List.mem_singleton.mp mem
    exact ⟨List.not_mem_nil, List.nil_subset _⟩
  | cons c rest ih =>
    obtain ⟨first, pieces, same⟩ := exists_splitChars sep rest
    have inside {p : List Char} (mem : p ∈ first :: pieces) : sep ∉ p ∧ p ⊆ c :: rest := by
      obtain ⟨free, sub⟩ := ih (same ▸ mem)
      exact ⟨free, fun d there => List.mem_cons_of_mem c (sub there)⟩
    rw [Text.splitChars, same] at mem
    split at mem
    · rcases List.mem_cons.mp mem with rfl | later
      · exact ⟨List.not_mem_nil, List.nil_subset _⟩
      · exact inside later
    · next other =>
      rcases List.mem_cons.mp mem with rfl | later
      · obtain ⟨free, sub⟩ := inside List.mem_cons_self
        refine ⟨List.not_mem_cons_of_ne_of_not_mem (Ne.symm other) free, ?_⟩
        exact List.cons_subset.mpr ⟨List.mem_cons_self, sub⟩
      · exact inside (List.mem_cons_of_mem first later)

end Splitting

structure IsSegment (text : String) : Prop where
  some : text ≠ ""
  whole : '/' ∉ text.toList
  path : '?' ∉ text.toList

theorem IsSegment.of_chars {text : String} (some : text ≠ "")
    (chars : ∀ c ∈ text.toList, c ≠ '/' ∧ c ≠ '?') : IsSegment text :=
  ⟨some, fun mem => (chars _ mem).1 rfl, fun mem => (chars _ mem).2 rfl⟩

theorem isSegment_word (letters : Vector (Fin 26) 5) : IsSegment (capitalLetters letters) := by
  have letter : ∀ i : Fin 26, Char.ofNat ('A'.toNat + i.val) ≠ '/' ∧
      Char.ofNat ('A'.toNat + i.val) ≠ '?' := by decide
  refine .of_chars (fun empty => ?_) fun c mem => ?_
  · have length := congrArg (fun text => text.toList.length) empty
    simp [capitalLetters] at length
  · obtain ⟨i, rfl⟩ := exists_letter mem
    exact letter i

theorem isSegment_lowerWord (letters : Vector (Fin 26) 5) :
    IsSegment (Text.asciiLower (capitalLetters letters)) := by
  have letter : ∀ i : Fin 26, (Char.ofNat ('A'.toNat + i.val)).toLower ≠ '/' ∧
      (Char.ofNat ('A'.toNat + i.val)).toLower ≠ '?' := by decide
  refine .of_chars (fun empty => ?_) fun c mem => ?_
  · have length := congrArg (fun text => text.toList.length) empty
    simp [Text.asciiLower, capitalLetters, String.toList_map] at length
  · obtain ⟨i, rfl⟩ := exists_lowerLetter mem
    exact letter i

theorem isSegment_whole (n : Whole) : IsSegment (Number.whole n).text := by
  have digit {c : Char} (mem : c ∈ Nat.toDigits 10 n.val.natAbs) : c ≠ '/' ∧ c ≠ '?' := by
    have own := isDigit_of_mem_toDigits mem
    constructor <;> rintro rfl <;> exact absurd own (by decide)
  obtain ⟨first, rest, shape, -⟩ := Json.Reader.exists_start n
  refine .of_chars (fun empty => by simp [empty] at shape) fun c mem => ?_
  rw [Number.text, String.toList_ofList] at mem
  split at mem
  · rcases List.mem_cons.mp mem with rfl | mem
    · decide
    · exact digit mem
  · exact digit mem

theorem isSegment_of_mem_pathSegments {path text : String} (mem : text ∈ pathSegments path) :
    IsSegment text := by
  obtain ⟨cut, some⟩ := List.mem_filter.mp mem
  obtain ⟨piece, split, rfl⟩ := List.mem_map.mp cut
  rw [String.toList_ofList] at split
  obtain ⟨free, sub⟩ := free_of_mem_splitChars split
  refine ⟨of_decide_eq_true some, by rwa [String.toList_ofList], ?_⟩
  rw [String.toList_ofList]
  intro question
  simpa using List.mem_takeWhile_imp (sub question)

def joined (texts : List String) : String :=
  if texts = [] then "/" else String.join (texts.map fun text => "/" ++ text)

theorem toList_join_slash (texts : List String) :
    (String.join (texts.map fun text => "/" ++ text)).toList =
      (texts.map String.toList).flatMap fun t => '/' :: t := by
  simp [String.toList_join, List.flatMap_map]

theorem pathSegments_joined {texts : List String}
    (free : ∀ text ∈ texts, '/' ∉ text.toList ∧ '?' ∉ text.toList) :
    pathSegments (joined texts) = texts.filter fun text => text ≠ "" := by
  unfold joined
  split
  · next none =>
    subst none
    rfl
  · have pieces : ∀ t ∈ texts.map String.toList, '/' ∉ t := by
      intro t mem
      obtain ⟨text, there, rfl⟩ := List.mem_map.mp mem
      exact (free text there).1
    have whole : ((texts.map String.toList).flatMap fun t => '/' :: t).takeWhile (fun c => c ≠ '?') =
        (texts.map String.toList).flatMap fun t => '/' :: t := by
      refine List.takeWhile_eq_self_iff.mpr fun c mem => ?_
      obtain ⟨t, there, inside⟩ := List.mem_flatMap.mp mem
      obtain ⟨text, known, rfl⟩ := List.mem_map.mp there
      refine decide_eq_true ?_
      rintro rfl
      rcases List.mem_cons.mp inside with same | inside
      · exact absurd same (by decide)
      · exact (free text known).2 inside
    rw [pathSegments, toList_join_slash, whole, Text.split, String.toList_ofList,
      splitChars_flatMap pieces]
    simp [Function.comp_def]

theorem pathSegments_of_segments {texts : List String} (h : ∀ text ∈ texts, IsSegment text) :
    pathSegments (joined texts) = texts := by
  rw [pathSegments_joined fun text mem => ⟨(h text mem).whole, (h text mem).path⟩]
  exact List.filter_eq_self.mpr fun text mem => decide_eq_true (h text mem).some

section Drawing

variable {r : Resolver} {path : PathPattern}

def PathSegment.draw (r : Resolver) : PathSegment → Gen Value
  | .literal text => return .string text
  | .param name pattern => (pattern.generate r).under name

def PathPattern.draw (r : Resolver) (path : PathPattern) : Gen (List Value) :=
  path.segments.mapM (PathSegment.draw r)

def pathOf (values : List Value) : String :=
  joined (values.map Value.toText)

theorem PathPattern.generate_eq : path.generate r = pathOf <$> path.draw r := by
  have segment (s : PathSegment) :
      generateSegment r s = (fun v => "/" ++ v.toText) <$> s.draw r := by
    cases s with
    | literal text => rfl
    | param name pattern => exact (map_eq_pure_bind _ _).symm
  have segments (list : List PathSegment) : generateSegments r list =
      (fun values => String.join (values.map fun v => "/" ++ v.toText)) <$>
        list.mapM (PathSegment.draw r) := by
    induction list with
    | nil => rfl
    | cons s rest ih =>
      simp only [generateSegments, segment, ih, List.mapM_cons, map_eq_pure_bind, bind_assoc,
        pure_bind, List.map_cons, String.join_cons]
  -- Every text comes after a slash, so there is a text unless there is no segment.
  have whole (values : List Value) : pathOf values =
      if String.join (values.map fun v => "/" ++ v.toText) = "" then "/"
      else String.join (values.map fun v => "/" ++ v.toText) := by
    cases values with
    | nil => rfl
    | cons v rest => simp [pathOf, joined, Function.comp_def]
  rw [generate, segments, funext whole]
  simp only [map_eq_pure_bind, bind_assoc, pure_bind]
  rfl

def PathSegment.Crosses : PathSegment → Value → Prop
  | .literal _, _ => True
  | .param _ _, v => IsSegment v.toText ∧ v.depth ≤ Json.nestingLimit

/-- What is asked of a parameter: it can be generated, its literals come back from their texts, and
none of its unions reads a text by an alternative that refuses what it has read. -/
structure Passable (r : Resolver) (p : Pattern) : Prop where
  fillable : Fillable r.types p
  literals : ∀ v, Reaches r.types p (.exact v) → v.Ordinary
  unions : ∀ alternatives, Relation.ReflTransGen (Behind r) p (.anyOf alternatives) →
    ReadsTruly r alternatives

theorem isSegment_of_read {text : String} (read : PathPattern.read text = .ok path) :
    ∀ literal, .literal literal ∈ path.segments → IsSegment literal := by
  obtain ⟨segments, each, same⟩ := Except.bind_eq_ok.mp read
  cases same
  intro literal mem
  obtain ⟨segment, there, ok⟩ := mem_of_mapM_eq_ok each _ mem
  unfold PathSegment.read at ok
  split at ok
  · obtain ⟨p, -, ok⟩ := Except.bind_eq_ok.mp ok
    cases ok
  · cases ok
    exact isSegment_of_mem_pathSegments there

theorem draw_checked {segment : PathSegment} (guarded : Guarded r.types) (row : r.row = none)
    (passable : ∀ name p, segment = .param name p → Passable r p) :
    (segment.draw r).Gives fun v => segment.Crosses v →
      PathPattern.checkSegment r (segment, v.toText) = some .success := by
  cases segment with
  | literal text =>
    refine Gen.gives_pure.mpr fun _ => ?_
    simp [PathPattern.checkSegment, Value.toText]
  | param name p =>
    obtain ⟨fillable, literals, unions⟩ := passable name p rfl
    have accepted : (p.generate r).Gives (Accepts r p) :=
      generateWithin_accepted guarded row fillable
    have ordinary : (p.generate r).Gives Value.Ordinary := generateWithin_ordinary row literals
    refine Gen.Gives.under ((accepted.and ordinary).imp fun v drawn crosses => ?_)
    obtain ⟨u, parsed, fits⟩ := drawn.1.reparses_of_unions guarded unions
      (fun _ => crosses.1.some) (drawn.2.rereads crosses.2)
    have checked : p.check r u = some .success := fits
    simp [PathPattern.checkSegment, parsed, checked, Verdict.under]

theorem drawn_path_taken {text : String} (read : PathPattern.read text = .ok path)
    (guarded : Guarded r.types) (row : r.row = none)
    (passable : ∀ param ∈ path.params, Passable r param.2) :
    (path.draw r).Gives fun values => List.Forall₂ PathSegment.Crosses path.segments values →
      path.check r (pathOf values) = some .success := by
  have drawn := Gen.gives_mapM fun segment mem => draw_checked guarded row
    fun name p same => passable (name, p) (PathPattern.mem_params (same ▸ mem))
  refine drawn.imp fun values checked crosses => ?_
  obtain ⟨length, cross⟩ := List.forall₂_iff_zip.mp crosses
  have taken : List.Forall₂ (fun segment v => segment.Crosses v ∧
      PathPattern.checkSegment r (segment, v.toText) = some .success) path.segments values :=
    List.forall₂_iff_zip.mpr ⟨length, fun pair =>
      ⟨cross pair, (List.forall₂_iff_zip.mp checked).2 pair (cross pair)⟩⟩
  have segments : ∀ text ∈ values.map Value.toText, IsSegment text := by
    intro text mem
    obtain ⟨v, there, rfl⟩ := List.mem_map.mp mem
    obtain ⟨segment, own, crosses, ok⟩ := exists_of_forall₂_mem taken there
    cases segment with
    | param => exact crosses.1
    | literal literal =>
      -- A literal is drawn as it is, and comes from a path that was cut in the same way.
      have same : literal = v.toText := by
        by_contra other
        simp [PathPattern.checkSegment, other, Verdict.fail] at ok
      exact same ▸ isSegment_of_read read literal own
  -- Each text comes back at its own place, where it was found to be taken.
  have texts : pathSegments (pathOf values) = values.map Value.toText :=
    pathSegments_of_segments segments
  rw [PathPattern.check, texts, if_neg (by simp [length]), Verdict.every_eq_success]
  intro pair mem
  rw [List.zip_map_right] at mem
  obtain ⟨⟨segment, v⟩, there, rfl⟩ := List.mem_map.mp mem
  exact ((List.forall₂_iff_zip.mp taken).2 there).2

/-- A path is generated by drawing a value for each segment, and whatever is drawn, its pattern takes
it if each value drawn for a parameter crosses. -/
theorem generated_path_taken {text : String} (read : PathPattern.read text = .ok path)
    (guarded : Guarded r.types) (row : r.row = none)
    (passable : ∀ param ∈ path.params, Passable r param.2) :
    path.generate r = pathOf <$> path.draw r ∧
      (path.draw r).Gives fun values => List.Forall₂ PathSegment.Crosses path.segments values →
        path.check r (pathOf values) = some .success :=
  ⟨PathPattern.generate_eq, drawn_path_taken read guarded row passable⟩

def isSegmentText (text : String) : Bool :=
  text ≠ "" && text.toList.all fun c => c ≠ '/' && c ≠ '?'

theorem IsSegment.of_isSegmentText {text : String} (h : isSegmentText text) : IsSegment text := by
  simp only [isSegmentText, Bool.and_eq_true, decide_eq_true_eq, List.all_eq_true] at h
  exact .of_chars h.1 h.2

def Value.crosses (v : Value) : Bool :=
  isSegmentText v.toText && decide (v.depth ≤ Json.nestingLimit)

theorem Value.isSegment_of_crosses {v : Value} (h : v.crosses) :
    IsSegment v.toText ∧ v.depth ≤ Json.nestingLimit := by
  obtain ⟨segment, shallow⟩ := Bool.and_eq_true_iff.mp h
  exact ⟨.of_isSegmentText segment, of_decide_eq_true shallow⟩

def Pattern.isCrossing : Pattern → Bool
  | .string | .number | .boolean | .reference _ | .anyOf _ => true
  | .exact v => v.crosses
  | _ => false

theorem generateWithin_crosses {p : Pattern} {n : Nat} {entered : List String}
    (plain : ∀ q, Relation.ReflTransGen (Behind r) p q → q.isCrossing) :
    (p.generateWithin n r entered).Gives fun v =>
      IsSegment v.toText ∧ v.depth ≤ Json.nestingLimit := by
  have scalar : 1 ≤ Json.nestingLimit := by decide
  induction n generalizing p entered with
  | zero => trivial
  | succ n ih =>
    have next {q : Pattern} (behind : Behind r p q) {entered : List String} :
        (q.generateWithin n r entered).Gives fun v =>
          IsSegment v.toText ∧ v.depth ≤ Json.nestingLimit :=
      ih fun o chain => plain o (.head behind chain)
    have own := plain p .refl
    cases p with
    | string => exact fun letters => Gen.gives_value.mpr ⟨isSegment_word letters, scalar⟩
    | number =>
      refine fun _ => Gen.gives_value.mpr ⟨?_, scalar⟩
      rw [Value.toText_number]
      exact isSegment_whole _
    | boolean =>
      refine fun b => Gen.gives_value.mpr ⟨.of_isSegmentText ?_, scalar⟩
      cases b <;> decide +kernel
    | exact v => exact Gen.gives_value.mpr (Value.isSegment_of_crosses own)
    | reference name => exact generateWithin_reference_gives fun q found => next (.reference found)
    | anyOf alternatives => exact generateWithin_anyOf_gives fun q mem => next (.anyOf mem)
    | _ => cases own

theorem crossing_path_taken {text : String} (read : PathPattern.read text = .ok path)
    (guarded : Guarded r.types) (row : r.row = none)
    (passable : ∀ param ∈ path.params, Passable r param.2)
    (plain : ∀ param ∈ path.params, ∀ q, Relation.ReflTransGen (Behind r) param.2 q →
      q.isCrossing) :
    (path.generate r).Gives fun s => path.check r s = some .success := by
  have each : (path.draw r).Gives (List.Forall₂ PathSegment.Crosses path.segments) := by
    refine Gen.gives_mapM fun segment mem => ?_
    cases segment with
    | literal => exact Gen.gives_pure.mpr trivial
    | param name p =>
      exact Gen.Gives.under (generateWithin_crosses (plain (name, p) (PathPattern.mem_params mem)))
  rw [PathPattern.generate_eq]
  refine Gen.gives_map.mpr ((each.and (drawn_path_taken read guarded row passable)).imp ?_)
  exact fun values both => both.2 both.1

theorem readsTruly_of_nullable {p : Pattern}
    (nullable : ∀ alternatives, Reaches r.types p (.anyOf alternatives) →
      ∃ o, alternatives = [.null, o]) (alternatives : List Pattern)
    (chain : Relation.ReflTransGen (Behind r) p (.anyOf alternatives)) :
    ReadsTruly r alternatives := by
  obtain ⟨o, rfl⟩ := nullable alternatives ((Reaches.of_behind chain).resolve_left nofun)
  exact readsTruly_nullable

def Pattern.isNullableUnion : Pattern → Bool
  | .anyOf [.null, _] => true
  | .anyOf _ => false
  | _ => true

theorem Passable.of_all {p : Pattern} (all : (reachable r.types p).all fun q =>
    q.isFillable && q.isNullableUnion && q.isPlain) : Passable r p := by
  simp only [List.all_eq_true, Bool.and_eq_true] at all
  refine ⟨.of_all (List.all_eq_true.mpr fun q there => (all q there).1.1), fun v reach =>
    .of_plain (all _ reach.mem_reachable).2, readsTruly_of_nullable fun alternatives reach => ?_⟩
  have own := (all _ reach.mem_reachable).1.2
  unfold Pattern.isNullableUnion at own
  split at own
  · next o same =>
    cases same
    exact ⟨o, rfl⟩
  · cases own
  · next other => exact absurd rfl (other _)

def storesText : String :=
  "/stores/(name:string)/(id:number?)/(open:boolean...)"

theorem stores_taken : ∃ path, PathPattern.read storesText = .ok path ∧
    ∃ values, .ok values ∈ (path.draw .empty).results ∧
      List.Forall₂ PathSegment.Crosses path.segments values ∧
      path.check .empty (pathOf values) = some .success := by
  have fine : (match PathPattern.read storesText with
      | .ok path =>
          (path.params.all fun param => (reachable [] param.2).all fun q =>
            q.isFillable && q.isNullableUnion && q.isPlain) &&
          (path.draw .empty).results.any fun
            | .ok values => values.length = path.segments.length && values.all Value.crosses
            | .error _ => false
      | .error _ => false) = true := by decide +kernel
  split at fine
  · next path read =>
    obtain ⟨params, runs⟩ := Bool.and_eq_true_iff.mp fine
    obtain ⟨result, drawn, crosses⟩ := List.any_eq_true.mp runs
    cases result with
    | error => cases crosses
    | ok values =>
      simp only [Bool.and_eq_true, decide_eq_true_eq, List.all_eq_true] at crosses
      have cross : List.Forall₂ PathSegment.Crosses path.segments values := by
        refine List.forall₂_iff_zip.mpr ⟨crosses.1.symm, fun {segment v} mem => ?_⟩
        cases segment with
        | literal => trivial
        | param => exact Value.isSegment_of_crosses (crosses.2 v (List.of_mem_zip mem).2)
      have passable (param : String × Pattern) (mem : param ∈ path.params) :
          Passable .empty param.2 := .of_all (List.all_eq_true.mp params param mem)
      refine ⟨path, read, values, drawn, cross, ?_⟩
      exact (generated_path_taken read (.of_settles 0 rfl) rfl passable).2.of_results drawn cross
  · cases fine

theorem randomUrl_pieces (scheme : UrlScheme) :
    (randomUrl scheme).Gives fun s => (pathSegments ("/" ++ s)).length ≠ 1 := by
  refine Gen.gives_bind.mpr (Gen.gives_draw.mpr fun host => Gen.gives_value.mpr ?_)
  refine Gen.gives_bind.mpr (Gen.gives_draw.mpr fun path => Gen.gives_value.mpr ?_)
  refine Gen.gives_pure.mpr ?_
  have first := isSegment_lowerWord host
  have second := isSegment_lowerWord path
  generalize Text.asciiLower (capitalLetters host) = a at first ⊢
  generalize Text.asciiLower (capitalLetters path) = b at second ⊢
  -- The text that is empty stands between two slashes, and a scheme makes a segment of its own.
  have cut {s : String} (texts : List String) (same : "/" ++ s = joined texts)
      (free : ∀ text ∈ texts, '/' ∉ text.toList ∧ '?' ∉ text.toList)
      (more : (texts.filter fun text => text ≠ "").length ≠ 1) :
      (pathSegments ("/" ++ s)).length ≠ 1 := by
    rwa [same, pathSegments_joined free]
  cases scheme with
  | path =>
    refine cut ["", a, b] ?_ ?_ ?_
    · simp [joined, String.append_assoc]
    · simp [first.whole, first.path, second.whole, second.path]
    · simp [first.some, second.some]
  | http =>
    refine cut ["http:", "", a ++ ".com", b] ?_ ?_ ?_
    · apply String.toList_inj.mp
      simp [joined]
    · simp [first.whole, first.path, second.whole, second.path]
    · simp [first.some, second.some]
  | https | any =>
    refine cut ["https:", "", a ++ ".com", b] ?_ ?_ ?_
    · apply String.toList_inj.mp
      simp [joined]
    · simp [first.whole, first.path, second.whole, second.path]
    · simp [first.some, second.some]

/-- A URL is never one segment, so a path of one takes nothing that it generates. -/
theorem url_path_refused (name : String) (scheme : UrlScheme) :
    (PathPattern.generate r ⟨[.param name (.url scheme)]⟩).Gives fun s =>
      PathPattern.check r ⟨[.param name (.url scheme)]⟩ s ≠ some .success := by
  have drawn : ((Pattern.url scheme).generate r).Gives fun v =>
      (pathSegments (pathOf [v])).length ≠ 1 := by
    obtain ⟨n, bound⟩ : ∃ n, (Pattern.url scheme).generateBound r = n + 1 :=
      Nat.exists_eq_succ_of_ne_zero (by simp [Pattern.generateBound])
    rw [Pattern.generate, bound]
    refine Gen.gives_map.mpr ((randomUrl_pieces scheme).imp fun s more => ?_)
    simpa [pathOf, joined, Value.toText] using more
  have each : (PathPattern.draw r ⟨[.param name (.url scheme)]⟩).Gives
      (List.Forall₂ (fun _ v => (pathSegments (pathOf [v])).length ≠ 1)
        [PathSegment.param name (.url scheme)]) := by
    refine Gen.gives_mapM fun segment mem => ?_
    obtain rfl := List.mem_singleton.mp mem
    exact drawn.under
  rw [PathPattern.generate_eq]
  refine Gen.gives_map.mpr (each.imp ?_)
  rintro values (_ | ⟨more, _ | _⟩)
  rw [PathPattern.check, if_pos (by exact more)]
  intro success
  cases success

end Drawing

end ApiContract
