import Mathlib.Algebra.Order.BigOperators.Group.List
import Mathlib.Algebra.Order.Ring.Nat
import ApiContract.Proofs.Rows
import ApiContract.Proofs.Tails

set_option autoImplicit false

/-!
The generation of a value comes to an end, however types refer to each other. On each way down a
name is entered once, and between two names patterns only get smaller. A cell that is a token starts
anew, with no name entered, so it must not lead back to a field that it fills itself.
-/
namespace ApiContract

namespace Gen

variable {α β : Type} {gen : Gen α}

theorem Ends.bind {f : α → Gen β} (h : gen.Ends) (next : ∀ a, (f a).Ends) : (gen >>= f).Ends := by
  induction gen with
  | value a => exact next a
  | failure error => trivial
  | unending => exact h
  | draw d after ih => exact fun answer => ih answer (h answer)

theorem Ends.map {f : α → β} (h : gen.Ends) : (f <$> gen).Ends :=
  Ends.bind h fun _ => trivial

theorem Ends.orElse {handler : ContractError → Gen α} (h : gen.Ends)
    (handled : ∀ error, (handler error).Ends) : (gen.orElse handler).Ends := by
  induction gen with
  | value a => trivial
  | failure error => exact handled error
  | unending => exact h
  | draw d after ih => exact fun answer => ih answer (h answer)

theorem Ends.under {crumb : String} (h : gen.Ends) : (gen.under crumb).Ends :=
  h.orElse fun _ => trivial

theorem ends_ofContractual (result : Contractual α) : (ofContractual result).Ends := by
  cases result <;> trivial

theorem ends_ofAttempt {attempt : Attempt α}
    (h : (show Option (Contractual α) from attempt).isSome) : (ofAttempt attempt).Ends := by
  obtain ⟨result, rfl⟩ := Option.isSome_iff_exists.mp h
  exact ends_ofContractual result

end Gen

open Gen

section Choices

variable {generate : Pattern → Gen Value}

theorem anyAlternative_ends {alternatives : List Pattern} {last : ContractError}
    (h : ∀ p ∈ alternatives, (generate p).Ends) :
    (anyAlternative generate alternatives last).Ends :=
  anyAlternative_induction (fun _ => trivial) (fun _ _ each => each)
    fun p mem _ handled => (h p mem).orElse handled

theorem generateField_ends {field : String × Pattern} (h : (generate field.2).Ends) :
    (generateField generate field).Ends := by
  refine Ends.orElse h.map fun error => ?_
  split <;> trivial

theorem generateFields_ends {fill : String × Pattern → Gen (Option Value)}
    {fields : List (String × Pattern)} {done : Entries Value}
    (h : ∀ field ∈ fields, (fill field).Ends) : (generateFields fill fields done).Ends := by
  induction fields generalizing done with
  | nil => trivial
  | cons field rest ih =>
    refine (h field List.mem_cons_self).bind fun filling => ?_
    have later {done : Entries Value} : (generateFields fill rest done).Ends :=
      ih fun other mem => h other (List.mem_cons_of_mem field mem)
    cases filling <;> exact later

theorem generateElements_ends {elements : List Pattern} {i : Nat}
    (h : ∀ p ∈ elements, (generate (oneItem p)).Ends) :
    (generateElements generate i elements).Ends := by
  induction elements generalizing i with
  | nil => trivial
  | cons p rest ih =>
    have first : (generate (oneItem p)).Ends := h p List.mem_cons_self
    refine Ends.bind first.under fun v => ?_
    exact Ends.bind (ih fun q mem => h q (List.mem_cons_of_mem p mem)) fun _ => trivial

end Choices

section Tokens

theorem Pattern.nullable_nullable (p : Pattern) : p.nullable.nullable = p.nullable := by
  cases p with
  | anyOf alternatives =>
    cases null : alternatives.any isNull <;> simp [nullable, null, isNull]
  | _ => simp [nullable, isNull]

theorem Pattern.size_nullable_le (p : Pattern) : p.nullable.size ≤ p.size + 2 := by
  have beside : (Pattern.anyOf [.null, p]).size = p.size + 2 := by
    simp only [size, sizeAll]
    omega
  cases p with
  | null => exact Nat.le_add_right _ _
  | anyOf alternatives =>
    rw [nullable]
    split
    · exact Nat.le_add_right _ _
    · exact Nat.le_of_eq beside
  | _ => exact Nat.le_of_eq beside

theorem Pattern.names_nullable (p : Pattern) : p.nullable.names = p.names := by
  have beside : (Pattern.anyOf [.null, p]).names = p.names := by
    simp [names, namesAll]
  cases p with
  | null => rfl
  | anyOf alternatives =>
    rw [nullable]
    split
    · rfl
    · exact beside
  | _ => exact beside

variable {cs : List Char} {p : Pattern}

theorem named_small (h : Token.named cs = .ok p) : p.size ≤ cs.length ∧ p.names.length ≤ 1 := by
  have some_ : cs ≠ [] := by
    rintro rfl
    cases h
  have long := List.length_pos_iff.mpr some_
  have single : p.size = 1 ∧ p.names.length ≤ 1 := by
    unfold Token.named at h
    split at h
    on_goal 9 => split at h
    all_goals cases h
    all_goals exact ⟨rfl, by simp [Pattern.names]⟩
  omega

theorem length_add_cut {ending inner : List Char} (h : Token.cutEnd? ending cs = some inner) :
    inner.length + ending.length = cs.length := by
  unfold Token.cutEnd? at h
  split at h
  · next ends =>
    obtain rfl := Option.some.inj h
    have := (List.isSuffixOf_iff_suffix.mp ends).length_le
    rw [List.length_take]
    omega
  · cases h

theorem token_small (h : Token.read cs = .ok p) :
    p.size ≤ cs.length + 1 ∧ (p.nullable ≠ p → p.size ≤ cs.length) ∧ p.names.length ≤ 1 := by
  have trimmed (cs : List Char) := Token.length_trimChars_le cs
  fun_induction Token.read cs generalizing p with
  | case1 cs inner cut ih =>
    obtain ⟨q, read, rfl⟩ := Except.map_eq_ok.mp h
    obtain ⟨size, -, names⟩ := ih read
    have three := length_add_cut cut
    have whole := trimmed cs
    simp only [List.length_cons, List.length_nil] at three
    simp only [Pattern.size, Pattern.names]
    exact ⟨by omega, fun _ => by omega, names⟩
  | case2 cs _ inner cut ih =>
    obtain ⟨q, read, rfl⟩ := Except.map_eq_ok.mp h
    obtain ⟨size, plain, names⟩ := ih read
    have one := length_add_cut cut
    have whole := trimmed cs
    simp only [List.length_singleton] at one
    rw [Pattern.names_nullable]
    refine ⟨?_, fun more => absurd q.nullable_nullable more, names⟩
    by_cases same : q.nullable = q
    · rw [same]
      omega
    · have := q.size_nullable_le
      have := plain same
      omega
  | case3 cs _ _ _ type keyed ih =>
    obtain ⟨size, plain, names⟩ := ih h
    have shorter := Token.length_keyed? keyed
    have whole := trimmed cs
    exact ⟨by omega, fun more => by have := plain more; omega, names⟩
  | case4 cs =>
    obtain ⟨size, names⟩ := named_small h
    have whole := trimmed cs
    exact ⟨by omega, fun _ => by omega, names⟩

theorem tokenText_small {text : String} (token : Token.isTokenText text)
    (read : Pattern.read text = .ok p) :
    p.size ≤ text.length + 1 ∧ p.names.length ≤ text.length := by
  simp only [Token.isTokenText, Token.isToken, Token.opensAndCloses, Bool.and_eq_true,
    decide_eq_true_eq] at token
  have whole := Token.length_trimChars_le text.toList
  have inner := Token.length_trimChars_le (Text.trimChars text.toList)
  rw [← String.length_toList]
  rw [Pattern.read, Pattern.readWithin] at read
  split at read
  · next opened =>
    obtain ⟨size, -, names⟩ := token_small read
    have body : (Token.body (Text.trimChars text.toList)).length ≤ text.toList.length := by
      have cut := Token.length_trimChars_le
        (Text.trimChars (Text.trimChars text.toList)).tail.dropLast
      simp only [List.length_dropLast, List.length_tail] at cut
      unfold Token.body
      dsimp only
      split <;> omega
    omega
  · split at read
    · -- The text opens with a bracket, so it is not taken for a JSON text.
      next opened => simp [token.2.1] at opened
    · cases read
      simp only [Pattern.size, Pattern.names, List.length_nil]
      omega

end Tokens

section Cells

variable {r : Resolver} {p q o : Pattern}

def cellToken? (cell : String) : Option Pattern :=
  if Token.isTokenText cell then (Pattern.read cell).toOption else none

theorem cellToken?_eq_some {cell : String} :
    cellToken? cell = some p ↔ Token.isTokenText cell ∧ Pattern.read cell = .ok p := by
  unfold cellToken?
  split
  · next token => cases Pattern.read cell <;> simp [token, Except.toOption]
  · next literal => simp [literal]

def cellTokens (r : Resolver) : List Pattern :=
  (r.row.getD []).filterMap fun cell => cellToken? cell.2

def cellsLength (r : Resolver) : Nat :=
  ((r.row.getD []).map fun cell => cell.2.length).sum

theorem mem_row_of_cell? {name cell : String} (given : r.cell? name = some cell) :
    (name, cell) ∈ r.row.getD [] := by
  obtain ⟨row, same, found⟩ := Option.bind_eq_some_iff.mp given
  rw [same]
  exact Entries.mem_of_get? found

theorem mem_cellTokens {name cell : String} (given : r.cell? name = some cell)
    (token : Token.isTokenText cell) (read : Pattern.read cell = .ok p) : p ∈ cellTokens r :=
  List.mem_filterMap.mpr ⟨_, mem_row_of_cell? given, cellToken?_eq_some.mpr ⟨token, read⟩⟩

def drawable (r : Resolver) (p : Pattern) : List Pattern :=
  met r.types p ++ (cellTokens r).flatMap Pattern.subpatterns

theorem mem_met_of_draws (mem : q ∈ met r.types p) (draws : Draws r q o) :
    o ∈ met r.types p ∨ o ∈ cellTokens r := by
  cases draws with
  | behind behind => exact .inl (met_behind mem behind)
  | inner => exact .inl (met_part mem .inner)
  | @element _ _ element known =>
    cases element with
    | repeated => exact .inl (met_part mem (.tail known))
    | _ => exact .inl (met_part mem (.element known))
  | field known => exact .inl (met_part mem (.field known))
  | token _ given token read => exact .inr (mem_cellTokens given token read)

theorem mem_drawable_of_draws (mem : q ∈ drawable r p) (draws : Draws r q o) :
    o ∈ drawable r p := by
  have started (mem : o ∈ cellTokens r) : o ∈ drawable r p :=
    List.mem_append_right _ (List.mem_flatMap.mpr ⟨o, mem, Pattern.mem_subpatterns_self o⟩)
  rcases List.mem_append.mp mem with mem | mem
  · exact (mem_met_of_draws mem draws).elim (List.mem_append_left _) started
  · obtain ⟨t, known, inside⟩ := List.mem_flatMap.mp mem
    have own : q ∈ met r.types t := List.mem_cons_of_mem _ (List.mem_append_left _ inside)
    rcases mem_met_of_draws own draws with next | next
    · -- The types that a token leads to are among those of the whole generation.
      rcases List.mem_cons.mp next with rfl | next
      · exact List.mem_append_left _ List.mem_cons_self
      · rcases List.mem_append.mp next with within | typed
        · exact List.mem_append_right _ (List.mem_flatMap.mpr ⟨t, known, within⟩)
        · exact List.mem_append_left _ (List.mem_cons_of_mem _ (List.mem_append_right _ typed))
    · exact started next

theorem mem_drawable (drawn : Relation.ReflTransGen (Draws r) p q) : q ∈ drawable r p := by
  induction drawn with
  | refl => exact List.mem_append_left _ (met_self _ p)
  | tail _ draws ih => exact mem_drawable_of_draws ih draws

def drawWidth (r : Resolver) (p : Pattern) : Nat :=
  p.size + r.size + cellsLength r + 4

theorem size_cellToken_le (mem : p ∈ cellTokens r) : p.size ≤ cellsLength r + 1 := by
  obtain ⟨cell, known, token⟩ := List.mem_filterMap.mp mem
  obtain ⟨text, read⟩ := cellToken?_eq_some.mp token
  have small := (tokenText_small text read).1
  have among := List.le_sum_of_mem (List.mem_map_of_mem (f := fun cell => cell.2.length) known)
  exact Nat.le_trans small (Nat.succ_le_succ among)

theorem size_lt_drawWidth (mem : q ∈ drawable r p) : q.size < drawWidth r p := by
  unfold drawWidth Resolver.size
  rcases List.mem_append.mp mem with mem | mem
  · rcases List.mem_cons.mp mem with rfl | mem
    · simp only [Pattern.size]
      omega
    · rcases List.mem_append.mp mem with inside | inside
      · have := Pattern.size_le_of_subpattern p inside
        omega
      · obtain ⟨key, t, known, inside⟩ := Pattern.mem_subpatternsFields.mp inside
        have := Pattern.size_le_of_subpattern t inside
        have := Pattern.size_le_sizeFields known
        omega
  · obtain ⟨t, known, inside⟩ := List.mem_flatMap.mp mem
    have := Pattern.size_le_of_subpattern t inside
    have := size_cellToken_le known
    omega

def drawNames (r : Resolver) (p : Pattern) : List String :=
  reachableNames r.types p ++ (cellTokens r).flatMap Pattern.names

def drawRoom (r : Resolver) (p : Pattern) : Nat :=
  p.names.length + (Pattern.namesFields r.types).length + cellsLength r

theorem mem_drawNames {name : String} (mem : .reference name ∈ drawable r p) :
    name ∈ drawNames r p := by
  rcases List.mem_append.mp mem with mem | mem
  · rcases List.mem_cons.mp mem with same | mem
    · cases same
    · exact List.mem_append_left _ (mem_reachableNames mem rfl)
  · obtain ⟨t, known, inside⟩ := List.mem_flatMap.mp mem
    refine List.mem_append_right _ (List.mem_flatMap.mpr ⟨t, known, ?_⟩)
    exact Pattern.mem_names_of_subpattern t inside (by simp [Pattern.names])

theorem length_drawNames_le : (drawNames r p).length ≤ drawRoom r p := by
  have tokens (row : Row) : ((row.filterMap fun cell => cellToken? cell.2).flatMap
      Pattern.names).length ≤ (row.map fun cell => cell.2.length).sum := by
    induction row with
    | nil => exact Nat.le_refl 0
    | cons cell rest ih =>
      rw [List.map_cons, List.sum_cons, List.filterMap_cons]
      cases token : cellToken? cell.2 with
      | none => exact Nat.le_add_left_of_le ih
      | some t =>
        obtain ⟨text, read⟩ := cellToken?_eq_some.mp token
        rw [List.flatMap_cons, List.length_append]
        exact Nat.add_le_add (tokenText_small text read).2 ih
  have own := tokens (r.row.getD [])
  simp only [drawNames, drawRoom, reachableNames, cellTokens, cellsLength, List.length_append] at own ⊢
  omega

end Cells

section Runs

variable {r : Resolver} {root p q : Pattern} {used entered : List String} {fuel : Nat}

def MeetsField (r : Resolver) (p : Pattern) (field : String × Pattern) : Prop :=
  ∃ fields traits, Relation.ReflTransGen (Draws r) p (.object fields traits) ∧ field ∈ fields

/-- No cell leads back to itself: a token meets no field that it fills, and the names and unions
that a text is read through come to an end. -/
structure RowEnds (r : Resolver) (p : Pattern) : Prop where
  tokens : ∀ field cell t, MeetsField r p field → r.cell? (bareName field.1) = some cell →
    cellToken? cell = some t → ∀ other, MeetsField r t other → bareName other.1 ≠ bareName field.1
  texts : ∀ field cell, MeetsField r p field → r.cell? (bareName field.1) = some cell →
    Token.isTokenText cell = false → ∃ n, settlesWithin r.types n field.2

theorem RowEnds.of_rowless (row : r.row = none) : RowEnds r p where
  tokens field cell t _ given := by
    rw [Resolver.cell?, row] at given
    cases given
  texts field cell _ given := by
    rw [Resolver.cell?, row] at given
    cases given

/-- Where a generation is: behind the cells `used`, none of which can be met again, and behind the
names `entered` since the last of them. -/
structure Drawing (r : Resolver) (root : Pattern) (used entered : List String) (q : Pattern) :
    Prop where
  drawn : Relation.ReflTransGen (Draws r) root q
  fresh : used.Nodup
  given : used ⊆ Entries.keys (r.row.getD [])
  started : ∀ name ∈ used, ∃ t, (∀ field, MeetsField r t field → bareName field.1 ≠ name) ∧
    Relation.ReflTransGen (Draws r) t q
  distinct : entered.Nodup
  known : entered ⊆ drawNames r root

namespace Drawing

theorem start (r : Resolver) (root : Pattern) : Drawing r root [] [] root where
  drawn := .refl
  fresh := List.nodup_nil
  given := List.nil_subset _
  started := nofun
  distinct := List.nodup_nil
  known := List.nil_subset _

theorem draw {o : Pattern} (state : Drawing r root used entered q) (draws : Draws r q o) :
    Drawing r root used entered o :=
  { state with
    drawn := state.drawn.tail draws
    started := fun name mem => by
      obtain ⟨t, unmet, leads⟩ := state.started name mem
      exact ⟨t, unmet, leads.tail draws⟩ }

theorem enter {name : String} (state : Drawing r root used entered (.reference name))
    (new : name ∉ entered) : Drawing r root used (name :: entered) (.reference name) :=
  { state with
    distinct := List.nodup_cons.mpr ⟨new, state.distinct⟩
    known := List.cons_subset.mpr ⟨mem_drawNames (mem_drawable state.drawn), state.known⟩ }

theorem restart {fields : List (String × Pattern)} {traits : ObjectTraits}
    {field : String × Pattern} {cell : String} {t : Pattern} (rows : RowEnds r root)
    (state : Drawing r root used entered (.object fields traits)) (mem : field ∈ fields)
    (given : r.cell? (bareName field.1) = some cell) (token : cellToken? cell = some t) :
    Drawing r root (bareName field.1 :: used) [] t := by
  obtain ⟨text, read⟩ := cellToken?_eq_some.mp token
  have draws : Draws r (.object fields traits) t := .token mem given text read
  refine ⟨state.drawn.tail draws, List.nodup_cons.mpr ⟨fun again => ?_, state.fresh⟩,
    List.cons_subset.mpr ⟨List.mem_map_of_mem (mem_row_of_cell? given), state.given⟩, ?_,
    List.nodup_nil, List.nil_subset _⟩
  · obtain ⟨other, unmet, leads⟩ := state.started _ again
    exact unmet field ⟨fields, traits, leads, mem⟩ rfl
  · refine List.forall_mem_cons.mpr ⟨⟨t, ?_, .refl⟩, fun name known => ?_⟩
    · exact rows.tokens field cell t ⟨fields, traits, state.drawn, mem⟩ given token
    · obtain ⟨other, unmet, leads⟩ := state.started name known
      exact ⟨other, unmet, leads.tail draws⟩

theorem length_entered_le (state : Drawing r root used entered q) :
    entered.length ≤ drawRoom r root :=
  Nat.le_trans (state.distinct.subperm state.known).length_le length_drawNames_le

theorem length_used_le (state : Drawing r root used entered q) :
    used.length ≤ (r.row.getD []).length := by
  have names := (state.fresh.subperm state.given).length_le
  rwa [Entries.keys, List.length_map] at names

end Drawing

def drawCost (r : Resolver) (root : Pattern) (used entered : List String) (q : Pattern) : Nat :=
  -- The cells left, then the names left behind the last cell, then the size of the pattern.
  (((r.row.getD []).length - used.length) * (drawRoom r root + 2)
      + (drawRoom r root + 1 - entered.length)) * drawWidth r root + q.size

theorem drawCost_smaller {o : Pattern} (smaller : o.size < q.size)
    (cheap : drawCost r root used entered q ≤ fuel + 1) : drawCost r root used entered o ≤ fuel := by
  unfold drawCost at cheap ⊢
  omega

theorem drawCost_enter {name : String} (state : Drawing r root used (name :: entered) q)
    (cheap : drawCost r root used entered p ≤ fuel + 1) :
    drawCost r root used (name :: entered) q ≤ fuel := by
  have narrow := size_lt_drawWidth (mem_drawable state.drawn)
  have room := state.length_entered_le
  have fewer : drawRoom r root + 1 - entered.length =
      (drawRoom r root + 1 - (name :: entered).length) + 1 := by
    simp only [List.length_cons] at room ⊢
    omega
  unfold drawCost at cheap ⊢
  rw [fewer, ← Nat.add_assoc, Nat.add_one_mul] at cheap
  have := p.size_pos
  omega

theorem drawCost_restart {name : String} (state : Drawing r root used entered p)
    (next : Drawing r root (name :: used) [] q)
    (cheap : drawCost r root used entered p ≤ fuel + 1) :
    drawCost r root (name :: used) [] q ≤ fuel := by
  have narrow := size_lt_drawWidth (mem_drawable next.drawn)
  have room := state.length_entered_le
  have cells := next.length_used_le
  have fewer : (r.row.getD []).length - used.length =
      ((r.row.getD []).length - (name :: used).length) + 1 := by
    simp only [List.length_cons] at cells ⊢
    omega
  obtain ⟨left, some_⟩ : ∃ left, drawRoom r root + 1 - entered.length = left + 1 :=
    Nat.exists_eq_add_of_le' (by omega)
  unfold drawCost at cheap ⊢
  rw [fewer, some_, Nat.add_one_mul _ (drawRoom r root + 2)] at cheap
  generalize ((r.row.getD []).length - (name :: used).length) * (drawRoom r root + 2) = rows
    at cheap ⊢
  have wider := Nat.mul_le_mul_right (drawWidth r root)
    (show rows + (drawRoom r root + 1) + 1 ≤ rows + (drawRoom r root + 2) + (left + 1) by omega)
  rw [Nat.add_one_mul] at wider
  have := p.size_pos
  simp only [List.length_nil, Nat.sub_zero]
  omega

theorem generateBound_eq : Pattern.generateBound r p =
    ((r.row.getD []).length + 2) * (drawRoom r p + 2) * drawWidth r p := by
  have cells (row : Row) (total : Nat) : row.foldl (fun total cell => total + cell.2.length) total =
      total + (row.map fun cell => cell.2.length).sum := by
    induction row generalizing total with
    | nil => rfl
    | cons cell rest ih => rw [List.foldl_cons, ih, List.map_cons, List.sum_cons, Nat.add_assoc]
  simp only [Pattern.generateBound, cells, Nat.zero_add]
  rfl

theorem drawCost_le_bound : drawCost r p [] [] p ≤ Pattern.generateBound r p := by
  rw [generateBound_eq]
  unfold drawCost
  have narrow : p.size ≤ drawWidth r p := by
    unfold drawWidth
    omega
  generalize drawWidth r p = width at narrow ⊢
  calc ((r.row.getD []).length * (drawRoom r p + 2) + (drawRoom r p + 1)) * width + p.size
    _ ≤ ((r.row.getD []).length * (drawRoom r p + 2) + (drawRoom r p + 1)) * width + width := by
      omega
    _ = ((r.row.getD []).length + 1) * (drawRoom r p + 2) * width := by
      rw [← Nat.add_one_mul, Nat.add_one_mul _ (drawRoom r p + 2)]
      rfl
    _ ≤ ((r.row.getD []).length + 2) * (drawRoom r p + 2) * width :=
      Nat.mul_le_mul_right _ (Nat.mul_le_mul_right _ (by omega))

theorem generateWithin_ends (rows : RowEnds r root) (state : Drawing r root used entered p)
    (cheap : drawCost r root used entered p ≤ fuel) : (p.generateWithin fuel r entered).Ends := by
  induction fuel generalizing used entered p with
  | zero =>
    have := p.size_pos
    unfold drawCost at cheap
    omega
  | succ fuel ih =>
    have part {q : Pattern} (draws : Draws r p q) (smaller : q.size < p.size) :
        (q.generateWithin fuel r entered).Ends :=
      ih (state.draw draws) (drawCost_smaller smaller cheap)
    cases p with
    | string | number | boolean => exact fun _ => trivial
    | null | exact => trivial
    | url scheme => exact Ends.map fun _ => fun _ => trivial
    | repeated inner => exact Ends.bind (part .inner (Part.size_lt .inner)) fun _ => trivial
    | reference name =>
      dsimp only [Pattern.generateWithin]
      split
      · trivial
      · next new =>
        cases found : r.resolve (.reference name) with
        | error => trivial
        | ok q =>
          -- What is named may be larger, but there is one name less to enter.
          have next := (state.enter new).draw (.behind (.reference found))
          exact ih next (drawCost_enter next cheap)
    | anyOf alternatives =>
      dsimp only [Pattern.generateWithin]
      split
      · trivial
      · refine anyAlternative_ends fun q mem => part (.behind (.anyOf mem)) ?_
        have := Pattern.size_le_sizeAll mem
        simp only [Pattern.size]
        omega
    | object fields traits =>
      rw [Pattern.generateWithin]
      refine Ends.map (generateFields_ends fun field mem => ?_)
      cases given : r.cell? (bareName field.1) with
      | none => exact generateField_ends (part (.field mem given) (Part.size_lt (.field mem)))
      | some cell =>
        refine Ends.map (Ends.under ?_)
        by_cases token : Token.isTokenText cell
        · rw [if_pos token]
          cases read : Pattern.read cell with
          | error => trivial
          | ok t =>
            -- All names can be entered again, but the cell cannot be met again.
            have next := state.restart rows mem given (cellToken?_eq_some.mpr ⟨token, read⟩)
            exact ih next (drawCost_restart state next cheap)
        · rw [if_neg token]
          obtain ⟨n, settles⟩ := rows.texts field cell ⟨fields, traits, state.drawn, mem⟩ given
            (by simpa using token)
          exact ends_ofAttempt (Pattern.parse_isSome settles)
    | array elements knownAs =>
      refine Ends.map (generateElements_ends fun q mem => ?_)
      refine part (.element mem) ?_
      cases q with
      | repeated => exact Part.size_lt (.tail mem)
      | _ => exact Part.size_lt (.element mem)

theorem generation_ends (rows : ∀ row, r.row = some row → RowEnds r p) : (p.generate r).Ends := by
  have own : RowEnds r p := by
    cases given : r.row with
    | none => exact .of_rowless given
    | some row => exact rows row given
  exact generateWithin_ends own (.start r p) drawCost_le_bound

def Pattern.isFreeOfTokens (r : Resolver) : Pattern → Bool
  | .object fields _ => fields.all fun field =>
      ((r.cell? (bareName field.1)).bind cellToken?).isNone
  | _ => true

def isEndingRow (n : Nat) (r : Resolver) : Bool :=
  (r.types.all fun type => settlesWithin r.types n type.2)
    && (Pattern.subpatternsFields r.types ++ (cellTokens r).flatMap Pattern.subpatterns).all
      (Pattern.isFreeOfTokens r)

theorem RowEnds.of_isEndingRow {n : Nat} (h : isEndingRow n r) : RowEnds r p := by
  obtain ⟨settles, free⟩ := Bool.and_eq_true_iff.mp h
  refine ⟨fun field cell t _ given token other meets same => ?_, fun field _ _ _ _ =>
    ⟨_, (Guarded.of_settles n settles).settles field.2⟩⟩
  obtain ⟨text, read⟩ := cellToken?_eq_some.mp token
  obtain ⟨fields, traits, leads, mem⟩ := meets
  have there : Pattern.object fields traits ∈
      Pattern.subpatternsFields r.types ++ (cellTokens r).flatMap Pattern.subpatterns := by
    rcases List.mem_append.mp (mem_drawable leads) with met | inside
    · rcases List.mem_cons.mp met with null | reached
      · cases null
      · refine (List.mem_append.mp reached).elim (fun inside => ?_) (List.mem_append_left _)
        exact List.mem_append_right _
          (List.mem_flatMap.mpr ⟨t, mem_cellTokens given text read, inside⟩)
    · exact List.mem_append_right _ inside
  have own := List.all_eq_true.mp (List.all_eq_true.mp free _ there) other mem
  simp [same, given, token] at own

def ownedTree : Pattern :=
  .object [("owner", .string), ("kind", .number), ("branches?", .reference "Branches")]
    ⟨.reject, .json, none⟩

def ownedGrove : Resolver :=
  grove.withRow [("owner", "(Tree?)"), ("kind", "7")]

theorem ownedTree_ends : (∀ row, ownedGrove.row = some row → RowEnds ownedGrove ownedTree) ∧
    (ownedTree.generate ownedGrove).Ends := by
  have rows : ∀ row, ownedGrove.row = some row → RowEnds ownedGrove ownedTree :=
    fun _ _ => .of_isEndingRow (n := 3) (by decide +kernel)
  exact ⟨rows, generation_ends rows⟩

def tangledGrove : Resolver :=
  grove.withRow [("kind", "(Tree)")]

theorem tangledGrove_endless : ¬ (Pattern.generate tangledGrove (.reference "Tree")).Ends := by
  intro ends
  have endless : (match Pattern.generate tangledGrove (.reference "Tree") with
      | .unending => true
      | _ => false) = true := by decide +kernel
  split at endless
  · next same =>
    rw [same] at ends
    exact ends
  · cases endless

end Runs

end ApiContract
