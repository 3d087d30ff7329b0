import ApiContract.Proofs.Equality
import ApiContract.Proofs.Shapes

set_option autoImplicit false

namespace ApiContract

structure Value.Crisp (v : Value) : Prop where
  keyed : v.Keyed
  whole : v.integral

theorem Value.Crisp.part {v u : Value} (h : v.Crisp) (part : Part v u) : u.Crisp where
  keyed := h.keyed.part part
  whole := part.integral h.whole

theorem Value.Crisp.of_isData {v : Value} (h : v.isData ∧ v.integral) : v.Crisp where
  keyed := keyed_of_isData h.1
  whole := h.2

theorem Value.Crisp.null : Value.null.Crisp :=
  .of_isData ⟨rfl, rfl⟩

structure Crisp (types : Entries Pattern) (p : Pattern) : Prop where
  literals : ∀ v, Reaches types p (.exact v) → v.Crisp
  keys : ∀ fields traits, Reaches types p (.object fields traits) → Entries.Distinct fields

namespace Crisp

variable {types : Entries Pattern} {p q : Pattern}

theorem of_reaches (h : Crisp types p) (reach : Reaches types p q) : Crisp types q where
  literals v more := h.literals v (reach.trans more)
  keys fields traits more := h.keys fields traits (reach.trans more)

theorem null : Crisp types .null where
  literals _ reach := nomatch reach.eq_null
  keys _ _ reach := nomatch reach.eq_null

theorem behind {r : Resolver} (h : Crisp r.types p) (behind : Behind r p q) : Crisp r.types q := by
  rcases behind.unfolds with rfl | chain
  · exact null
  · exact h.of_reaches (.of_unfoldings chain.to_reflTransGen)

end Crisp

section Lists

variable {α β : Type} {R : α → β → Prop} {S : β → α → Prop} {l : List α} {m : List β}

theorem forall₂_flip_of_mem (h : List.Forall₂ R l m) (turn : ∀ a ∈ l, ∀ b, R a b → S b a) :
    List.Forall₂ S m l := by
  induction h with
  | nil => exact .nil
  | cons related _ ih =>
    obtain ⟨first, rest⟩ := List.forall_mem_cons.mp turn
    exact .cons (first _ related) (ih rest)

end Lists

namespace Pattern

variable {types : Entries Pattern}

theorem same_object {a b : List (String × Pattern)} {s t : ObjectTraits} :
    same (.object a s) (.object b t) ↔ a.length = b.length ∧
      (∀ key p, (key, p) ∈ a → ∃ q, Entries.get? b key = some q ∧ p.same q) ∧
      s.unexpected = t.unexpected := by
  simp [same, sameFields_iff, and_assoc]

theorem same_self (p : Pattern) (crisp : Crisp types p) : p.same p := by
  cases p with
  | string | number | boolean | null => rfl
  | url | reference => exact decide_eq_true rfl
  | exact v => exact Value.same_of_keyed v (crisp.literals v (Reaches.refl _)).keyed
  | repeated inner =>
    have part : Part (.repeated inner) inner := .inner
    have := part.size_lt
    exact same_self inner (crisp.of_reaches part.reaches)
  | anyOf alternatives =>
    refine sameAll_iff.mpr (List.forall₂_same.mpr fun q mem => ?_)
    have : q.size < (Pattern.anyOf alternatives).size := Nat.lt_succ_of_le (size_le_sizeAll mem)
    exact same_self q (crisp.of_reaches (Unfolds.reaches (.anyOf mem)))
  | object fields traits =>
    refine same_object.mpr ⟨rfl, fun key q mem => ?_, rfl⟩
    have part : Part (.object fields traits) q := .field mem
    have := part.size_lt
    exact ⟨q, Entries.get?_of_mem (crisp.keys _ _ (Reaches.refl _)) mem,
      same_self q (crisp.of_reaches part.reaches)⟩
  | array elements knownAs =>
    refine sameAll_iff.mpr (List.forall₂_same.mpr fun q mem => ?_)
    have part : Part (.array elements knownAs) q := .element mem
    have := part.size_lt
    exact same_self q (crisp.of_reaches part.reaches)
  termination_by p.size

def KeyedHere : Pattern → Prop
  | .exact v => v.Keyed
  | .object fields _ => Entries.Distinct fields
  | _ => True

def Keyed (p : Pattern) : Prop :=
  ∀ q ∈ p.subpatterns, q.KeyedHere

namespace Keyed

theorem inside {p q : Pattern} (h : p.Keyed)
    (step : (∃ alternatives, p = .anyOf alternatives ∧ q ∈ alternatives) ∨ Part p q) : q.Keyed :=
  fun o more => h o (mem_subpatterns_inside step more)

theorem same_symm (p q : Pattern) (keyed : p.Keyed) (h : p.same q) : q.same p := by
  have own := keyed p (mem_subpatterns_self p)
  cases p with
  | string | number | boolean | null =>
    cases q <;> first | rfl | cases h
  | url | reference =>
    cases q <;> simp only [same, decide_eq_true_eq, Bool.false_eq_true] at h ⊢
    exact h.symm
  | exact v =>
    cases q <;> simp only [same, Bool.false_eq_true] at h
    exact Value.same_symm v _ own h
  | repeated inner =>
    cases q <;> simp only [same, Bool.false_eq_true] at h
    have part : Part (.repeated inner) inner := .inner
    have := part.size_lt
    exact same_symm inner _ (keyed.inside (.inr part)) h
  | anyOf alternatives =>
    cases q <;> simp only [same, Bool.false_eq_true] at h
    refine sameAll_iff.mpr (forall₂_flip_of_mem (sameAll_iff.mp h) fun o mem o' step => ?_)
    have : o.size < (Pattern.anyOf alternatives).size := Nat.lt_succ_of_le (size_le_sizeAll mem)
    exact same_symm o o' (keyed.inside (.inl ⟨_, rfl, mem⟩)) step
  | object fields traits =>
    cases q <;> try cases h
    next others traits' =>
      obtain ⟨length, matched, unexpected⟩ := same_object.mp h
      have distinct : Entries.Distinct fields := own
      have distinct' : Entries.Distinct others :=
        (Entries.keys_perm_of_matched distinct length matched).nodup_iff.mp distinct
      refine same_object.mpr ⟨length.symm, fun key o' mem => ?_, unexpected.symm⟩
      obtain ⟨o, found, step⟩ :=
        Entries.exists_of_matched distinct length matched (Entries.get?_of_mem distinct' mem)
      have part : Part (.object fields traits) o := .field (Entries.mem_of_get? found)
      have := part.size_lt
      exact ⟨o, found, same_symm o o' (keyed.inside (.inr part)) step⟩
  | array elements knownAs =>
    cases q <;> simp only [same, Bool.false_eq_true] at h
    refine sameAll_iff.mpr (forall₂_flip_of_mem (sameAll_iff.mp h) fun o mem o' step => ?_)
    have part : Part (.array elements knownAs) o := .element mem
    have := part.size_lt
    exact same_symm o o' (keyed.inside (.inr part)) step
  termination_by p.size

end Keyed

theorem keyed_of_crisp {p : Pattern} (crisp : Crisp types p) : p.Keyed := by
  intro q inside
  have reach : Reaches types p q := .of_subpattern p inside
  cases q with
  | exact v => exact (crisp.literals v reach).keyed
  | object fields traits => exact crisp.keys fields traits reach
  | _ => trivial

theorem same_symm (p q : Pattern) (crisp : Crisp types p) (h : p.same q) : q.same p :=
  (keyed_of_crisp crisp).same_symm p q h

end Pattern

theorem field?_isSome_of_matched {R : Pattern → Pattern → Prop} {a b : List (String × Pattern)}
    {name : String} (matched : ∀ key p, (key, p) ∈ a → ∃ q, Entries.get? b key = some q ∧ R p q)
    (h : (field? a name).isSome) : (field? b name).isSome := by
  have carried (key : String) (there : Entries.contains a key) : Entries.contains b key := by
    obtain ⟨p, found⟩ := Option.isSome_iff_exists.mp there
    obtain ⟨q, found', -⟩ := matched key p (Entries.mem_of_get? found)
    exact Option.isSome_iff_exists.mpr ⟨q, found'⟩
  rw [isSome_field?, Bool.or_eq_true] at h ⊢
  exact h.imp (carried name) (carried _)

theorem Pattern.isRepeated_of_same {p q : Pattern} (h : p.same q) :
    q.isRepeated = p.isRepeated := by
  cases p <;> cases q <;> first | rfl | cases h

theorem members_of_same {a b : List Pattern} (h : List.Forall₂ (fun q p => p.same q) b a) :
    List.Forall₂ (fun q p => p.same q) (Members.ofElements b).fixed (Members.ofElements a).fixed ∧
      Option.Rel (fun q p => p.same q) (Members.ofElements b).tail (Members.ofElements a).tail := by
  rcases ofElements_cases b with ⟨init, inner, rfl⟩ | fixed
  · obtain ⟨more, last, before, same, rfl⟩ := forall₂_concat.mp h
    cases last <;> simp only [Pattern.same, Bool.false_eq_true] at same
    rw [ofElements_repeated, ofElements_repeated]
    exact ⟨before, .some same⟩
  · have fixed' : ∀ last, a.getLast? = some last → last.isRepeated = false := by
      intro last found
      obtain ⟨init, rfl⟩ := List.getLast?_eq_some_iff.mp found
      obtain ⟨more, other, -, same, rfl⟩ := forall₂_concat.mp h.flip
      rw [← Pattern.isRepeated_of_same same]
      exact fixed other (by simp)
    rw [ofElements_fixed fixed, ofElements_fixed fixed']
    exact ⟨h, .none⟩

section Fitting

variable {f g : Pattern → Value → Prop}

theorem FitsObject.of_same {a b : List (String × Pattern)} {s t : ObjectTraits}
    {these those : List (String × Value)} (fits : FitsObject f a s.unexpected these)
    (distinct : Entries.Distinct a) (distinct' : Entries.Distinct b)
    (keyed : Entries.Distinct these) (patterns : (Pattern.object a s).same (.object b t))
    (values : Value.same (.object these) (.object those))
    (h : ∀ {key : String} {o o' : Pattern}, (key, o) ∈ a → (key, o') ∈ b → o.same o' →
      ∀ u z : Value, u = .null ∨ Value.Part (.object these) u → u.same z → f o u → g o' z) :
    FitsObject g b t.unexpected those := by
  obtain ⟨length, matched, unexpected⟩ := Pattern.same_object.mp patterns
  have body : FitsObject g b .ignore those := by
    refine fitsObject_of_same keyed values fits fun key o' mem => ?_
    obtain ⟨o, found, same⟩ :=
      Entries.exists_of_matched distinct length matched (Entries.get?_of_mem distinct' mem)
    exact ⟨o, Entries.mem_of_get? found, h (Entries.mem_of_get? found) mem same⟩
  refine ⟨body.required, fun reject key there => ?_, body.members⟩
  obtain ⟨count, found⟩ := Value.same_object.mp values
  have keys : (Entries.keys these).Perm (Entries.keys those) :=
    Entries.keys_perm_of_matched keyed count found
  have declared := fits.declared (unexpected.trans reject) key (keys.mem_iff.mpr there)
  exact field?_isSome_of_matched matched declared

theorem FitsMembers.of_same {a b : List Pattern} {knownAs knownAs' : Option String}
    {items others : List Value} (fits : FitsMembers f (Members.ofElements a) items)
    (patterns : List.Forall₂ (fun q p => p.same q) b a)
    (values : Value.same (.array items) (.array others))
    (h : ∀ {o o' : Pattern}, Part (.array a knownAs) o → Part (.array b knownAs') o' → o.same o' →
      ∀ u z : Value, Value.Part (.array items) u → u.same z → f o u → g o' z) :
    FitsMembers g (Members.ofElements b) others := by
  obtain ⟨fixed, tail⟩ := members_of_same patterns
  refine fitsMembers_of_same values fits fixed.length_eq fun o i place => ?_
  obtain ⟨o', place', same⟩ := Members.at?_of_related fixed tail place
  exact ⟨o', place', fun u z mem =>
    h (Members.at?_part place) (Members.at?_part place') same u z (.item mem)⟩

end Fitting

section Alike

variable {r : Resolver} {p q : Pattern} {v w : Value}

theorem accepts_of_same_outright (outright : p.isOutright) (accepted : Accepts r p v)
    (first : p.same q) (second : v.same w) (crisp : Crisp r.types p) (crisp' : Crisp r.types q)
    (data : v.Crisp)
    (lighter : ∀ {s : Resolver} {o o' : Pattern} {u z : Value}, s.types = r.types →
      u.weight < v.weight → Accepts s o u → o.same o' → u.same z → Crisp r.types o →
      Crisp r.types o' → u.Crisp → Accepts s o' z) : Accepts r q w := by
  cases p with
  | reference | anyOf => cases outright
  | string =>
    obtain ⟨s, rfl⟩ := accepts_string.mp accepted
    cases q <;> try cases first
    cases w <;> try cases second
    exact accepts_string.mpr ⟨_, rfl⟩
  | number =>
    obtain ⟨n, rfl⟩ := accepts_number.mp accepted
    cases q <;> try cases first
    cases w <;> try cases second
    all_goals exact accepts_number.mpr ⟨_, rfl⟩
  | boolean =>
    obtain ⟨b, rfl⟩ := accepts_boolean.mp accepted
    cases q <;> try cases first
    cases w <;> try cases second
    exact accepts_boolean.mpr ⟨_, rfl⟩
  | null =>
    cases q <;> try cases first
    apply accepts_null.mpr
    rcases accepts_null.mp accepted with rfl | rfl
    · cases w <;> simp [Value.same] at second ⊢
    · cases w <;> simp [Value.same] at second ⊢
      exact second
  | url scheme =>
    obtain ⟨s, rfl, ok⟩ := accepts_url.mp accepted
    cases q <;> simp only [Pattern.same, Bool.false_eq_true, decide_eq_true_eq] at first
    cases w <;> simp only [Value.same, Bool.false_eq_true, decide_eq_true_eq] at second
    subst first second
    exact accepts_url.mpr ⟨_, rfl, ok⟩
  | exact expected =>
    cases q <;> simp only [Pattern.same, Bool.false_eq_true] at first
    next other =>
      -- From literal to literal to value to value: whole numbers carry sameness all the way.
      have own : expected.Crisp := crisp.literals _ (Reaches.refl _)
      have own' : other.Crisp := crisp'.literals _ (Reaches.refl _)
      have back : other.same expected := Value.same_symm expected other own.keyed first
      have across : other.same v :=
        Value.same_trans other expected v back (accepts_exact.mp accepted) own'.whole own.whole
      exact accepts_exact.mpr (Value.same_trans other v w across second own'.whole data.whole)
  | repeated inner =>
    obtain ⟨items, rfl, each⟩ := accepts_repeated.mp accepted
    cases q <;> simp only [Pattern.same, Bool.false_eq_true] at first
    cases w <;> simp only [Value.same, Bool.false_eq_true] at second
    next inner' others =>
      refine accepts_repeated.mpr ⟨others, rfl, fun z mem => ?_⟩
      obtain ⟨i, there⟩ := List.mem_iff_getElem?.mp mem
      obtain ⟨u, before, step⟩ := Value.getElem?_of_same second there
      have item : u ∈ items := List.mem_of_getElem? before
      exact lighter rfl (Value.Part.weight_lt (.item item)) (each u item) first step
        (crisp.of_reaches (Part.reaches .inner)) (crisp'.of_reaches (Part.reaches .inner))
        (data.part (.item item))
  | object fields traits =>
    obtain ⟨members, rfl, fits⟩ := accepts_fields.mp accepted
    cases q <;> try cases first
    cases w <;> try cases second
    next fields' traits' others =>
      refine accepts_fields.mpr ⟨others, rfl, fits.of_same (crisp.keys _ _ (Reaches.refl _))
        (crisp'.keys _ _ (Reaches.refl _)) (data.keyed _ .refl) first second ?_⟩
      intro key o o' mem mem' step u z there same ok
      have below := crisp.of_reaches (Part.field mem).reaches
      have below' := crisp'.of_reaches (Part.field mem').reaches
      rcases there with rfl | part
      · exact lighter (u := .null) rfl (Value.weight_object_pos members) ok step same below below'
          .null
      · exact lighter rfl part.weight_lt ok step same below below' (data.part part)
  | array elements knownAs =>
    obtain ⟨items, rfl, fits⟩ := accepts_elements.mp accepted
    cases q <;> simp only [Pattern.same, Bool.false_eq_true] at first
    cases w <;> simp only [Value.same, Bool.false_eq_true] at second
    next elements' knownAs' others =>
      have alike := (Pattern.sameAll_iff.mp first).flip
      refine accepts_elements.mpr ⟨others, rfl, fits.imp (fun empty => ?_) fun fits => ?_⟩
      · subst empty
        exact List.forall₂_nil_right_iff.mp alike
      · exact fits.of_same alike second fun (part : Part (.array elements knownAs) _)
          (part' : Part (.array elements' knownAs') _) step u z item same ok =>
          lighter rfl item.weight_lt ok step same (crisp.of_reaches part.reaches)
            (crisp'.of_reaches part'.reaches) (data.part item)

theorem Accepts.of_same (guarded : Guarded r.types) (accepted : Accepts r p v) (first : p.same q)
    (second : v.same w) (crisp : Crisp r.types p) (crisp' : Crisp r.types q) (data : v.Crisp) :
    Accepts r q w := by
  induction weight : v.weight using Nat.strongRecOn generalizing r p q v w with
  | _ weight lighter =>
  subst weight
  -- Names and unions are passed on both sides at once, so the other pattern is in the motive.
  refine Accepts.behind_induction (motive := fun p => ∀ q, p.same q → Crisp r.types p →
    Crisp r.types q → Accepts r q w) accepted ?_ ?_ q first crisp crisp'
  · intro p outright accepted q first crisp crisp'
    refine accepts_of_same_outright outright accepted first second crisp crisp' data ?_
    intro s o o' u z same less accepted first second crisp crisp' data
    rw [← same] at guarded crisp crisp'
    exact lighter u.weight less guarded accepted first second crisp crisp' data rfl
  · intro p o behind accepted ih q first crisp crisp'
    have below := crisp.behind behind
    cases behind with
    | reference found =>
      cases q <;> simp only [Pattern.same, decide_eq_true_eq, Bool.false_eq_true] at first
      subst first
      exact (accepts_resolved found).mpr (ih o (o.same_self below) below below)
    | anyOf mem =>
      cases q <;> simp only [Pattern.same, Bool.false_eq_true] at first
      obtain ⟨o', mem', step⟩ := exists_of_forall₂_mem (Pattern.sameAll_iff.mp first).flip mem
      exact (accepts_union guarded).mpr
        ⟨o', mem', ih o' step below (crisp'.of_reaches (Unfolds.reaches (.anyOf mem')))⟩

theorem same_patterns_accept_alike (r : Resolver) (p q : Pattern) (v w : Value)
    (guarded : Guarded r.types) (crisp : Crisp r.types p) (crisp' : Crisp r.types q)
    (data : v.Crisp) (data' : w.Crisp) (first : p.same q) (second : v.same w) :
    p.check r v = some .success ↔ q.check r w = some .success := by
  constructor
  · exact fun accepted => Accepts.of_same guarded accepted first second crisp crisp' data
  · exact fun accepted => Accepts.of_same guarded accepted (p.same_symm q crisp first)
      (v.same_symm w data.keyed second) crisp' crisp data'

def Pattern.isCrisp : Pattern → Bool
  | .exact v => v.isData && v.integral
  | .object fields _ => decide (Entries.Distinct fields)
  | _ => true

theorem Crisp.of_all {types : Entries Pattern} (h : (reachable types p).all Pattern.isCrisp) :
    Crisp types p where
  literals _ reach :=
    .of_isData (Bool.and_eq_true_iff.mp (List.all_eq_true.mp h _ reach.mem_reachable))
  keys _ _ reach := of_decide_eq_true (List.all_eq_true.mp h _ reach.mem_reachable)

def stored : Value :=
  .number (.whole ⟨-731, by decide⟩)

def storeroom : Resolver :=
  { Resolver.empty with types := [
      ("Shelf", .object [("label", .anyOf [.null, .reference "Label"]),
        ("shelves", .array [.repeated (.reference "Shelf")] none)] ⟨.reject, .json, some "Shelf"⟩),
      ("Label", .anyOf [.string, .exact stored])] }

def room : Pattern :=
  .object [("shelf", .reference "Shelf"),
    ("place?", .exact (.object [("floor", stored), ("wing", .string "north")]))]
    ⟨.reject, .json, none⟩

def roomRow : Pattern :=
  .object [("place?", .exact (.object [("wing", .string "north"), ("floor", stored)])),
    ("shelf", .reference "Shelf")] ⟨.reject, .tabular, some "Room"⟩

def furnished : Value :=
  .object [("shelf", .object [("label", stored), ("shelves", .array [
      .object [("label", .string "B"), ("shelves", .array [])]])]),
    ("place", .object [("floor", stored), ("wing", .string "north")])]

def furnishedTurned : Value :=
  .object [("place", .object [("floor", stored), ("wing", .string "north")]),
    ("shelf", .object [("shelves", .array [
      .object [("shelves", .array []), ("label", .string "B")]]), ("label", stored)])]

theorem rooms_take_furniture_alike : room.same roomRow ∧ furnished.same furnishedTurned ∧
    (room.check storeroom furnished = some .success ↔
      roomRow.check storeroom furnishedTurned = some .success) ∧
    roomRow.check storeroom furnishedTurned = some .success := by
  have guarded : Guarded storeroom.types := .of_settles 3 (by decide +kernel)
  have crisp : Crisp storeroom.types room := .of_all (by decide +kernel)
  have crisp' : Crisp storeroom.types roomRow := .of_all (by decide +kernel)
  have data : furnished.Crisp := .of_isData (by decide +kernel)
  have data' : furnishedTurned.Crisp := .of_isData (by decide +kernel)
  have first : room.same roomRow := by decide +kernel
  have second : furnished.same furnishedTurned := by decide +kernel
  have alike := same_patterns_accept_alike storeroom room roomRow furnished furnishedTurned guarded
    crisp crisp' data data' first second
  have accepted : room.check storeroom furnished = some .success := by decide +kernel
  exact ⟨first, second, alike, alike.mp accepted⟩

end Alike

end ApiContract
