import Mathlib.Data.List.Perm.Subperm
import ApiContract.Proofs.Relaxing

set_option autoImplicit false

namespace ApiContract

namespace Value

mutual

def integral : Value → Bool
  | .number n => n.isWhole
  | .object members => decide (Entries.Distinct members) && integralMembers members
  | .array items => integralItems items
  | _ => true

def integralItems : List Value → Bool
  | [] => true
  | item :: rest => integral item && integralItems rest

def integralMembers : List (String × Value) → Bool
  | [] => true
  | (_, value) :: rest => integral value && integralMembers rest

end

theorem integral_of_item {items : List Value} {u : Value} (h : integralItems items)
    (mem : u ∈ items) : u.integral := by
  induction items with
  | nil => cases mem
  | cons item rest ih =>
    simp only [integralItems, Bool.and_eq_true] at h
    rcases List.mem_cons.mp mem with rfl | mem
    · exact h.1
    · exact ih h.2 mem

theorem integral_of_member {members : List (String × Value)} {key : String} {u : Value}
    (h : integralMembers members) (mem : (key, u) ∈ members) : u.integral := by
  induction members with
  | nil => cases mem
  | cons member rest ih =>
    obtain ⟨other, value⟩ := member
    simp only [integralMembers, Bool.and_eq_true] at h
    rcases List.mem_cons.mp mem with same | mem
    · cases same
      exact h.1
    · exact ih h.2 mem

theorem Part.integral {v u : Value} (h : Part v u) (whole : v.integral) : u.integral := by
  cases h with
  | member mem =>
    simp only [Value.integral, Bool.and_eq_true] at whole
    exact integral_of_member whole.2 mem
  | item mem => exact integral_of_item whole mem

theorem distinct_of_integral {members : List (String × Value)} (h : (object members).integral) :
    Entries.Distinct members := by
  simp only [integral, Bool.and_eq_true, decide_eq_true_eq] at h
  exact h.1

theorem sameMembers_iff {a b : List (String × Value)} :
    sameMembers a b ↔ ∀ member ∈ a, ∃ other, Entries.get? b member.1 = some other ∧
      same member.2 other := by
  induction a with
  | nil => simp [sameMembers]
  | cons member rest ih =>
    obtain ⟨key, value⟩ := member
    rw [sameMembers, Bool.and_eq_true, ih, List.forall_mem_cons]
    refine and_congr_left fun _ => ?_
    cases Entries.get? b key <;> simp

theorem sameItems_iff {a b : List Value} :
    sameItems a b ↔ a.length = b.length ∧
      ∀ (i : Nat) x y, a[i]? = some x → b[i]? = some y → same x y := by
  induction a generalizing b with
  | nil => cases b <;> simp [sameItems]
  | cons x as ih =>
    cases b with
    | nil => simp [sameItems]
    | cons y bs =>
      rw [sameItems, Bool.and_eq_true, ih]
      constructor
      · rintro ⟨first, length, rest⟩
        refine ⟨by simp [length], fun i u w hu hw => ?_⟩
        cases i with
        | zero =>
          cases hu
          cases hw
          exact first
        | succ i => exact rest i u w hu hw
      · rintro ⟨length, all⟩
        exact ⟨all 0 x y rfl rfl, by simpa using length, fun i => all (i + 1)⟩

end Value

namespace Xml

theorem sameAttributes_trans {a b c : List (String × String)} (first : sameAttributes a b)
    (second : sameAttributes b c) : sameAttributes a c := by
  simp only [sameAttributes, Bool.and_eq_true, decide_eq_true_eq, List.all_eq_true] at *
  refine ⟨first.1.trans second.1, fun entry mem => ?_⟩
  exact second.2 (entry.1, entry.2) (Entries.mem_of_get? (first.2 entry mem))

mutual

theorem same_trans : ∀ {a b c : Xml}, same a b → same b c → same a c
  | .element _ _ xs, .element _ _ ys, .element _ _ zs, first, second => by
    simp only [same, Bool.and_eq_true, decide_eq_true_eq] at *
    exact ⟨⟨first.1.1.trans second.1.1, sameAttributes_trans first.1.2 second.1.2⟩,
      sameAll_trans first.2 second.2⟩
  | .text _, .text _, .text _, first, second => by
    simp only [same, decide_eq_true_eq] at *
    exact first.trans second

theorem sameAll_trans : ∀ {a b c : List Xml}, sameAll a b → sameAll b c → sameAll a c
  | [], [], [], _, _ => rfl
  | x :: xs, y :: ys, z :: zs, first, second => by
    simp only [sameAll, Bool.and_eq_true] at *
    exact ⟨same_trans first.1 second.1, sameAll_trans first.2 second.2⟩

end

end Xml

theorem Number.same_of_whole {a b : Number} (ha : a.isWhole) (hb : b.isWhole) (h : a.same b) :
    a = b := by
  cases a with
  | double d => cases ha
  | whole x =>
    cases b with
    | double d => cases hb
    | whole y =>
      obtain ⟨x, hx⟩ := x
      obtain ⟨y, hy⟩ := y
      have : x = y := by simpa [Number.same] using h
      subst this
      rfl

theorem Entries.get?_of_mem {α : Type} {entries : Entries α} {key : String} {a : α}
    (distinct : Distinct entries) (h : (key, a) ∈ entries) : get? entries key = some a := by
  induction entries with
  | nil => cases h
  | cons entry rest ih =>
    obtain ⟨k, b⟩ := entry
    have split := List.nodup_cons.mp distinct
    rw [get?_cons]
    rcases List.mem_cons.mp h with same | later
    · cases same
      simp
    · have other : k ≠ key := by
        rintro rfl
        exact split.1 (List.mem_map.mpr ⟨_, later, rfl⟩)
      rw [if_neg other]
      exact ih split.2 later

theorem Entries.contains_of_mem {α : Type} {entries : Entries α} {key : String} {a : α}
    (h : (key, a) ∈ entries) : contains entries key := by
  induction entries with
  | nil => cases h
  | cons entry rest ih =>
    obtain ⟨k, b⟩ := entry
    unfold contains at ih ⊢
    rw [get?_cons]
    split
    · rfl
    · next other =>
      rcases List.mem_cons.mp h with same | later
      · cases same
        exact absurd rfl other
      · exact ih later

section Matched

variable {α β : Type} {R : α → β → Prop} {a : Entries α} {b : Entries β}

theorem Entries.keys_perm_of_matched (distinct : Distinct a) (length : a.length = b.length)
    (matched : ∀ key y, (key, y) ∈ a → ∃ z, get? b key = some z ∧ R y z) :
    (keys a).Perm (keys b) := by
  have inside : keys a ⊆ keys b := by
    intro key mem
    obtain ⟨⟨_, y⟩, there, rfl⟩ := List.mem_map.mp mem
    obtain ⟨z, found, -⟩ := matched _ y there
    exact List.mem_map.mpr ⟨_, mem_of_get? found, rfl⟩
  exact (List.subperm_of_subset distinct inside).perm_of_length_le (by simp [keys, length])

theorem Entries.exists_of_matched (distinct : Distinct a) (length : a.length = b.length)
    (matched : ∀ key y, (key, y) ∈ a → ∃ z, get? b key = some z ∧ R y z) {key : String} {z : β}
    (found : get? b key = some z) : ∃ y, get? a key = some y ∧ R y z := by
  have known : key ∈ keys a := (keys_perm_of_matched distinct length matched).mem_iff.mpr
    (List.mem_map.mpr ⟨_, mem_of_get? found, rfl⟩)
  obtain ⟨⟨_, y⟩, mem, rfl⟩ := List.mem_map.mp known
  obtain ⟨z', found', related⟩ := matched _ y mem
  rw [found] at found'
  cases found'
  exact ⟨y, get?_of_mem distinct mem, related⟩

end Matched

namespace Value

theorem same_object {a b : List (String × Value)} : same (.object a) (.object b) ↔
    a.length = b.length ∧ ∀ key y, (key, y) ∈ a → ∃ z, Entries.get? b key = some z ∧ same y z := by
  rw [same, Bool.and_eq_true, decide_eq_true_eq, sameMembers_iff]
  simp

theorem same_trans_of {P : Value → Value → Value → Prop}
    (member : ∀ {as bs cs key x y z}, P (.object as) (.object bs) (.object cs) → (key, x) ∈ as →
      Entries.get? bs key = some y → Entries.get? cs key = some z → P x y z)
    (item : ∀ {as bs cs x y z} {i : Nat}, P (.array as) (.array bs) (.array cs) →
      as[i]? = some x → bs[i]? = some y → cs[i]? = some z → P x y z)
    (number : ∀ {x y z}, P (.number x) (.number y) (.number z) → x.same y → y.same z → x.same z)
    (a b c : Value) (place : P a b c) (first : same a b) (second : same b c) : same a c := by
  cases a with
  | null =>
    cases b <;> simp only [same, Bool.false_eq_true] at first
    exact second
  | boolean | string =>
    cases b <;> simp only [same, decide_eq_true_eq, Bool.false_eq_true] at first
    subst first
    exact second
  | xml x =>
    cases b <;> simp only [same, Bool.false_eq_true] at first
    cases c <;> simp only [same, Bool.false_eq_true] at second
    exact Xml.same_trans first second
  | number x =>
    cases b <;> simp only [same, Bool.false_eq_true] at first
    cases c <;> simp only [same, Bool.false_eq_true] at second
    exact number place first second
  | array as =>
    cases b <;> simp only [same, Bool.false_eq_true] at first
    cases c <;> simp only [same, Bool.false_eq_true] at second
    next bs cs =>
      obtain ⟨length, items⟩ := sameItems_iff.mp first
      obtain ⟨length', items'⟩ := sameItems_iff.mp second
      refine sameItems_iff.mpr ⟨length.trans length', fun i x z hx hz => ?_⟩
      obtain ⟨y, hy⟩ : ∃ y, bs[i]? = some y := by
        have : i < as.length := (List.getElem?_eq_some_iff.mp hx).1
        exact ⟨bs[i], List.getElem?_eq_getElem (by omega)⟩
      have := (Part.item (List.mem_of_getElem? hx)).depth_lt
      exact same_trans_of member item number x y z (item place hx hy hz) (items i x y hx hy)
        (items' i y z hy hz)
  | object as =>
    cases b <;> try cases first
    cases c <;> try cases second
    next bs cs =>
      obtain ⟨length, members⟩ := same_object.mp first
      obtain ⟨length', members'⟩ := same_object.mp second
      refine same_object.mpr ⟨length.trans length', fun key x mem => ?_⟩
      obtain ⟨y, hy, step⟩ := members key x mem
      obtain ⟨z, hz, step'⟩ := members' key y (Entries.mem_of_get? hy)
      have := (Part.member mem).depth_lt
      exact ⟨z, hz, same_trans_of member item number x y z (member place mem hy hz) step step'⟩
  termination_by a.depth

theorem same_trans (a b c : Value) (first : same a b) (second : same b c) (ha : a.integral)
    (hb : b.integral) : same a c := by
  refine same_trans_of (P := fun x y _ => x.integral ∧ y.integral) ?_ ?_ ?_ a b c ⟨ha, hb⟩ first
    second
  · rintro as bs cs key x y z ⟨whole, whole'⟩ mem found -
    exact ⟨Part.integral (.member mem) whole,
      Part.integral (.member (Entries.mem_of_get? found)) whole'⟩
  · rintro as bs cs x y z i ⟨whole, whole'⟩ there there' -
    exact ⟨Part.integral (.item (List.mem_of_getElem? there)) whole,
      Part.integral (.item (List.mem_of_getElem? there')) whole'⟩
  · rintro x y z ⟨whole, whole'⟩ first second
    rwa [Number.same_of_whole whole whole' first]

theorem get?_of_same {a b : List (String × Value)} {key : String} {z : Value}
    (distinct : Entries.Distinct a) (h : same (.object a) (.object b))
    (found : Entries.get? b key = some z) : ∃ y, Entries.get? a key = some y ∧ same y z :=
  Entries.exists_of_matched distinct (same_object.mp h).1 (same_object.mp h).2 found

theorem getElem?_of_same {a b : List Value} {i : Nat} {w : Value} (h : same (.array a) (.array b))
    (found : b[i]? = some w) : ∃ u, a[i]? = some u ∧ same u w := by
  obtain ⟨length, items⟩ := sameItems_iff.mp h
  obtain ⟨u, before⟩ : ∃ u, a[i]? = some u := by
    have : i < b.length := (List.getElem?_eq_some_iff.mp found).1
    exact ⟨a[i], List.getElem?_eq_getElem (by omega)⟩
  exact ⟨u, before, items i u w before found⟩

theorem contains_of_same {a b : List (String × Value)} {key : String}
    (h : same (.object a) (.object b)) (there : Entries.contains a key) :
    Entries.contains b key := by
  obtain ⟨y, hy⟩ := Option.isSome_iff_exists.mp there
  obtain ⟨z, hz, -⟩ := (same_object.mp h).2 key y (Entries.mem_of_get? hy)
  exact Option.isSome_iff_exists.mpr ⟨z, hz⟩

theorem isNull_of_same {u v : Value} (h : same u v) : u.isNull = v.isNull := by
  cases u <;> cases v <;> simp_all [same, isNull]

end Value

def Pattern.Integral : Pattern → Prop
  | .exact value => value.integral
  | _ => True

section Fitting

variable {r : Resolver} {e v : Value}

theorem fitsObject_of_same {f g : Pattern → Value → Prop} {these those : List (String × Pattern)}
    {unexpected : UnexpectedKeys} {a b : List (String × Value)} (distinct : Entries.Distinct a)
    (same : Value.same (.object a) (.object b)) (fits : FitsObject f these unexpected a)
    (h : ∀ key q, (key, q) ∈ those → ∃ p, (key, p) ∈ these ∧ ∀ u w : Value,
      u = .null ∨ Value.Part (.object a) u → u.same w → f p u → g q w) :
    FitsObject g those .ignore b where
  required field mem := by
    obtain ⟨known, required⟩ := mem_of_requiredFields mem
    obtain ⟨p, before, carries⟩ := h field.1 field.2 known
    have also : (field.1, p) ∈ requiredFields these := by simp [requiredFields, before, required]
    exact (fits.required _ also).imp (Value.contains_of_same same)
      (carries .null .null (.inl rfl) rfl)
  declared := nofun
  members field mem w found := by
    obtain ⟨p, before, carries⟩ := h field.1 field.2 mem
    obtain ⟨u, there, step⟩ := Value.get?_of_same distinct same found
    refine (fits.members _ before u there).imp (fun absent => ?_) ?_
    · exact ⟨absent.1, Value.isNull_of_same step ▸ absent.2⟩
    · exact carries u w (.inr (.member (Entries.mem_of_get? there))) step

theorem fitsMembers_of_same {f g : Pattern → Value → Prop} {these those : Members}
    {a b : List Value} (same : Value.same (.array a) (.array b)) (fits : FitsMembers f these a)
    (fixed : those.fixed.length = these.fixed.length)
    (h : ∀ p i, these.at? i = some p → ∃ q, those.at? i = some q ∧
      ∀ u w : Value, u ∈ a → u.same w → f p u → g q w) :
    FitsMembers g those b := by
  refine ⟨fixed ▸ (Value.sameItems_iff.mp same).1 ▸ fits.length, fun i w found => ?_⟩
  obtain ⟨u, before, step⟩ := Value.getElem?_of_same same found
  obtain ⟨p, place, ok⟩ := fits.items i u before
  obtain ⟨q, place', carries⟩ := h p i place
  exact ⟨q, place', carries u w (List.mem_of_getElem? before) step ok⟩

theorem takes_of_same (guarded : Guarded r.types) (weight : Nat) :
    ∀ (p : Pattern) (e v : Value), e.weight = weight → Registered r.types p →
      (∀ q, Reaches r.types p q → q.Integral) → e.integral → e.same v → Accepts r p e →
      Takes r p v := by
  induction weight using Nat.strongRecOn with
  | _ weight lighter =>
  refine guarded.unfold_induction fun p behind e v hw registered literals whole same accepted => ?_
  have inside {q : Pattern} (part : Part p q) {u w : Value} (less : u.weight < e.weight)
      (hu : u.integral) (step : u.same w) (ok : Accepts r q u) : Takes r q w :=
    lighter u.weight (hw ▸ less) q u w rfl (registered.of_reaches part.reaches)
      (fun o reach => literals o (part.reaches.trans reach)) hu step ok
  have unfolded {q : Pattern} (step : Unfolds r.types p q) (ok : Accepts r q e) : Takes r q v :=
    behind q step e v hw (registered.of_reaches step.reaches)
      (fun o reach => literals o (step.reaches.trans reach)) whole same ok
  have sequence {members : Members} (h : members? p = some members) : Takes r p v := by
    obtain ⟨items, rfl, fits⟩ := (accepts_sequence guarded registered h).mp accepted
    cases v <;> simp only [Value.same, Bool.false_eq_true] at same
    next others =>
      refine (takes_sequence guarded registered h).mpr ⟨others, rfl, fits.imp_right fun fits => ?_⟩
      exact fitsMembers_of_same same fits rfl fun q i place => ⟨q, place, fun u w mem step ok =>
        inside (members?_part h place) (Value.Part.weight_lt (.item mem))
          (Value.Part.integral (.item mem) whole) step ok⟩
  cases p with
  | string =>
    obtain ⟨s, rfl⟩ := accepts_string.mp accepted
    cases v <;> simp only [Value.same, Bool.false_eq_true] at same
    exact accepts_string.mpr ⟨_, rfl⟩
  | number =>
    obtain ⟨n, rfl⟩ := accepts_number.mp accepted
    cases v <;> simp only [Value.same, Bool.false_eq_true] at same
    exact accepts_number.mpr ⟨_, rfl⟩
  | boolean =>
    obtain ⟨b, rfl⟩ := accepts_boolean.mp accepted
    cases v <;> simp only [Value.same, Bool.false_eq_true] at same
    exact accepts_boolean.mpr ⟨_, rfl⟩
  | null =>
    apply accepts_null.mpr
    rcases accepts_null.mp accepted with rfl | rfl
    · cases v <;> simp [Value.same] at same ⊢
    · cases v <;> simp [Value.same] at same ⊢
      exact same
  | url scheme =>
    obtain ⟨s, rfl, ok⟩ := accepts_url.mp accepted
    cases v <;> simp only [Value.same, Bool.false_eq_true, decide_eq_true_eq] at same
    subst same
    exact accepts_url.mpr ⟨_, rfl, ok⟩
  | exact expected =>
    have first := accepts_exact.mp accepted
    exact accepts_exact.mpr
      (Value.same_trans expected e v first same (literals _ (Reaches.refl _)) whole)
  | repeated | array => exact sequence rfl
  | reference name =>
    obtain ⟨q, named⟩ := Option.isSome_iff_exists.mp (registered name (Reaches.refl _))
    exact (takes_reference guarded registered named).mpr
      (unfolded (.reference named) ((accepts_reference guarded registered named).mp accepted))
  | anyOf alternatives =>
    obtain ⟨q, mem, ok⟩ := (accepts_anyOf guarded registered).mp accepted
    exact (takes_anyOf guarded registered).mpr ⟨q, mem, unfolded (.anyOf mem) ok⟩
  | object fields traits =>
    obtain ⟨members, rfl, fits⟩ := (accepts_object guarded registered).mp accepted
    cases v <;> simp only [Value.same, Bool.false_eq_true] at same
    next others =>
      refine (takes_object guarded registered).mpr ⟨others, rfl, fitsObject_of_same
        (Value.distinct_of_integral whole) same fits fun key q mem => ⟨q, mem, ?_⟩⟩
      rintro u w (rfl | part) step ok
      · exact inside (u := .null) (.field mem) (Value.weight_object_pos members) rfl step ok
      · exact inside (.field mem) part.weight_lt (part.integral whole) step ok

end Fitting

end ApiContract
