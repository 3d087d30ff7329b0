import Mathlib.Algebra.Group.Nat.Defs
import ApiContract.Proofs.Data
import ApiContract.Proofs.Locating

set_option autoImplicit false

namespace ApiContract

namespace Double

theorem roundHalfEven_mul {m den : Nat} (pos : 0 < den) : roundHalfEven (m * den) den = m := by
  simp [roundHalfEven, Nat.mul_div_cancel m pos, pos]

theorem exists_significand {n e : Nat} (fine : 52 ≤ e) (pos : 0 < n)
    (small : n ≤ 9007199254740992) :
    ∃ m shift, shift ≤ e + 1 ∧ 4503599627370496 ≤ m ∧ m < 9007199254740992 ∧
      n * Nat.pow 2 e = m * 2 ^ shift := by
  rcases Nat.lt_or_eq_of_le small with less | rfl
  · have nonzero := Nat.ne_of_gt pos
    obtain ⟨low, high⟩ := (Nat.log2_eq_iff nonzero).mp (rfl : n.log2 = n.log2)
    have short : n.log2 < 53 := (Nat.log2_lt nonzero).mpr less
    obtain ⟨rest, bits⟩ : ∃ rest, 52 = n.log2 + rest := ⟨52 - n.log2, by omega⟩
    refine ⟨n * 2 ^ rest, e - rest, by omega, ?_, ?_, ?_⟩
    · calc 4503599627370496 = 2 ^ 52 := by decide
        _ = 2 ^ (n.log2 + rest) := congrArg (2 ^ ·) bits
        _ = 2 ^ n.log2 * 2 ^ rest := Nat.pow_add ..
        _ ≤ n * 2 ^ rest := Nat.mul_le_mul_right _ low
    · calc n * 2 ^ rest < 2 ^ (n.log2 + 1) * 2 ^ rest :=
            Nat.mul_lt_mul_of_pos_right high (Nat.two_pow_pos rest)
        _ = 2 ^ (n.log2 + rest + 1) := by rw [← Nat.pow_add, Nat.add_right_comm]
        _ = 2 ^ 53 := congrArg (fun k => 2 ^ (k + 1)) bits.symm
        _ = 9007199254740992 := by decide
    · rw [Nat.mul_assoc, ← Nat.pow_add, Nat.add_sub_cancel' (by omega), Nat.pow_eq]
  · exact ⟨4503599627370496, e + 1, Nat.le_refl _, Nat.le_refl _, by decide, by
      rw [Nat.pow_succ, Nat.pow_eq]; omega⟩

theorem log2_significand {m shift : Nat} (low : 4503599627370496 ≤ m)
    (high : m < 9007199254740992) : (m * 2 ^ shift).log2 = shift + 52 := by
  have pos : 0 < m * 2 ^ shift := Nat.mul_pos (by omega) (Nat.two_pow_pos shift)
  refine (Nat.log2_eq_iff (Nat.ne_of_gt pos)).mpr ⟨?_, ?_⟩
  · calc 2 ^ (shift + 52) = 4503599627370496 * 2 ^ shift := by rw [Nat.pow_add, Nat.mul_comm]
      _ ≤ m * 2 ^ shift := Nat.mul_le_mul_right _ low
  · calc m * 2 ^ shift < 9007199254740992 * 2 ^ shift :=
          Nat.mul_lt_mul_of_pos_right high (Nat.two_pow_pos shift)
      _ = 2 ^ (shift + 53) := by rw [Nat.pow_add, Nat.mul_comm]

theorem ofRatio_significand {negative : Bool} {n m e shift : Nat} (range : shift + 1 < 2047)
    (low : 4503599627370496 ≤ m) (high : m < 9007199254740992) (unit : e = 1074)
    (scaled : n * Nat.pow 2 e = m * 2 ^ shift) :
    ofRatio negative n 1 =
      some ⟨negative, ⟨shift + 1, range⟩, Fin.ofNat 4503599627370496 (m - 4503599627370496)⟩ := by
  have rounded : roundHalfEven (m * 2 ^ shift) (Nat.pow 2 shift) = m :=
    roundHalfEven_mul (Nat.two_pow_pos shift)
  simp only [ofRatio, ← unit, scaled, Nat.div_one, log2_significand low high, Nat.add_sub_cancel,
    Nat.one_mul, rounded]
  rw [if_neg (Nat.ne_of_lt high), assemble, if_neg (Nat.not_lt.mpr low), dif_pos range]

theorem units_significand {negative : Bool} {m shift : Nat} (range : shift + 1 < 2047)
    (low : 4503599627370496 ≤ m) (high : m < 9007199254740992) :
    units ⟨negative, ⟨shift + 1, range⟩, Fin.ofNat 4503599627370496 (m - 4503599627370496)⟩ =
      m * 2 ^ shift := by
  have fraction : (m - 4503599627370496) % 4503599627370496 = m - 4503599627370496 :=
    Nat.mod_eq_of_lt (by omega)
  have whole : 4503599627370496 + (m - 4503599627370496) = m := by omega
  simp only [units, significand, spacing, Nat.add_one_ne_zero, if_false, Fin.val_ofNat, fraction,
    whole, Nat.add_sub_cancel]
  rfl

theorem exists_scale : ∃ scale : Nat, 0 < scale ∧ ∀ i : Int, i.natAbs ≤ 9007199254740992 →
    ∃ d, ofInt i = some d ∧ d.signedUnits = i * scale := by
  -- The exponent stays a variable, so that the power is never computed.
  obtain ⟨e, unit⟩ : ∃ e, e = 1074 := ⟨_, rfl⟩
  refine ⟨Nat.pow 2 e, Nat.two_pow_pos e, fun i small => ?_⟩
  rcases Nat.eq_zero_or_pos i.natAbs with none_ | pos
  · obtain rfl := Int.natAbs_eq_zero.mp none_
    exact ⟨zero false, by decide +kernel, (Int.zero_mul _).symm⟩
  · obtain ⟨m, shift, bound, low, high, scaled⟩ :=
      exists_significand (show 52 ≤ e by omega) pos small
    have range : shift + 1 < 2047 := by omega
    refine ⟨_, ofRatio_significand range low high unit scaled, ?_⟩
    rw [signedUnits, units_significand range low high, ← scaled, Int.natCast_mul]
    by_cases negative : i < 0
    · have flipped : (i.natAbs : Int) = -i := Int.ofNat_natAbs_of_nonpos (Int.le_of_lt negative)
      rw [if_pos (decide_eq_true negative), flipped, Int.neg_mul, Int.neg_neg]
    · have kept : (i.natAbs : Int) = i := Int.natAbs_of_nonneg (Int.not_lt.mp negative)
      rw [if_neg (by simpa using negative), kept]

theorem ofInt_inj {i j : Int} {x y : Double} (small : i.natAbs ≤ 9007199254740992)
    (small' : j.natAbs ≤ 9007199254740992) (first : ofInt i = some x) (second : ofInt j = some y)
    (same : x.sameNumber y) : i = j := by
  obtain ⟨scale, positive, near⟩ := exists_scale
  obtain ⟨d, own, units⟩ := near i small
  obtain ⟨e, own', units'⟩ := near j small'
  rw [first] at own
  rw [second] at own'
  cases own
  cases own'
  have equal : i * (scale : Int) = j * scale := by
    rw [← units, ← units']
    exact of_decide_eq_true same
  exact Int.eq_of_mul_eq_mul_right (Int.natCast_ne_zero.mpr (Nat.ne_of_gt positive)) equal

theorem sameNumber_symm {x y : Double} (h : x.sameNumber y) : y.sameNumber x :=
  decide_eq_true (of_decide_eq_true h).symm

theorem sameNumber_trans {x y z : Double} (first : x.sameNumber y) (second : y.sameNumber z) :
    x.sameNumber z :=
  decide_eq_true ((of_decide_eq_true first).trans (of_decide_eq_true second))

end Double

namespace Number

variable {a b c : Number}

theorem same_doubles (h : (a.isWhole && b.isWhole) = false) : a.same b ↔
    ∃ x y, a.toDouble? = some x ∧ b.toDouble? = some y ∧ x.sameNumber y := by
  unfold same
  split
  · cases h
  · split
    · next first second => simp [first, second]
    · next other =>
      simp only [Bool.false_eq_true, false_iff]
      rintro ⟨x, y, first, second, -⟩
      exact other x y first second

theorem same_symm (h : a.same b) : b.same a := by
  cases whole : a.isWhole && b.isWhole with
  | true =>
    rw [Bool.and_eq_true] at whole
    obtain rfl := same_of_whole whole.1 whole.2 h
    exact h
  | false =>
    obtain ⟨x, y, first, second, same⟩ := (same_doubles whole).mp h
    exact (same_doubles (by rwa [Bool.and_comm])).mpr
      ⟨y, x, second, first, Double.sameNumber_symm same⟩

theorem same_trans (first : a.same b) (second : b.same c)
    (beside : b.isWhole ∨ (a.isWhole && c.isWhole) = false) : a.same c := by
  cases ab : a.isWhole && b.isWhole with
  | true =>
    rw [Bool.and_eq_true] at ab
    rwa [same_of_whole ab.1 ab.2 first]
  | false =>
    cases bc : b.isWhole && c.isWhole with
    | true =>
      rw [Bool.and_eq_true] at bc
      rwa [← same_of_whole bc.1 bc.2 second]
    | false =>
      have apart : (a.isWhole && c.isWhole) = false := by
        rcases beside with whole | apart
        · simp [whole] at ab
          simp [ab]
        · exact apart
      obtain ⟨x, y, hx, hy, xy⟩ := (same_doubles ab).mp first
      obtain ⟨y', z, hy', hz, yz⟩ := (same_doubles bc).mp second
      rw [hy] at hy'
      cases hy'
      exact (same_doubles apart).mpr ⟨x, z, hx, hz, Double.sameNumber_trans xy yz⟩

theorem eq_of_same_double {n m : Whole} {d : Double} (first : (whole n).same (double d))
    (second : (double d).same (whole m)) (small : n.val.natAbs ≤ 9007199254740992)
    (small' : m.val.natAbs ≤ 9007199254740992) : n = m := by
  obtain ⟨x, y, hx, hy, xy⟩ := (same_doubles rfl).mp first
  obtain ⟨y', z, hy', hz, yz⟩ := (same_doubles rfl).mp second
  cases hy.symm.trans hy'
  obtain ⟨n, hn⟩ := n
  obtain ⟨m, hm⟩ := m
  have equal : n = m := Double.ofInt_inj small small' hx hz (Double.sameNumber_trans xy yz)
  subst equal
  rfl

end Number

namespace Xml

theorem sameAttributes_symm {a b : List (String × String)} (distinct : Entries.Distinct a)
    (h : sameAttributes a b) : sameAttributes b a := by
  simp only [sameAttributes, Bool.and_eq_true, decide_eq_true_eq, List.all_eq_true] at h ⊢
  have matched (key y : String) (mem : (key, y) ∈ a) : ∃ z, Entries.get? b key = some z ∧ y = z :=
    ⟨y, h.2 _ mem, rfl⟩
  have others : Entries.Distinct b :=
    (Entries.keys_perm_of_matched distinct h.1 matched).nodup_iff.mp distinct
  refine ⟨h.1.symm, fun entry mem => ?_⟩
  obtain ⟨y, found, rfl⟩ :=
    Entries.exists_of_matched distinct h.1 matched (Entries.get?_of_mem others mem)
  exact found

mutual

theorem same_symm : ∀ {a b : Xml}, a.isKeyed → same a b → same b a
  | .element _ _ xs, .element _ _ ys, keyed, h => by
    simp only [isKeyed, same, Bool.and_eq_true, decide_eq_true_eq] at *
    exact ⟨⟨h.1.1.symm, sameAttributes_symm keyed.1 h.1.2⟩, sameAll_symm keyed.2 h.2⟩
  | .text _, .text _, _, h => by
    simp only [same, decide_eq_true_eq] at *
    exact h.symm

theorem sameAll_symm : ∀ {a b : List Xml}, isKeyedAll a → sameAll a b → sameAll b a
  | [], [], _, _ => rfl
  | x :: xs, y :: ys, keyed, h => by
    simp only [isKeyedAll, sameAll, Bool.and_eq_true] at *
    exact ⟨same_symm keyed.1 h.1, sameAll_symm keyed.2 h.2⟩

end

end Xml

namespace Value

variable {a b c u v w : Value}

theorem same_symm (v w : Value) (keyed : v.Keyed) (h : v.same w) : w.same v := by
  cases v with
  | null => cases w <;> first | rfl | cases h
  | boolean | string =>
    cases w <;> simp only [same, decide_eq_true_eq, Bool.false_eq_true] at h ⊢
    exact h.symm
  | number x =>
    cases w <;> simp only [same, Bool.false_eq_true] at h
    exact Number.same_symm h
  | xml x =>
    cases w <;> simp only [same, Bool.false_eq_true] at h
    exact Xml.same_symm (keyed _ .refl) h
  | array xs =>
    cases w <;> simp only [same, Bool.false_eq_true] at h
    next ys =>
      obtain ⟨length, items⟩ := sameItems_iff.mp h
      refine sameItems_iff.mpr ⟨length.symm, fun i y x hy hx => ?_⟩
      have part : Part (.array xs) x := .item (List.mem_of_getElem? hx)
      have := part.depth_lt
      exact same_symm x y (keyed.part part) (items i x y hx hy)
  | object xs =>
    cases w <;> try cases h
    next ys =>
      obtain ⟨length, members⟩ := same_object.mp h
      have distinct : Entries.Distinct xs := keyed _ .refl
      have others : Entries.Distinct ys :=
        (Entries.keys_perm_of_matched distinct length members).nodup_iff.mp distinct
      refine same_object.mpr ⟨length.symm, fun key y mem => ?_⟩
      obtain ⟨x, found, step⟩ :=
        Entries.exists_of_matched distinct length members (Entries.get?_of_mem others mem)
      have part : Part (.object xs) x := .member (Entries.mem_of_get? found)
      have := part.depth_lt
      exact ⟨x, found, same_symm x y (keyed.part part) step⟩
  termination_by v.depth

theorem child?_of_same {crumb : String} (h : same v w) (found : v.child? crumb = some u) :
    ∃ z, w.child? crumb = some z ∧ same u z := by
  cases v with
  | object xs =>
    cases w <;> try cases h
    exact (same_object.mp h).2 crumb u (Entries.mem_of_get? found)
  | array xs =>
    cases w <;> simp only [same, Bool.false_eq_true] at h
    next ys =>
      obtain ⟨length, items⟩ := sameItems_iff.mp h
      obtain ⟨i, first, there⟩ := Option.bind_eq_some_iff.mp found
      have inside : i < xs.length := (List.getElem?_eq_some_iff.mp there).1
      obtain ⟨z, also⟩ : ∃ z, ys[i]? = some z := ⟨_, List.getElem?_eq_getElem (length ▸ inside)⟩
      refine ⟨z, ?_, items i u z there also⟩
      rw [child?, ← length, first]
      exact also
  | _ => cases found

theorem follow?_of_same {crumbs : List String} (h : same v w) (found : v.follow? crumbs = some u) :
    ∃ z, w.follow? crumbs = some z ∧ same u z := by
  induction crumbs generalizing v w with
  | nil =>
    cases found
    exact ⟨w, rfl, h⟩
  | cons crumb crumbs ih =>
    obtain ⟨x, child, rest⟩ := Option.bind_eq_some_iff.mp found
    obtain ⟨y, child', step⟩ := child?_of_same h child
    obtain ⟨z, rest', last⟩ := ih step rest
    exact ⟨z, Option.bind_eq_some_iff.mpr ⟨y, child', rest'⟩, last⟩

def Flanked (a b c : Value) (n m : Whole) : Prop :=
  ∃ crumbs d, a.follow? crumbs = some (.number (.whole n)) ∧
    b.follow? crumbs = some (.number (.double d)) ∧ c.follow? crumbs = some (.number (.whole m))

theorem Flanked.of_child {x y z : Value} {n m : Whole} {crumb : String}
    (first : a.child? crumb = some x) (second : b.child? crumb = some y)
    (third : c.child? crumb = some z) : Flanked x y z n m → Flanked a b c n m := by
  rintro ⟨crumbs, d, hn, hd, hm⟩
  exact ⟨crumb :: crumbs, d, Option.bind_eq_some_iff.mpr ⟨x, first, hn⟩,
    Option.bind_eq_some_iff.mpr ⟨y, second, hd⟩, Option.bind_eq_some_iff.mpr ⟨z, third, hm⟩⟩

theorem Flanked.same_double {n m : Whole} (h : Flanked a b c n m) (first : same a b)
    (second : same b c) :
    ∃ d, (Number.whole n).same (.double d) ∧ (Number.double d).same (.whole m) := by
  obtain ⟨crumbs, d, hn, hd, hm⟩ := h
  obtain ⟨y, hy, left⟩ := follow?_of_same first hn
  obtain ⟨z, hz, right⟩ := follow?_of_same second hd
  cases hd.symm.trans hy
  cases hm.symm.trans hz
  exact ⟨d, left, right⟩

theorem same_trans_of_flanked (keyed : a.Keyed) (flanked : ∀ n m, Flanked a b c n m → n = m)
    (first : same a b) (second : same b c) : same a c := by
  refine same_trans_of (P := fun a b c => a.Keyed ∧ ∀ n m, Flanked a b c n m → n = m) ?_ ?_ ?_ a b c
    ⟨keyed, flanked⟩ first second
  · rintro as bs cs key x y z ⟨keyed, flanked⟩ mem hy hz
    have hx : Entries.get? as key = some x := Entries.get?_of_mem (keyed _ .refl) mem
    exact ⟨keyed.part (.member mem), fun n m h => flanked n m (.of_child hx hy hz h)⟩
  · rintro as bs cs x y z i ⟨keyed, flanked⟩ hx hy hz
    exact ⟨keyed.part (.item (List.mem_of_getElem? hx)), fun n m h => flanked n m
      (.of_child (child?_index hx) (child?_index hy) (child?_index hz) h)⟩
  · rintro x y z ⟨-, flanked⟩ first second
    by_cases beside : y.isWhole ∨ (x.isWhole && z.isWhole) = false
    · exact Number.same_trans first second beside
    · -- What is left is a double between two whole numbers.
      simp only [not_or, Bool.not_eq_true, Bool.not_eq_false, Bool.and_eq_true] at beside
      cases x <;> try cases beside.2.1
      cases y <;> try cases beside.1
      cases z <;> try cases beside.2.2
      next n d m =>
        obtain rfl := flanked n m ⟨[], d, rfl, rfl, rfl⟩
        exact decide_eq_true rfl

/-- Sameness is an equivalence relation but for whole numbers with a double between them in one
place, which need not be equal beyond 2^53: the double may be the nearest one to both. -/
theorem same_equivalence (a b c : Value) (keyed : a.Keyed) :
    a.same a ∧ (a.same b → b.same a) ∧
      (a.same b → b.same c → (a.same c ↔ ∀ n m, Flanked a b c n m → n = m) ∧
        ∀ n m, Flanked a b c n m → n.val.natAbs ≤ 9007199254740992 →
          m.val.natAbs ≤ 9007199254740992 → n = m) := by
  refine ⟨same_of_keyed a keyed, same_symm a b keyed, fun first second => ⟨⟨?_, ?_⟩, ?_⟩⟩
  · rintro same n m ⟨crumbs, d, hn, -, hm⟩
    obtain ⟨z, hz, step⟩ := follow?_of_same same hn
    cases hm.symm.trans hz
    exact Number.whole.inj (Number.same_of_whole rfl rfl step)
  · exact fun flanked => same_trans_of_flanked keyed flanked first second
  · intro n m flanked small small'
    obtain ⟨d, left, right⟩ := flanked.same_double first second
    exact Number.eq_of_same_double left right small small'

def invoice (number : Number) : Value :=
  .object [("number", .number number), ("paid", .boolean true)]

def invoiceAgain (number : Number) : Value :=
  .object [("paid", .boolean true), ("number", .number number)]

def beyondDoubles : Whole :=
  ⟨9007199254740993, by decide⟩

def lastDouble : Whole :=
  ⟨9007199254740992, by decide⟩

theorem nextInvoices_apart :
    (invoice (.whole beyondDoubles)).Keyed ∧
      (invoice (.whole beyondDoubles)).same (invoiceAgain (.double ⟨false, 1076, 0⟩)) ∧
      (invoiceAgain (.double ⟨false, 1076, 0⟩)).same (invoice (.whole beyondDoubles)) ∧
      (invoiceAgain (.double ⟨false, 1076, 0⟩)).same (invoice (.whole lastDouble)) ∧
      ¬ (invoice (.whole beyondDoubles)).same (invoice (.whole lastDouble)) := by
  have keyed : (invoice (.whole beyondDoubles)).Keyed := keyed_of_isData (by decide)
  obtain ⟨-, symm, trans⟩ := same_equivalence (invoice (.whole beyondDoubles))
    (invoiceAgain (.double ⟨false, 1076, 0⟩)) (invoice (.whole lastDouble)) keyed
  have first : (invoice (.whole beyondDoubles)).same (invoiceAgain (.double ⟨false, 1076, 0⟩)) := by
    decide +kernel
  have second : (invoiceAgain (.double ⟨false, 1076, 0⟩)).same (invoice (.whole lastDouble)) := by
    decide +kernel
  refine ⟨keyed, first, symm first, second, fun same => ?_⟩
  have equal : beyondDoubles = lastDouble :=
    (trans first second).1.mp same _ _ ⟨["number"], ⟨false, 1076, 0⟩, rfl, rfl, rfl⟩
  exact absurd equal (by decide)

end Value
end ApiContract
