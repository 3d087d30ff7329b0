import Mathlib.Data.List.TakeDrop
import Mathlib.Data.List.TakeWhile
import ApiContract.Proofs.Generating

set_option autoImplicit false

namespace ApiContract

section Numbers

theorem le_ofDigitChars {n : Nat} {cs : List Char} : n ≤ Nat.ofDigitChars 10 cs n := by
  induction cs generalizing n with
  | nil => exact Nat.le_refl n
  | cons c rest ih =>
    rw [Nat.ofDigitChars_cons]
    exact Nat.le_trans (by omega) ih

theorem absorb_all {n : Nat} {cs : List Char}
    (small : Nat.ofDigitChars 10 cs n < 18446744073709551616) :
    absorb n cs = (Nat.ofDigitChars 10 cs n, []) := by
  induction cs generalizing n with
  | nil => rfl
  | cons c rest ih =>
    rw [Nat.ofDigitChars_cons] at small ⊢
    have next : 10 * n + digitValue c < 18446744073709551616 :=
      Nat.lt_of_le_of_lt le_ofDigitChars small
    rw [absorb, if_pos next]
    exact ih small

theorem head?_toDigits {n : Nat} (h : (Nat.toDigits 10 n).head? = some '0') : n = 0 := by
  induction n using Nat.strongRecOn with
  | _ n ih =>
    by_cases small : n < 10
    · rw [Nat.toDigits_of_lt_base small] at h
      exact Nat.digitChar_eq_zero.mp (Option.some.inj h)
    · rw [Nat.toDigits_of_base_le (by decide) (Nat.le_of_not_lt small), List.head?_append] at h
      obtain ⟨c, more, shape⟩ := List.exists_cons_of_ne_nil (@Nat.toDigits_ne_nil (n / 10) 10)
      have := ih (n / 10) (by omega) (by simpa [shape] using h)
      omega

theorem isDigit_of_mem_toDigits {n : Nat} {c : Char} (mem : c ∈ Nat.toDigits 10 n) : isDigit c := by
  have own := Nat.isDigit_of_mem_toDigits (by decide) (by decide) mem
  simpa [isDigit, Char.isDigit, Char.le_def] using own

namespace Json.Reader

variable {α β : Type} {reader : Reader α} {f : α → Reader β} {a : α} {cs rest : List Char}

theorem bind_of_ok (h : reader cs = .ok (a, rest)) : (reader >>= f) cs = f a rest := by
  simp only [bind, StateT.bind, h, Except.bind]

theorem get_bind {f : List Char → Reader β} : (get >>= f) cs = f cs cs :=
  rfl

theorem numberParts_digits {negative : Bool} (digits : ∀ c ∈ cs, isDigit c) (some_ : cs ≠ [])
    (plain : cs.length ≠ 1 → cs.head? ≠ some '0') :
    numberParts negative .endOfValue cs =
      .ok ({ negative, whole := cs, fraction := none, exponent := none }, []) := by
  have taken : Reader.digits cs = .ok (cs, []) := by
    rw [Reader.digits, List.span_eq_takeWhile_dropWhile, List.takeWhile_eq_self_iff.mpr digits,
      List.dropWhile_eq_nil_iff.mpr digits]
  have whole : someDigits .endOfValue cs = .ok (cs, []) := by
    obtain ⟨c, rest, rfl⟩ := List.exists_cons_of_ne_nil some_
    rw [someDigits, bind_of_ok taken]
    rfl
  rw [numberParts, bind_of_ok whole, if_neg fun h => plain h.1 h.2]
  rfl

theorem signedParts_plus {short : Flaw} (unsigned : ∀ c ∈ cs.head?, ¬ c = '-') :
    signedParts short cs = numberParts false short cs := by
  rw [signedParts, get_bind]
  refine congrFun ?_ cs
  split
  · exact absurd rfl (unsigned _ rfl)
  · rfl

theorem signedParts_minus : signedParts .endOfValue ('-' :: cs) = numberParts true .endOfValue cs :=
  rfl

theorem number_text (n : Whole) : number (Number.whole n).text.toList = .ok (.whole n, []) := by
  have digits (c : Char) (mem : c ∈ Nat.toDigits 10 n.val.natAbs) : isDigit c :=
    isDigit_of_mem_toDigits mem
  have plain : (Nat.toDigits 10 n.val.natAbs).length ≠ 1 →
      (Nat.toDigits 10 n.val.natAbs).head? ≠ some '0' := by
    intro long zero
    rw [head?_toDigits zero] at long
    exact long rfl
  have inRange := n.inRange
  simp only [smallestWhole, largestWhole] at inRange
  have absorbed : absorb 0 (Nat.toDigits 10 n.val.natAbs) = (n.val.natAbs, []) := by
    have value : Nat.ofDigitChars 10 (Nat.toDigits 10 n.val.natAbs) 0 = n.val.natAbs :=
      Nat.ofDigitChars_toDigits (by decide) (by decide)
    rw [absorb_all (by omega), value]
  have parts {negative : Bool} : numberParts negative .endOfValue (Nat.toDigits 10 n.val.natAbs) = _ :=
    numberParts_digits digits Nat.toDigits_ne_nil plain
  have whole : Whole.ofInt? n.val = some n := dif_pos n.inRange
  rw [Number.text, String.toList_ofList]
  split
  · next negative =>
    have value : -(n.val.natAbs : Int) = n.val := by omega
    have nonzero : ¬ n.val.natAbs = 0 := by omega
    rw [number, bind_of_ok (signedParts_minus.trans parts)]
    simp only [NumberParts.number?, absorbed, nonzero, if_true, value, whole, Bool.true_and,
      decide_false, Bool.false_eq_true, if_false]
    rfl
  · next positive =>
    have value : (n.val.natAbs : Int) = n.val := by omega
    have unsigned (c : Char) (first : c ∈ (Nat.toDigits 10 n.val.natAbs).head?) : ¬ c = '-' := by
      rintro rfl
      exact absurd (digits _ (List.mem_of_mem_head? first)) (by decide)
    rw [number, bind_of_ok ((signedParts_plus unsigned).trans parts)]
    simp only [NumberParts.number?, absorbed, value, whole, Bool.false_and, Bool.false_eq_true,
      if_false]
    rfl

theorem peek_cons {c : Char} (solid : isBlank c = false) :
    peek (c :: rest) = .ok (some c, c :: rest) := by
  rw [peek, List.dropWhile_cons_of_neg (by simp [solid])]
  rfl

theorem isBlank_of_start {c : Char} (h : c = '-' ∨ isDigit c) : isBlank c = false := by
  cases blank : isBlank c with
  | false => rfl
  | true =>
    simp only [isBlank, Bool.or_eq_true, decide_eq_true_eq] at blank
    rcases blank with ((rfl | rfl) | rfl) | rfl <;> exact absurd h (by decide)

theorem valueWithin_number {fuel depth : Nat} {c : Char} (h : c = '-' ∨ isDigit c) :
    valueWithin (fuel + 1) depth (c :: rest) = (Json.number <$> number) (c :: rest) := by
  rw [valueWithin, bind_of_ok (peek_cons (isBlank_of_start h))]
  refine congrFun ?_ (c :: rest)
  split
  · next none => cases none
  -- No other value starts with a sign or a digit.
  iterate 6
    · next other =>
      cases other
      exact absurd h (by decide)
  · next same =>
    cases same
    exact if_pos h

theorem exists_start (n : Whole) : ∃ c rest,
    (Number.whole n).text.toList = c :: rest ∧ (c = '-' ∨ isDigit c) := by
  rw [Number.text, String.toList_ofList]
  split
  · exact ⟨'-', _, rfl, .inl rfl⟩
  · obtain ⟨c, rest, shape⟩ := List.exists_cons_of_ne_nil (@Nat.toDigits_ne_nil n.val.natAbs 10)
    exact ⟨c, rest, shape, .inr (isDigit_of_mem_toDigits (shape ▸ List.mem_cons_self))⟩

end Json.Reader

theorem Json.read_text (n : Whole) : Json.read (Number.whole n).text = .ok (.number (.whole n)) := by
  obtain ⟨c, rest, shape, start⟩ := Reader.exists_start n
  have number : (Json.number <$> Reader.number) (Number.whole n).text.toList =
      .ok (.number (.whole n), []) := by
    rw [map_eq_pure_bind, Reader.bind_of_ok (Reader.number_text n)]
    rfl
  have value : Reader.value nestingLimit (Number.whole n).text.toList =
      .ok (.number (.whole n), []) := by
    rw [Reader.value, Reader.get_bind, ← number, shape, Reader.valueWithin_number start]
  have whole : (Reader.value nestingLimit <* Reader.ended) (Number.whole n).text.toList =
      .ok (.number (.whole n), []) := by
    rw [seqLeft_eq_bind, Reader.bind_of_ok value]
    rfl
  rw [Json.read, Json.readWithin, whole]

theorem readNumber?_text (n : Whole) :
    Json.readNumber? (Number.whole n).text = some (.whole n) := by
  rw [Json.readNumber?, Json.Reader.number_text]

end Numbers

section Texts

def Solid (text : String) : Prop :=
  ∀ c ∈ text.toList, Text.isBlank c = false

theorem Solid.of_all {text : String} (h : text.toList.all fun c => !Text.isBlank c) : Solid text :=
  not_isBlank_of_all h

theorem Solid.trim {text : String} (h : Solid text) : Text.trim text = text := by
  rw [Text.trim, trimChars_of_solid h, String.ofList_toList]

theorem Solid.append {a b : String} (first : Solid a) (second : Solid b) : Solid (a ++ b) := by
  intro c mem
  rw [String.toList_append] at mem
  exact (List.mem_append.mp mem).elim (first c) (second c)

theorem isBlank_of_mem_toDigits {n : Nat} {c : Char} (mem : c ∈ Nat.toDigits 10 n) :
    Text.isBlank c = false := by
  have own := isDigit_of_mem_toDigits mem
  rw [isDigit] at own
  exact not_isBlank_of_isNameChar (by simp [Token.isNameChar, own])

theorem solid_whole (n : Whole) : Solid (Number.whole n).text := by
  intro c mem
  rw [Number.text, String.toList_ofList] at mem
  split at mem
  · rcases List.mem_cons.mp mem with rfl | mem
    · decide
    · exact isBlank_of_mem_toDigits mem
  · exact isBlank_of_mem_toDigits mem

theorem exists_letter {letters : Vector (Fin 26) 5} {c : Char}
    (mem : c ∈ (capitalLetters letters).toList) : ∃ i : Fin 26, c = Char.ofNat ('A'.toNat + i.val) := by
  simp only [capitalLetters, String.toList_ofList, List.mem_map] at mem
  obtain ⟨i, -, rfl⟩ := mem
  exact ⟨i, rfl⟩

theorem exists_lowerLetter {letters : Vector (Fin 26) 5} {c : Char}
    (mem : c ∈ (Text.asciiLower (capitalLetters letters)).toList) :
    ∃ i : Fin 26, c = (Char.ofNat ('A'.toNat + i.val)).toLower := by
  rw [Text.asciiLower, String.toList_map] at mem
  obtain ⟨c, inside, rfl⟩ := List.mem_map.mp mem
  obtain ⟨i, rfl⟩ := exists_letter inside
  exact ⟨i, rfl⟩

theorem solid_word (letters : Vector (Fin 26) 5) :
    Solid (Text.asciiLower (capitalLetters letters)) := by
  have letter : ∀ i : Fin 26, Text.isBlank (Char.ofNat ('A'.toNat + i.val)).toLower = false := by
    decide
  intro c mem
  obtain ⟨i, rfl⟩ := exists_lowerLetter mem
  exact letter i

theorem randomUrl_solid (scheme : UrlScheme) : (randomUrl scheme).Gives Solid := by
  refine Gen.gives_bind.mpr (Gen.gives_draw.mpr fun host => Gen.gives_value.mpr ?_)
  refine Gen.gives_bind.mpr (Gen.gives_draw.mpr fun path => Gen.gives_value.mpr ?_)
  refine Gen.gives_pure.mpr ?_
  have words (start middle : String) (first : Solid start) (second : Solid middle) :
      Solid (start ++ Text.asciiLower (capitalLetters host) ++ middle
        ++ Text.asciiLower (capitalLetters path)) :=
    ((first.append (solid_word host)).append second).append (solid_word path)
  cases scheme with
  | path => exact words "/" "/" (.of_all rfl) (.of_all rfl)
  | http => exact words "http://" ".com/" (.of_all rfl) (.of_all rfl)
  | https | any => exact words "https://" ".com/" (.of_all rfl) (.of_all rfl)

end Texts

def Value.isText : Value → Bool
  | .null | .string _ => true
  | _ => false

def Rereads (v : Value) : Prop :=
  v.isText ∨ Value.read v.toText = .ok v

theorem rereads_boolean (b : Bool) : Rereads (.boolean b) := by
  cases b <;> exact .inr rfl

theorem rereads_flags (b : Bool) : Rereads (.array [.boolean b]) := by
  have text : (Value.array [.boolean b]).toText = if b then "[true]" else "[false]" := by
    cases b <;> rfl
  have letters : (if b then "[true]" else "[false]").toList =
      if b then ['[', 't', 'r', 'u', 'e', ']'] else ['[', 'f', 'a', 'l', 's', 'e', ']'] := by
    cases b <;> rfl
  refine .inr ?_
  rw [Value.read, text, Json.read, Json.readWithin, letters]
  cases b <;> rfl

theorem Value.toText_number (n : Number) : (Value.number n).toText = n.text :=
  String.ofList_toList

theorem rereads_whole (n : Whole) : Rereads (.number (.whole n)) := by
  refine .inr ?_
  rw [Value.read, Value.toText_number, Json.read_text]
  rfl

def ReadsBack (r : Resolver) (p : Pattern) (v : Value) : Prop :=
  ∀ n, settlesWithin r.types n p →
    ∃ u, p.parseWithin n r v.toText = some (.ok u) ∧ Accepts r p u

section Reading

variable {r : Resolver} {p : Pattern} {v : Value} {n : Nat} {entered : List String}

theorem ReadsBack.of_level (h : ∀ n, settlesWithin r.types (n + 1) p →
    ∃ u, p.parseWithin (n + 1) r v.toText = some (.ok u) ∧ Accepts r p u) : ReadsBack r p v := by
  intro n settles
  cases n with
  | zero => cases settles
  | succ n => exact h n settles

theorem readsBack_number (n : Whole) : ReadsBack r .number (.number (.whole n)) := by
  refine .of_level fun _ _ => ⟨.number (.whole n), ?_, accepts_number.mpr ⟨_, rfl⟩⟩
  rw [Pattern.parseWithin, readNumber, Value.toText_number, (solid_whole n).trim, readNumber?_text]

theorem readsBack_boolean (b : Bool) : ReadsBack r .boolean (.boolean b) := by
  refine .of_level fun _ _ => ⟨.boolean b, ?_, accepts_boolean.mpr ⟨b, rfl⟩⟩
  rw [Pattern.parseWithin]
  cases b <;> rfl

theorem readsBack_url {scheme : UrlScheme} {s : String} (solid : Solid s)
    (ok : scheme.accepts s) : ReadsBack r (.url scheme) (.string s) := by
  refine .of_level fun _ _ => ⟨.string s, ?_, accepts_url.mpr ⟨s, rfl, ok⟩⟩
  rw [Pattern.parseWithin, readUrl, show (Value.string s).toText = s from rfl, solid.trim, if_pos ok]

theorem readsBack_exact (same : v.same v) (some_ : v ≠ .null) (rereads : Rereads v) :
    ReadsBack r (.exact v) v := by
  refine .of_level fun _ _ => ⟨v, ?_, accepts_exact.mpr same⟩
  rw [Pattern.parseWithin]
  cases v with
  | null => exact absurd rfl some_
  | string s => rfl
  | _ =>
    have read := rereads.resolve_left Bool.false_ne_true
    rw [readExact, read]
    · rfl
    · intro _ same
      cases same

theorem readsBack_object {fields : List (String × Pattern)} {traits : ObjectTraits}
    {members : List (String × Value)} (rereads : Rereads (.object members))
    (accepted : Accepts r (.object fields traits) (.object members)) :
    ReadsBack r (.object fields traits) (.object members) := by
  refine .of_level fun _ _ => ⟨.object members, ?_, accepted⟩
  rw [Pattern.parseWithin, readObject, rereads.resolve_left Bool.false_ne_true]

theorem readArray_of_rereads {items : List Value} (rereads : Rereads (.array items)) :
    readArray (Value.array items).toText = .ok (.array items) := by
  rw [readArray, rereads.resolve_left Bool.false_ne_true]

theorem parseWithin_nullable_null {u : Value} {text : String} (h : readNull text = .ok u) :
    Pattern.parseWithin (n + 2) r (.anyOf [.null, p]) text = some (.ok u) := by
  have null : Pattern.parseWithin (n + 1) r .null text = some (.ok u) := congrArg some h
  rw [Pattern.parseWithin]
  simp [firstReading, null]

theorem parseWithin_nullable_other {u : Value} {e : ContractError} {text : String}
    (unread : readNull text = .error e) (read : p.parseWithin (n + 1) r text = some (.ok u)) :
    Pattern.parseWithin (n + 2) r (.anyOf [.null, p]) text = some (.ok u) := by
  have null : Pattern.parseWithin (n + 1) r .null text = some (.error e) := congrArg some unread
  rw [Pattern.parseWithin]
  simp [firstReading, null, read]

theorem readsBack_nullable (guarded : Guarded r.types)
    (registered : Registered r.types (.anyOf [.null, p]))
    (h : v = .null ∨ ReadsBack r p v) : ReadsBack r (.anyOf [.null, p]) v := by
  refine .of_level fun n settles => ?_
  have parts := settlesWithin_succ.mp settles
  obtain ⟨n, rfl⟩ : ∃ k, n = k + 1 := by
    cases n with
    | zero => cases parts .null (.anyOf List.mem_cons_self)
    | succ n => exact ⟨n, rfl⟩
  have either {u : Value} : Accepts r .null u ∨ Accepts r p u → Accepts r (.anyOf [.null, p]) u := by
    intro ok
    refine (accepts_anyOf guarded registered).mpr ?_
    rcases ok with ok | ok
    · exact ⟨.null, by simp, ok⟩
    · exact ⟨p, by simp, ok⟩
  by_cases blank : Text.trim v.toText = "" ∨ Text.trim v.toText = "null"
  · refine ⟨.null, ?_, either (.inl (accepts_null.mpr (.inl rfl)))⟩
    exact parseWithin_nullable_null (by rw [readNull, if_pos blank])
  · have reads : ReadsBack r p v := by
      refine h.resolve_left ?_
      rintro rfl
      exact blank (.inl (by decide))
    obtain ⟨u, read, ok⟩ := reads (n + 1) (parts p (.anyOf (by simp)))
    exact ⟨u, parseWithin_nullable_other (by rw [readNull, if_neg blank]) read,
      either (.inr ok)⟩

theorem readsBack_resolved {name : String} (guarded : Guarded r.types)
    (registered : Registered r.types (.reference name))
    (found : r.resolve (.reference name) = .ok p) (h : ReadsBack r p v) :
    ReadsBack r (.reference name) v := by
  refine .of_level fun n settles => ?_
  have unfolds := guarded.unfolds_of_resolve registered found
  obtain ⟨u, read, ok⟩ := h n (settlesWithin_of_unfoldings settles unfolds)
  refine ⟨u, by simp only [Pattern.parseWithin, found, read], ?_⟩
  rwa [Accepts, Pattern.check_resolved guarded registered found]

theorem ne_nullLiteral_of_resolve {name : String}
    (nulls : ∀ name p, registered? r.types name = some p → p ≠ .exact .null)
    (found : r.resolve (.reference name) = .ok p) : p ≠ .exact .null :=
  Resolver.resolve_induction (motive := fun o => o ≠ .exact .null) found nofun nofun
    fun name o _ named => nulls name o named

theorem generateWithin_null (h : p = .null ∨ p = .exact .null) :
    (p.generateWithin n r entered).Gives fun v => v = .null := by
  cases n with
  | zero => trivial
  | succ n => rcases h with rfl | rfl <;> exact Gen.gives_value.mpr rfl

theorem generateWithin_reads (guarded : Guarded r.types) (row : r.row = none)
    (nulls : ∀ name p, registered? r.types name = some p → p ≠ .exact .null)
    (legible : Legible r.types p) (literal : p ≠ .exact .null) :
    (p.generateWithin n r entered).Gives fun v => Rereads v → ReadsBack r p v := by
  induction n generalizing p entered with
  | zero => trivial
  | succ n ih =>
    have registered := legible.clear.registered
    have accepted : (p.generateWithin (n + 1) r entered).Gives (Accepts r p) :=
      generateWithin_accepted guarded row legible.fillable
    cases p with
    | string =>
      exact fun _ => Gen.gives_value.mpr fun _ =>
        .of_level fun _ _ => ⟨_, rfl, accepts_string.mpr ⟨_, rfl⟩⟩
    | number => exact fun _ => Gen.gives_value.mpr fun _ => readsBack_number _
    | boolean => exact fun b => Gen.gives_value.mpr fun _ => readsBack_boolean b
    | null =>
      exact Gen.gives_value.mpr fun _ =>
        .of_level fun _ _ => ⟨.null, rfl, accepts_null.mpr (.inl rfl)⟩
    | url scheme =>
      refine Gen.gives_map.mpr (((randomUrl_solid scheme).and (randomUrl_accepted scheme)).imp ?_)
      exact fun s ok _ => readsBack_url ok.1 ok.2
    | exact v =>
      refine Gen.gives_value.mpr (readsBack_exact ?_ fun null => literal (null ▸ rfl))
      exact Value.same_of_scalar (legible.arises _ (Reaches.refl _)).scalar
    | repeated inner =>
      refine accepted.imp fun v ok rereads => .of_level fun _ _ => ?_
      obtain ⟨items, rfl, -⟩ := (accepts_sequence guarded registered rfl).mp ok
      exact ⟨.array items, by rw [Pattern.parseWithin, readArray_of_rereads rereads], ok⟩
    | array elements knownAs =>
      refine accepted.imp fun v ok rereads => .of_level fun _ _ => ?_
      obtain ⟨items, rfl, -⟩ := (accepts_sequence guarded registered rfl).mp ok
      exact ⟨.array items, by rw [Pattern.parseWithin, readArray_of_rereads rereads], ok⟩
    | object fields traits =>
      refine accepted.imp fun v ok rereads => ?_
      obtain ⟨members, rfl, -⟩ := (accepts_object guarded registered).mp ok
      exact readsBack_object rereads ok
    | reference name =>
      refine generateWithin_reference_gives fun q found => ?_
      have unfolds := guarded.unfolds_of_resolve registered found
      have below := legible.of_reaches (.of_unfoldings unfolds.to_reflTransGen)
      refine (ih below (ne_nullLiteral_of_resolve nulls found)).imp fun v reads rereads => ?_
      exact readsBack_resolved guarded registered found (reads rereads)
    | anyOf alternatives =>
      obtain ⟨o, rfl, -⟩ := (legible.arises _ (Reaches.refl _)).nullable
      have nullable {v : Value} : (Rereads v → v = .null ∨ ReadsBack r o v) →
          Rereads v → ReadsBack r (.anyOf [.null, o]) v :=
        fun either rereads => readsBack_nullable guarded registered (either rereads)
      refine generateWithin_anyOf_gives fun q mem => ?_
      by_cases null : q = .null ∨ q = .exact .null
      · exact (generateWithin_null null).imp fun v same => nullable fun _ => .inl same
      · obtain rfl : q = o := by simpa [not_or.mp null] using mem
        have below := legible.of_reaches (Unfolds.reaches (.anyOf mem))
        exact (ih below fun same => null (.inr same)).imp fun v reads =>
          nullable fun rereads => .inr (reads rereads)

def Pattern.isPlain : Pattern → Bool
  | .exact (.number n) => n.isWhole
  | .exact (.object _) | .exact (.array _) | .exact (.xml _) => false
  | .repeated .boolean => true
  | .repeated _ | .object _ _ | .array _ _ => false
  | _ => true

theorem rereads_of_plain (plain : (Pattern.exact v).isPlain) : Rereads v := by
  cases v with
  | null | string => exact .inl rfl
  | boolean b => exact rereads_boolean b
  | number m =>
    cases m with
    | whole m => exact rereads_whole m
    | double => cases plain
  | object | array | xml => cases plain

theorem generateWithin_rereads (plain : ∀ q, Reaches r.types p q → q.isPlain) :
    (p.generateWithin n r entered).Gives Rereads := by
  induction n generalizing p entered with
  | zero => trivial
  | succ n ih =>
    have below {q : Pattern} (reach : Reaches r.types p q) {entered : List String} :
        (q.generateWithin n r entered).Gives Rereads :=
      ih fun o more => plain o (reach.trans more)
    have own := plain p (Reaches.refl p)
    cases p with
    | string => exact fun _ => Gen.gives_value.mpr (.inl rfl)
    | number => exact fun _ => Gen.gives_value.mpr (rereads_whole _)
    | boolean => exact fun b => Gen.gives_value.mpr (rereads_boolean b)
    | null => exact Gen.gives_value.mpr (.inl rfl)
    | url scheme => exact Gen.gives_map.mpr (Gen.gives_of_forall fun _ => .inl rfl)
    | exact v => exact Gen.gives_value.mpr (rereads_of_plain own)
    | reference name =>
      refine generateWithin_reference_gives fun q found => ?_
      rcases Resolver.unfoldings_of_resolve found with rfl | chain
      · exact (generateWithin_null (.inl rfl)).imp fun v null => .inl (null ▸ rfl)
      · exact below (.of_unfoldings chain)
    | anyOf alternatives =>
      exact generateWithin_anyOf_gives fun q mem => below (Unfolds.reaches (.anyOf mem))
    | repeated inner =>
      obtain rfl : inner = .boolean := by
        cases inner <;> first | rfl | cases own
      refine Gen.gives_bind.mpr ?_
      cases n with
      | zero => trivial
      | succ n => exact fun b => Gen.gives_pure.mpr (Gen.gives_pure.mpr (rereads_flags b))
    | object | array => cases own

end Reading

end ApiContract
