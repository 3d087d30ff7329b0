import ApiContract.Proofs.Readings
import ApiContract.Proofs.Shapes

set_option autoImplicit false

namespace ApiContract.Json.Reader

section Numbers

variable {α β : Type} {reader : Reader α}

def Closes (rest : List Char) : Prop :=
  ∀ c ∈ rest.head?, c = ',' ∨ c = ']' ∨ c = '\x7d'

theorem Closes.head {c : Char} {rest : List Char} (h : Closes (c :: rest)) :
    c = ',' ∨ c = ']' ∨ c = '\x7d' := h c rfl

/-- A reader that stops where it does at the end of a text also stops before what closes it. -/
structure Stops (reader : Reader α) : Prop where
  of_ok : ∀ {cs a left rest}, Closes rest → reader cs = .ok (a, left) →
    reader (cs ++ rest) = .ok (a, left ++ rest)

theorem stops_pure {a : α} : Stops (pure a : Reader α) where
  of_ok _ read := by
    cases read
    rfl

theorem stops_fail {flaw : Flaw} : Stops (fail flaw : Reader α) where
  of_ok _ read := nomatch read

theorem Stops.bind {f : α → Reader β} (first : Stops reader) (next : ∀ a, Stops (f a)) :
    Stops (reader >>= f) where
  of_ok closes read := by
    obtain ⟨⟨a, left⟩, taken, done⟩ := Except.bind_eq_ok.mp read
    rw [bind_of_ok (first.of_ok closes taken)]
    exact (next a).of_ok closes done

theorem Stops.map {f : α → β} (h : Stops reader) : Stops (f <$> reader) := by
  rw [map_eq_pure_bind]
  exact h.bind fun _ => stops_pure

theorem stops_digits : Stops digits where
  of_ok {cs ds left rest} closes read := by
    rw [digits, List.span_eq_takeWhile_dropWhile] at read ⊢
    cases read
    -- The digits end within the text, or where it does.
    have closed : rest.takeWhile isDigit = [] ∧ rest.dropWhile isDigit = rest := by
      cases rest with
      | nil => exact ⟨rfl, rfl⟩
      | cons c more =>
        have other : ¬ isDigit c := by
          rcases closes.head with rfl | rfl | rfl <;> decide
        exact ⟨List.takeWhile_cons_of_neg other, List.dropWhile_cons_of_neg other⟩
    have cut : (cs ++ rest).takeWhile isDigit = cs.takeWhile isDigit ∧
        (cs ++ rest).dropWhile isDigit = cs.dropWhile isDigit ++ rest := by
      induction cs with
      | nil => exact closed
      | cons c more ih =>
        by_cases digit : isDigit c <;> simp [digit, ih]
    rw [cut.1, cut.2]

theorem stops_someDigits {short : Flaw} : Stops (someDigits short) := by
  apply stops_digits.bind
  intro ds
  cases ds with
  | nil =>
    -- Without a digit nothing is read.
    refine ⟨fun {cs} _ _ _ _ read => ?_⟩
    cases cs <;> cases read
  | cons => exact stops_pure

theorem Stops.choice (p : Char → Prop) (first : Char → Reader α) (other : Reader α)
    (taken : ∀ c cs, p c → reader (c :: cs) = first c cs)
    (passed : ∀ cs, (∀ c ∈ cs.head?, ¬ p c) → reader cs = other cs)
    (apart : ¬ p ',' ∧ ¬ p ']' ∧ ¬ p '\x7d')
    (own : ∀ c, Stops (first c)) (others : Stops other) : Stops reader where
  of_ok {cs a left rest} closes read := by
    cases cs with
    | nil =>
      rw [passed [] nofun] at read
      refine (passed rest fun c head => ?_).trans (others.of_ok closes read)
      rcases closes c head with rfl | rfl | rfl
      exacts [apart.1, apart.2.1, apart.2.2]
    | cons c cs =>
      by_cases chosen : p c
      · rw [taken c cs chosen] at read
        exact (taken c (cs ++ rest) chosen).trans ((own c).of_ok closes read)
      · have other_ {cs : List Char} : ∀ d ∈ (c :: cs).head?, ¬ p d := by
          rintro d ⟨⟩
          exact chosen
        rw [passed _ other_] at read
        exact (passed (c :: (cs ++ rest)) other_).trans (others.of_ok closes read)

theorem stops_exponentSign : Stops exponentSign := by
  refine Stops.choice (fun c => c = '+' ∨ c = '-') (fun c => pure (c = '-')) (pure false)
    ?_ ?_ (by decide) (fun _ => stops_pure) stops_pure
  · rintro c cs (rfl | rfl) <;> rfl
  · intro cs unsigned
    rw [exponentSign, get_bind]
    refine congrFun ?_ cs
    split
    · exact absurd (.inl rfl) (unsigned _ rfl)
    · exact absurd (.inr rfl) (unsigned _ rfl)
    · rfl

theorem stops_fraction {short : Flaw} {next : Option (List Char) → Reader β}
    (h : ∀ fraction, Stops (next fraction)) :
    Stops (get >>= fun cs => match cs with
      | '.' :: rest => set rest >>= fun _ => (some <$> someDigits short) >>= next
      | _ => pure none >>= next) := by
  refine Stops.choice (fun c => c = '.') (fun _ => (some <$> someDigits short) >>= next)
    (next none) ?_ ?_ (by decide) (fun _ => stops_someDigits.map.bind h) (h none)
  · rintro c cs rfl
    rfl
  · intro cs none_
    rw [get_bind]
    refine congrFun ?_ cs
    split
    · exact absurd rfl (none_ _ rfl)
    · rfl

theorem stops_numberParts {negative : Bool} {short : Flaw} :
    Stops (numberParts negative short) := by
  apply stops_someDigits.bind
  intro whole
  by_cases padded : whole.length ≠ 1 ∧ whole.head? = some '0'
  · simp only [if_pos padded]
    exact ⟨nofun⟩
  · simp only [if_neg padded]
    refine stops_fraction fun fraction => ?_
    refine Stops.choice (fun c => c = 'e' ∨ c = 'E')
      (fun _ => exponentSign >>= fun below => someDigits short >>= fun ds => pure
        ⟨negative, whole, fraction, some (if below then -(naturalOf ds : Int) else naturalOf ds)⟩)
      (pure ⟨negative, whole, fraction, none⟩) ?_ ?_ (by decide) ?_ stops_pure
    · intro c cs e
      rw [get_bind]
      dsimp only
      rw [if_pos e]
      rfl
    · intro cs none_
      rw [get_bind]
      split
      · next c rest =>
        rw [if_neg (none_ c rfl)]
        rfl
      · rfl
    · exact fun _ => stops_exponentSign.bind fun _ => stops_someDigits.bind fun _ => stops_pure

theorem stops_number : Stops number := by
  have parts : Stops (signedParts .endOfValue) := by
    refine Stops.choice (fun c => c = '-') (fun _ => numberParts true .endOfValue)
      (numberParts false .endOfValue) ?_ ?_ (by decide) (fun _ => stops_numberParts)
      stops_numberParts
    · rintro c cs rfl
      rfl
    · exact fun cs unsigned => signedParts_plus unsigned
  apply parts.bind
  intro parts
  cases parts.number? with
  | none => exact stops_fail
  | some n => exact stops_pure

end Numbers

section Texts

variable {c : Char} {chars rest : List Char} {fuel : Nat}

theorem fourHex_control {n : Nat} (control : n < 32) :
    fourHex ('0' :: '0' :: hexDigit (n / 16) :: hexDigit n :: rest) = .ok (n, rest) := by
  have digits : ∀ n : Fin 32, hexValue? (hexDigit (n.val / 16)) = some (n.val / 16) ∧
      hexValue? (hexDigit n.val) = some (n.val % 16) ∧
      ¬ (String.ofList ['0', '0', hexDigit (n.val / 16), hexDigit n.val]).utf8ByteSize < 4 := by
    decide
  obtain ⟨high, low, bytes⟩ := digits ⟨n, control⟩
  dsimp only at high low bytes
  have zero : hexValue? '0' = some 0 := by decide
  have taken : ('0' :: '0' :: hexDigit (n / 16) :: hexDigit n :: rest).take 4 =
      ['0', '0', hexDigit (n / 16), hexDigit n] := rfl
  have value : ((0 * 16 + 0) * 16 + n / 16) * 16 + n % 16 = n := by omega
  rw [fourHex, get_bind, taken, if_neg bytes]
  simp only [zero, high, low, value]
  rfl

theorem unicodeEscape_control (control : c.toNat < 32) :
    unicodeEscape ('0' :: '0' :: hexDigit (c.toNat / 16) :: hexDigit c.toNat :: rest) =
      .ok (c, rest) := by
  rw [unicodeEscape, bind_of_ok (fourHex_control control), if_neg (by omega), if_pos (by omega),
    Char.ofNat_toNat]
  rfl

theorem textWithin_unicode {unicode : Reader Char} :
    textWithin unicode (fuel + 1) ('\\' :: 'u' :: rest) =
      (unicode >>= fun c => (c :: ·) <$> textWithin unicode fuel) rest :=
  rfl

theorem textWithin_plain {c : Char} (quote : c ≠ '"') (slash : c ≠ '\\') (plain : ¬ c.toNat < 32) :
    textWithin unicodeEscape (fuel + 1) (c :: rest) =
      ((c :: ·) <$> textWithin unicodeEscape fuel) rest := by
  rw [textWithin, get_bind]
  generalize same : c :: rest = cs
  split
  · cases same
  · cases same
    exact absurd rfl quote
  iterate 3
    · cases same
      exact absurd rfl slash
  · cases same
    dsimp only
    rw [if_neg plain]
    rfl

theorem textWithin_escaped : textWithin unicodeEscape (fuel + 1) (escapeChar c ++ rest) =
    ((c :: ·) <$> textWithin unicodeEscape fuel) rest := by
  have control {n : Nat} (h : c.toNat = n) : c = Char.ofNat n := by
    rw [← h, Char.ofNat_toNat]
  unfold escapeChar
  split_ifs with quote slash back page line home tab low
  · subst quote
    rfl
  · subst slash
    rfl
  · rw [control back]
    rfl
  · rw [control page]
    rfl
  · subst line
    rfl
  · subst home
    rfl
  · subst tab
    rfl
  · simp only [List.cons_append, List.nil_append]
    rw [textWithin_unicode, bind_of_ok (unicodeEscape_control low)]
  · exact textWithin_plain quote slash low

theorem textWithin_quoted (enough : chars.length < fuel) :
    textWithin unicodeEscape fuel (chars.flatMap escapeChar ++ '"' :: rest) =
      .ok (chars, rest) := by
  induction chars generalizing fuel with
  | nil =>
    obtain ⟨fuel, rfl⟩ := Nat.exists_eq_succ_of_ne_zero (Nat.ne_zero_of_lt enough)
    rfl
  | cons c more ih =>
    obtain ⟨fuel, rfl⟩ := Nat.exists_eq_succ_of_ne_zero (Nat.ne_zero_of_lt enough)
    rw [List.flatMap_cons, List.append_assoc, textWithin_escaped, map_eq_pure_bind,
      bind_of_ok (ih (Nat.lt_of_succ_lt_succ enough))]
    rfl

theorem length_le_escaped : chars.length ≤ (chars.flatMap escapeChar).length := by
  induction chars with
  | nil => exact Nat.le_refl 0
  | cons c more ih =>
    have some_ : 1 ≤ (escapeChar c).length := by
      unfold escapeChar
      split_ifs <;> simp
    rw [List.flatMap_cons, List.length_append, List.length_cons]
    omega

theorem text_quoted (s : String) :
    text (s.toList.flatMap escapeChar ++ '"' :: rest) = .ok (s, rest) := by
  have enough : s.toList.length < (s.toList.flatMap escapeChar ++ '"' :: rest).length + 1 := by
    rw [List.length_append]
    exact Nat.lt_succ_of_le (Nat.le_add_right_of_le length_le_escaped)
  rw [text, get_bind, bind_of_ok (textWithin_quoted enough), String.ofList_toList]
  rfl

end Texts

section Documents

variable {α : Type} {item : Reader Json} {reader : Reader α} {cs rest : List Char} {a : α}
  {fuel depth i : Nat} {first : Bool} {texts : List (List Char)}

def Reads (reader : Reader α) (cs : List Char) (a : α) : Prop :=
  ∀ rest, Closes rest → reader (cs ++ rest) = .ok (a, rest)

def Opens (cs : List Char) : Prop :=
  ∃ c more, cs = c :: more ∧ isBlank c = false ∧ c ≠ ']'

theorem Opens.ne_nil (opens : Opens cs) : cs ≠ [] := by
  obtain ⟨c, more, rfl, -⟩ := opens
  exact List.cons_ne_nil c more

theorem advance_cons {c : Char} : advance (c :: cs) = .ok ((), cs) :=
  rfl

def separated : Bool → List (List Char) → List Char
  | _, [] => []
  | true, cs :: more => cs ++ separated false more
  | false, cs :: more => ',' :: cs ++ separated false more

theorem closes_bracket : Closes (separated false texts ++ ']' :: rest) := by
  cases texts <;> rintro c ⟨⟩
  · exact .inr (.inl rfl)
  · exact .inl rfl

theorem closes_brace : Closes (separated false texts ++ '\x7d' :: rest) := by
  cases texts <;> rintro c ⟨⟩
  · exact .inr (.inr rfl)
  · exact .inl rfl

theorem compactItems_eq (items : List Json) :
    compactItems items = separated true (items.map compactChars) := by
  have later (j : Json) (more : List Json) :
      compactItems (j :: more) = compactChars j ++ separated false (more.map compactChars) := by
    induction more generalizing j with
    | nil => simp [compactItems, separated]
    | cons k more ih =>
      rw [compactItems, ih]
      · rfl
      · exact nofun
  cases items with
  | nil => rfl
  | cons j more => exact later j more

def memberChars (member : String × Json) : List Char :=
  quoted member.1 ++ ':' :: compactChars member.2

theorem compactMembers_eq (members : List (String × Json)) :
    compactMembers members = separated true (members.map memberChars) := by
  have later (member : String × Json) (more : List (String × Json)) :
      compactMembers (member :: more) =
        memberChars member ++ separated false (more.map memberChars) := by
    induction more generalizing member with
    | nil => simp [compactMembers, separated, memberChars]
    | cons other more ih =>
      rw [compactMembers, ih]
      · simp [memberChars, separated]
      · exact nofun
  cases members with
  | nil => rfl
  | cons member more => exact later member more

theorem nextElement_opens (opens : Opens cs) :
    nextElement first (separated first (cs :: texts) ++ rest) =
      .ok (true, cs ++ (separated false texts ++ rest)) := by
  obtain ⟨c, more, rfl, solid, other⟩ := opens
  have peeked (cs : List Char) : peek (c :: cs) = .ok (some c, c :: cs) := peek_cons solid
  cases first with
  | true =>
    rw [separated, List.append_assoc, nextElement, List.cons_append, bind_of_ok (peeked _)]
    generalize same : some c = head
    split
    · cases same
    · cases same
      exact absurd rfl other
    · rfl
  | false =>
    rw [separated, List.append_assoc, List.cons_append, List.cons_append, nextElement,
      bind_of_ok (peek_cons rfl)]
    change (advance >>= fun _ => peek >>= _) (',' :: c :: _) = _
    rw [bind_of_ok advance_cons, bind_of_ok (peeked _)]
    generalize same : some c = head
    split
    · cases same
    · cases same
      exact absurd rfl other
    · rfl

theorem under_of_ok {step : Step} (h : reader cs = .ok (a, rest)) :
    under step reader cs = .ok (a, rest) := by
  rw [under, h]

theorem elements_printed {items : List Json}
    (each : ∀ j ∈ items, Opens (compactChars j) ∧ Reads item (compactChars j) j)
    (enough : items.length < fuel) :
    elements item fuel i first (separated first (items.map compactChars) ++ ']' :: rest) =
      .ok (items, rest) := by
  obtain ⟨fuel, rfl⟩ := Nat.exists_eq_succ_of_ne_zero (Nat.ne_zero_of_lt enough)
  induction items generalizing fuel i first with
  | nil => cases first <;> rfl
  | cons j more ih =>
    obtain ⟨⟨opens, reads⟩, later⟩ := List.forall_mem_cons.mp each
    have enough := Nat.lt_of_succ_lt_succ enough
    obtain ⟨fuel, rfl⟩ := Nat.exists_eq_succ_of_ne_zero (Nat.ne_zero_of_lt enough)
    rw [List.map_cons, elements, bind_of_ok (nextElement_opens opens), if_pos rfl,
      bind_of_ok (under_of_ok (reads _ closes_bracket)), bind_of_ok (ih later fuel enough)]
    rfl

theorem nextKey_quoted {key : String} :
    nextKey first (separated first ((quoted key ++ cs) :: texts) ++ rest) =
      .ok (some key, cs ++ (separated false texts ++ rest)) := by
  have read (rest : List Char) : (some <$> text) (key.toList.flatMap escapeChar ++ '"' :: rest) =
      .ok (some key, rest) := by
    rw [map_eq_pure_bind, bind_of_ok (text_quoted key)]
    rfl
  have whole : separated false ((quoted key ++ cs) :: texts) ++ rest =
      ',' :: '"' :: (key.toList.flatMap escapeChar ++
        '"' :: (cs ++ (separated false texts ++ rest))) := by
    simp [separated, quoted]
  cases first with
  | true =>
    have same : separated true ((quoted key ++ cs) :: texts) ++ rest =
        (separated false ((quoted key ++ cs) :: texts) ++ rest).tail := rfl
    rw [same, whole]
    exact read _
  | false =>
    rw [whole]
    exact read _

theorem members_printed {value : Reader Json} {ms : List (String × Json)}
    (each : ∀ m ∈ ms, Reads value (compactChars m.2) m.2) (enough : ms.length < fuel) :
    members value fuel first (separated first (ms.map memberChars) ++ '\x7d' :: rest) =
      .ok (ms, rest) := by
  obtain ⟨fuel, rfl⟩ := Nat.exists_eq_succ_of_ne_zero (Nat.ne_zero_of_lt enough)
  induction ms generalizing fuel first with
  | nil => cases first <;> rfl
  | cons m more ih =>
    obtain ⟨reads, later⟩ := List.forall_mem_cons.mp each
    have enough := Nat.lt_of_succ_lt_succ enough
    obtain ⟨fuel, rfl⟩ := Nat.exists_eq_succ_of_ne_zero (Nat.ne_zero_of_lt enough)
    have behind {cs : List Char} : colon (':' :: cs) = .ok ((), cs) := rfl
    rw [List.map_cons, members, memberChars, bind_of_ok (under_of_ok nextKey_quoted),
      List.cons_append]
    change (colon >>= fun _ => under (.key m.1) value >>= _) (':' :: _) = _
    rw [bind_of_ok behind, bind_of_ok (under_of_ok (reads _ closes_brace)),
      bind_of_ok (ih later fuel enough)]
    rfl

theorem reads_array {items : List Json}
    (each : ∀ j ∈ items, Opens (compactChars j) ∧ Reads (valueWithin fuel depth) (compactChars j) j)
    (enough : items.length < fuel) :
    Reads (valueWithin (fuel + 1) (depth + 1)) (compactChars (.array items)) (.array items) := by
  intro rest _
  have read : (Json.array <$> elements (valueWithin fuel depth) fuel 0 true)
      (compactItems items ++ ']' :: rest) = .ok (.array items, rest) := by
    rw [map_eq_pure_bind, compactItems_eq, bind_of_ok (elements_printed each enough)]
    rfl
  rw [compactChars, List.append_assoc, List.cons_append, List.singleton_append]
  exact read

theorem reads_object {ms : List (String × Json)} (distinct : Entries.Distinct ms)
    (each : ∀ m ∈ ms, Reads (valueWithin fuel depth) (compactChars m.2) m.2)
    (enough : ms.length < fuel) :
    Reads (valueWithin (fuel + 1) (depth + 1)) (compactChars (.object ms)) (.object ms) := by
  intro rest _
  have read : ((Json.object ∘ Entries.ofList) <$> members (valueWithin fuel depth) fuel true)
      (compactMembers ms ++ '\x7d' :: rest) = .ok (.object ms, rest) := by
    rw [map_eq_pure_bind, compactMembers_eq, bind_of_ok (members_printed each enough),
      Function.comp_apply, Entries.ofList_of_distinct distinct]
    rfl
  rw [compactChars, List.append_assoc, List.cons_append, List.singleton_append]
  exact read

theorem exists_numberStart {n : Number} (h : number cs = .ok (n, rest)) :
    ∃ c more, cs = c :: more ∧ (c = '-' ∨ isDigit c) := by
  obtain ⟨⟨parts, left⟩, taken, -⟩ := Except.bind_eq_ok.mp h
  cases cs with
  | nil => cases taken
  | cons c more =>
    refine ⟨c, more, rfl, or_iff_not_imp_left.mpr fun unsigned => ?_⟩
    by_contra other
    have none_ : digits (c :: more) = .ok ([], c :: more) := by
      rw [digits, List.span_eq_takeWhile_dropWhile, List.takeWhile_cons_of_neg other,
        List.dropWhile_cons_of_neg other]
    have plus : signedParts .endOfValue (c :: more) = numberParts false .endOfValue (c :: more) :=
      signedParts_plus (by rintro d ⟨⟩; exact unsigned)
    rw [plus] at taken
    obtain ⟨_, whole, -⟩ := Except.bind_eq_ok.mp taken
    rw [someDigits, bind_of_ok none_] at whole
    cases whole

theorem length_le_separated {β : Type} {items : List β} {f : β → List Char} (first : Bool)
    (h : ∀ b ∈ items, f b ≠ []) : items.length ≤ (separated first (items.map f)).length ∧
      ∀ b ∈ items, (f b).length ≤ (separated first (items.map f)).length := by
  induction items generalizing first with
  | nil => exact ⟨Nat.zero_le _, nofun⟩
  | cons a more ih =>
    obtain ⟨own, others⟩ := List.forall_mem_cons.mp h
    obtain ⟨count, each⟩ := ih false others
    have some_ := List.length_pos_iff.mpr own
    have whole : (f a).length + (separated false (more.map f)).length ≤
        (separated first ((a :: more).map f)).length := by
      cases first <;> simp [separated]
    refine ⟨?_, List.forall_mem_cons.mpr ⟨?_, fun b mem => ?_⟩⟩
    · rw [List.length_cons]
      omega
    · omega
    · have := each b mem
      omega

end Documents

end ApiContract.Json.Reader

namespace ApiContract.Json

open Reader

inductive Printable : Nat → Json → Prop
  | null {depth : Nat} : Printable depth .null
  | bool {depth : Nat} (b : Bool) : Printable depth (.bool b)
  | number {depth : Nat} {n : Number} (read : readNumber? n.text = some n) :
      Printable depth (.number n)
  | string {depth : Nat} (s : String) : Printable depth (.string s)
  | array {depth : Nat} {items : List Json} (each : ∀ item ∈ items, Printable depth item) :
      Printable (depth + 1) (.array items)
  | object {depth : Nat} {members : List (String × Json)} (distinct : Entries.Distinct members)
      (each : ∀ member ∈ members, Printable depth member.2) :
      Printable (depth + 1) (.object members)

namespace Printable

variable {json : Json} {depth fuel : Nat}

theorem number_of_text {n : Number} (h : readNumber? n.text = some n) :
    Reader.number n.text.toList = .ok (n, []) := by
  unfold readNumber? at h
  split at h
  · next read =>
    cases h
    exact read
  · cases h

theorem opens (h : Printable depth json) : Opens (compactChars json) := by
  cases h with
  | number read =>
    obtain ⟨c, more, shape, start⟩ := exists_numberStart (number_of_text read)
    refine ⟨c, more, shape, isBlank_of_start start, ?_⟩
    rintro rfl
    exact absurd start (by decide)
  | bool b => cases b <;> exact ⟨_, _, rfl, by decide, by decide⟩
  | _ => exact ⟨_, _, rfl, by decide, by decide⟩

theorem reads (h : Printable depth json) (enough : (compactChars json).length ≤ fuel) :
    Reads (valueWithin (fuel + 1) depth) (compactChars json) json := by
  induction h generalizing fuel with
  | null => exact fun _ _ => rfl
  | bool b => cases b <;> exact fun _ _ => rfl
  | number read =>
    intro rest closes
    have taken := number_of_text read
    obtain ⟨c, more, shape, start⟩ := exists_numberStart taken
    have whole := stops_number.of_ok closes taken
    rw [compactChars, shape, List.cons_append] at *
    rw [valueWithin_number start, map_eq_pure_bind, bind_of_ok whole]
    rfl
  | string s =>
    intro rest _
    have read : (text >>= fun s => pure (Json.string s))
        (s.toList.flatMap escapeChar ++ '"' :: rest) = .ok (.string s, rest) := by
      rw [bind_of_ok (text_quoted s)]
      rfl
    rw [compactChars, quoted, List.append_assoc, List.cons_append, List.singleton_append]
    exact read
  | @array depth items each ih =>
    -- Each element takes a character at least, and is shorter than the whole by its brackets.
    rw [compactChars, compactItems_eq, List.length_append, List.length_cons] at enough
    obtain ⟨fuel, rfl⟩ : ∃ k, fuel = k + 1 := Nat.exists_eq_succ_of_ne_zero (by omega)
    obtain ⟨count, sizes⟩ := length_le_separated true fun j mem => (each j mem).opens.ne_nil
    refine reads_array (fun j mem => ⟨(each j mem).opens, ih j mem ?_⟩) (by omega)
    have := sizes j mem
    omega
  | @object depth members distinct each ih =>
    rw [compactChars, compactMembers_eq, List.length_append, List.length_cons] at enough
    obtain ⟨fuel, rfl⟩ : ∃ k, fuel = k + 1 := Nat.exists_eq_succ_of_ne_zero (by omega)
    have some_ (m : String × Json) (_ : m ∈ members) : memberChars m ≠ [] := nofun
    obtain ⟨count, sizes⟩ := length_le_separated true some_
    refine reads_object distinct (fun m mem => ih m mem ?_) (by omega)
    have := sizes m mem
    simp only [memberChars, List.length_append, List.length_cons] at this
    omega

end Printable

theorem read_compact {json : Json} (h : Printable nestingLimit json) :
    read json.compact = .ok json := by
  have value : Reader.value nestingLimit (compactChars json) = .ok (json, []) := by
    have reads := h.reads (Nat.le_refl _) [] nofun
    rw [List.append_nil] at reads
    rw [Reader.value, get_bind, reads]
  have whole : (Reader.value nestingLimit <* ended) (compactChars json) = .ok (json, []) := by
    rw [seqLeft_eq_bind, bind_of_ok value]
    rfl
  rw [read, readWithin, compact, String.toList_ofList, whole]

end ApiContract.Json

namespace ApiContract

inductive Value.Ordinary : Value → Prop
  | null : Ordinary .null
  | boolean (b : Bool) : Ordinary (.boolean b)
  | number {n : Number} (read : Json.readNumber? n.text = some n) : Ordinary (.number n)
  | string (s : String) : Ordinary (.string s)
  | array {items : List Value} (each : ∀ item ∈ items, Ordinary item) : Ordinary (.array items)
  | object {members : List (String × Value)} (distinct : Entries.Distinct members)
      (each : ∀ member ∈ members, Ordinary member.2) : Ordinary (.object members)

namespace Value

variable {v : Value}

theorem toJsonItems_eq (items : List Value) : toJsonItems items = items.map toJson := by
  induction items with
  | nil => rfl
  | cons item rest ih => rw [toJsonItems, ih, List.map_cons]

theorem toJsonMembers_eq (members : List (String × Value)) :
    toJsonMembers members = Entries.mapValues toJson members := by
  induction members with
  | nil => rfl
  | cons member rest ih =>
    rw [toJsonMembers, ih]
    rfl

namespace Ordinary

theorem isData (h : v.Ordinary) : v.isData := by
  induction h with
  | array _ ih => exact isDataItems_iff.mpr ih
  | object distinct _ ih =>
    exact Bool.and_eq_true_iff.mpr ⟨decide_eq_true distinct, isDataMembers_iff.mpr ih⟩
  | _ => rfl

theorem printable (h : v.Ordinary) {depth : Nat} (shallow : v.depth ≤ depth) :
    Json.Printable depth v.toJson := by
  induction h generalizing depth with
  | null => exact .null
  | boolean b => exact .bool b
  | number read => exact .number read
  | string s => exact .string s
  | array each ih =>
    obtain ⟨depth, rfl⟩ := Nat.exists_eq_succ_of_ne_zero (Nat.ne_zero_of_lt shallow)
    rw [toJson, toJsonItems_eq]
    refine .array fun j mem => ?_
    obtain ⟨item, there, rfl⟩ := List.mem_map.mp mem
    exact ih item there (Nat.le_trans (depth_le_depthItems there) (Nat.le_of_succ_le_succ shallow))
  | object distinct each ih =>
    obtain ⟨depth, rfl⟩ := Nat.exists_eq_succ_of_ne_zero (Nat.ne_zero_of_lt shallow)
    rw [toJson, toJsonMembers_eq]
    refine .object (Entries.distinct_mapValues.mpr distinct) fun m mem => ?_
    obtain ⟨member, there, rfl⟩ := List.mem_map.mp mem
    exact ih member there
      (Nat.le_trans (depth_le_depthMembers there) (Nat.le_of_succ_le_succ shallow))

theorem rereads (h : v.Ordinary) (shallow : v.depth ≤ Json.nestingLimit) : Rereads v := by
  have read : Json.read v.toJson.compact = .ok v.toJson := Json.read_compact (h.printable shallow)
  have back : ofJson v.toJson = v := ofJson_toJson v h.isData
  cases h with
  | null | string => exact .inl rfl
  | _ =>
    refine .inr ?_
    change Value.read (toJson _).compact = _
    rw [Value.read, read]
    exact congrArg Except.ok back

theorem of_plain (plain : (Pattern.exact v).isPlain) : v.Ordinary := by
  cases v with
  | null => exact .null
  | boolean b => exact .boolean b
  | string s => exact .string s
  | number n =>
    cases n with
    | whole n => exact .number (readNumber?_text n)
    | double => cases plain
  | object | array | xml => cases plain

end Ordinary

end Value

section Generation

variable {r : Resolver} {p : Pattern} {n : Nat} {entered : List String}

theorem generateWithin_ordinary (row : r.row = none)
    (literals : ∀ v, Reaches r.types p (.exact v) → v.Ordinary) :
    (p.generateWithin n r entered).Gives Value.Ordinary := by
  induction n generalizing p entered with
  | zero => trivial
  | succ n ih =>
    have below {q : Pattern} (reach : Reaches r.types p q) {entered : List String} :
        (q.generateWithin n r entered).Gives Value.Ordinary :=
      ih fun v more => literals v (reach.trans more)
    cases p with
    | string => exact fun _ => Gen.gives_value.mpr (.string _)
    | number => exact fun _ => Gen.gives_value.mpr (.number (readNumber?_text _))
    | boolean => exact fun b => Gen.gives_value.mpr (.boolean b)
    | null => exact Gen.gives_value.mpr .null
    | url scheme => exact Gen.gives_map.mpr (Gen.gives_of_forall fun _ => .string _)
    | exact v => exact Gen.gives_value.mpr (literals v (Reaches.refl _))
    | repeated inner =>
      refine Gen.gives_bind.mpr ((below (Part.reaches .inner)).imp fun v own => ?_)
      exact Gen.gives_value.mpr (.array (by simpa using own))
    | reference name =>
      refine generateWithin_reference_gives fun q found => ?_
      rcases Resolver.unfoldings_of_resolve found with rfl | chain
      · exact (generateWithin_null (.inl rfl)).imp fun v null => null ▸ .null
      · exact below (.of_unfoldings chain)
    | anyOf alternatives =>
      exact generateWithin_anyOf_gives fun q mem => below (Unfolds.reaches (.anyOf mem))
    | object fields traits =>
      rw [generateWithin_object row]
      have filled : (generateFields (generateField (Pattern.generateWithin n r entered)) fields
          []).Gives (Fills (fun _ v => v.Ordinary) fields) :=
        generateFields_gives Fills.nil fun field mem =>
          generateField_gives (below (Part.reaches (.field mem)))
      refine Gen.gives_map.mpr (filled.imp fun members filled => ?_)
      refine .object filled.distinct fun member mem => ?_
      obtain ⟨field, -, -, own⟩ := filled.declared member mem
      exact own
    | array elements knownAs =>
      have drawn : (generateElements (Pattern.generateWithin n r entered) 0 elements).Gives
          (List.Forall₂ (fun _ v => v.Ordinary) elements) := by
        refine generateElements_gives (Q := fun _ v => v.Ordinary) fun q mem => ?_
        cases q with
        | repeated inner => exact below (Part.reaches (.tail mem))
        | _ => exact below (Part.reaches (.element mem))
      refine Gen.gives_map.mpr (drawn.imp fun items each => .array fun item mem => ?_)
      obtain ⟨q, -, own⟩ := exists_of_forall₂_mem each mem
      exact own

end Generation

end ApiContract
