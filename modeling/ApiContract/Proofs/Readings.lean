import ApiContract.Proofs.Bounds
import ApiContract.Proofs.Data
import ApiContract.Proofs.Rereading

set_option autoImplicit false

namespace ApiContract

namespace Json.Reader

variable {α β : Type} {reader : Reader α}

structure Leaves (reader : Reader α) : Prop where
  of_ok : ∀ {cs a rest}, reader cs = .ok (a, rest) → rest <:+ cs

theorem leaves_pure {a : α} : Leaves (pure a : Reader α) where
  of_ok read := by
    cases read
    exact List.suffix_refl _

theorem leaves_fail {flaw : Flaw} : Leaves (fail flaw : Reader α) where
  of_ok read := nomatch read

theorem Leaves.bind {f : α → Reader β} (first : Leaves reader) (next : ∀ a, Leaves (f a)) :
    Leaves (reader >>= f) where
  of_ok read := by
    obtain ⟨⟨a, left⟩, taken, done⟩ := Except.bind_eq_ok.mp read
    exact ((next a).of_ok done).trans (first.of_ok taken)

theorem Leaves.map {f : α → β} (h : Leaves reader) : Leaves (f <$> reader) := by
  rw [map_eq_pure_bind]
  exact h.bind fun _ => leaves_pure

theorem leaves_ahead {f : List Char → Reader β}
    (h : ∀ {cs b rest}, f cs cs = .ok (b, rest) → rest <:+ cs) : Leaves (get >>= f) where
  of_ok read := h (get_bind.symm.trans read)

theorem leaves_set {c : Char} {rest : List Char} {next : Reader β} (h : Leaves next) {b : β}
    {cs left : List Char} (read : (set rest >>= fun _ => next) cs = .ok (b, left)) :
    left <:+ c :: rest :=
  (show left <:+ rest from h.of_ok read).trans (List.suffix_cons c rest)

theorem leaves_digits : Leaves digits where
  of_ok {cs ds rest} read := by
    rw [digits, List.span_eq_takeWhile_dropWhile] at read
    cases read
    exact List.dropWhile_suffix _

theorem leaves_someDigits {short : Flaw} : Leaves (someDigits short) := by
  apply leaves_digits.bind
  intro ds
  cases ds with
  | nil =>
    apply leaves_ahead
    intro cs b rest read
    split at read <;> cases read
  | cons => exact leaves_pure

theorem leaves_exponentSign : Leaves exponentSign := by
  apply leaves_ahead
  intro cs b rest read
  split at read
  · exact leaves_set leaves_pure read
  · exact leaves_set leaves_pure read
  · exact leaves_pure.of_ok read

theorem leaves_fraction {short : Flaw} {next : Option (List Char) → Reader β}
    (h : ∀ fraction, Leaves (next fraction)) :
    Leaves (get >>= fun cs => match cs with
      | '.' :: rest => set rest >>= fun _ => (some <$> someDigits short) >>= next
      | _ => pure none >>= next) := by
  apply leaves_ahead
  intro cs b rest read
  split at read
  · exact leaves_set (leaves_someDigits.map.bind h) read
  · exact (leaves_pure.bind h).of_ok read

theorem leaves_numberParts {negative : Bool} {short : Flaw} :
    Leaves (numberParts negative short) := by
  apply leaves_someDigits.bind
  intro whole
  by_cases padded : whole.length ≠ 1 ∧ whole.head? = some '0'
  · simp only [if_pos padded]
    exact ⟨nofun⟩
  · simp only [if_neg padded]
    refine leaves_fraction fun fraction => ?_
    apply leaves_ahead
    intro cs b rest read
    split at read
    · split at read
      · exact leaves_set (leaves_exponentSign.bind fun _ => leaves_someDigits.bind fun _ =>
          leaves_pure) read
      · exact leaves_pure.of_ok read
    · exact leaves_pure.of_ok read

theorem leaves_number : Leaves number := by
  have parts : Leaves (signedParts .endOfValue) := by
    apply leaves_ahead
    intro cs b rest read
    split at read
    · exact leaves_set leaves_numberParts read
    · exact leaves_numberParts.of_ok read
  apply parts.bind
  intro parts
  cases parts.number? with
  | none => exact leaves_fail
  | some n => exact leaves_pure

theorem dropWhile_of_solid {cs : List Char} (solid : ∀ c ∈ cs, Text.isBlank c = false) :
    cs.dropWhile isBlank = cs := by
  cases cs with
  | nil => rfl
  | cons c rest =>
    have own := solid c List.mem_cons_self
    apply List.dropWhile_cons_of_neg
    simp only [isBlank, Bool.or_eq_true, decide_eq_true_eq]
    rintro (((rfl | rfl) | rfl) | rfl) <;> exact absurd own (by decide)

theorem peek_of_solid {cs : List Char} (solid : ∀ c ∈ cs, Text.isBlank c = false) :
    peek cs = .ok (cs.head?, cs) := by
  rw [peek, dropWhile_of_solid solid]

theorem eq_nil_of_ended {cs rest : List Char} (solid : ∀ c ∈ cs, Text.isBlank c = false)
    (h : ended cs = .ok ((), rest)) : cs = [] := by
  rw [ended, bind_of_ok (peek_of_solid solid)] at h
  cases cs with
  | nil => rfl
  | cons => cases h

structure ReadsNumber (cs : List Char) (reader : Reader Json) : Prop where
  of_ok : ∀ {n rest}, reader cs = .ok (.number n, rest) → number cs = .ok (n, rest)

theorem readsNumber_of_yields {cs : List Char} {reader : Reader Json}
    (h : Yields (fun json => ∀ n, json ≠ .number n) reader) : ReadsNumber cs reader where
  of_ok read := absurd rfl (h.of_ok read _)

theorem readsNumber_valueWithin {cs : List Char} (solid : ∀ c ∈ cs, Text.isBlank c = false)
    (fuel depth : Nat) : ReadsNumber cs (valueWithin (fuel + 1) depth) := by
  refine ⟨fun read => ?_⟩
  rw [valueWithin, bind_of_ok (peek_of_solid solid)] at read
  refine ReadsNumber.of_ok ?_ read
  split
  · exact readsNumber_of_yields yields_fail
  iterate 4
    · apply readsNumber_of_yields
      refine yields_bind fun _ => yields_bind fun _ => yields_pure fun _ same => ?_
      cases same
  iterate 2
    · apply readsNumber_of_yields
      refine yields_deeper fun _ => yields_trivial.map fun _ _ _ same => ?_
      cases same
  · split
    · refine ⟨fun read => ?_⟩
      rw [map_eq_pure_bind] at read
      obtain ⟨⟨m, left⟩, taken, same⟩ := Except.bind_eq_ok.mp read
      cases same
      exact taken
    · exact readsNumber_of_yields yields_fail

end Json.Reader

theorem readNumber?_of_read {text : String} {n : Number} (solid : Solid text)
    (h : Json.read text = .ok (.number n)) : Json.readNumber? text = some n := by
  unfold Json.read Json.readWithin at h
  split at h
  · next json left taken =>
    cases h
    rw [seqLeft_eq_bind] at taken
    obtain ⟨⟨json, rest⟩, value, ended⟩ := Except.bind_eq_ok.mp taken
    obtain ⟨⟨_, left'⟩, ended, same⟩ := Except.bind_eq_ok.mp ended
    cases same
    have number := (Json.Reader.readsNumber_valueWithin solid _ _).of_ok
      (Json.Reader.get_bind.symm.trans value)
    have behind := Json.Reader.leaves_number.of_ok number
    have none_left := Json.Reader.eq_nil_of_ended (fun c mem => solid c (behind.mem mem)) ended
    rw [Json.readNumber?, number, none_left]
  · cases h

section Texts

theorem solid_digitsText {digits : List Char} {k : Int}
    (solid : ∀ c ∈ digits, Text.isBlank c = false) :
    ∀ c ∈ Double.digitsText digits k, Text.isBlank c = false := by
  have both {front back : List Char} (first : ∀ c ∈ front, Text.isBlank c = false)
      (second : ∀ c ∈ back, Text.isBlank c = false) :
      ∀ c ∈ front ++ back, Text.isBlank c = false := List.forall_mem_append.mpr ⟨first, second⟩
  have zeros (n : Nat) (c : Char) (mem : c ∈ List.replicate n '0') : Text.isBlank c = false := by
    rw [List.eq_of_mem_replicate mem]
    decide
  unfold Double.digitsText
  dsimp only
  split
  · split
    · exact both (both solid (zeros _)) (not_isBlank_of_all rfl)
    · split
      · apply both (both ?_ (not_isBlank_of_all rfl)) ?_
        · exact fun c mem => solid c (List.mem_of_mem_take mem)
        · exact fun c mem => solid c (List.mem_of_mem_drop mem)
      · exact both (both (not_isBlank_of_all rfl) (zeros _)) solid
  · apply both (both ?_ ?_) fun c => isBlank_of_mem_toDigits
    · cases digits with
      | nil => exact nofun
      | cons c rest =>
        obtain ⟨own, others⟩ := List.forall_mem_cons.mp solid
        cases rest with
        | nil => exact solid
        | cons =>
          exact List.forall_mem_cons.mpr ⟨own, List.forall_mem_cons.mpr ⟨by decide, others⟩⟩
    · split <;> exact not_isBlank_of_all rfl

theorem solid_double (d : Double) : Solid d.text := by
  have body (c : Char) (mem : c ∈ Double.digitsText (Nat.toDigits 10 d.shortest.1) d.shortest.2) :
      Text.isBlank c = false := solid_digitsText (fun c => isBlank_of_mem_toDigits) c mem
  intro c mem
  rw [Double.text, String.toList_ofList] at mem
  split at mem
  · rcases List.mem_cons.mp mem with rfl | mem
    · decide
    · exact body c mem
  · exact body c mem

theorem solid_number (n : Number) : Solid n.text := by
  cases n with
  | whole n => exact solid_whole n
  | double d => exact solid_double d

theorem startsWith_trim {text start : String} (solid : Solid start) (some_ : start.toList ≠ [])
    (h : Text.startsWith text start) : Text.startsWith (Text.trim text) start := by
  have keep {cs : List Char} (solid : ∀ c ∈ cs, Text.isBlank c = false) :
      cs.dropWhile Text.isBlank = cs :=
    List.dropWhile_eq_self_iff.mpr fun some_ => by simp [solid _ (List.getElem_mem _)]
  obtain ⟨rest, same⟩ := List.isPrefixOf_iff_prefix.mp h
  have front : text.toList.dropWhile Text.isBlank = start.toList ++ rest := by
    obtain ⟨c, more, letters⟩ := List.exists_cons_of_ne_nil some_
    rw [← same, letters, List.cons_append]
    exact List.dropWhile_cons_of_neg (by simp [solid c (by simp [letters])])
  have back : start.toList <+: Text.trimEndChars (start.toList ++ rest) := by
    rw [Text.trimEndChars, List.reverse_append, List.dropWhile_append]
    split
    · rw [keep fun c mem => solid c (List.mem_reverse.mp mem)]
      simp
    · rw [List.reverse_append, List.reverse_reverse]
      exact List.prefix_append _ _
  rw [Text.startsWith, Text.trim, String.toList_ofList, Text.trimChars, front]
  exact List.isPrefixOf_iff_prefix.mpr back

theorem accepts_trim {scheme : UrlScheme} {text : String} (h : scheme.accepts text) :
    scheme.accepts (Text.trim text) := by
  have kept (start : String) (solid : start.toList.all fun c => !Text.isBlank c)
      (some_ : start.toList ≠ []) (h : Text.startsWith text start) :
      Text.startsWith (Text.trim text) start := startsWith_trim (.of_all solid) some_ h
  cases scheme with
  | any =>
    refine Bool.or_eq_true_iff.mpr ((Bool.or_eq_true_iff.mp h).imp ?_ ?_)
    · exact kept "http://" rfl nofun
    · exact kept "https://" rfl nofun
  | http => exact kept "http://" rfl nofun h
  | https => exact kept "https://" rfl nofun h
  | path => exact kept "/" rfl nofun h

end Texts

section Rereading

variable {r : Resolver} {p q : Pattern} {v : Value}

theorem Arises.behind (registry : WrittenTypes r.types) (h : Arises r.types p)
    (behind : Behind r p q) : Arises r.types q := by
  cases behind with
  | reference found =>
    rcases Resolver.unfoldings_of_resolve found with rfl | chain
    · exact .inl .null
    · exact h.of_reaches registry (.of_unfoldings chain)
  | anyOf mem => exact h.of_reaches registry (Unfolds.reaches (.anyOf mem))

theorem value_read_of_rereads (rereads : Rereads v) (plain : v.isText = false) :
    Value.read v.toText = .ok v := by
  rcases rereads with text | read
  · rw [plain] at text
    cases text
  · exact read

theorem readNumber_text {n : Number} (rereads : Rereads (.number n)) :
    readNumber (Value.number n).toText = .ok (.number n) := by
  have read := value_read_of_rereads rereads rfl
  rw [Value.toText_number, Value.read] at read
  split at read
  · next json taken =>
    obtain rfl : json = .number n := by
      cases json <;> simp [Value.ofJson] at read
      rw [read]
    rw [Value.toText_number, readNumber, (solid_number n).trim, readNumber?_of_read (solid_number n) taken]
  · cases read

theorem isText_of_same {expected : Value} (same : expected.same v)
    (plain : expected.isText = false) : v.isText = false := by
  cases expected with
  | null | string => cases plain
  | _ => cases v <;> first | rfl | cases same

theorem readExact_toText {expected : Value} (some_ : expected ≠ .null) (same : expected.same v)
    (rereads : Rereads v) : readExact v.toText expected = .ok v := by
  cases expected with
  | null => exact absurd rfl some_
  | string =>
    cases v with
    | string => rfl
    | _ => cases same
  | _ =>
    rw [readExact, value_read_of_rereads rereads (isText_of_same same rfl)]
    · rfl
    · intro s text
      cases text

def Reparses (r : Resolver) (p : Pattern) (v : Value) : Prop :=
  ∃ u, p.parse r v.toText = some (.ok u) ∧ Accepts r p u

theorem reparses_of_reading {u : Value} (ok : Accepts r p u)
    (h : ∀ n, p.parseWithin (n + 1) r v.toText = some (.ok u)) : Reparses r p v := by
  obtain ⟨n, level, -⟩ := Pattern.parse_level r p v.toText
  exact ⟨u, level.trans (h n), ok⟩

theorem reparses_outright (kind : p.isOutright) (accepted : Accepts r p v)
    (literal : p ≠ .exact .null) (rereads : Rereads v) : Reparses r p v := by
  cases p with
  | string => exact reparses_of_reading (accepts_string.mpr ⟨_, rfl⟩) fun _ => rfl
  | number =>
    obtain ⟨n, rfl⟩ := accepts_number.mp accepted
    exact reparses_of_reading accepted fun _ => congrArg some (readNumber_text rereads)
  | boolean =>
    obtain ⟨b, rfl⟩ := accepts_boolean.mp accepted
    refine reparses_of_reading accepted fun _ => ?_
    cases b <;> rfl
  | null =>
    refine reparses_of_reading (u := .null) (accepts_null.mpr (.inl rfl)) fun _ => ?_
    rcases accepts_null.mp accepted with rfl | rfl <;> rfl
  | url scheme =>
    obtain ⟨s, rfl, ok⟩ := accepts_url.mp accepted
    refine reparses_of_reading (accepts_url.mpr ⟨Text.trim s, rfl, accepts_trim ok⟩) fun _ => ?_
    exact congrArg some (if_pos (accepts_trim ok))
  | exact expected =>
    refine reparses_of_reading accepted fun _ => congrArg some (readExact_toText ?_
      (accepts_exact.mp accepted) rereads)
    exact fun null => literal (null ▸ rfl)
  | repeated inner =>
    obtain ⟨items, rfl, -⟩ := accepts_repeated.mp accepted
    exact reparses_of_reading accepted fun _ => congrArg some (readArray_of_rereads rereads)
  | array elements knownAs =>
    obtain ⟨items, rfl, -⟩ := accepts_elements.mp accepted
    exact reparses_of_reading accepted fun _ => congrArg some (readArray_of_rereads rereads)
  | object fields traits =>
    obtain ⟨members, rfl, -⟩ := accepts_fields.mp accepted
    refine reparses_of_reading accepted fun _ => congrArg some ?_
    rw [readObject, value_read_of_rereads rereads rfl]
  | reference | anyOf => cases kind

theorem toText_of_accepts_null (h : p = .null ∨ p = .exact .null) (accepted : Accepts r p v) :
    v.toText = "" := by
  rcases h with rfl | rfl
  · rcases accepts_null.mp accepted with rfl | rfl <;> rfl
  · have same := accepts_exact.mp accepted
    cases v with
    | null => rfl
    | _ => cases same

def ReadsTruly (r : Resolver) (alternatives : List Pattern) : Prop :=
  ∀ q ∈ alternatives.dropLast, ∀ text u, q.parse r text = some (.ok u) → Accepts r q u

theorem readsTruly_nullable : ReadsTruly r [.null, p] := by
  intro q mem text u read
  obtain rfl := List.mem_singleton.mp mem
  have null : Pattern.null.parse r text = some (readNull text) := rfl
  rw [null, readNull] at read
  split at read <;> cases read
  exact accepts_null.mpr (.inl rfl)

theorem firstReading_of_reads {reading : Pattern → Option (Contractual Value)} {q : Pattern}
    {u : Value} {before : List Pattern} (ends : ∀ a ∈ before, (reading a).isSome)
    (read : reading q = some (.ok u)) (after : List Pattern) :
    ∃ w, firstReading reading (before ++ q :: after) = some (some w) ∧
      (w = u ∨ ∃ a ∈ before, reading a = some (.ok w)) := by
  induction before with
  | nil => exact ⟨u, by simp [firstReading, read], .inl rfl⟩
  | cons a rest ih =>
    obtain ⟨first, later⟩ := List.forall_mem_cons.mp ends
    obtain ⟨outcome, own⟩ := Option.isSome_iff_exists.mp first
    cases outcome with
    | ok w => exact ⟨w, by simp [firstReading, own], .inr ⟨a, List.mem_cons_self, own⟩⟩
    | error =>
      obtain ⟨w, found, source⟩ := ih later
      refine ⟨w, by simpa [firstReading, own] using found, source.imp_right ?_⟩
      rintro ⟨b, mem, same⟩
      exact ⟨b, List.mem_cons_of_mem a mem, same⟩

theorem reparses_union (guarded : Guarded r.types) {alternatives : List Pattern}
    (truly : ReadsTruly r alternatives) {q : Pattern} (mem : q ∈ alternatives)
    (h : Reparses r q v) : Reparses r (.anyOf alternatives) v := by
  obtain ⟨before, after, rfl⟩ := List.append_of_mem mem
  obtain ⟨u, parsed, ok⟩ := h
  obtain ⟨w, read, source⟩ := firstReading_of_reads
    (fun a _ => Pattern.parse_isSome (guarded.settles a)) parsed after
  refine ⟨w, by rw [Pattern.parse_anyOf, read]; rfl, (accepts_union guarded).mpr ?_⟩
  rcases source with rfl | ⟨a, earlier, own⟩
  · exact ⟨q, mem, ok⟩
  · have front : a ∈ (before ++ q :: after).dropLast := by
      rw [List.dropLast_append_of_ne_nil (List.cons_ne_nil q after)]
      exact List.mem_append_left _ earlier
    exact ⟨a, List.mem_append_left _ earlier, truly a front _ w own⟩

theorem Accepts.reparses_of_unions (accepted : Accepts r p v) (guarded : Guarded r.types)
    (unions : ∀ alternatives, Relation.ReflTransGen (Behind r) p (.anyOf alternatives) →
      ReadsTruly r alternatives)
    (nulls : Relation.ReflTransGen (Behind r) p (.exact .null) → v.toText ≠ "")
    (rereads : Rereads v) : Reparses r p v := by
  refine Accepts.behind_induction (motive := fun q => (∀ alternatives,
    Relation.ReflTransGen (Behind r) q (.anyOf alternatives) → ReadsTruly r alternatives) →
      (Relation.ReflTransGen (Behind r) q (.exact .null) → v.toText ≠ "") → Reparses r q v)
    accepted ?_ ?_ unions nulls
  · refine fun q kind ok _ nulls => reparses_outright kind ok ?_ rereads
    rintro rfl
    exact nulls .refl (toText_of_accepts_null (.inr rfl) ok)
  · intro q o behind ok ih unions nulls
    have below := ih (fun alternatives chain => unions alternatives (.head behind chain))
      fun chain => nulls (.head behind chain)
    cases behind with
    | reference found =>
      obtain ⟨u, parsed, fits⟩ := below
      exact ⟨u, (Pattern.parse_reference found).trans parsed, (accepts_resolved found).mpr fits⟩
    | anyOf mem => exact reparses_union guarded (unions _ .refl) mem below

end Rereading

end ApiContract
