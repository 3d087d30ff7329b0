import ApiContract.Contract.Document
import ApiContract.Proofs.References

set_option autoImplicit false

namespace ApiContract

def Value.isScalar : Value → Bool
  | .object _ | .array _ | .xml _ => false
  | _ => true

def Pattern.isInline : Pattern → Bool
  | .object _ _ | .array _ _ => true
  | _ => false

inductive Written : Pattern → Prop
  | string : Written .string
  | number : Written .number
  | boolean : Written .boolean
  | null : Written .null
  | url (scheme : UrlScheme) : Written (.url scheme)
  | exact {value : Value} (scalar : value.isScalar) : Written (.exact value)
  | repeated {p : Pattern} (inner : Written p) : Written (.repeated p)
  | reference {name : String} (plain : Token.isTypeName name.toList) : Written (.reference name)
  | anyOf {p : Pattern} (other : Written p) (token : p.isInline = false) :
      Written (.anyOf [.null, p])
  | object {fields : List (String × Pattern)} {traits : ObjectTraits}
      (all : ∀ field ∈ fields, Written field.2) (nameless : traits.knownAs = none) :
      Written (.object fields traits)
  | array {elements : List Pattern} (all : ∀ p ∈ elements, Written p)
      (ordered : ∀ p ∈ elements.dropLast, p.isRepeated = false) : Written (.array elements none)

theorem Except.bind_eq_ok {ε α β : Type} {x : Except ε α} {f : α → Except ε β} {b : β} :
    x >>= f = .ok b ↔ ∃ a, x = .ok a ∧ f a = .ok b := by
  cases x <;> simp [bind, Except.bind]

theorem Contractual.under_eq_ok {α : Type} {crumb : String} {x : Contractual α} {a : α} :
    x.under crumb = .ok a ↔ x = .ok a := by
  cases x <;> simp [Contractual.under]

theorem Except.map_eq_ok {ε α β : Type} {x : Except ε α} {f : α → β} {b : β} :
    x.map f = .ok b ↔ ∃ a, x = .ok a ∧ f a = b := by
  cases x <;> simp [Except.map]

section Texts

variable {p : Pattern}

theorem isInline_nullable (token : p.isInline = false) : p.nullable.isInline = false := by
  cases p with
  | anyOf alternatives =>
    cases null : alternatives.any Pattern.isNull <;>
      simp [Pattern.nullable, null, Pattern.isInline]
  | object | array => cases token
  | _ => rfl

theorem Written.nullable (h : Written p) (token : p.isInline = false) : Written p.nullable := by
  cases h with
  | null => exact .null
  | anyOf other inner => exact .anyOf other inner
  | string => exact .anyOf .string rfl
  | number => exact .anyOf .number rfl
  | boolean => exact .anyOf .boolean rfl
  | url scheme => exact .anyOf (.url scheme) rfl
  | exact scalar => exact .anyOf (.exact scalar) rfl
  | repeated inner => exact .anyOf (.repeated inner) rfl
  | reference plain => exact .anyOf (.reference plain) rfl
  | object | array => cases token

theorem written_named {cs : List Char} (h : Token.named cs = .ok p) :
    Written p ∧ p.isInline = false := by
  unfold Token.named at h
  split at h
  · cases h; exact ⟨.string, rfl⟩
  · cases h; exact ⟨.number, rfl⟩
  · cases h; exact ⟨.boolean, rfl⟩
  · cases h; exact ⟨.null, rfl⟩
  · cases h; exact ⟨.url _, rfl⟩
  · cases h; exact ⟨.url _, rfl⟩
  · cases h; exact ⟨.url _, rfl⟩
  · cases h; exact ⟨.url _, rfl⟩
  · split at h
    · next plain =>
      cases h
      exact ⟨.reference (by simpa using plain), rfl⟩
    · cases h

theorem written_token {cs : List Char} (h : Token.read cs = .ok p) :
    Written p ∧ p.isInline = false := by
  fun_induction Token.read cs generalizing p with
  | case1 cs inner _ ih =>
    obtain ⟨q, read, rfl⟩ := Except.map_eq_ok.mp h
    exact ⟨.repeated (ih read).1, rfl⟩
  | case2 cs _ inner _ ih =>
    obtain ⟨q, read, rfl⟩ := Except.map_eq_ok.mp h
    obtain ⟨written, token⟩ := ih read
    exact ⟨written.nullable token, isInline_nullable token⟩
  | case3 cs _ _ _ type _ ih => exact ih h
  | case4 => exact written_named h

theorem eq_of_arrayOf {elements : List Pattern} (h : Pattern.arrayOf elements = .ok p) :
    Pattern.misplacedRepeated? elements = none ∧ p = .array elements none := by
  unfold Pattern.arrayOf at h
  split at h
  · cases h
  · next placed =>
    cases h
    exact ⟨placed, rfl⟩

theorem not_repeated_of_placed {elements : List Pattern}
    (placed : Pattern.misplacedRepeated? elements = none) :
    ∀ q ∈ elements.dropLast, q.isRepeated = false := by
  intro q mem
  obtain ⟨i, inside, rfl⟩ := List.getElem_of_mem mem
  rw [List.length_dropLast] at inside
  rw [List.getElem_dropLast]
  unfold Pattern.misplacedRepeated? at placed
  split at placed
  · next unrepeated => exact List.findIdx?_eq_none_iff.mp unrepeated _ (List.getElem_mem _)
  · next first found =>
    split at placed
    · next last =>
      obtain ⟨_, -, before⟩ := List.findIdx?_eq_some_iff_getElem.mp found
      simpa using before i (by omega)
    · cases placed

theorem written_objectOf {fields : List (String × Pattern)} {kind : ObjectKind}
    (h : ∀ field ∈ fields, Written field.2) : Written (Pattern.objectOf fields kind) :=
  .object (fun field mem => h field (List.mem_filter.mp mem).1) rfl

mutual

theorem written_ofJsonWith {text : String → Contractual Pattern}
    (texts : ∀ s p, text s = .ok p → Written p) :
    ∀ (json : Json) {p : Pattern}, Pattern.ofJsonWith text json = .ok p → Written p
  | .null, p, h => by
    cases h
    exact .null
  | .bool b, p, h => by
    cases h
    exact .exact rfl
  | .number n, p, h => by
    cases h
    exact .exact rfl
  | .string s, p, h => texts s p h
  | .array items, p, h => by
    obtain ⟨elements, read, h⟩ := Except.bind_eq_ok.mp h
    obtain ⟨placed, rfl⟩ := eq_of_arrayOf h
    exact .array (written_elementsWith texts items read) (not_repeated_of_placed placed)
  | .object members, p, h => by
    obtain ⟨fields, read, h⟩ := Except.bind_eq_ok.mp h
    cases h
    exact written_objectOf (written_fieldsWith texts members read)

theorem written_elementsWith {text : String → Contractual Pattern}
    (texts : ∀ s p, text s = .ok p → Written p) :
    ∀ (items : List Json) {i : Nat} {elements : List Pattern},
      Pattern.elementsWith text i items = .ok elements → ∀ p ∈ elements, Written p
  | [], _, elements, h => by
    cases h
    simp
  | item :: rest, i, elements, h => by
    obtain ⟨p, read, h⟩ := Except.bind_eq_ok.mp h
    obtain ⟨more, reads, h⟩ := Except.bind_eq_ok.mp h
    cases h
    exact List.forall_mem_cons.mpr
      ⟨written_ofJsonWith texts item (Contractual.under_eq_ok.mp read),
        written_elementsWith texts rest reads⟩

theorem written_fieldsWith {text : String → Contractual Pattern}
    (texts : ∀ s p, text s = .ok p → Written p) :
    ∀ (members : List (String × Json)) {fields : List (String × Pattern)},
      Pattern.fieldsWith text members = .ok fields → ∀ field ∈ fields, Written field.2
  | [], fields, h => by
    cases h
    simp
  | (key, value) :: rest, fields, h => by
    obtain ⟨p, read, h⟩ := Except.bind_eq_ok.mp h
    obtain ⟨more, reads, h⟩ := Except.bind_eq_ok.mp h
    cases h
    exact List.forall_mem_cons.mpr
      ⟨written_ofJsonWith texts value (Contractual.under_eq_ok.mp read),
        written_fieldsWith texts rest reads⟩

end

theorem written_readWithin {levels : Nat} {text : String}
    (h : Pattern.readWithin levels text = .ok p) : Written p := by
  induction levels generalizing text p with
  | zero => cases h
  | succ levels ih =>
    dsimp only [Pattern.readWithin] at h
    split at h
    · exact (written_token h).1
    · split at h
      · split at h
        · exact written_ofJsonWith (fun _ _ read => ih read) _ h
        · cases h
      · cases h
        exact .exact rfl

theorem written_read {text : String} (h : Pattern.read text = .ok p) : Written p :=
  written_readWithin h

theorem written_ofJson {json : Json} (h : Pattern.ofJson json = .ok p) : Written p :=
  written_ofJsonWith (fun _ _ read => written_read read) json h

theorem ne_exact_of_token {cs : List Char} (h : Token.read cs = .ok p) (v : Value) :
    p ≠ .exact v := by
  fun_induction Token.read cs generalizing p with
  | case1 cs inner _ ih =>
    obtain ⟨q, -, rfl⟩ := Except.map_eq_ok.mp h
    exact nofun
  | case2 cs _ inner _ ih =>
    obtain ⟨q, -, rfl⟩ := Except.map_eq_ok.mp h
    cases q with
    | anyOf alternatives =>
      cases null : alternatives.any Pattern.isNull <;> simp [Pattern.nullable, null]
    | _ => exact nofun
  | case3 cs _ _ _ type _ ih => exact ih h
  | case4 =>
    unfold Token.named at h
    split at h
    all_goals first
      | (cases h; exact nofun)
      | (split at h <;> cases h; exact nofun)

theorem ne_nullLiteral_ofJsonWith {text : String → Contractual Pattern}
    (texts : ∀ s p, text s = .ok p → p ≠ .exact .null) {json : Json}
    (h : Pattern.ofJsonWith text json = .ok p) : p ≠ .exact .null := by
  cases json with
  | string s => exact texts s p h
  | array items =>
    obtain ⟨elements, -, h⟩ := Except.bind_eq_ok.mp h
    rw [(eq_of_arrayOf h).2]
    exact nofun
  | object members =>
    obtain ⟨fields, -, h⟩ := Except.bind_eq_ok.mp h
    cases h
    exact nofun
  | _ =>
    cases h
    exact nofun

theorem ne_nullLiteral_readWithin {levels : Nat} {text : String}
    (h : Pattern.readWithin levels text = .ok p) : p ≠ .exact .null := by
  induction levels generalizing text p with
  | zero => cases h
  | succ levels ih =>
    dsimp only [Pattern.readWithin] at h
    split at h
    · exact ne_exact_of_token h .null
    · split at h
      · split at h
        · exact ne_nullLiteral_ofJsonWith (fun _ _ read => ih read) h
        · cases h
      · cases h
        exact nofun

theorem ne_nullLiteral_read {text : String} (h : Pattern.read text = .ok p) : p ≠ .exact .null :=
  ne_nullLiteral_readWithin h

theorem ne_nullLiteral_ofJson {json : Json} (h : Pattern.ofJson json = .ok p) :
    p ≠ .exact .null :=
  ne_nullLiteral_ofJsonWith (fun _ _ read => ne_nullLiteral_read read) h

theorem written_ofCell {cell : String} (h : Pattern.ofCell cell = .ok p) : Written p := by
  dsimp only [Pattern.ofCell] at h
  split at h
  · cases h
    exact .exact rfl
  · split at h
    · cases h
      exact .exact rfl
    · split at h
      · cases h; exact .exact rfl
      · cases h; exact .exact rfl
      · cases h; exact .exact rfl
      · exact written_read h

theorem written_ofCells {rows : List (String × String)} {fields : List (String × Pattern)}
    (h : Pattern.ofCells rows = .ok fields) : ∀ field ∈ fields, Written field.2 := by
  induction rows generalizing fields with
  | nil =>
    cases h
    simp
  | cons row rest ih =>
    obtain ⟨p, read, h⟩ := Except.bind_eq_ok.mp h
    obtain ⟨more, reads, h⟩ := Except.bind_eq_ok.mp h
    cases h
    exact List.forall_mem_cons.mpr ⟨written_ofCell (Contractual.under_eq_ok.mp read), ih reads⟩

end Texts

theorem Entries.mem_of_mem_insert {α : Type} {entries : Entries α} {key : String} {a : α}
    {entry : String × α} (h : entry ∈ insert entries key a) : entry = (key, a) ∨ entry ∈ entries := by
  induction entries with
  | nil => simpa [insert] using h
  | cons first rest ih =>
    obtain ⟨k, b⟩ := first
    by_cases same : k = key
    · subst same
      simp only [insert, if_true, List.mem_cons] at h ⊢
      exact h.imp_right .inr
    · simp only [insert, same, if_false, List.mem_cons] at h ⊢
      rcases h with h | h
      · exact .inr (.inl h)
      · exact (ih h).imp_right .inr

theorem Entries.mem_of_mem_ofList {α : Type} {pairs : List (String × α)} {entry : String × α}
    (h : entry ∈ Entries.ofList pairs) : entry ∈ pairs := by
  have step : ∀ (pairs : List (String × α)) (entries : Entries α),
      entry ∈ pairs.foldl (fun entries pair => insert entries pair.1 pair.2) entries →
      entry ∈ entries ∨ entry ∈ pairs := by
    intro pairs
    induction pairs with
    | nil => exact fun _ h => .inl h
    | cons pair rest ih =>
      intro entries h
      rcases ih _ h with inserted | later
      · rcases mem_of_mem_insert inserted with rfl | before
        · exact .inr List.mem_cons_self
        · exact .inl before
      · exact .inr (List.mem_cons_of_mem _ later)
  exact (step pairs [] h).resolve_left (by simp)

theorem written_ofRows {rows : List (String × String)} {p : Pattern}
    (h : Pattern.ofRows rows = .ok p) : Written p := by
  obtain ⟨fields, read, h⟩ := Except.bind_eq_ok.mp h
  cases h
  exact written_objectOf fun field mem =>
    written_ofCells read field (Entries.mem_of_mem_ofList mem)

section Registry

theorem not_isBlank_of_isNameChar {c : Char} (h : Token.isNameChar c) : Text.isBlank c = false := by
  have range : 45 ≤ c.toNat ∧ c.toNat ≤ 122 := by
    simp only [Token.isNameChar, Token.isNameStart, Bool.or_eq_true, Bool.and_eq_true,
      decide_eq_true_eq, Char.le_def, UInt32.le_iff_toNat_le] at h
    simp only [Char.toNat]
    rcases h with (((⟨low, high⟩ | ⟨low, high⟩) | rfl) | ⟨low, high⟩) | rfl
    · exact ⟨Nat.le_trans (by decide) low, Nat.le_trans high (by decide)⟩
    · exact ⟨Nat.le_trans (by decide) low, Nat.le_trans high (by decide)⟩
    · decide
    · exact ⟨Nat.le_trans (by decide) low, Nat.le_trans high (by decide)⟩
    · decide
  simp only [Text.isBlank, Bool.or_eq_false_iff, Bool.and_eq_false_iff, decide_eq_false_iff_not,
    beq_eq_false_iff_ne]
  omega

theorem not_isBlank_of_all {cs : List Char} (h : cs.all fun c => !Text.isBlank c) :
    ∀ c ∈ cs, Text.isBlank c = false := by
  intro c mem
  simpa using List.all_eq_true.mp h c mem

theorem trimChars_of_solid {cs : List Char} (h : ∀ c ∈ cs, Text.isBlank c = false) :
    Text.trimChars cs = cs := by
  have keep (cs : List Char) (h : ∀ c ∈ cs, Text.isBlank c = false) :
      cs.dropWhile Text.isBlank = cs := by
    cases cs with
    | nil => rfl
    | cons c rest => simp [h c List.mem_cons_self]
  rw [Text.trimChars, keep _ h, Text.trimEndChars,
    keep _ fun c mem => h c (List.mem_reverse.mp mem), List.reverse_reverse]

theorem typeName_of_plain {name : String} (plain : Token.isTypeName name.toList) :
    Token.typeName name = name := by
  simp only [Token.isTypeName, Bool.and_eq_true, List.all_eq_true] at plain
  have solid (c : Char) (mem : c ∈ name.toList) : Text.isBlank c = false :=
    not_isBlank_of_isNameChar (plain.2 c mem)
  have trimmed : Text.trimChars name.toList = name.toList := trimChars_of_solid solid
  have closed : Token.opensAndCloses name.toList = false := by
    cases shape : name.toList with
    | nil => rfl
    | cons c rest =>
      have start := plain.1
      rw [shape] at start
      have : c ≠ '(' := by
        rintro rfl
        exact absurd (show Token.isNameStart '(' from start) (by decide)
      simp [Token.opensAndCloses, this]
  simp [Token.typeName, Token.body, trimmed, closed]

/-- Where a plain name is registered, it is for a written pattern that has learned the name. -/
def WrittenTypes (types : Entries Pattern) : Prop :=
  ∀ name p, Token.isTypeName name.toList → registered? types name = some p →
    ∃ o, Written o ∧ p = o.withAlias name

theorem writtenTypes_ofTypes {types : List (String × Pattern)}
    (h : ∀ type ∈ types, Written type.2) : WrittenTypes (Resolver.ofTypes types).types := by
  intro name p plain named
  rw [registered?, typeName_of_plain plain] at named
  obtain ⟨type, mem, same⟩ :=
    List.mem_map.mp (Entries.mem_of_mem_ofList (Entries.mem_of_get? named))
  simp only [Prod.mk.injEq] at same
  exact ⟨type.2, h type mem, by rw [← same.2, same.1]⟩

/-- A pattern of a document: written there, or registered under its name. -/
def Arises (types : Entries Pattern) (p : Pattern) : Prop :=
  Written p ∨ ∃ name o, Written o ∧ p = o.withAlias name ∧ registered? types name = some p

variable {types : Entries Pattern} {p q : Pattern}

theorem withAlias_eq_exact {name : String} {v : Value} :
    p.withAlias name = .exact v ↔ p = .exact v := by
  cases p <;> simp [Pattern.withAlias]

theorem Part.of_withAlias {o : Pattern} {name : String} (h : Part (o.withAlias name) q) :
    Part o q := by
  cases o with
  | object fields traits =>
    cases h with
    | field mem => exact .field mem
  | array elements knownAs =>
    cases h with
    | element mem => exact .element mem
    | tail mem => exact .tail mem
  | _ => exact h

theorem Unfolds.of_withAlias {o : Pattern} {name : String} (h : Unfolds types (o.withAlias name) q) :
    Unfolds types o q := by
  cases o with
  | object | array => cases h
  | _ => exact h

theorem Written.part (h : Written p) (part : Part p q) : Written q := by
  cases part with
  | inner =>
    cases h with
    | repeated inner => exact inner
  | field mem =>
    cases h with
    | object all _ => exact all _ mem
  | element mem =>
    cases h with
    | array all _ => exact all _ mem
  | tail mem =>
    cases h with
    | array all _ =>
      cases all _ mem with
      | repeated inner => exact inner

theorem Written.unfold (registry : WrittenTypes types) (h : Written p) (step : Unfolds types p q) :
    Arises types q := by
  cases step with
  | @reference name _ named =>
    cases h with
    | reference plain =>
      obtain ⟨o, written, rfl⟩ := registry name q plain named
      exact .inr ⟨name, o, written, rfl, named⟩
  | anyOf mem =>
    cases h with
    | anyOf other _ =>
      simp only [List.mem_cons, List.not_mem_nil, or_false] at mem
      rcases mem with rfl | rfl
      · exact .inl .null
      · exact .inl other

theorem Arises.of_reaches (registry : WrittenTypes types) (h : Arises types p)
    (reach : Reaches types p q) : Arises types q := by
  induction reach with
  | refl => exact h
  | tail _ step ih =>
    rcases ih with written | ⟨name, o, written, rfl, -⟩ <;> rcases step with step | part
    · exact written.unfold registry step
    · exact .inl (written.part part)
    · exact written.unfold registry step.of_withAlias
    · exact .inl (written.part part.of_withAlias)

theorem Arises.alias {name : String} (h : Arises types p) (known : p.knownAs = some name) :
    registered? types name = some p := by
  rcases h with written | ⟨other, o, written, rfl, named⟩
  · cases written with
    | object _ nameless => exact absurd (nameless.symm.trans known) (by simp)
    | _ => cases known
  · cases o with
    | object fields traits =>
      cases known
      exact named
    | array elements knownAs =>
      cases known
      exact named
    | _ =>
      cases written
      cases known

end Registry

section Documents

theorem mem_of_mapM_eq_ok {α β : Type} {f : α → Contractual β} {l : List α} {bs : List β}
    (h : l.mapM f = .ok bs) : ∀ b ∈ bs, ∃ a ∈ l, f a = .ok b := by
  induction l generalizing bs with
  | nil =>
    cases h
    simp
  | cons a rest ih =>
    rw [List.mapM_cons] at h
    obtain ⟨b, first, h⟩ := Except.bind_eq_ok.mp h
    obtain ⟨more, later, h⟩ := Except.bind_eq_ok.mp h
    cases h
    refine List.forall_mem_cons.mpr ⟨⟨a, List.mem_cons_self, first⟩, fun c mem => ?_⟩
    obtain ⟨x, inside, ok⟩ := ih later c mem
    exact ⟨x, List.mem_cons_of_mem a inside, ok⟩

theorem read_of_textPatterns {texts : Entries String} {fields : Entries Pattern}
    (h : textPatterns texts = .ok fields) :
    ∀ field ∈ fields, ∃ text, Pattern.read text = .ok field.2 := by
  induction texts generalizing fields with
  | nil =>
    cases h
    simp
  | cons text rest ih =>
    obtain ⟨p, read, h⟩ := Except.bind_eq_ok.mp h
    obtain ⟨more, reads, h⟩ := Except.bind_eq_ok.mp h
    cases h
    exact List.forall_mem_cons.mpr ⟨⟨text.2, Contractual.under_eq_ok.mp read⟩, ih reads⟩

theorem read_of_typePatterns {types : Entries Json} {fields : List (String × Pattern)}
    (h : typePatterns types = .ok fields) :
    ∀ field ∈ fields, ∃ json, Pattern.ofJson json = .ok field.2 := by
  induction types generalizing fields with
  | nil =>
    cases h
    simp
  | cons type rest ih =>
    obtain ⟨p, read, h⟩ := Except.bind_eq_ok.mp h
    obtain ⟨more, reads, h⟩ := Except.bind_eq_ok.mp h
    cases h
    exact List.forall_mem_cons.mpr ⟨⟨type.2, Contractual.under_eq_ok.mp read⟩, ih reads⟩

theorem read_of_tablePatterns {tables : Entries (Entries String)}
    {fields : List (String × Pattern)} (h : tablePatterns tables = .ok fields) :
    ∀ field ∈ fields, ∃ rows, Pattern.ofRows rows = .ok field.2 := by
  induction tables generalizing fields with
  | nil =>
    cases h
    simp
  | cons table rest ih =>
    obtain ⟨p, read, h⟩ := Except.bind_eq_ok.mp h
    obtain ⟨more, reads, h⟩ := Except.bind_eq_ok.mp h
    cases h
    exact List.forall_mem_cons.mpr ⟨⟨table.2, Contractual.under_eq_ok.mp read⟩, ih reads⟩

def Documented (registry : Entries Pattern) : Prop :=
  ∃ types tables named rows, typePatterns types = .ok named ∧ tablePatterns tables = .ok rows ∧
    registry = (Resolver.ofTypes (named ++ rows)).types

theorem Documented.written {registry : Entries Pattern} (h : Documented registry) :
    WrittenTypes registry := by
  obtain ⟨types, tables, named, rows, readTypes, readTables, rfl⟩ := h
  refine writtenTypes_ofTypes fun type mem => ?_
  rcases List.mem_append.mp mem with mem | mem
  · obtain ⟨json, read⟩ := read_of_typePatterns readTypes type mem
    exact written_ofJson read
  · obtain ⟨rows, read⟩ := read_of_tablePatterns readTables type mem
    exact written_ofRows read

theorem Documented.ne_nullLiteral {registry : Entries Pattern} (h : Documented registry)
    {name : String} {p : Pattern} (named : registered? registry name = some p) :
    p ≠ .exact .null := by
  obtain ⟨types, tables, named', rows, readTypes, readTables, rfl⟩ := h
  obtain ⟨type, mem, same⟩ :=
    List.mem_map.mp (Entries.mem_of_mem_ofList (Entries.mem_of_get? named))
  have own : type.2 ≠ .exact .null := by
    rcases List.mem_append.mp mem with mem | mem
    · obtain ⟨json, read⟩ := read_of_typePatterns readTypes type mem
      exact ne_nullLiteral_ofJson read
    · obtain ⟨rows, read⟩ := read_of_tablePatterns readTables type mem
      obtain ⟨fields, -, h⟩ := Except.bind_eq_ok.mp read
      rw [← Except.ok.inj h]
      exact nofun
  simp only [Prod.mk.injEq] at same
  rw [← same.2]
  exact fun literal => own (withAlias_eq_exact.mp literal)

structure WrittenScenario (resolver : Resolver) (scenario : Scenario) : Prop where
  resolver : scenario.resolver = resolver
  params : ∀ param ∈ scenario.request.path.params, Written param.2
  query : ∀ field ∈ scenario.request.query.fields, Written field.2
  headers : ∀ field ∈ scenario.request.headers.fields, Written field.2
  body : Written scenario.request.body
  headers' : ∀ field ∈ scenario.response.headers.fields, Written field.2
  body' : Written scenario.response.body
  plain : ∀ field ∈ scenario.request.query.fields ++ scenario.request.headers.fields
    ++ scenario.response.headers.fields, field.2 ≠ .exact .null
  lower : ∀ field ∈ scenario.request.headers.fields ++ scenario.response.headers.fields,
    Text.asciiLower field.1 = field.1

theorem read_of_query {texts : Entries String} {fields : Entries Pattern}
    (h : textPatterns texts = .ok fields) (kind : ObjectKind) :
    ∀ field ∈ (ObjectPattern.ofFields fields kind).fields,
      ∃ text, Pattern.read text = .ok field.2 :=
  fun field mem => read_of_textPatterns h field (List.mem_filter.mp mem).1

theorem toLower_toLower (c : Char) : c.toLower.toLower = c.toLower := by
  unfold Char.toLower
  split
  · next upper =>
    refine dif_neg fun again => ?_
    simp only [ge_iff_le, UInt32.le_iff_toNat_le, UInt32.toNat_add, UInt32.toNat_sub]
      at upper again
    have : 'A'.val.toNat = 65 := rfl
    have : 'a'.val.toNat = 97 := rfl
    have : 'Z'.val.toNat = 90 := rfl
    omega
  · rfl

theorem read_of_headers {texts : Entries String} {fields : Entries Pattern}
    (h : textPatterns texts = .ok fields) : ∀ field ∈ (headersPattern fields).fields,
      (∃ text, Pattern.read text = .ok field.2) ∧ Text.asciiLower field.1 = field.1 := by
  intro field mem
  obtain ⟨inserted, declared⟩ := List.mem_filter.mp mem
  rcases Entries.mem_of_mem_insert inserted with rfl | lower
  · simp at declared
  · obtain ⟨other, there, rfl⟩ := List.mem_map.mp (Entries.mem_of_mem_ofList lower)
    refine ⟨read_of_textPatterns h other there, ?_⟩
    exact String.map_map.trans (congrArg (fun f => String.map f other.1) (funext toLower_toLower))

theorem PathPattern.mem_params {path : PathPattern} {name : String} {p : Pattern}
    (mem : .param name p ∈ path.segments) : (name, p) ∈ path.params :=
  List.mem_filterMap.mpr ⟨_, mem, rfl⟩

theorem written_path {text : String} {path : PathPattern} (h : PathPattern.read text = .ok path) :
    ∀ param ∈ path.params, Written param.2 := by
  obtain ⟨segments, read, h⟩ := Except.bind_eq_ok.mp h
  cases h
  intro param mem
  obtain ⟨segment, there, given⟩ := List.mem_filterMap.mp mem
  obtain ⟨text, -, ok⟩ := mem_of_mapM_eq_ok read segment there
  cases segment with
  | literal => cases given
  | param name pattern =>
    cases given
    unfold PathSegment.read at ok
    split at ok
    · obtain ⟨p, read, ok⟩ := Except.bind_eq_ok.mp ok
      cases ok
      exact written_read (Contractual.under_eq_ok.mp read)
    · cases ok

theorem writtenScenario_of_parts {parts : ScenarioParts} {resolver : Resolver} {s : Scenario}
    (h : parts.toScenario resolver = .ok s) : WrittenScenario resolver s := by
  obtain ⟨request, ofRequest, h⟩ := Except.bind_eq_ok.mp h
  obtain ⟨response, ofResponse, h⟩ := Except.bind_eq_ok.mp h
  cases h
  obtain ⟨query, readQuery, h⟩ := Except.bind_eq_ok.mp ofRequest
  obtain ⟨headers, readHeaders, h⟩ := Except.bind_eq_ok.mp h
  obtain ⟨body, readBody, h⟩ := Except.bind_eq_ok.mp h
  obtain ⟨path, readPath, h⟩ := Except.bind_eq_ok.mp h
  cases h
  obtain ⟨headers', readHeaders', h⟩ := Except.bind_eq_ok.mp ofResponse
  obtain ⟨body', readBody', h⟩ := Except.bind_eq_ok.mp h
  cases h
  have query := read_of_query readQuery .json
  have headers := read_of_headers readHeaders
  have headers' := read_of_headers readHeaders'
  have written {p : Pattern} : (∃ text, Pattern.read text = .ok p) → Written p :=
    fun ⟨_, read⟩ => written_read read
  exact {
    resolver := rfl
    params := written_path readPath
    query := fun field mem => written (query field mem)
    headers := fun field mem => written (headers field mem).1
    body := written_ofJson (Contractual.under_eq_ok.mp readBody)
    headers' := fun field mem => written (headers' field mem).1
    body' := written_ofJson (Contractual.under_eq_ok.mp readBody')
    plain := by
      intro field mem
      have source : ∃ text, Pattern.read text = .ok field.2 := by
        rcases List.mem_append.mp mem with mem | mem
        · exact (List.mem_append.mp mem).elim (query field) fun mem => (headers field mem).1
        · exact (headers' field mem).1
      obtain ⟨text, read⟩ := source
      exact ne_nullLiteral_read read
    lower := fun field mem => (List.mem_append.mp mem).elim (fun mem => (headers field mem).2)
      fun mem => (headers' field mem).2 }

structure WrittenFeature (feature : Feature) : Prop where
  types : WrittenTypes feature.resolver.types
  scenarios : ∀ s ∈ feature.scenarios, WrittenScenario feature.resolver s

theorem documented_feature {source : String} {feature : Feature}
    (h : Feature.read source = .ok feature) : Documented feature.resolver.types := by
  obtain ⟨parts, -, h⟩ := Except.bind_eq_ok.mp h
  obtain ⟨types, readTypes, h⟩ := Except.bind_eq_ok.mp h
  obtain ⟨tables, readTables, h⟩ := Except.bind_eq_ok.mp h
  obtain ⟨scenarios, -, h⟩ := Except.bind_eq_ok.mp h
  cases h
  exact ⟨_, _, types, tables, readTypes, readTables, rfl⟩

theorem rowless_feature {source : String} {feature : Feature}
    (h : Feature.read source = .ok feature) : feature.resolver.row = none := by
  obtain ⟨parts, -, h⟩ := Except.bind_eq_ok.mp h
  obtain ⟨types, -, h⟩ := Except.bind_eq_ok.mp h
  obtain ⟨tables, -, h⟩ := Except.bind_eq_ok.mp h
  obtain ⟨scenarios, -, h⟩ := Except.bind_eq_ok.mp h
  cases h
  rfl

theorem written_feature {source : String} {feature : Feature}
    (h : Feature.read source = .ok feature) : WrittenFeature feature := by
  refine ⟨(documented_feature h).written, fun s mem => ?_⟩
  obtain ⟨parts, -, h⟩ := Except.bind_eq_ok.mp h
  obtain ⟨types, -, h⟩ := Except.bind_eq_ok.mp h
  obtain ⟨tables, -, h⟩ := Except.bind_eq_ok.mp h
  obtain ⟨scenarios, read, h⟩ := Except.bind_eq_ok.mp h
  cases h
  obtain ⟨parts, -, ok⟩ := mem_of_mapM_eq_ok read s mem
  exact writtenScenario_of_parts (Contractual.under_eq_ok.mp ok)

def featureOf (source : String) : Feature :=
  (Feature.read source).toOption.getD ⟨"", .empty, []⟩

def patternOf (json : Json) : Pattern :=
  (Pattern.ofJson json).toOption.getD .null

theorem ofJson_patternOf {json : Json} (h : (Pattern.ofJson json).isOk) :
    Pattern.ofJson json = .ok (patternOf json) := by
  unfold patternOf
  cases read : Pattern.ofJson json with
  | error e => simp [read, Except.isOk, Except.toBool] at h
  | ok p => rfl

theorem read_featureOf {source : String} (h : (featureOf source).active ≠ []) :
    Feature.read source = .ok (featureOf source) := by
  unfold featureOf at h ⊢
  cases read : Feature.read source with
  | error e => simp [read, Except.toOption, Feature.active] at h
  | ok feature => rfl

def chainsText (value : String) : String :=
  "[\"\",\x7b\"C\":\x7b\"v\":\"" ++ value ++ "\",\"n?\":\"(C)\"\x7d\x7d,\x7b\x7d,"
    ++ "[[\"\",[],[\"PUT\",\"/\",\x7b\x7d,\x7b\x7d,\"(C)\"],[200]]]]"

end Documents

end ApiContract
