import Mathlib.Data.List.TakeWhile
import ApiContract.Pattern.Rendering
import ApiContract.Proofs.Data
import ApiContract.Proofs.Shapes

set_option autoImplicit false

namespace ApiContract

section Ends

structure Tight (cs : List Char) : Prop where
  first : ∃ c, cs.head? = some c ∧ Text.isBlank c = false
  last : ∃ c, cs.getLast? = some c ∧ Text.isBlank c = false

variable {cs : List Char}

theorem Tight.trim (tight : Tight cs) : Text.trimChars cs = cs := by
  obtain ⟨first, head, solid⟩ := tight.first
  obtain ⟨last, tail, solid'⟩ := tight.last
  have front : cs.dropWhile Text.isBlank = cs := by
    cases cs with
    | nil => rfl
    | cons c rest =>
      cases head
      exact List.dropWhile_cons_of_neg (by simp [solid])
  have back : cs.reverse.dropWhile Text.isBlank = cs.reverse := by
    rw [← List.head?_reverse] at tail
    cases shape : cs.reverse with
    | nil => rfl
    | cons c rest =>
      rw [shape] at tail
      cases tail
      exact List.dropWhile_cons_of_neg (by simp [solid'])
  rw [Text.trimChars, front, Text.trimEndChars, back, List.reverse_reverse]

theorem Tight.ne_nil (tight : Tight cs) : cs ≠ [] := by
  obtain ⟨c, head, -⟩ := tight.first
  rintro rfl
  cases head

theorem Tight.append {ending : List Char} (tight : Tight cs) (tight' : Tight ending) :
    Tight (cs ++ ending) where
  first := by
    obtain ⟨c, head, solid⟩ := tight.first
    exact ⟨c, by simp [List.head?_append, head], solid⟩
  last := by
    obtain ⟨c, tail, solid⟩ := tight'.last
    exact ⟨c, by simp [List.getLast?_append, tail], solid⟩

theorem Tight.of_all (some_ : cs ≠ []) (solid : ∀ c ∈ cs, Text.isBlank c = false) : Tight cs where
  first := ⟨cs.head some_, List.head?_eq_some_head some_, solid _ (List.head_mem some_)⟩
  last := ⟨cs.getLast some_, List.getLast?_eq_some_getLast some_, solid _ (List.getLast_mem some_)⟩

end Ends

section Tokens

variable {cs : List Char} {p : Pattern}

inductive Spelled : Pattern → Prop
  | string : Spelled .string
  | number : Spelled .number
  | boolean : Spelled .boolean
  | null : Spelled .null
  | url (scheme : UrlScheme) : Spelled (.url scheme)
  | reference {name : String} (plain : Token.isTypeName name.toList)
      (free : Token.named name.toList = .ok (.reference name)) : Spelled (.reference name)
  | nullable {p : Pattern} (h : Spelled p) (single : p.nullable = .anyOf [.null, p]) :
      Spelled (.anyOf [.null, p])
  | repeated {p : Pattern} (h : Spelled p) : Spelled (.repeated p)

theorem spelled_nullable (h : Spelled p) : Spelled p.nullable := by
  cases h with
  | null => exact .null
  | nullable h single => exact .nullable h single
  | string => exact .nullable .string rfl
  | number => exact .nullable .number rfl
  | boolean => exact .nullable .boolean rfl
  | url scheme => exact .nullable (.url scheme) rfl
  | reference plain free => exact .nullable (.reference plain free) rfl
  | repeated h => exact .nullable (.repeated h) rfl

theorem spelled_named (h : Token.named cs = .ok p) : Spelled p := by
  have whole := h
  unfold Token.named at h
  split at h
  · cases h; exact .string
  · cases h; exact .number
  · cases h; exact .boolean
  · cases h; exact .null
  · cases h; exact .url _
  · cases h; exact .url _
  · cases h; exact .url _
  · cases h; exact .url _
  · split at h
    · next plain =>
      cases h
      exact .reference (by simpa using plain) (by simpa using whole)
    · cases h

theorem spelled_read (h : Token.read cs = .ok p) : Spelled p := by
  fun_induction Token.read cs generalizing p with
  | case1 cs inner _ ih =>
    obtain ⟨q, read, rfl⟩ := Except.map_eq_ok.mp h
    exact .repeated (ih read)
  | case2 cs _ inner _ ih =>
    obtain ⟨q, read, rfl⟩ := Except.map_eq_ok.mp h
    exact spelled_nullable (ih read)
  | case3 cs _ _ _ type _ ih => exact ih h
  | case4 => exact spelled_named h

theorem read_repeated (tight : Tight (cs ++ ['.', '.', '.'])) :
    Token.read (cs ++ ['.', '.', '.']) = (Token.read cs).map .repeated := by
  have cut : Token.cutEnd? ['.', '.', '.'] (cs ++ ['.', '.', '.']) = some cs := by
    simp [Token.cutEnd?]
  rw [Token.read, tight.trim]
  split
  · next inner found =>
    cases cut.symm.trans found
    rfl
  · next absent => cases cut.symm.trans absent

theorem cutEnd?_of_last {ending : List Char} {c d : Char} (tail : cs.getLast? = some c)
    (other : ending.getLast? = some d) (apart : c ≠ d) : Token.cutEnd? ending cs = none := by
  apply if_neg
  intro suffix
  obtain ⟨front, rfl⟩ := List.isSuffixOf_iff_suffix.mp suffix
  rw [List.getLast?_append, other] at tail
  exact apart (by simpa using tail.symm)

theorem read_nullable (tight : Tight (cs ++ ['?'])) :
    Token.read (cs ++ ['?']) = (Token.read cs).map Pattern.nullable := by
  have dots : Token.cutEnd? ['.', '.', '.'] (cs ++ ['?']) = none :=
    cutEnd?_of_last (c := '?') (d := '.') (by simp) rfl (by decide)
  have cut : Token.cutEnd? ['?'] (cs ++ ['?']) = some cs := by
    simp [Token.cutEnd?]
  rw [Token.read, tight.trim]
  split
  · next found => cases dots.symm.trans found
  · split
    · next inner found =>
      cases cut.symm.trans found
      rfl
    · next absent => cases cut.symm.trans absent

theorem read_bare (tight : Tight cs) (dots : Token.cutEnd? ['.', '.', '.'] cs = none)
    (mark : Token.cutEnd? ['?'] cs = none) (keyed : Token.keyed? cs = none) :
    Token.read cs = Token.named cs := by
  rw [Token.read, tight.trim]
  split
  · next found => cases dots.symm.trans found
  · split
    · next found => cases mark.symm.trans found
    · split
      · next found => cases keyed.symm.trans found
      · rfl

theorem isNameChar_of_plain (plain : Token.isTypeName cs) : ∀ c ∈ cs, Token.isNameChar c := by
  simp only [Token.isTypeName, Bool.and_eq_true, List.all_eq_true] at plain
  exact plain.2

theorem tight_plain (plain : Token.isTypeName cs) : Tight cs := by
  refine .of_all ?_ fun c mem => not_isBlank_of_isNameChar (isNameChar_of_plain plain c mem)
  rintro rfl
  exact absurd plain (by decide)

theorem read_plain (plain : Token.isTypeName cs) : Token.read cs = Token.named cs := by
  have tight := tight_plain plain
  obtain ⟨last, tail, -⟩ := tight.last
  have named : Token.isNameChar last := isNameChar_of_plain plain last (List.mem_of_getLast? tail)
  apply read_bare tight
  · apply cutEnd?_of_last (d := '.') tail rfl
    rintro rfl
    exact absurd named (by decide)
  · apply cutEnd?_of_last (d := '?') tail rfl
    rintro rfl
    exact absurd named (by decide)
  · have rest : cs.dropWhile Token.isNameChar = [] :=
      List.dropWhile_eq_nil_iff.mpr (isNameChar_of_plain plain)
    simp [Token.keyed?, rest]

theorem typeName_nullable : (Pattern.anyOf [.null, p]).typeName = p.typeName ++ "?" := by
  simp [Pattern.typeName, Pattern.typeNames]

theorem Spelled.tight (h : Spelled p) : Tight p.typeName.toList := by
  induction h with
  | string | number | boolean | null => exact .of_all (by decide) (not_isBlank_of_all rfl)
  | url scheme =>
    cases scheme <;> exact ⟨⟨'u', rfl, by decide⟩, _, rfl, by decide⟩
  | reference plain => exact tight_plain plain
  | nullable _ _ ih =>
    rw [typeName_nullable, String.toList_append]
    exact ih.append (.of_all (by decide) (not_isBlank_of_all rfl))
  | repeated _ ih =>
    rw [Pattern.typeName, String.toList_append]
    exact ih.append (.of_all (by decide) (not_isBlank_of_all rfl))

theorem Spelled.read_typeName (h : Spelled p) : Token.read p.typeName.toList = .ok p := by
  have tight := h.tight
  induction h with
  | string | number | boolean | null => exact read_bare tight rfl rfl rfl
  | url scheme => cases scheme <;> exact read_bare tight rfl rfl rfl
  | reference plain free => exact (read_plain plain).trans free
  | nullable inner single ih =>
    rw [typeName_nullable, String.toList_append] at tight ⊢
    exact (read_nullable tight).trans (by rw [ih inner.tight, Except.map, single])
  | repeated inner ih =>
    rw [Pattern.typeName, String.toList_append] at tight ⊢
    exact (read_repeated tight).trans (by rw [ih inner.tight, Except.map])

theorem getLast?_enclosed : ('(' :: (cs ++ [')'])).getLast? = some ')' := by
  rw [← List.cons_append, List.getLast?_concat]

theorem Spelled.toJson (h : Spelled p) : p.toJson = .string (Pattern.inParentheses p.typeName) := by
  induction h with
  | reference => rfl
  | @repeated q inner ih =>
    have text : Pattern.tokenText q q.toJson = Pattern.inParentheses q.typeName := by
      rw [ih]
      cases inner <;> rfl
    have bare : Pattern.withoutParentheses (Pattern.inParentheses q.typeName) = q.typeName := by
      simp [Pattern.withoutParentheses, Pattern.inParentheses, Token.opensAndCloses,
        getLast?_enclosed]
    rw [Pattern.toJson, text, bare, Pattern.typeName]
  | _ => rfl

theorem readWithin_inParentheses {levels : Nat} {name : String} (tight : Tight name.toList) :
    Pattern.readWithin (levels + 1) (Pattern.inParentheses name) = Token.read name.toList := by
  have shape : (Pattern.inParentheses name).toList = '(' :: (name.toList ++ [')']) := by
    simp [Pattern.inParentheses]
  have trimmed : Text.trimChars ('(' :: (name.toList ++ [')'])) = '(' :: (name.toList ++ [')']) :=
    Tight.trim ⟨⟨'(', rfl, by decide⟩, ')', getLast?_enclosed, by decide⟩
  have closed : Token.opensAndCloses ('(' :: (name.toList ++ [')'])) := by
    simp [Token.opensAndCloses, getLast?_enclosed]
  have long := List.length_pos_iff.mpr tight.ne_nil
  have token : Token.isToken ('(' :: (name.toList ++ [')'])) := by
    simp only [Token.isToken, trimmed, closed, Bool.and_true, decide_eq_true_eq, List.length_cons,
      List.length_append, List.length_nil]
    omega
  have body : Token.body ('(' :: (name.toList ++ [')'])) = name.toList := by
    simp [Token.body, trimmed, closed, tight.trim]
  simp only [Pattern.readWithin, shape, trimmed, if_pos token, body]

end Tokens

section Documents

variable {p : Pattern}

inductive Readable : Pattern → Prop
  | token {p : Pattern} (h : Spelled p) : Readable p
  | text {s : String} (h : Pattern.read s = .ok (.exact (.string s))) : Readable (.exact (.string s))
  | boolean (b : Bool) : Readable (.exact (.boolean b))
  | number (n : Number) : Readable (.exact (.number n))
  | array {elements : List Pattern} (all : ∀ p ∈ elements, Readable p)
      (placed : Pattern.misplacedRepeated? elements = none) : Readable (.array elements none)
  | object {fields : List (String × Pattern)} (all : ∀ field ∈ fields, Readable field.2)
      (distinct : Entries.Distinct fields) (closed : openKey ∉ Entries.keys fields)
      (unexpected : UnexpectedKeys) :
      Readable (.object fields { unexpected, kind := .json, knownAs := none })

theorem readable_objectOf {fields : List (String × Pattern)}
    (all : ∀ field ∈ fields, Readable field.2) (distinct : Entries.Distinct fields) :
    Readable (Pattern.objectOf fields .json) := by
  apply Readable.object
  · exact fun field mem => all field (List.mem_filter.mp mem).1
  · exact distinct.sublist (List.filter_sublist.map Prod.fst)
  · intro mem
    obtain ⟨field, kept, same⟩ := List.mem_map.mp mem
    simpa [same] using (List.mem_filter.mp kept).2

theorem keys_of_fieldsWith {text : String → Contractual Pattern} {members : List (String × Json)}
    {fields : List (String × Pattern)} (h : Pattern.fieldsWith text members = .ok fields) :
    Entries.keys fields = Entries.keys members := by
  induction members generalizing fields with
  | nil =>
    cases h
    rfl
  | cons member rest ih =>
    obtain ⟨p, -, h⟩ := Except.bind_eq_ok.mp h
    obtain ⟨more, reads, h⟩ := Except.bind_eq_ok.mp h
    cases h
    exact congrArg (member.1 :: ·) (ih reads)

mutual

theorem readable_ofJsonWith {text : String → Contractual Pattern}
    (texts : ∀ s p, text s = .ok p → Readable p) :
    ∀ (json : Json) {p : Pattern}, json.keyed → Pattern.ofJsonWith text json = .ok p → Readable p
  | .null, p, _, h => by
    cases h
    exact .token .null
  | .bool b, p, _, h => by
    cases h
    exact .boolean b
  | .number n, p, _, h => by
    cases h
    exact .number n
  | .string s, p, _, h => texts s p h
  | .array items, p, keyed, h => by
    obtain ⟨elements, read, h⟩ := Except.bind_eq_ok.mp h
    obtain ⟨placed, rfl⟩ := eq_of_arrayOf h
    exact .array (readable_elementsWith texts items keyed read) placed
  | .object members, p, keyed, h => by
    obtain ⟨fields, read, h⟩ := Except.bind_eq_ok.mp h
    cases h
    rw [Json.keyed, Bool.and_eq_true, decide_eq_true_eq] at keyed
    apply readable_objectOf (readable_fieldsWith texts members keyed.2 read)
    rw [Entries.Distinct, keys_of_fieldsWith read]
    exact keyed.1

theorem readable_elementsWith {text : String → Contractual Pattern}
    (texts : ∀ s p, text s = .ok p → Readable p) :
    ∀ (items : List Json) {i : Nat} {elements : List Pattern}, Json.keyedItems items →
      Pattern.elementsWith text i items = .ok elements → ∀ p ∈ elements, Readable p
  | [], _, elements, _, h => by
    cases h
    simp
  | item :: rest, i, elements, keyed, h => by
    rw [Json.keyedItems, Bool.and_eq_true] at keyed
    obtain ⟨p, read, h⟩ := Except.bind_eq_ok.mp h
    obtain ⟨more, reads, h⟩ := Except.bind_eq_ok.mp h
    cases h
    exact List.forall_mem_cons.mpr
      ⟨readable_ofJsonWith texts item keyed.1 (Contractual.under_eq_ok.mp read),
        readable_elementsWith texts rest keyed.2 reads⟩

theorem readable_fieldsWith {text : String → Contractual Pattern}
    (texts : ∀ s p, text s = .ok p → Readable p) :
    ∀ (members : List (String × Json)) {fields : List (String × Pattern)},
      Json.keyedMembers members → Pattern.fieldsWith text members = .ok fields →
      ∀ field ∈ fields, Readable field.2
  | [], fields, _, h => by
    cases h
    simp
  | (key, value) :: rest, fields, keyed, h => by
    rw [Json.keyedMembers, Bool.and_eq_true] at keyed
    obtain ⟨p, read, h⟩ := Except.bind_eq_ok.mp h
    obtain ⟨more, reads, h⟩ := Except.bind_eq_ok.mp h
    cases h
    exact List.forall_mem_cons.mpr
      ⟨readable_ofJsonWith texts value keyed.1 (Contractual.under_eq_ok.mp read),
        readable_fieldsWith texts rest keyed.2 reads⟩

end

theorem readable_readWithin {levels : Nat} {text : String}
    (h : Pattern.readWithin levels text = .ok p) : Readable p := by
  induction levels generalizing text p with
  | zero => cases h
  | succ levels ih =>
    dsimp only [Pattern.readWithin] at h
    split at h
    · exact .token (spelled_read h)
    · next plain =>
      split at h
      · split at h
        · next json read =>
          exact readable_ofJsonWith (fun _ _ => ih) json (Json.keyed_of_read read) h
        · cases h
      · next unopened =>
        cases h
        apply Readable.text
        -- A text that is a literal at one depth is a literal at all.
        dsimp only [Pattern.read, Pattern.readWithin]
        rw [if_neg plain, if_neg unopened]

theorem readable_ofJson {json : Json} (keyed : json.keyed) (h : Pattern.ofJson json = .ok p) :
    Readable p :=
  readable_ofJsonWith (fun _ _ => readable_readWithin) json keyed h

theorem elementsWith_toJsonAll {text : String → Contractual Pattern} {elements : List Pattern}
    {i : Nat} (all : ∀ p ∈ elements, Pattern.ofJsonWith text p.toJson = .ok p) :
    Pattern.elementsWith text i (Pattern.toJsonAll elements) = .ok elements := by
  induction elements generalizing i with
  | nil => rfl
  | cons p rest ih =>
    rw [List.forall_mem_cons] at all
    rw [Pattern.toJsonAll, Pattern.elementsWith, all.1, ih all.2]
    rfl

theorem fieldsWith_toJsonFields {text : String → Contractual Pattern}
    {fields extra : List (String × Pattern)} {more : List (String × Json)}
    (all : ∀ field ∈ fields, Pattern.ofJsonWith text field.2.toJson = .ok field.2)
    (after : Pattern.fieldsWith text more = .ok extra) :
    Pattern.fieldsWith text (Pattern.toJsonFields fields ++ more) = .ok (fields ++ extra) := by
  induction fields with
  | nil => exact after
  | cons field rest ih =>
    rw [List.forall_mem_cons] at all
    rw [Pattern.toJsonFields, List.cons_append, Pattern.fieldsWith, all.1, ih all.2]
    rfl

theorem keys_toJsonFields (fields : List (String × Pattern)) :
    Entries.keys (Pattern.toJsonFields fields) = Entries.keys fields := by
  induction fields with
  | nil => rfl
  | cons field rest ih => exact congrArg (field.1 :: ·) ih

theorem erase_of_closed {α : Type} {entries : Entries α} {key : String}
    (closed : key ∉ Entries.keys entries) : Entries.erase entries key = entries := by
  apply List.filter_eq_self.mpr
  intro entry mem
  have other : entry.1 ≠ key := by
    rintro rfl
    exact closed (List.mem_map.mpr ⟨entry, mem, rfl⟩)
  simpa using other

theorem get?_of_closed {α : Type} {entries : Entries α} {key : String}
    (closed : key ∉ Entries.keys entries) : Entries.get? entries key = none := by
  cases found : Entries.get? entries key with
  | none => rfl
  | some a => exact absurd (List.mem_map.mpr ⟨_, Entries.mem_of_get? found, rfl⟩) closed

theorem objectOf_closed {fields : List (String × Pattern)} {kind : ObjectKind}
    (closed : openKey ∉ Entries.keys fields) :
    Pattern.objectOf fields kind =
      .object fields { unexpected := .reject, kind, knownAs := none } := by
  rw [Pattern.objectOf, erase_of_closed closed, Entries.contains, get?_of_closed closed]
  rfl

theorem objectOf_opened {fields : List (String × Pattern)} {kind : ObjectKind}
    (closed : openKey ∉ Entries.keys fields) :
    Pattern.objectOf (fields ++ [(openKey, p)]) kind =
      .object fields { unexpected := .ignore, kind, knownAs := none } := by
  have kept : Entries.erase (fields ++ [(openKey, p)]) openKey = fields := by
    rw [Entries.erase, List.filter_append]
    exact (congrArg (· ++ _) (erase_of_closed closed)).trans (by simp)
  have found : Entries.contains (fields ++ [(openKey, p)]) openKey :=
    Entries.contains_of_mem (List.mem_append_right _ List.mem_cons_self)
  rw [Pattern.objectOf, kept, if_pos found]

theorem arrayOf_of_placed {elements : List Pattern}
    (placed : Pattern.misplacedRepeated? elements = none) :
    Pattern.arrayOf elements = .ok (.array elements none) := by
  rw [Pattern.arrayOf, placed]

theorem ofJson_object {members : List (String × Json)} {fields : List (String × Pattern)}
    (h : Pattern.fieldsWith Pattern.read members = .ok fields) :
    Pattern.ofJson (.object members) = .ok (Pattern.objectOf fields .json) := by
  rw [Pattern.ofJson, Pattern.ofJsonWith, h]
  rfl

theorem Readable.ofJson_toJson (h : Readable p) : Pattern.ofJson p.toJson = .ok p := by
  induction h with
  | @token p h =>
    rw [h.toJson, Pattern.ofJson, Pattern.ofJsonWith, Pattern.read,
      readWithin_inParentheses h.tight, h.read_typeName]
  | text h =>
    rw [Pattern.toJson, Value.toJson, Pattern.ofJson, Pattern.ofJsonWith, h]
  | boolean | number => rfl
  | @array elements _ placed ih =>
    rw [Pattern.toJson, Pattern.ofJson, Pattern.ofJsonWith, elementsWith_toJsonAll ih]
    exact arrayOf_of_placed placed
  | @object fields _ distinct closed unexpected ih =>
    have closed' : openKey ∉ Entries.keys (Pattern.toJsonFields fields) := by
      rwa [keys_toJsonFields]
    have members : Entries.ofList (Pattern.toJsonFields fields) = Pattern.toJsonFields fields := by
      apply Entries.ofList_of_distinct
      rwa [Entries.Distinct, keys_toJsonFields]
    cases unexpected with
    | reject =>
      have read := fieldsWith_toJsonFields ih (Pattern.fieldsWith.eq_1 Pattern.read)
      simp only [List.append_nil] at read
      simp only [Pattern.toJson, members, ofJson_object read, objectOf_closed closed]
    | ignore =>
      have opened : Pattern.fieldsWith Pattern.read [(openKey, .string "")] =
          .ok [(openKey, .exact (.string ""))] := rfl
      have read := fieldsWith_toJsonFields ih opened
      simp only [Pattern.toJson, members, Entries.insert_of_new closed', ofJson_object read,
        objectOf_opened closed]

theorem Spelled.same_self (h : Spelled p) : p.same p := by
  induction h with
  | nullable _ _ ih => simp [Pattern.same, Pattern.sameAll, ih]
  | repeated _ ih => simp [Pattern.same, ih]
  | _ => simp [Pattern.same]

theorem Readable.same_self (h : Readable p) : p.same p := by
  induction h with
  | token h => exact h.same_self
  | text | boolean | number => exact Value.same_of_scalar rfl
  | array _ _ ih => exact Pattern.sameAll_iff.mpr (List.forall₂_same.mpr ih)
  | object _ distinct _ _ ih =>
    simp only [Pattern.same, decide_true, Bool.true_and, Bool.and_true]
    apply Pattern.sameFields_iff.mpr
    exact fun key q mem => ⟨q, Entries.get?_of_mem distinct mem, ih (key, q) mem⟩

theorem Pattern.ofJson_rendered {json : Json} {p : Pattern} (keyed : json.keyed)
    (h : Pattern.ofJson json = .ok p) :
    ∃ q, Pattern.ofJson p.toJson = .ok q ∧ q.same p :=
  have readable := readable_ofJson keyed h
  ⟨p, readable.ofJson_toJson, readable.same_self⟩

def customerDocument : Json :=
  .object
    [("id", .string " ( id : number ) "), ("name?", .string "(string? ?)"),
      ("tags", .array [.string "gold ", .string "(Tag?...)"]),
      ("size", .number (.ofNat 2 (Nat.le_of_ble_eq_true rfl))),
      ("home", .string " \x7b\"path\":\"(url path)\",\"owner?\":\"(Customer)\",\"...\":1\x7d"),
      ("...", .string "")]

theorem Pattern.customer_rendered : ∃ p, Pattern.ofJson customerDocument = .ok p ∧
    ∃ q, Pattern.ofJson p.toJson = .ok q ∧ q.same p := by
  have read := ofJson_patternOf (show (Pattern.ofJson customerDocument).isOk by decide +kernel)
  exact ⟨_, read, ofJson_rendered (by decide) read⟩

end Documents

end ApiContract
