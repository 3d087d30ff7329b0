import ApiContract.Value.Xml

set_option autoImplicit false

namespace ApiContract.Xml

def marked : List Char :=
  ['&', '<', '>', '"']

def entityTexts : List String :=
  ["&amp;", "&lt;", "&gt;", "&quot;"]

def unescapeChars : List Char → List Char
  | '&' :: 'a' :: 'm' :: 'p' :: ';' :: rest => '&' :: unescapeChars rest
  | '&' :: 'l' :: 't' :: ';' :: rest => '<' :: unescapeChars rest
  | '&' :: 'g' :: 't' :: ';' :: rest => '>' :: unescapeChars rest
  | '&' :: 'q' :: 'u' :: 'o' :: 't' :: ';' :: rest => '"' :: unescapeChars rest
  | c :: rest => c :: unescapeChars rest
  | [] => []

def unescape (s : String) : String :=
  String.ofList (unescapeChars s.toList)

def replaceChar (cs : List Char) (c : Char) : List Char :=
  cs.flatMap fun d => if d = c then entity c else [d]

def replaceMarked (cs : List Char) : List Char :=
  marked.foldl replaceChar cs

section Characters

variable {c : Char} {cs rest before after : List Char}

theorem entity_of_unmarked (h : c ∉ marked) : entity c = [c] := by
  simp only [marked, List.mem_cons, List.not_mem_nil, or_false, not_or] at h
  simp [entity, h]

theorem entity_cases (c : Char) : c ∉ marked ∧ entity c = [c] ∨
    ∃ name, entity c = '&' :: name ∧ '&' ∉ name ∧ String.ofList (entity c) ∈ entityTexts := by
  by_cases h : c ∈ marked
  · simp only [marked, List.mem_cons, List.not_mem_nil, or_false] at h
    rcases h with rfl | rfl | rfl | rfl <;> exact .inr ⟨_, rfl, by decide, by decide⟩
  · exact .inl ⟨h, entity_of_unmarked h⟩

theorem not_mem_entity {d : Char} (markup : d ∈ ['<', '>', '"']) : d ∉ entity c := by
  by_cases h : c ∈ marked
  · simp only [marked, List.mem_cons, List.not_mem_nil, or_false] at h markup
    rcases h with rfl | rfl | rfl | rfl <;> rcases markup with rfl | rfl | rfl <;> decide
  · rw [entity_of_unmarked h, List.mem_singleton]
    rintro rfl
    exact h (List.mem_cons_of_mem _ markup)

theorem replaceMarked_eq (cs : List Char) : replaceMarked cs = cs.flatMap entity := by
  simp only [replaceMarked, marked, List.foldl_cons, List.foldl_nil, replaceChar,
    List.flatMap_assoc]
  refine congrArg (cs.flatMap ·) (funext fun c => ?_)
  by_cases h : c ∈ marked
  · -- No entity brings a character that a later pass replaces.
    simp only [marked, List.mem_cons, List.not_mem_nil, or_false] at h
    rcases h with rfl | rfl | rfl | rfl <;> decide
  · rw [entity_of_unmarked h]
    simp only [marked, List.mem_cons, List.not_mem_nil, or_false, not_or] at h
    simp [h]

-- A pass for the `&` after another one would replace the `&` of its entities too.
example : replaceChar (replaceChar ['<'] '<') '&' = "&amp;lt;".toList := by decide

theorem entity_of_ampersand (h : cs.flatMap entity = before ++ '&' :: after) :
    ∃ text ∈ entityTexts, text.toList <+: '&' :: after := by
  induction cs generalizing before with
  | nil => simp at h
  | cons c rest ih =>
    rw [List.flatMap_cons] at h
    rcases List.append_eq_append_iff.mp h with ⟨more, -, later⟩ | ⟨more, inside, split⟩
    · exact ih later
    cases more with
    | nil =>
      have whole : rest.flatMap entity = [] ++ '&' :: after := by simpa using split.symm
      exact ih whole
    | cons d more =>
      obtain ⟨rfl, rfl⟩ := List.cons.inj split
      rcases entity_cases c with ⟨unmarked, own⟩ | ⟨name, own, single, known⟩
      · have ampersand : '&' ∈ entity c := by simp [inside]
        rw [own, List.mem_singleton] at ampersand
        exact absurd (ampersand ▸ List.mem_cons_self) unmarked
      · refine ⟨_, known, ?_⟩
        cases before with
        | nil =>
          rw [String.toList_ofList, inside]
          exact ⟨rest.flatMap entity, rfl⟩
        | cons b before =>
          -- A name holds no `&`, so the entity starts with it.
          rw [own] at inside
          obtain ⟨-, rfl⟩ := List.cons.inj inside
          exact absurd (by simp) single

theorem unescapeChars_of_plain (h : c ≠ '&') :
    unescapeChars (c :: rest) = c :: unescapeChars rest := by
  simp [unescapeChars, h]

theorem unescapeChars_entity : unescapeChars (entity c ++ rest) = c :: unescapeChars rest := by
  by_cases h : c ∈ marked
  · simp only [marked, List.mem_cons, List.not_mem_nil, or_false] at h
    rcases h with rfl | rfl | rfl | rfl <;> rfl
  · rw [entity_of_unmarked h]
    exact unescapeChars_of_plain fun same => h (same ▸ List.mem_cons_self)

theorem unescapeChars_escaped : unescapeChars (cs.flatMap entity) = cs := by
  induction cs with
  | nil => rfl
  | cons c rest ih => rw [List.flatMap_cons, unescapeChars_entity, ih]

end Characters

section Texts

variable {s t : String}

theorem toList_escape (s : String) : (escape s).toList = s.toList.flatMap entity :=
  String.toList_ofList

theorem unescape_escaped (s : String) : unescape (escape s) = s := by
  rw [unescape, toList_escape, unescapeChars_escaped, String.ofList_toList]

theorem escape_inj (h : escape s = escape t) : s = t := by
  rw [← unescape_escaped s, h, unescape_escaped]

theorem not_mem_escape {c : Char} (markup : c ∈ ['<', '>', '"']) : c ∉ (escape s).toList := by
  intro mem
  rw [toList_escape] at mem
  obtain ⟨d, -, inside⟩ := List.mem_flatMap.mp mem
  exact not_mem_entity markup inside

theorem toList_renderAttributes (key value : String) (rest : List (String × String)) :
    (renderAttributes ((key, value) :: rest)).toList =
      (" " ++ key ++ "=\"").toList ++ ((escape value).toList ++
        '"' :: (renderAttributes rest).toList) := by
  simp [renderAttributes]

theorem renderAttributes_inj {key : String} {rest others : List (String × String)}
    (h : renderAttributes ((key, s) :: rest) = renderAttributes ((key, t) :: others)) :
    s = t ∧ renderAttributes rest = renderAttributes others := by
  have texts := congrArg String.toList h
  rw [toList_renderAttributes, toList_renderAttributes] at texts
  have same := List.append_cancel_left texts
  have value (u : String) (more : List Char) :
      ((escape u).toList ++ '"' :: more).takeWhile (· ≠ '"') = (escape u).toList := by
    have plain : ∀ c ∈ (escape u).toList, decide (c ≠ '"') := fun c mem =>
      decide_eq_true fun quote => not_mem_escape (by simp) (quote ▸ mem)
    rw [List.takeWhile_append_of_pos plain]
    simp
  have values := congrArg (List.takeWhile (· ≠ '"')) same
  rw [value, value] at values
  rw [values] at same
  have later := List.append_cancel_left same
  exact ⟨escape_inj (String.toList_inj.mp values),
    String.toList_inj.mp (List.cons.inj later).2⟩

theorem escaped_text_reread (s : String) :
    (escape s).toList = replaceMarked s.toList ∧
      '<' ∉ (escape s).toList ∧ '>' ∉ (escape s).toList ∧ '"' ∉ (escape s).toList ∧
      (∀ before after, (escape s).toList = before ++ '&' :: after →
        ∃ text ∈ entityTexts, text.toList <+: '&' :: after) ∧
      unescape (escape s) = s ∧
      (∀ t, (Xml.text s).render = (Xml.text t).render → s = t) ∧
      ∀ key t rest others,
        renderAttributes ((key, s) :: rest) = renderAttributes ((key, t) :: others) →
          s = t ∧ renderAttributes rest = renderAttributes others := by
  refine ⟨?_, not_mem_escape (by decide), not_mem_escape (by decide), not_mem_escape (by decide),
    ?_, unescape_escaped s, ?_, fun key t rest others => renderAttributes_inj⟩
  · rw [toList_escape, replaceMarked_eq]
  · intro before after split
    rw [toList_escape] at split
    exact entity_of_ampersand split
  · intro t same
    simp only [render] at same
    exact escape_inj same

def labelText : String :=
  "a & \"b\" is < &lt;c>"

theorem label_reread :
    (escape labelText).toList =
      "a &amp; &quot;b&quot; is &lt; ".toList ++ '&' :: "amp;lt;c&gt;".toList ∧
    (∃ text ∈ entityTexts, text.toList <+: '&' :: "amp;lt;c&gt;".toList) ∧
    unescape (escape labelText) = labelText := by
  have written : (escape labelText).toList =
      "a &amp; &quot;b&quot; is &lt; ".toList ++ '&' :: "amp;lt;c&gt;".toList := by decide +kernel
  obtain ⟨-, -, -, -, starts, back, -⟩ := escaped_text_reread labelText
  exact ⟨written, starts _ _ written, back⟩

end Texts

end ApiContract.Xml
