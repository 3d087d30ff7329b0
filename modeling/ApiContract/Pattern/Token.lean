import ApiContract.Pattern.Basic
import ApiContract.Text.Blank

set_option autoImplicit false

namespace ApiContract.Token

open ApiContract.Text

def isNameStart (c : Char) : Bool :=
  ('A' ≤ c && c ≤ 'Z') || ('a' ≤ c && c ≤ 'z') || c = '_'

def isNameChar (c : Char) : Bool :=
  isNameStart c || ('0' ≤ c && c ≤ '9') || c = '-'

def isTypeName (cs : List Char) : Bool :=
  (match cs with
    | c :: _ => isNameStart c
    | [] => false) && cs.all isNameChar

def opensAndCloses (cs : List Char) : Bool :=
  -- An opening parenthesis first and a closing one last, so two characters at least.
  cs.head? = some '(' && cs.getLast? = some ')'

def isToken (cs : List Char) : Bool :=
  let trimmed := trimChars cs
  2 < trimmed.length && opensAndCloses trimmed

def body (cs : List Char) : List Char :=
  let trimmed := trimChars cs
  if opensAndCloses trimmed then trimChars trimmed.tail.dropLast
  else trimmed

def keyed? (cs : List Char) : Option (List Char × List Char) :=
  let name := cs.takeWhile isNameChar
  if isTypeName name then
    match (cs.dropWhile isNameChar).dropWhile isBlank with
    | ':' :: rest =>
        let type := rest.dropWhile isBlank
        if type ≠ [] ∧ '\n' ∉ type then some (name, type) else none
    | _ => none
  else none

def cutEnd? (ending cs : List Char) : Option (List Char) :=
  if ending.isSuffixOf cs then some (cs.take (cs.length - ending.length)) else none

theorem length_trimChars_le (cs : List Char) : (trimChars cs).length ≤ cs.length := by
  have drop : ∀ l : List Char, (l.dropWhile isBlank).length ≤ l.length := fun l =>
    (List.dropWhile_sublist isBlank).length_le
  have := drop (cs.dropWhile isBlank).reverse
  have := drop cs
  simp only [trimChars, trimEndChars, List.length_reverse] at *
  omega

theorem length_cutEnd? {ending cs inner : List Char} (h : cutEnd? ending cs = some inner)
    (nonempty : ending ≠ []) : inner.length < cs.length := by
  unfold cutEnd? at h
  split at h
  · next hs =>
      have hl := (List.isSuffixOf_iff_suffix.mp hs).length_le
      have hp := List.length_pos_iff.mpr nonempty
      obtain rfl := Option.some.inj h
      simp only [List.length_take]
      omega
  · exact absurd h (by simp)

theorem length_keyed? {cs name type : List Char} (h : keyed? cs = some (name, type)) :
    type.length < cs.length := by
  have drop : ∀ l : List Char, (l.dropWhile isBlank).length ≤ l.length := fun l =>
    (List.dropWhile_sublist isBlank).length_le
  simp only [keyed?] at h
  split at h
  · split at h
    · next rest hr =>
        split at h
        · have h1 := drop rest
          have h2 := drop (cs.dropWhile isNameChar)
          have h3 : (cs.dropWhile isNameChar).length ≤ cs.length :=
            (List.dropWhile_sublist isNameChar).length_le
          have h4 := congrArg List.length hr
          simp only [Option.some.injEq, Prod.mk.injEq] at h
          obtain ⟨-, rfl⟩ := h
          simp only [List.length_cons] at h4
          omega
        · exact absurd h (by simp)
    · exact absurd h (by simp)
  · exact absurd h (by simp)

def named (cs : List Char) : Contractual Pattern :=
  match String.ofList cs with
  | "string" => .ok .string
  | "number" => .ok .number
  | "boolean" => .ok .boolean
  | "null" => .ok .null
  | "url" => .ok (.url .any)
  | "url http" => .ok (.url .http)
  | "url https" => .ok (.url .https)
  | "url path" => .ok (.url .path)
  | name =>
      if isTypeName cs then .ok (.reference name)
      else .error (.malformed ("unrecognised pattern token (" ++ name ++ ")"))

def read (cs : List Char) : Contractual Pattern :=
  match _h : cutEnd? ['.', '.', '.'] (trimChars cs) with
  | some inner => (read inner).map .repeated
  | none =>
      match _h : cutEnd? ['?'] (trimChars cs) with
      | some inner => (read inner).map Pattern.nullable
      | none =>
          match _h : keyed? (trimChars cs) with
          | some (_, type) => read type
          | none => named (trimChars cs)
  termination_by cs.length
  decreasing_by
    · have := length_cutEnd? _h (by simp)
      have := length_trimChars_le cs
      omega
    · have := length_cutEnd? _h (by simp)
      have := length_trimChars_le cs
      omega
    · have := length_keyed? _h
      have := length_trimChars_le cs
      omega

def isTokenText (text : String) : Bool :=
  isToken text.toList

def typeName (text : String) : String :=
  String.ofList (body text.toList)

def keyedText? (text : String) : Option (String × String) :=
  (keyed? (body text.toList)).map fun (name, type) => (String.ofList name, String.ofList type)

end ApiContract.Token
