import ApiContract.Json.Basic
import ApiContract.Json.Flaw
import ApiContract.Number.Reading

set_option autoImplicit false

namespace ApiContract.Json

abbrev Reader (α : Type) := StateT (List Char) (Except Fault) α

namespace Reader

variable {α : Type}

def fail (flaw : Flaw) : Reader α :=
  fun _ => .error (Fault.of flaw)

def under (step : Step) (reader : Reader α) : Reader α :=
  fun cs =>
    match reader cs with
    | .error fault => .error (fault.under step)
    | .ok result => .ok result

def isBlank (c : Char) : Bool :=
  c = ' ' || c = '\n' || c = '\t' || c = '\r'

def peek : Reader (Option Char) :=
  fun cs =>
    let rest := cs.dropWhile isBlank
    .ok (rest.head?, rest)

def advance : Reader Unit :=
  modify List.tail

def literal : List Char → Reader Unit
  | [] => pure ()
  | expected :: more => do
      match ← get with
      | [] => fail .endOfValue
      | c :: rest =>
          if c = expected then
            set rest
            literal more
          else fail .noLiteral

def digits : Reader (List Char) :=
  fun cs => .ok (cs.span isDigit)

def someDigits (short : Flaw) : Reader (List Char) := do
  match ← digits with
  | [] => if (← get).isEmpty then fail short else fail .badNumber
  | ds => return ds

def exponentSign : Reader Bool := do
  match ← get with
  | '+' :: rest => set rest; return false
  | '-' :: rest => set rest; return true
  | _ => return false

def numberParts (negative : Bool) (short : Flaw) : Reader NumberParts := do
  let whole ← someDigits short
  if whole.length ≠ 1 ∧ whole.head? = some '0' then fail .badNumber
  let fraction ← match ← get with
    | '.' :: rest => do
        set rest
        some <$> someDigits short
    | _ => pure none
  let exponent ← match ← get with
    | c :: rest =>
        if c = 'e' ∨ c = 'E' then do
          set rest
          let below ← exponentSign
          let size := naturalOf (← someDigits short)
          pure (some (if below then -(size : Int) else size))
        else pure none
    | [] => pure none
  return { negative, whole, fraction, exponent }

def signedParts (short : Flaw) : Reader NumberParts := do
  match ← get with
  | '-' :: rest =>
      set rest
      numberParts true short
  | _ => numberParts false short

def number : Reader Number := do
  match (← signedParts .endOfValue).number? with
  | some n => return n
  | none => fail .numberOutOfRange

def hexValue? (c : Char) : Option Nat :=
  if isDigit c then some (c.toNat - 48)
  else if 'a' ≤ c ∧ c ≤ 'f' then some (c.toNat - 87)
  else if 'A' ≤ c ∧ c ≤ 'F' then some (c.toNat - 55)
  else none

def fourHex : Reader Nat := do
  -- Four bytes have to follow before they are looked at.
  let cs ← get
  if (String.ofList (cs.take 4)).utf8ByteSize < 4 then fail .endOfString
  match cs with
  | a :: b :: c :: d :: rest =>
      match hexValue? a, hexValue? b, hexValue? c, hexValue? d with
      | some a, some b, some c, some d =>
          set rest
          return ((a * 16 + b) * 16 + c) * 16 + d
      | _, _, _, _ => fail .badEscape
  | _ => fail .badEscape

def expectPair (expected : Char) : Reader Unit := do
  match ← get with
  | [] => fail .endOfString
  | c :: rest => if c = expected then set rest else fail .halfSurrogatePair

def unicodeEscape : Reader Char := do
  let n ← fourHex
  if 0xDC00 ≤ n ∧ n ≤ 0xDFFF then fail .loneSurrogate
  if n < 0xD800 ∨ 0xDBFF < n then return Char.ofNat n
  expectPair '\\'
  expectPair 'u'
  let m ← fourHex
  if m < 0xDC00 ∨ 0xDFFF < m then fail .loneSurrogate
  return Char.ofNat (0x10000 + (n - 0xD800) * 0x400 + (m - 0xDC00))

def plainEscape? (c : Char) : Option Char :=
  match c with
  | '"' => some '"'
  | '\\' => some '\\'
  | '/' => some '/'
  | 'b' => some (Char.ofNat 8)
  | 'f' => some (Char.ofNat 12)
  | 'n' => some '\n'
  | 'r' => some '\r'
  | 't' => some '\t'
  | _ => none

def textWithin (unicode : Reader Char) : Nat → Reader (List Char)
  | 0 => fail .endOfString
  | fuel + 1 => do
      match ← get with
      | [] => fail .endOfString
      | '"' :: rest =>
          set rest
          return []
      | '\\' :: [] => fail .endOfString
      | '\\' :: 'u' :: rest =>
          set rest
          let c ← unicode
          return c :: (← textWithin unicode fuel)
      | '\\' :: c :: rest =>
          match plainEscape? c with
          | none => fail .badEscape
          | some c =>
              set rest
              return c :: (← textWithin unicode fuel)
      | c :: rest =>
          if c.toNat < 32 then fail .controlCharacter
          set rest
          return c :: (← textWithin unicode fuel)

def text : Reader String := do
  let cs ← get
  return String.ofList (← textWithin unicodeEscape (cs.length + 1))

def nextElement (first : Bool) : Reader Bool := do
  match ← peek with
  | none => fail .endOfList
  | some ']' => return false
  | some c =>
      if first then return true
      if c ≠ ',' then fail .noCommaOrBracket
      advance
      match ← peek with
      | none => fail .endOfValue
      | some ']' => fail .trailingComma
      | some _ => return true

def nextKey (first : Bool) : Reader (Option String) := do
  match ← peek with
  | none => fail .endOfObject
  | some '\x7d' => return none
  | some c =>
      if first then
        if c ≠ '"' then fail .keyNotText
      else
        if c ≠ ',' then fail .noCommaOrBrace
        advance
        match ← peek with
        | none => fail .endOfValue
        | some '"' => pure ()
        | some '\x7d' => fail .trailingComma
        | some _ => fail .keyNotText
      advance
      some <$> text

def colon : Reader Unit := do
  match ← peek with
  | none => fail .endOfObject
  | some ':' => advance
  | some _ => fail .noColon

def elements (item : Reader α) : Nat → Nat → Bool → Reader (List α)
  | 0, _, _ => fail .endOfList
  | fuel + 1, i, first => do
      if ← nextElement first then
        let a ← under (.index i) item
        return a :: (← elements item fuel (i + 1) false)
      else
        advance
        return []

def members (value : Reader α) : Nat → Bool → Reader (List (String × α))
  | 0, _ => fail .endOfObject
  | fuel + 1, first => do
      match ← under .unreadable (nextKey first) with
      | none =>
          advance
          return []
      | some key =>
          colon
          let a ← under (.key key) value
          return (key, a) :: (← members value fuel false)

def deeper (depth : Nat) (inner : Nat → Reader α) : Reader α :=
  match depth with
  | 0 => fail .tooDeep
  | depth + 1 => do
      advance
      inner depth

def valueWithin : Nat → Nat → Reader Json
  | 0, _ => fail .endOfValue
  | fuel + 1, depth => do
      match ← peek with
      | none => fail .endOfValue
      | some 'n' => advance; literal ['u', 'l', 'l']; return .null
      | some 't' => advance; literal ['r', 'u', 'e']; return .bool true
      | some 'f' => advance; literal ['a', 'l', 's', 'e']; return .bool false
      | some '"' => advance; return .string (← text)
      | some '[' =>
          deeper depth fun depth =>
            .array <$> elements (valueWithin fuel depth) fuel 0 true
      | some '\x7b' =>
          deeper depth fun depth =>
            (.object ∘ Entries.ofList) <$> members (valueWithin fuel depth) fuel true
      | some c => if c = '-' ∨ isDigit c then .number <$> number else fail .noValue

def value (depth : Nat) : Reader Json := do
  -- One value; every part of it takes at least a character.
  let cs ← get
  valueWithin (cs.length + 1) depth

def ended : Reader Unit := do
  match ← peek with
  | none => pure ()
  | some _ => fail .trailingCharacters

end Reader

def nestingLimit : Nat := 127

def readWithin (depth : Nat) (source : String) : Except Flaw Json :=
  match (Reader.value depth <* Reader.ended) source.toList with
  | .ok (json, _) => .ok json
  | .error fault => .error fault.flaw

def read (source : String) : Except Flaw Json :=
  readWithin nestingLimit source

def readNumber? (source : String) : Option Number :=
  match Reader.number source.toList with
  | .ok (n, []) => some n
  | _ => none

end ApiContract.Json
