import ApiContract.Json.Reader

set_option autoImplicit false

namespace ApiContract.Json.Reader

variable {α σ : Type}

def wrongType (expected : String) : Reader α := do
  match ← peek with
  | none => fail .endOfValue
  | some 'n' => advance; literal ['u', 'l', 'l']; fail (.wrongType .null expected)
  | some 't' =>
      advance
      literal ['r', 'u', 'e']
      fail (.wrongType (.boolean true) expected)
  | some 'f' =>
      advance
      literal ['a', 'l', 's', 'e']
      fail (.wrongType (.boolean false) expected)
  | some '"' => advance; fail (.wrongType (.text (← text)) expected)
  | some '[' => fail (.wrongType .sequence expected)
  | some '\x7b' => fail (.wrongType .map expected)
  | some c =>
      if c = '-' ∨ isDigit c then fail (.wrongType (.number (← number)) expected)
      else fail .noValue

def string : Reader String := do
  match ← peek with
  | some '"' => advance; text
  | _ => wrongType "a string"

def ofShort (n : Number) : Except Flaw UInt16 :=
  match n with
  | .whole i =>
      if 0 ≤ i.val ∧ i.val < 65536 then .ok (UInt16.ofNat i.val.toNat)
      else .error (.wrongValue (.number n) "u16")
  | .double _ => .error (.wrongType (.number n) "u16")

def short : Reader UInt16 := do
  match ← peek with
  | some c =>
      if c = '-' ∨ isDigit c then
        match ofShort (← number) with
        | .ok n => return n
        | .error flaw => fail flaw
      else wrongType "u16"
  | none => wrongType "u16"

def list (item : Nat → Reader α) (depth : Nat) : Reader (List α) := do
  match ← peek with
  | some '[' =>
      deeper depth fun depth => do
        let cs ← get
        elements (item depth) (cs.length + 1) 0 true
  | _ => wrongType "a sequence"

def map (value : Nat → Reader α) (depth : Nat) : Reader (Entries α) := do
  match ← peek with
  | some '\x7b' =>
      deeper depth fun depth => do
        let cs ← get
        Entries.ofList <$> members (value depth) (cs.length + 1) true
  | _ => wrongType "a map"

def passUnit : Reader Char := do
  let _ ← fourHex
  return ' '

def passText : Reader Unit := do
  let cs ← get
  let _ ← textWithin passUnit (cs.length + 1)

def passComma (close : Char) (short missing : Flaw) : Reader Bool := do
  match ← peek with
  | none => fail short
  | some ',' => advance; return true
  | some c =>
      if c = close then
        advance
        return false
      else fail missing

def passKey : Reader Unit := do
  match ← peek with
  | none => fail .endOfObject
  | some '"' => advance; passText; colon
  | some _ => fail .keyNotText

def passMore (part : Reader Unit) (close : Char) (short missing : Flaw) : Nat → Reader Unit
  | 0 => fail short
  | fuel + 1 => do
      if ← passComma close short missing then
        part
        passMore part close short missing fuel

def passParts (part : Reader Unit) (close : Char) (short missing : Flaw) (fuel : Nat) :
    Reader Unit := do
  advance
  match ← peek with
  | none => fail short
  | some c =>
      if c = close then advance
      else
        part
        passMore part close short missing fuel

def passWithin : Nat → Reader Unit
  | 0 => fail .endOfValue
  | fuel + 1 => do
      match ← peek with
      | none => fail .endOfValue
      | some 'n' => advance; literal ['u', 'l', 'l']
      | some 't' => advance; literal ['r', 'u', 'e']
      | some 'f' => advance; literal ['a', 'l', 's', 'e']
      | some '"' => advance; passText
      | some '[' => passParts (passWithin fuel) ']' .endOfList .noCommaOrBracket fuel
      | some '\x7b' =>
          passParts (passKey *> passWithin fuel) '\x7d' .endOfObject .noCommaOrBrace fuel
      | some c =>
          if c = '-' ∨ isDigit c then
            let _ ← signedParts .badNumber
          else fail .noValue

def pass : Reader Unit := do
  let cs ← get
  passWithin (cs.length + 1)

structure RecordField (σ : Type) where
  name : String
  required : Bool
  isSet : σ → Bool
  fill : Nat → σ → Reader σ

structure Layout (σ : Type) where
  name : String
  fields : List (RecordField σ)
  strict : Bool

namespace Layout

def structName (layout : Layout σ) : String :=
  "struct " ++ layout.name

def withCount (layout : Layout σ) : String :=
  layout.structName ++ " with " ++ toString layout.fields.length ++ " elements"

def member (layout : Layout σ) (depth : Nat) (key : String) (record : σ) : Reader σ :=
  match layout.fields.find? fun field => field.name = key with
  | some field =>
      if field.isSet record then fail (.duplicateField key)
      else do
        colon
        under (.key key) (field.fill depth record)
  | none =>
      if layout.strict then
        under (.key key) (fail (.unknownField key (layout.fields.map RecordField.name)))
      else do
        colon
        under (.key key) pass
        return record

def members (layout : Layout σ) (depth : Nat) : Nat → Bool → σ → Reader σ
  | 0, _, _ => fail .endOfObject
  | fuel + 1, first, record => do
      match ← under .unreadable (nextKey first) with
      | none =>
          advance
          return record
      | some key => members layout depth fuel false (← layout.member depth key record)

def missing? (layout : Layout σ) (record : σ) : Option String :=
  (layout.fields.find? fun field => field.required && !field.isSet record).map RecordField.name

def positions (layout : Layout σ) (depth : Nat) : Nat → List (RecordField σ) → σ → Reader σ
  -- The fields as a list. Behind its end fields with a default are passed over, and the length told
  -- of a list that is too short is the place of the first other one.
  | _, [], record => return record
  | i, field :: rest, record => do
      if ← nextElement (i = 0) then
        positions layout depth (i + 1) rest (← under (.index i) (field.fill depth record))
      else if field.required then fail (.wrongLength i layout.withCount)
      else positions layout depth (i + 1) rest record

def closeList : Reader Unit := do
  match ← peek with
  | none => fail .endOfList
  | some ']' => advance
  | some ',' =>
      advance
      match ← peek with
      | some ']' => fail .trailingComma
      | _ => fail .trailingCharacters
  | some _ => fail .trailingCharacters

def read (layout : Layout σ) (empty : σ) (depth : Nat) : Reader σ := do
  match ← peek with
  | some '\x7b' =>
      deeper depth fun depth => do
        let cs ← get
        let record ← layout.members depth (cs.length + 1) true empty
        match layout.missing? record with
        | some name => fail (.missingField name)
        | none => return record
  | some '[' =>
      deeper depth fun depth => do
        let record ← layout.positions depth 0 layout.fields empty
        closeList
        return record
  | _ => wrongType layout.structName

end Layout

end ApiContract.Json.Reader
