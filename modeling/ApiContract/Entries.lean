set_option autoImplicit false

namespace ApiContract

abbrev Entries (α : Type) := List (String × α)

namespace Entries

variable {α β : Type}

def keys (entries : Entries α) : List String :=
  entries.map Prod.fst

def get? : Entries α → String → Option α
  | [], _ => none
  | (k, v) :: rest, key => if k = key then some v else get? rest key

def contains (entries : Entries α) (key : String) : Bool :=
  (get? entries key).isSome

-- A name keeps the place where it was first written.
def insert : Entries α → String → α → Entries α
  | [], key, value => [(key, value)]
  | (k, v) :: rest, key, value =>
      if k = key then (k, value) :: rest else (k, v) :: insert rest key value

def ofList (pairs : List (String × α)) : Entries α :=
  pairs.foldl (fun entries pair => insert entries pair.1 pair.2) []

def erase (entries : Entries α) (key : String) : Entries α :=
  entries.filter fun entry => entry.1 ≠ key

def mapValues (f : α → β) (entries : Entries α) : Entries β :=
  entries.map fun entry => (entry.1, f entry.2)

def Distinct (entries : Entries α) : Prop :=
  (keys entries).Nodup

instance (entries : Entries α) : Decidable (Distinct entries) :=
  inferInstanceAs (Decidable (keys entries).Nodup)

@[simp] theorem get?_nil (key : String) : get? ([] : Entries α) key = none := rfl

theorem get?_cons (k : String) (v : α) (rest : Entries α) (key : String) :
    get? ((k, v) :: rest) key = if k = key then some v else get? rest key := rfl

theorem get?_insert (entries : Entries α) (key other : String) (value : α) :
    get? (insert entries key value) other =
      if key = other then some value else get? entries other := by
  induction entries with
  | nil => simp [insert, get?]
  | cons entry rest ih =>
      obtain ⟨k, v⟩ := entry
      by_cases hk : k = key
      · subst hk
        by_cases ho : k = other <;> simp [insert, get?, ho]
      · by_cases ho : k = other
        · subst ho
          simp [insert, get?, hk, Ne.symm hk]
        · simp [insert, get?, hk, ho, ih]

theorem keys_insert (entries : Entries α) (key : String) (value : α) :
    keys (insert entries key value) =
      if key ∈ keys entries then keys entries else keys entries ++ [key] := by
  induction entries with
  | nil => simp [insert, keys]
  | cons entry rest ih =>
      obtain ⟨k, v⟩ := entry
      by_cases hk : k = key
      · simp [insert, keys, hk]
      · have hk' : ¬ key = k := fun h => hk h.symm
        simp only [keys] at ih
        simp only [insert, hk, if_false, keys, List.map_cons, List.mem_cons, hk', false_or, ih]
        split <;> simp_all

theorem distinct_insert {entries : Entries α} (h : Distinct entries) (key : String) (value : α) :
    Distinct (insert entries key value) := by
  unfold Distinct at *
  rw [keys_insert]
  split
  · exact h
  · next hnew =>
      rw [List.nodup_append]
      exact ⟨h, by simp, fun a ha b hb hab => hnew (by simp_all)⟩

theorem distinct_ofList (pairs : List (String × α)) : Distinct (ofList pairs) := by
  have step : ∀ (pairs : List (String × α)) (entries : Entries α), Distinct entries →
      Distinct (pairs.foldl (fun entries pair => insert entries pair.1 pair.2) entries) := by
    intro pairs
    induction pairs with
    | nil => exact fun _ h => h
    | cons pair rest ih => exact fun entries h => ih _ (distinct_insert h pair.1 pair.2)
  exact step pairs [] List.nodup_nil

end Entries

end ApiContract
