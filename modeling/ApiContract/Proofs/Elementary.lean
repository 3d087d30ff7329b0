import ApiContract.Proofs.Readings

set_option autoImplicit false

namespace ApiContract

def Pattern.isElementary : Pattern → Bool
  | .exact _ | .repeated _ | .object _ _ | .array _ _ => false
  | _ => true

section Texts

variable {text : String} {v : Value}

theorem exists_number_of_read (read : readNumber text = .ok v) : ∃ n, v = .number n := by
  unfold readNumber at read
  split at read <;> cases read
  exact ⟨_, rfl⟩

theorem exists_boolean_of_read (read : readBoolean text = .ok v) : ∃ b, v = .boolean b := by
  unfold readBoolean at read
  split at read
  · cases read
    exact ⟨true, rfl⟩
  · split at read <;> cases read
    exact ⟨false, rfl⟩

theorem null_of_read (read : readNull text = .ok v) : v = .null := by
  unfold readNull at read
  split at read <;> cases read
  rfl

theorem exists_url_of_read {scheme : UrlScheme} (read : readUrl scheme text = .ok v) :
    ∃ s, v = .string s ∧ scheme.accepts s := by
  unfold readUrl at read
  split at read <;> cases read
  exact ⟨_, rfl, ‹_›⟩

theorem exists_reading {reading : Pattern → Option (Contractual Value)}
    {alternatives : List Pattern} (read : firstReading reading alternatives = some (some v)) :
    ∃ q ∈ alternatives, reading q = some (.ok v) := by
  induction alternatives with
  | nil => cases read
  | cons q rest ih =>
    obtain ⟨outcome, first, later⟩ := Option.bind_eq_some_iff.mp read
    cases outcome with
    | ok u =>
      cases later
      exact ⟨q, List.mem_cons_self, first⟩
    | error =>
      obtain ⟨o, mem, own⟩ := ih later
      exact ⟨o, List.mem_cons_of_mem q mem, own⟩

end Texts

section Elementary

variable {r : Resolver} {p q : Pattern} {text : String} {v : Value}

theorem accepts_of_read_outright (kind : p.isOutright) (elementary : p.isElementary)
    (read : p.parse r text = some (.ok v)) : Accepts r p v := by
  cases p with
  | string =>
    cases read
    exact accepts_string.mpr ⟨_, rfl⟩
  | number => exact accepts_number.mpr (exists_number_of_read (Option.some.inj read))
  | boolean => exact accepts_boolean.mpr (exists_boolean_of_read (Option.some.inj read))
  | null => exact accepts_null.mpr (.inl (null_of_read (Option.some.inj read)))
  | url scheme => exact accepts_url.mpr (exists_url_of_read (Option.some.inj read))
  | reference | anyOf => cases kind
  | _ => cases elementary

theorem accepts_of_read (guarded : Guarded r.types)
    (elementary : ∀ q, Relation.ReflTransGen (Behind r) p q → q.isElementary)
    (read : p.parse r text = some (.ok v)) : Accepts r p v := by
  have level (n : Nat) (p : Pattern) (settles : settlesWithin r.types n p)
      (elementary : ∀ q, Relation.ReflTransGen (Behind r) p q → q.isElementary)
      (read : p.parse r text = some (.ok v)) : Accepts r p v := by
    induction n generalizing p with
    | zero => cases settles
    | succ n ih =>
      have next {q : Pattern} (behind : Behind r p q) (read : q.parse r text = some (.ok v)) :
          Accepts r q v := by
        rcases behind.unfolds with rfl | chain
        · exact accepts_of_read_outright rfl rfl read
        · exact ih q (settlesWithin_of_unfoldings settles chain)
            (fun o more => elementary o (.head behind more)) read
      cases p with
      | reference name =>
        cases found : r.resolve (.reference name) with
        | ok q =>
          rw [Pattern.parse_reference found] at read
          exact (accepts_resolved found).mpr (next (.reference found) read)
        | error =>
          obtain ⟨k, level, -⟩ := Pattern.parse_level r (.reference name) text
          rw [level, Pattern.parseWithin, found] at read
          cases read
      | anyOf alternatives =>
        rw [Pattern.parse_anyOf] at read
        obtain ⟨outcome, first, same⟩ := Option.map_eq_some_iff.mp read
        cases outcome with
        | none => cases same
        | some u =>
          cases same
          obtain ⟨q, mem, own⟩ := exists_reading first
          exact (accepts_union guarded).mpr ⟨q, mem, next (.anyOf mem) own⟩
      | _ => exact accepts_of_read_outright rfl (elementary _ .refl) read
  exact level _ p (guarded.settles p) elementary read

theorem Accepts.rereads_of_elementary (accepted : Accepts r p v)
    (elementary : ∀ q, Relation.ReflTransGen (Behind r) p q → q.isElementary)
    (whole : ∀ n, v = .number n → n.isWhole) : Rereads v := by
  refine Accepts.behind_induction (motive := fun q =>
    (∀ o, Relation.ReflTransGen (Behind r) q o → o.isElementary) → Rereads v)
    accepted ?_ ?_ elementary
  · intro q kind ok elementary
    cases q with
    | string =>
      obtain ⟨s, rfl⟩ := accepts_string.mp ok
      exact .inl rfl
    | number =>
      obtain ⟨n, rfl⟩ := accepts_number.mp ok
      cases n with
      | whole n => exact rereads_whole n
      | double d => cases whole _ rfl
    | boolean =>
      obtain ⟨b, rfl⟩ := accepts_boolean.mp ok
      exact rereads_boolean b
    | null => rcases accepts_null.mp ok with rfl | rfl <;> exact .inl rfl
    | url scheme =>
      obtain ⟨s, rfl, -⟩ := accepts_url.mp ok
      exact .inl rfl
    | reference | anyOf => cases kind
    | _ => cases elementary _ .refl
  · exact fun q o behind _ ih elementary => ih fun u chain => elementary u (.head behind chain)

/-- Every text is read to a value that fits or not at all, and the text of a value that fits is read
to one that fits, though not always to the same: a union reads it through its first alternative that
can. -/
theorem elementary_texts_fit (guarded : Guarded r.types)
    (elementary : ∀ q, Reaches r.types p q → q.isElementary) :
    (∀ text, ∃ read, p.parse r text = some read ∧
      ∀ v, read = .ok v → p.check r v = some .success) ∧
    ∀ v, p.check r v = some .success → (∀ n, v = .number n → n.isWhole) →
      ∃ u, p.parse r v.toText = some (.ok u) ∧ p.check r u = some .success := by
  have behind (q : Pattern) (chain : Relation.ReflTransGen (Behind r) p q) : q.isElementary := by
    rcases Reaches.of_behind chain with rfl | reach
    · rfl
    · exact elementary q reach
  refine ⟨fun text => ?_, fun v accepted whole => ?_⟩
  · have ends : (show Option (Contractual Value) from p.parse r text).isSome :=
      Pattern.parse_isSome (guarded.settles p)
    obtain ⟨read, outcome⟩ := Option.isSome_iff_exists.mp ends
    refine ⟨read, outcome, ?_⟩
    rintro v rfl
    exact accepts_of_read guarded behind outcome
  · refine Accepts.reparses_of_unions accepted guarded (fun alternatives chain => ?_)
      (fun chain => nomatch behind _ chain) (Accepts.rereads_of_elementary accepted behind whole)
    intro q mem text u read
    have next : Behind r (.anyOf alternatives) q := .anyOf (List.dropLast_subset _ mem)
    exact accepts_of_read guarded (fun o more => behind o (chain.trans (.head next more))) read

def hall : Resolver :=
  { Resolver.empty with types := [
      ("Seat", .anyOf [.number, .reference "Label"]), ("Label", .string)] }

def seatIfAny : Pattern :=
  .anyOf [.null, .url .https, .reference "Seat"]

theorem seat_label_reread : Guarded hall.types ∧
    (∀ q, Reaches hall.types seatIfAny q → q.isElementary) ∧
    seatIfAny.check hall (.string "7") = some .success ∧
    ∃ u, seatIfAny.parse hall (Value.string "7").toText = some (.ok u) ∧
      (Value.number (.ofNat 7)).same u ∧ seatIfAny.check hall u = some .success := by
  have guarded : Guarded hall.types := .of_settles 3 (by decide +kernel)
  have elementary (q : Pattern) (reach : Reaches hall.types seatIfAny q) : q.isElementary := by
    have each : (reachable hall.types seatIfAny).all Pattern.isElementary := by decide +kernel
    exact List.all_eq_true.mp each q reach.mem_reachable
  have labelled : seatIfAny.check hall (.string "7") = some .success := by decide +kernel
  have counted : Option.any (fun read => read.toOption.any (Value.number (.ofNat 7)).same)
      (seatIfAny.parse hall (Value.string "7").toText) := by decide +kernel
  obtain ⟨-, rereads⟩ := elementary_texts_fit (p := seatIfAny) guarded elementary
  obtain ⟨u, read, fits⟩ := rereads (.string "7") labelled (by simp)
  rw [read] at counted
  exact ⟨guarded, elementary, labelled, u, read, counted, fits⟩

end Elementary

end ApiContract
