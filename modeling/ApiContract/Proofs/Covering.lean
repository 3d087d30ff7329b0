import ApiContract.Proofs.Comparing
import ApiContract.Proofs.Sameness

set_option autoImplicit false

/-!
A comparison that succeeds is right about values, unexpected keys apart. A pair of names on the
stack is taken to hold before it is decided. That is sound because the pair can be met again only
at a lighter value: meeting it at the same value, behind names and alternatives alone, would close
a loop that a guarded registry does not have.
-/
namespace ApiContract

structure Wide (types : Entries Pattern) (p : Pattern) : Prop where
  registered : Registered types p
  aliases : ∀ q name, Reaches types p q → q.knownAs = some name → registered? types name = some q
  keys : ∀ fields traits, Reaches types p (.object fields traits) →
    ∀ field ∈ fields, isOptional (bareName field.1) = false
  rest : ∀ elements knownAs, Reaches types p (.array elements knownAs) →
    (Members.ofElements elements).isEndless → (Members.ofElements elements).fixed = []
  literals : ∀ value, Reaches types p (.exact value) → value.integral

structure Narrow (types : Entries Pattern) (p : Pattern) : Prop where
  registered : Registered types p
  aliases : ∀ q name, Reaches types p q → q.knownAs = some name → registered? types name = some q
  strict : ∀ fields traits, Reaches types p (.object fields traits) → traits.unexpected = .reject
  literals : ∀ value, Reaches types p (.exact value) → value.integral

section Sides

variable {types : Entries Pattern} {p q : Pattern} {name : String}

theorem Wide.of_reaches (h : Wide types p) (reach : Reaches types p q) : Wide types q where
  registered := h.registered.of_reaches reach
  aliases o name more := h.aliases o name (reach.trans more)
  keys fields traits more := h.keys fields traits (reach.trans more)
  rest elements knownAs more := h.rest elements knownAs (reach.trans more)
  literals value more := h.literals value (reach.trans more)

theorem Narrow.of_reaches (h : Narrow types p) (reach : Reaches types p q) : Narrow types q where
  registered := h.registered.of_reaches reach
  aliases o name more := h.aliases o name (reach.trans more)
  strict fields traits more := h.strict fields traits (reach.trans more)
  literals value more := h.literals value (reach.trans more)

theorem Wide.members {members : Members} (h : Wide types p) (found : members? p = some members)
    (endless : members.isEndless) : members.fixed = [] := by
  cases p with
  | array elements knownAs =>
    cases found
    exact h.rest elements knownAs (Reaches.refl _) endless
  | repeated inner =>
    cases found
    rfl
  | _ => cases found

theorem Registered.reference (named : registered? types name = some p)
    (registered : Registered types p) : Registered types (.reference name) := by
  intro other met
  rcases Relation.ReflTransGen.cases_head met with same | ⟨q, step, rest⟩
  · cases same
    exact Option.isSome_iff_exists.mpr ⟨p, named⟩
  · rcases step with (named' | mem) | part
    · rw [named] at named'
      cases named'
      exact registered other rest
    · cases part

theorem name?_cases (h : p.name? = some name) :
    p = .reference name ∨ p.Concrete ∧ p.knownAs = some name := by
  cases p with
  | reference other =>
    cases h
    exact .inl rfl
  | _ => exact .inr ⟨by simp [Pattern.Concrete], h⟩

end Sides

section Named

variable {r : Resolver} {p : Pattern} {name : String} {v : Value}
  (registered : Registered r.types p)
  (aliased : p.knownAs = some name → registered? r.types name = some p)
include registered aliased

variable (guarded : Guarded r.types)
include guarded

theorem accepts_name (h : p.name? = some name) :
    Accepts r (.reference name) v ↔ Accepts r p v := by
  rcases name?_cases h with rfl | ⟨-, known⟩
  · exact Iff.rfl
  · exact accepts_reference guarded (Registered.reference (aliased known) registered)
      (aliased known)

theorem takes_name (h : p.name? = some name) : Takes r (.reference name) v ↔ Takes r p v := by
  rcases name?_cases h with rfl | ⟨-, known⟩
  · exact Iff.rfl
  · exact takes_reference guarded (Registered.reference (aliased known) registered)
      (aliased known)

end Named

theorem Resolves.of_name {types : Entries Pattern} {p q : Pattern} {name : String}
    (guarded : Guarded types)
    (aliased : p.knownAs = some name → registered? types name = some p)
    (h : p.name? = some name) (resolves : Resolves types p q) :
    Resolves types (.reference name) q := by
  rcases name?_cases h with rfl | ⟨-, known⟩
  · exact resolves
  · rintro r rfl
    rw [guarded.resolve_reference (Resolver.get_of_registered (aliased known))]
    exact resolves r rfl

theorem not_met_again {types : Entries Pattern} {p c : Pattern} {name : String}
    (guarded : Guarded types) (registered : Registered types p)
    (aliased : p.knownAs = some name → registered? types name = some p)
    (h : p.name? = some name) (resolves : Resolves types (.reference name) c)
    (again : Relation.TransGen (Unfolds types) c p) : False := by
  obtain ⟨q, concrete, unfolds, found⟩ := guarded.resolves p registered
  obtain rfl := (found.of_name guarded aliased h).unique resolves
  exact guarded.not_loop q (.trans_left again unfolds)

def Covers (these those : Resolver) (bigger smaller : Pattern) (v : Value) : Prop :=
  Accepts those smaller v → Takes these bigger v

def Settled (these those : Resolver) (weight : Nat) (pair : String × String) : Prop :=
  ∀ v : Value, v.weight < weight → Covers these those (.reference pair.1) (.reference pair.2) v

def Below (types others : Entries Pattern) (pair : String × String) (bigger smaller : Pattern) :
    Prop :=
  ∃ c d, Resolves types (.reference pair.1) c ∧ Resolves others (.reference pair.2) d ∧
    Relation.ReflTransGen (Unfolds types) c bigger ∧
    Relation.ReflTransGen (Unfolds others) d smaller ∧
    (Relation.TransGen (Unfolds types) c bigger ∨ Relation.TransGen (Unfolds others) d smaller)

/-- The invariant of a comparison at the values of one weight. -/
def Supports (these those : Resolver) (weight : Nat) (stack : TypeStack)
    (bigger smaller : Pattern) : Prop :=
  ∀ pair ∈ stack, Settled these those weight pair ∧
    (Settled these those (weight + 1) pair ∨ Below these.types those.types pair bigger smaller)

section Invariant

variable {these those : Resolver} {a b : Pattern} {stack : TypeStack} {weight : Nat}

theorem Settled.mono {pair : String × String} {n m : Nat} (h : Settled these those n pair)
    (le : m ≤ n) : Settled these those m pair :=
  fun v lighter => h v (by omega)

theorem supports_of_settled (h : ∀ pair ∈ stack, Settled these those (weight + 1) pair)
    (a b : Pattern) : Supports these those weight stack a b :=
  fun pair mem => ⟨(h pair mem).mono (Nat.le_succ _), .inl (h pair mem)⟩

variable (guarded : Guarded these.types) (guarded' : Guarded those.types)
  (wide : Wide these.types a) (narrow : Narrow those.types b)
include guarded guarded' wide narrow

theorem covers_names {pair : String × String} {v : Value} (h : namePair? a b = some pair) :
    Covers these those (.reference pair.1) (.reference pair.2) v ↔ Covers these those a b v := by
  obtain ⟨first, second⟩ := namePair?_eq_some.mp h
  unfold Covers
  rw [takes_name wide.registered (wide.aliases a _ (Reaches.refl a)) guarded first,
    accepts_name narrow.registered (narrow.aliases b _ (Reaches.refl b)) guarded' second]

theorem not_below_of_names {pair : String × String} (h : namePair? a b = some pair)
    (below : Below these.types those.types pair a b) : False := by
  obtain ⟨first, second⟩ := namePair?_eq_some.mp h
  obtain ⟨c, d, hc, hd, -, -, again | again⟩ := below
  · exact not_met_again guarded wide.registered (wide.aliases a _ (Reaches.refl a)) first hc again
  · exact not_met_again guarded' narrow.registered (narrow.aliases b _ (Reaches.refl b)) second hd
      again

theorem covers_of_held {v : Value} (supports : Supports these those weight stack a b)
    (held : isHeld stack a b) (le : v.weight ≤ weight) : Covers these those a b v := by
  obtain ⟨pair, mem, names⟩ := isHeld_iff.mp held
  apply (covers_names guarded guarded' wide narrow names).mp
  rcases (supports pair mem).2 with settled | below
  · exact settled v (by omega)
  · exact (not_below_of_names guarded guarded' wide narrow names below).elim

omit wide narrow in
theorem supports_entering {c d p q : Pattern}
    (aliased : ∀ name, a.knownAs = some name → registered? these.types name = some a)
    (aliased' : ∀ name, b.knownAs = some name → registered? those.types name = some b)
    (resolves : Resolves these.types a c) (resolves' : Resolves those.types b d)
    (unfolds : Relation.ReflTransGen (Unfolds these.types) a c)
    (unfolds' : Relation.ReflTransGen (Unfolds those.types) b d)
    (first : Relation.ReflTransGen (Unfolds these.types) c p)
    (second : Relation.ReflTransGen (Unfolds those.types) d q)
    (proper : Relation.TransGen (Unfolds these.types) c p ∨
      Relation.TransGen (Unfolds those.types) d q)
    (supports : Supports these those weight stack a b)
    (settled : ∀ pair ∈ entering stack a b, Settled these those weight pair) :
    Supports these those weight (entering stack a b) p q := by
  refine fun pair mem => ⟨settled pair mem, ?_⟩
  rcases List.mem_append.mp mem with old | new
  · refine (supports pair old).2.imp_right fun ⟨e, g, he, hg, down, down', more⟩ => ?_
    refine ⟨e, g, he, hg, (down.trans unfolds).trans first, (down'.trans unfolds').trans second, ?_⟩
    refine more.imp (fun more => ?_) fun more => ?_
    · exact .trans_left more (unfolds.trans first)
    · exact .trans_left more (unfolds'.trans second)
  · obtain ⟨named, named'⟩ := namePair?_eq_some.mp (Option.mem_toList.mp new)
    exact .inr ⟨c, d, resolves.of_name guarded (aliased _) named,
      resolves'.of_name guarded' (aliased' _) named', first, second, proper⟩

end Invariant

section Levels

variable {g h : Pattern → Value → Prop}

theorem bareName_of_required {key : String} (h : isOptional key = false) : bareName key = key := by
  simp [bareName, h]

theorem isOptional_marked (name : String) : isOptional (name ++ "?") := by
  simp [isOptional, String.toList_append]

theorem bareName_marked (name : String) : bareName (name ++ "?") = name := by
  simp [bareName, isOptional_marked, String.toList_append]

theorem field?_cases {fields : List (String × Pattern)} {name key : String} {q : Pattern}
    (found : field? fields name = some (key, q)) :
    key = name ∨ key = name ++ "?" ∧ Entries.contains fields name = false := by
  unfold field? at found
  split at found
  · cases found
    exact .inl rfl
  · next missing =>
    obtain ⟨p, -, same⟩ := Option.map_eq_some_iff.mp found
    cases same
    exact .inr ⟨rfl, by rw [Entries.contains, missing]; rfl⟩

theorem bareName_of_field? {fields : List (String × Pattern)} {name key : String} {q : Pattern}
    (found : field? fields name = some (key, q)) (unmarked : isOptional name = false) :
    bareName key = name := by
  rcases field?_cases found with rfl | ⟨rfl, -⟩
  · exact bareName_of_required unmarked
  · exact bareName_marked _

theorem field?_of_contains {fields : List (String × Pattern)} {name : String}
    (there : Entries.contains fields name) : ∃ q, field? fields name = some (name, q) := by
  obtain ⟨q, found⟩ := Option.isSome_iff_exists.mp there
  exact ⟨q, by rw [field?, found]⟩

theorem fitsObject_of_shared {a b : List (String × Pattern)} {actual : List (String × Value)}
    (bare : ∀ field ∈ a, isOptional (bareName field.1) = false)
    (kept : ∀ x ∈ requiredFields a, Entries.contains b x.1 ∨ h x.2 .null)
    (shared : ∀ x ∈ a, ∀ key q, field? b (bareName x.1) = some (key, q) → ∀ u : Value,
      u.weight < (Value.object actual).weight → g q u → h x.2 u)
    (fits : FitsObject g b .reject actual) : FitsObject h a .ignore actual := by
  refine ⟨fun x mem => ?_, nofun, fun x mem u found => ?_⟩
  · obtain ⟨there, required⟩ := mem_of_requiredFields mem
    rcases kept x mem with given | ok
    · obtain ⟨q, field⟩ := field?_of_contains given
      have y := mem_of_field? field
      refine (fits.required (x.1, q) (List.mem_filter.mpr ⟨y, by simp [required]⟩)).imp_right ?_
      exact shared x there x.1 q (by rwa [bareName_of_required required]) .null
        (Value.weight_object_pos actual)
    · exact .inr ok
  · -- Every key of the value is declared on the smaller side.
    have known : bareName x.1 ∈ Entries.keys actual :=
      List.mem_map.mpr ⟨_, Entries.mem_of_get? found, rfl⟩
    obtain ⟨⟨key, q⟩, field⟩ := Option.isSome_iff_exists.mp (fits.declared rfl _ known)
    have y := mem_of_field? field
    have lighter : u.weight < (Value.object actual).weight :=
      Value.Part.weight_lt (.member (Entries.mem_of_get? found))
    have covered : g q u → h x.2 u := shared x mem key q field u lighter
    rcases field?_cases field with rfl | ⟨rfl, single⟩
    · have required := bare x mem
      rcases fits.members _ y u (by rwa [bareName_of_required required]) with absent | ok
      · simp [required] at absent
      · exact .inr (covered ok)
    · rcases fits.members _ y u (by rwa [bareName_marked]) with absent | ok
      · by_cases optional : isOptional x.1
        · exact .inl ⟨optional, absent.2⟩
        · -- A required key that may be missing on the smaller side takes null.
          have required : isOptional x.1 = false := by simpa using optional
          rw [bareName_of_required required] at single
          rcases kept x (List.mem_filter.mpr ⟨mem, by simp [required]⟩) with given | ok
          · rw [single] at given
            cases given
          · obtain rfl : u = .null := by
              cases u <;> simp [Value.isNull] at absent
              rfl
            exact .inr ok
      · exact .inr (covered ok)

theorem length_le_of_governed {these those : Members}
    (rest : these.isEndless → these.fixed = [])
    (governed : ∀ i, (those.at? i).isSome → (these.at? i).isSome) (endless : those.isEndless) :
    these.fixed.length ≤ those.fixed.length := by
  have far := Nat.le_max_left these.fixed.length those.fixed.length
  have far' := Nat.le_max_right these.fixed.length those.fixed.length
  have tail := governed (max these.fixed.length those.fixed.length)
  rw [Members.at?_eq_tail far', Members.at?_eq_tail far] at tail
  simp [rest (tail endless)]

theorem fitsMembers_of_positions {these those : Members} {items : List Value}
    (longer : those.isEndless → these.fixed.length ≤ those.fixed.length)
    (governed : ∀ i, (those.at? i).isSome → (these.at? i).isSome)
    (needed : ∀ i < these.fixed.length, (those.at? i).isSome)
    (parts : ∀ i p q, these.at? i = some p → those.at? i = some q → ∀ u ∈ items, g q u → h p u)
    (fits : FitsMembers g those items) : FitsMembers h these items := by
  refine ⟨?_, fun i u found => ?_⟩
  · refine Nat.le_of_not_lt fun short => ?_
    -- A sequence that is too short ends where the smaller side still has an element.
    have given := needed items.length short
    rw [Members.at?_eq_tail fits.length] at given
    have := longer given
    have := fits.length
    omega
  · obtain ⟨q, place, ok⟩ := fits.items i u found
    obtain ⟨p, first⟩ :=
      Option.isSome_iff_exists.mp (governed i (Option.isSome_iff_exists.mpr ⟨q, place⟩))
    exact ⟨p, first, parts i p q first place u (List.mem_of_getElem? found) ok⟩

end Levels

section Soundness

variable {these those : Resolver} {a b : Pattern} {v : Value}

theorem takes_of_unfoldings (guarded : Guarded these.types) {p q : Pattern}
    (registered : Registered these.types p) (unfolds : Relation.ReflTransGen (Unfolds these.types) p q)
    (taken : Takes these q v) : Takes these p v := by
  induction unfolds using Relation.ReflTransGen.head_induction_on with
  | refl => exact taken
  | head step _ ih =>
    have below := ih (registered.of_reaches step.reaches)
    cases step with
    | reference named => exact (takes_reference guarded registered named).mpr below
    | anyOf mem => exact (takes_anyOf guarded registered).mpr ⟨_, mem, below⟩

theorem UrlScheme.accepts_of_encompasses {bigger smaller : UrlScheme} {text : String}
    (h : bigger.encompasses smaller) (accepted : smaller.accepts text) : bigger.accepts text := by
  simp only [encompasses, Bool.or_eq_true, decide_eq_true_eq, Bool.and_eq_true] at h
  rcases h with rfl | ⟨rfl, rfl | rfl⟩
  · exact accepted
  · exact Bool.or_eq_true_iff.mpr (.inl accepted)
  · exact Bool.or_eq_true_iff.mpr (.inr accepted)

theorem takes_of_literal (guarded : Guarded these.types) {r : Resolver}
    (hr : r.types = these.types) (wide : Wide these.types a) {expected : Value}
    (whole : expected.integral) (same : expected.same v)
    (ok : Pattern.check r.tolerant a expected = some .success) : Takes these a v :=
  takes_of_same guarded expected.weight a expected v rfl wide.registered
    (fun q reach => by
      cases q with
      | exact value => exact wide.literals value reach
      | _ => trivial)
    whole same ((accepts_congr (r := r.tolerant) guarded wide.registered hr rfl).mp ok)

theorem covers_of_compareResolved {r s : Resolver}
    {compare : Resolver → Resolver → Pattern → Pattern → Option Verdict}
    (guarded : Guarded these.types) (guarded' : Guarded those.types)
    (hr : r.types = these.types) (wide : Wide these.types a) (narrow : Narrow those.types b)
    (left : ∀ p, Unfolds these.types a p → compare r s p b = some .success →
      Covers these those p b v)
    (right : ∀ q, Unfolds those.types b q → compare r s a q = some .success →
      Covers these those a q v)
    (parts : ∀ p q, Part a p → Part b q → compare r.tolerant s.tolerant p q = some .success →
      ∀ u : Value, u.weight < v.weight → Covers these those p q u)
    (success : compareResolved compare Pattern.check r s a b = some .success) :
    Covers these those a b v := by
  intro accepted
  cases succeeds_of_compareResolved success with
  | right all =>
    obtain ⟨q, mem, ok⟩ := (accepts_anyOf guarded' narrow.registered).mp accepted
    exact right q (.anyOf mem) (all q mem) ok
  | left mem one =>
    exact (takes_anyOf guarded wide.registered).mpr ⟨_, mem, left _ (.anyOf mem) one accepted⟩
  | same h =>
    have actual := accepts_exact.mp accepted
    exact accepts_exact.mpr (Value.same_trans _ _ v h actual (wide.literals _ (Reaches.refl _))
      (narrow.literals _ (Reaches.refl _)))
  | literal h =>
    exact takes_of_literal guarded hr wide (narrow.literals _ (Reaches.refl _))
      (accepts_exact.mp accepted) h
  | string => exact accepts_string.mpr (accepts_string.mp accepted)
  | number => exact accepts_number.mpr (accepts_number.mp accepted)
  | boolean => exact accepts_boolean.mpr (accepts_boolean.mp accepted)
  | null => exact accepts_null.mpr (accepts_null.mp accepted)
  | text =>
    obtain ⟨s, rfl, -⟩ := accepts_url.mp accepted
    exact accepts_string.mpr ⟨s, rfl⟩
  | url h =>
    obtain ⟨s, rfl, ok⟩ := accepts_url.mp accepted
    exact accepts_url.mpr ⟨s, rfl, UrlScheme.accepts_of_encompasses h ok⟩
  | object h =>
    obtain ⟨actual, rfl, fits⟩ := (accepts_object guarded' narrow.registered).mp accepted
    rw [narrow.strict _ _ (Reaches.refl _)] at fits
    obtain ⟨kept, shared⟩ := Verdict.thenCheck_eq_success.mp h
    rw [keptKeys_eq_success] at kept
    rw [sharedFields_eq_success] at shared
    refine (takes_object guarded wide.registered).mpr ⟨actual, rfl, ?_⟩
    refine fitsObject_of_shared (wide.keys _ _ (Reaches.refl _)) (fun x mem => ?_)
      (fun x first key q field u lighter given => parts x.2 q (.field first)
        (.field (mem_of_field? field)) (shared x first key q field) u lighter given) fits
    exact (kept x mem).imp_right (takes_of_literal guarded hr
      (wide.of_reaches (Part.reaches (.field (mem_of_requiredFields mem).1))) rfl rfl)
  | sequence first second h =>
    obtain ⟨items, rfl, fits⟩ := (accepts_sequence guarded' narrow.registered second).mp accepted
    refine (takes_sequence guarded wide.registered first).mpr ⟨items, rfl, ?_⟩
    refine h.imp_right fun ⟨constrained, compared⟩ => ?_
    have positions (i : Nat) :=
      comparePosition_eq_success.mp (compareMembers_eq_success.mp compared i)
    have governed (i : Nat) := (positions i).2.1
    refine fitsMembers_of_positions (length_le_of_governed (wide.members first) governed) governed
      (fun i => (positions i).2.2) (fun i p q atFirst atSecond u mem given => ?_)
      (fits.resolve_left (by simp [constrained]))
    exact parts p q (members?_part first atFirst) (members?_part second atSecond)
      ((positions i).1 p q atFirst atSecond) u (Value.Part.weight_lt (.item mem)) given

theorem covers_of_compareAt (guarded : Guarded these.types) (guarded' : Guarded those.types)
    (weight : Nat) :
    ∀ (fuel : Nat) (stack : TypeStack) (r s : Resolver) (a b : Pattern), r.types = these.types →
      s.types = those.types → Wide these.types a → Narrow those.types b →
      Supports these those weight stack a b →
      Pattern.compareAt fuel stack r s a b = some .success →
      ∀ v : Value, v.weight ≤ weight → Covers these those a b v := by
  -- By the weight of the value and then by the depth of the comparison.
  induction weight using Nat.strongRecOn with
  | _ weight lighter =>
  intro fuel
  induction fuel with
  | zero =>
    intro stack r s a b _ _ _ _ _ success
    cases success
  | succ fuel ih =>
    intro stack r s a b hr hs wide narrow supports success v le
    obtain ⟨c, concrete, unfolds, resolves⟩ := guarded.resolves a wide.registered
    obtain ⟨d, concrete', unfolds', resolves'⟩ := guarded'.resolves b narrow.registered
    have wide' := wide.of_reaches (.of_unfoldings unfolds)
    have narrow' := narrow.of_reaches (.of_unfoldings unfolds')
    have below (u : Value) (less : u.weight < weight) : Covers these those a b u :=
      lighter u.weight less (fuel + 1) stack r s a b hr hs wide narrow
        (supports_of_settled (fun pair mem => (supports pair mem).1.mono less) a b) success u
        (Nat.le_refl _)
    unfold Pattern.compareAt at success
    by_cases held : isHeld stack a b
    · exact covers_of_held guarded guarded' wide narrow supports held le
    have level : compareResolved (Pattern.compareAt fuel (entering stack a b)) Pattern.check r s
        c d = some .success := by
      simpa [Pattern.compareStep, held, resolves r hr, resolves' s hs] using success
    -- The pair that is put on the stack holds for lighter values, by the same comparison.
    have settled : ∀ pair ∈ entering stack a b, Settled these those weight pair := by
      intro pair mem
      rcases List.mem_append.mp mem with old | new
      · exact (supports pair old).1
      · exact fun u less => (covers_names guarded guarded' wide narrow
          (Option.mem_toList.mp new)).mpr (below u less)
    have entered {p q : Pattern} (first : Relation.ReflTransGen (Unfolds these.types) c p)
        (second : Relation.ReflTransGen (Unfolds those.types) d q)
        (proper : Relation.TransGen (Unfolds these.types) c p ∨
          Relation.TransGen (Unfolds those.types) d q) :
        Supports these those weight (entering stack a b) p q :=
      supports_entering guarded guarded' (fun name => wide.aliases a name (Reaches.refl a))
        (fun name => narrow.aliases b name (Reaches.refl b)) resolves resolves' unfolds unfolds'
        first second proper supports settled
    intro accepted
    apply takes_of_unfoldings guarded wide.registered unfolds
    refine covers_of_compareResolved guarded guarded' hr wide' narrow' (fun p step ok => ?_)
      (fun q step ok => ?_) (fun p q first second ok u less => ?_) level ?_
    · exact ih _ r s p d hr hs (wide'.of_reaches step.reaches) narrow'
        (entered (.single step) .refl (.inl (.single step))) ok v le
    · exact ih _ r s c q hr hs wide' (narrow'.of_reaches step.reaches)
        (entered .refl (.single step) (.inr (.single step))) ok v le
    · exact lighter u.weight (Nat.lt_of_lt_of_le less le) fuel _ r.tolerant s.tolerant p q hr hs
        (wide'.of_reaches first.reaches) (narrow'.of_reaches second.reaches)
        (supports_of_settled (fun pair mem => (settled pair mem).mono
          (Nat.lt_of_lt_of_le less le)) p q) ok u (Nat.le_refl _)
    · rwa [Accepts, ← Pattern.check_resolved guarded' narrow.registered (resolves' those rfl)]

theorem covers_of_encompasses (guarded : Guarded these.types) (guarded' : Guarded those.types)
    (wide : Wide these.types a) (narrow : Narrow those.types b)
    (success : Pattern.encompasses these those a b = some .success) :
    Covers these those a b v := by
  rw [Pattern.encompasses_eq_compareAt] at success
  refine covers_of_compareAt guarded guarded' v.weight _ [] these those a b rfl rfl wide narrow ?_
    success v (Nat.le_refl _)
  intro pair mem
  cases mem

end Soundness

section Chains

def chain (value : Pattern) : Pattern :=
  .object [("value", value), ("next?", .reference "Chain")]
    { unexpected := .reject, kind := .json, knownAs := some "Chain" }

def chains (value : Pattern) : Resolver :=
  { Resolver.empty with types := [("Chain", chain value)] }

theorem registered?_chain (value : Pattern) :
    registered? (chains value).types "Chain" = some (chain value) := by
  have name : Token.typeName "Chain" = "Chain" := by decide +kernel
  simp [registered?, name, chains, Entries.get?]

theorem guarded_chains (value : Pattern) : Guarded (chains value).types :=
  Guarded.of_settles 1 rfl

theorem mem_reachable_chains {value q : Pattern}
    (h : Reaches (chains value).types (.reference "Chain") q) :
    q = .reference "Chain" ∨ q = chain value ∨ q ∈ value.subpatterns := by
  have mem := h.mem_reachable
  simp only [reachable, chains, chain, Pattern.subpatterns, Pattern.subpatternsFields,
    List.mem_append, List.mem_cons, List.not_mem_nil, or_false, List.append_nil] at mem ⊢
  rcases mem with h | h | h | h
  · exact .inl h
  · exact .inr (.inl h)
  · exact .inr (.inr h)
  · exact .inl h

theorem wide_chains : Wide (chains (.anyOf [.null, .number])).types (.reference "Chain") := by
  have cases_ {q : Pattern}
      (h : Reaches (chains (.anyOf [.null, .number])).types (.reference "Chain") q) :
      q = .reference "Chain" ∨ q = chain (.anyOf [.null, .number]) ∨
        q = .anyOf [.null, .number] ∨ q = .null ∨ q = .number := by
    simpa [Pattern.subpatterns, Pattern.subpatternsAll] using mem_reachable_chains h
  constructor
  · intro name h
    rcases cases_ h with same | same | same | same | same <;> cases same
    rw [registered?_chain]
    rfl
  · intro q name h known
    rcases cases_ h with rfl | rfl | rfl | rfl | rfl <;> cases known
    exact registered?_chain _
  · intro fields traits h
    rcases cases_ h with same | same | same | same | same <;> cases same
    decide
  · intro elements knownAs h
    rcases cases_ h with same | same | same | same | same <;> cases same
  · intro value h
    rcases cases_ h with same | same | same | same | same <;> cases same

theorem narrow_chains : Narrow (chains .number).types (.reference "Chain") := by
  have cases_ {q : Pattern} (h : Reaches (chains .number).types (.reference "Chain") q) :
      q = .reference "Chain" ∨ q = chain .number ∨ q = .number := by
    simpa [Pattern.subpatterns] using mem_reachable_chains h
  constructor
  · intro name h
    rcases cases_ h with same | same | same <;> cases same
    rw [registered?_chain]
    rfl
  · intro q name h known
    rcases cases_ h with rfl | rfl | rfl <;> cases known
    exact registered?_chain _
  · intro fields traits h
    rcases cases_ h with same | same | same <;> cases same
    rfl
  · intro value h
    rcases cases_ h with same | same | same <;> cases same

end Chains

theorem takes_of_encompasses {these those : Resolver} {bigger smaller : Pattern} {v : Value}
    (guarded : Guarded these.types) (guarded' : Guarded those.types)
    (wide : Wide these.types bigger) (narrow : Narrow those.types smaller)
    (success : Pattern.encompasses these those bigger smaller = some .success)
    (accepted : Pattern.check those smaller v = some .success) :
    Pattern.check these.relaxed bigger.relaxed v = some .success :=
  covers_of_encompasses guarded guarded' wide narrow success accepted

theorem takes_chain_of_numbers :
    Pattern.check (chains (.anyOf [.null, .number])).relaxed (Pattern.reference "Chain").relaxed
      (.object [("value", .number (.ofNat 1)),
        ("next", .object [("value", .number (.ofNat 2))])]) = some .success :=
  takes_of_encompasses (guarded_chains _) (guarded_chains _) wide_chains narrow_chains
    (by decide +kernel) (by decide +kernel)

end ApiContract
