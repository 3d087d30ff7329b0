import ApiContract.Pattern.Generation
import ApiContract.Proofs.Bounds
import ApiContract.Proofs.Data
import ApiContract.Proofs.Shapes

set_option autoImplicit false

namespace ApiContract

namespace Gen

variable {α β : Type} {gen : Gen α} {P Q : α → Prop}

instance : LawfulMonad Gen := by
  refine LawfulMonad.mk' _ (fun gen => ?_) (fun _ _ => rfl) fun gen f g => ?_
  · induction gen with
    | draw d next ih => exact congrArg (Gen.draw d) (funext ih)
    | _ => rfl
  · induction gen with
    | draw d next ih => exact congrArg (Gen.draw d) (funext ih)
    | _ => rfl

theorem Always.bind {P : Contractual α → Prop} {Q : Contractual β → Prop} {f : α → Gen β}
    (h : gen.Always P) (value : ∀ a, P (.ok a) → (f a).Always Q)
    (failure : ∀ error, P (.error error) → Q (.error error)) : (gen >>= f).Always Q := by
  induction gen with
  | value a => exact value a h
  | failure error => exact failure error h
  | unending => trivial
  | draw d next ih => exact fun answer => ih answer (h answer)

theorem Always.orElse {P Q : Contractual α → Prop} {handler : ContractError → Gen α}
    (h : gen.Always P) (value : ∀ a, P (.ok a) → Q (.ok a))
    (failure : ∀ error, P (.error error) → (handler error).Always Q) :
    (gen.orElse handler).Always Q := by
  induction gen with
  | value a => exact value a h
  | failure error => exact failure error h
  | unending => trivial
  | draw d next ih => exact fun answer => ih answer (h answer)

def Gives (Q : α → Prop) (gen : Gen α) : Prop :=
  gen.Always fun result => ∀ a, result = .ok a → Q a

@[simp] theorem gives_value {a : α} : (Gen.value a).Gives Q ↔ Q a := by
  simp [Gives, Always]

@[simp] theorem gives_pure {a : α} : (pure a : Gen α).Gives Q ↔ Q a :=
  gives_value

@[simp] theorem gives_failure {error : ContractError} : (Gen.failure error).Gives Q := by
  simp [Gives, Always]

theorem gives_draw {d : Draw} {next : d.Answer → Gen α} :
    (Gen.draw d next).Gives Q ↔ ∀ answer, (next answer).Gives Q :=
  Iff.rfl

@[simp] theorem gives_bind {f : α → Gen β} {Q : β → Prop} :
    (gen >>= f).Gives Q ↔ gen.Gives fun a => (f a).Gives Q := by
  induction gen with
  | value a => exact gives_value (Q := fun a => (f a).Gives Q).symm
  | failure error => exact iff_of_true gives_failure gives_failure
  | unending => exact Iff.rfl
  | draw d next ih => exact forall_congr' ih

@[simp] theorem gives_map {f : α → β} {Q : β → Prop} :
    (f <$> gen).Gives Q ↔ gen.Gives fun a => Q (f a) := by
  have binds : f <$> gen = gen >>= fun a => pure (f a) := rfl
  simp only [binds, gives_bind, gives_pure]

theorem Gives.imp (h : gen.Gives P) (step : ∀ a, P a → Q a) : gen.Gives Q := by
  induction gen with
  | value a => exact gives_value.mpr (step a (gives_value.mp h))
  | failure error => exact gives_failure
  | unending => trivial
  | draw d next ih => exact fun answer => ih answer (h answer)

theorem gives_mapM {l : List α} {f : α → Gen β} {Q : α → β → Prop}
    (h : ∀ a ∈ l, (f a).Gives (Q a)) : (l.mapM f).Gives (List.Forall₂ Q l) := by
  induction l with
  | nil => exact gives_value.mpr .nil
  | cons a rest ih =>
    rw [List.mapM_cons]
    refine gives_bind.mpr (Gives.imp (h a List.mem_cons_self) fun b own => ?_)
    refine gives_bind.mpr (Gives.imp (ih fun c mem => h c (List.mem_cons_of_mem a mem)) ?_)
    exact fun bs others => gives_pure.mpr (.cons own others)

theorem gives_of_forall (h : ∀ a, Q a) : gen.Gives Q := by
  induction gen with
  | value a => exact gives_value.mpr (h a)
  | failure error => exact gives_failure
  | unending => trivial
  | draw d next ih => exact ih

theorem Gives.and (first : gen.Gives P) (second : gen.Gives Q) : gen.Gives fun a => P a ∧ Q a := by
  induction gen with
  | value a => exact gives_value.mpr ⟨gives_value.mp first, gives_value.mp second⟩
  | failure error => exact gives_failure
  | unending => trivial
  | draw d next ih => exact fun answer => ih answer (first answer) (second answer)

theorem Gives.orElse {handler : ContractError → Gen α} (h : gen.Gives Q)
    (handled : ∀ error, (handler error).Gives Q) : (gen.orElse handler).Gives Q :=
  Always.orElse h (fun _ ok => ok) fun error _ => handled error

theorem Gives.under {crumb : String} (h : gen.Gives Q) : (gen.under crumb).Gives Q :=
  h.orElse fun _ => gives_failure

theorem gives_ofContractual {result : Contractual α} :
    (ofContractual result).Gives Q ↔ ∀ a, result = .ok a → Q a := by
  cases result <;> simp [ofContractual]

theorem Gives.of_results (h : gen.Gives Q) {a : α} (mem : .ok a ∈ gen.results) : Q a := by
  induction gen with
  | value b =>
    obtain rfl : a = b := by simpa [results] using mem
    exact gives_value.mp h
  | failure error => simp [results] at mem
  | unending => cases mem
  | draw d next ih =>
    obtain ⟨answer, -, inside⟩ := List.mem_flatMap.mp mem
    exact ih answer (h answer) inside

end Gen

open Gen

section Choices

variable {generate : Pattern → Gen Value} {Q : Pattern → Value → Prop}

theorem anyAlternative_induction {motive : Gen Value → Prop} {alternatives : List Pattern}
    {last : ContractError} (failure : ∀ error, motive (.failure error))
    (draw : ∀ others (next : Fin (others + 1) → Gen Value),
      (∀ i, motive (next i)) → motive (.draw (.pick others) next))
    (attempt : ∀ p ∈ alternatives, ∀ handler, (∀ error, motive (handler error)) →
      motive ((generate p).orElse handler)) : motive (anyAlternative generate alternatives last) := by
  induction alternatives, last using anyAlternative.induct with
  | case1 last =>
    rw [anyAlternative]
    exact failure last
  | case2 last first others ih =>
    rw [anyAlternative]
    refine draw others.length _ fun i => ?_
    refine attempt _ (List.getElem_mem _) _ fun error => ?_
    split
    · exact ih i error fun p mem => attempt p (List.mem_of_mem_eraseIdx mem)
    · exact failure error

theorem anyAlternative_gives {Q : Value → Prop} {alternatives : List Pattern} {last : ContractError}
    (h : ∀ p ∈ alternatives, (generate p).Gives Q) :
    (anyAlternative generate alternatives last).Gives Q :=
  anyAlternative_induction (fun _ => gives_failure) (fun _ _ each => gives_draw.mpr each)
    fun p mem _ handled => (h p mem).orElse handled

def Suits (Q : Pattern → Value → Prop) (field : String × Pattern) : Option Value → Prop
  | some v => Q field.2 v
  | none => isOptional field.1

structure Fills (Q : Pattern → Value → Prop) (fields : List (String × Pattern))
    (members : Entries Value) : Prop where
  distinct : Entries.Distinct members
  declared : ∀ member ∈ members, ∃ field ∈ fields,
    bareName field.1 = member.1 ∧ Q field.2 member.2
  required : ∀ field ∈ requiredFields fields, field.1 ∈ Entries.keys members

namespace Fills

variable {fields : List (String × Pattern)} {field : String × Pattern} {members : Entries Value}

theorem nil : Fills Q [] [] :=
  ⟨List.nodup_nil, nofun, nofun⟩

theorem skip (h : Fills Q fields members) (optional : isOptional field.1) :
    Fills Q (fields ++ [field]) members where
  distinct := h.distinct
  declared member mem := by
    obtain ⟨own, there, same⟩ := h.declared member mem
    exact ⟨own, List.mem_append_left _ there, same⟩
  required own mem := by
    rcases List.mem_append.mp (mem_of_requiredFields mem).1 with before | last
    · exact h.required own (List.mem_filter.mpr ⟨before, by simp [(mem_of_requiredFields mem).2]⟩)
    · obtain rfl := List.mem_singleton.mp last
      exact absurd optional (by simp [(mem_of_requiredFields mem).2])

theorem put (h : Fills Q fields members) {v : Value} (fits : Q field.2 v) :
    Fills Q (fields ++ [field]) (Entries.insert members (bareName field.1) v) where
  distinct := Entries.distinct_insert h.distinct _ _
  declared member mem := by
    rcases Entries.mem_of_mem_insert mem with rfl | before
    · exact ⟨field, List.mem_append_right _ (List.mem_singleton_self _), rfl, fits⟩
    · obtain ⟨own, there, same⟩ := h.declared member before
      exact ⟨own, List.mem_append_left _ there, same⟩
  required own mem := by
    obtain ⟨there, required⟩ := mem_of_requiredFields mem
    rw [Entries.keys_insert]
    rcases List.mem_append.mp there with before | last
    · have known := h.required own (List.mem_filter.mpr ⟨before, by simp [required]⟩)
      split
      · exact known
      · exact List.mem_append_left _ known
    · obtain rfl := List.mem_singleton.mp last
      rw [bareName_of_required required]
      split
      · next known => exact known
      · exact List.mem_append_right _ (List.mem_singleton_self _)

theorem fits {unexpected : UnexpectedKeys} (h : Fills Q fields members)
    (distinct : (fields.map fun field => bareName field.1).Nodup) :
    FitsObject Q fields unexpected members where
  required own mem := by
    obtain ⟨member, there, same⟩ := List.mem_map.mp (h.required own mem)
    exact .inl (Entries.contains_of_mem (a := member.2) (same ▸ there))
  declared _ key mem := by
    obtain ⟨member, there, rfl⟩ := List.mem_map.mp mem
    obtain ⟨own, known, same, -⟩ := h.declared member there
    exact same ▸ field?_isSome_of_mem known
  members own known u found := by
    obtain ⟨other, there, same, fits⟩ := h.declared _ (Entries.mem_of_get? found)
    obtain rfl := List.inj_on_of_nodup_map distinct there known same
    exact .inr fits

end Fills

theorem generateFields_gives {fill : String × Pattern → Gen (Option Value)}
    {before fields : List (String × Pattern)} {done : Entries Value} (filled : Fills Q before done)
    (h : ∀ field ∈ fields, (fill field).Gives (Suits Q field)) :
    (generateFields fill fields done).Gives (Fills Q (before ++ fields)) := by
  induction fields generalizing before done with
  | nil => exact gives_value.mpr (by simpa using filled)
  | cons field rest ih =>
    have later := fun other mem => h other (List.mem_cons_of_mem field mem)
    rw [List.append_cons]
    refine gives_bind.mpr ((h field List.mem_cons_self).imp fun filling suits => ?_)
    cases filling with
    | some v => exact ih (filled.put suits) later
    | none => exact ih (filled.skip suits) later

def oneItem : Pattern → Pattern
  | .repeated inner => inner
  | p => p

theorem oneItem_of_not_repeated {p : Pattern} (h : p.isRepeated = false) : oneItem p = p := by
  cases p with
  | repeated => cases h
  | _ => rfl

theorem generateElements_gives {elements : List Pattern} {i : Nat}
    (h : ∀ p ∈ elements, (generate (oneItem p)).Gives (Q (oneItem p))) :
    (generateElements generate i elements).Gives
      (List.Forall₂ (fun p v => Q (oneItem p) v) elements) := by
  induction elements generalizing i with
  | nil => exact gives_value.mpr .nil
  | cons p rest ih =>
    refine gives_bind.mpr (Gives.imp (h p List.mem_cons_self).under fun v fits => ?_)
    refine gives_bind.mpr (Gives.imp (ih fun q mem => h q (List.mem_cons_of_mem p mem)) ?_)
    exact fun items each => gives_value.mpr (.cons fits each)

theorem fitsMembers_of_each {elements : List Pattern} {items : List Value}
    (ordered : ∀ p ∈ elements.dropLast, p.isRepeated = false)
    (each : List.Forall₂ (fun p v => Q (oneItem p) v) elements items) :
    FitsMembers Q (Members.ofElements elements) items := by
  have length := each.length_eq
  have place (i : Nat) (v : Value) (found : items[i]? = some v) :
      ∃ p, elements[i]? = some p ∧ Q (oneItem p) v := getElem?_of_forall₂ each found
  rcases ofElements_cases elements with ⟨init, inner, rfl⟩ | unrepeated
  · rw [List.dropLast_concat] at ordered
    rw [ofElements_repeated]
    refine ⟨by simp [← length], fun i v found => ?_⟩
    obtain ⟨p, at_, fits⟩ := place i v found
    rw [List.getElem?_append] at at_
    split at at_
    · next short =>
      rw [oneItem_of_not_repeated (ordered p (List.mem_of_getElem? at_))] at fits
      exact ⟨p, by simp [Members.at?, at_], fits⟩
    · next far =>
      obtain rfl := List.mem_singleton.mp (List.mem_of_getElem? at_)
      exact ⟨inner, Members.at?_eq_tail (Nat.le_of_not_lt far), fits⟩
  · have fixed (p : Pattern) (mem : p ∈ elements) : p.isRepeated = false := by
      rcases List.eq_nil_or_concat' elements with rfl | ⟨init, last, rfl⟩
      · cases mem
      · rw [List.dropLast_concat] at ordered
        rcases List.mem_append.mp mem with before | own
        · exact ordered p before
        · obtain rfl := List.mem_singleton.mp own
          exact unrepeated p (by simp)
    rw [ofElements_fixed unrepeated]
    refine ⟨by simp [← length], fun i v found => ?_⟩
    obtain ⟨p, at_, fits⟩ := place i v found
    rw [oneItem_of_not_repeated (fixed p (List.mem_of_getElem? at_))] at fits
    exact ⟨p, by simp [Members.at?, at_], fits⟩

theorem accepts_of_fills {r : Resolver} {fields : List (String × Pattern)} {traits : ObjectTraits}
    {members : Entries Value} (distinct : (fields.map fun field => bareName field.1).Nodup)
    (filled : Fills (Accepts r) fields members)
    (tolerant : ∀ field ∈ fields, ∀ u, Accepts r field.2 u → Accepts r.tolerant field.2 u) :
    Accepts r (.object fields traits) (.object members) := by
  refine accepts_fields.mpr ⟨members, rfl, (filled.fits distinct).imp fun field mem u _ ok => ?_⟩
  exact tolerant field mem u ok

theorem accepts_of_each {r : Resolver} {elements : List Pattern} {knownAs : Option String}
    {items : List Value} (ordered : ∀ p ∈ elements.dropLast, p.isRepeated = false)
    (each : List.Forall₂ (fun p u => Accepts r (oneItem p) u) elements items)
    (tolerant : ∀ p i, (Members.ofElements elements).at? i = some p → ∀ u,
      Accepts r p u → Accepts r.tolerant p u) :
    Accepts r (.array elements knownAs) (.array items) := by
  have fits := fitsMembers_of_each ordered each
  refine accepts_elements.mpr ⟨items, rfl, .inr (fits.imp fun p i place u _ ok => ?_)⟩
  exact tolerant p i place u ok

theorem generateField_gives {field : String × Pattern} (h : (generate field.2).Gives (Q field.2)) :
    (generateField generate field).Gives (Suits Q field) := by
  refine Gives.orElse (gives_map.mpr (h.imp fun _ fits => fits)) fun error => ?_
  split
  · next left =>
    rw [Bool.and_eq_true] at left
    exact gives_value.mpr left.1
  · exact gives_failure

end Choices

structure Clear (types : Entries Pattern) (p : Pattern) : Prop where
  registered : Registered types p
  keys : ∀ fields traits, Reaches types p (.object fields traits) → BareKeys fields

structure Fillable (types : Entries Pattern) (p : Pattern) : Prop where
  ordered : ∀ elements knownAs, Reaches types p (.array elements knownAs) →
    ∀ q ∈ elements.dropLast, q.isRepeated = false
  keys : ∀ fields traits, Reaches types p (.object fields traits) →
    (fields.map fun field => bareName field.1).Nodup
  literals : ∀ v, Reaches types p (.exact v) → v.Keyed

theorem Clear.of_tidy {types : Entries Pattern} {p : Pattern} (h : Tidy types p) :
    Clear types p where
  registered := h.registered
  keys _ _ reach := h.keys reach

theorem Clear.of_reaches {types : Entries Pattern} {p q : Pattern} (h : Clear types p)
    (reach : Reaches types p q) : Clear types q where
  registered := h.registered.of_reaches reach
  keys fields traits more := h.keys fields traits (reach.trans more)

theorem Fillable.of_reaches {types : Entries Pattern} {p q : Pattern} (h : Fillable types p)
    (reach : Reaches types p q) : Fillable types q where
  ordered elements knownAs more := h.ordered elements knownAs (reach.trans more)
  keys fields traits more := h.keys fields traits (reach.trans more)
  literals v more := h.literals v (reach.trans more)

theorem Fillable.null (types : Entries Pattern) : Fillable types .null where
  ordered _ _ reach := nomatch reach.eq_null
  keys _ _ reach := nomatch reach.eq_null
  literals _ reach := nomatch reach.eq_null

theorem Fillable.behind {r : Resolver} {p q : Pattern} (h : Fillable r.types p)
    (behind : Behind r p q) : Fillable r.types q := by
  rcases behind.unfolds with rfl | chain
  · exact .null _
  · exact h.of_reaches (.of_unfoldings chain.to_reflTransGen)

structure Legible (types : Entries Pattern) (p : Pattern) : Prop where
  arises : ∀ q, Reaches types p q → Arises types q
  clear : Clear types p

namespace Legible

variable {types : Entries Pattern} {p q : Pattern}

theorem of_written (registry : WrittenTypes types) (written : Written p) (clear : Clear types p) :
    Legible types p where
  arises _ reach := Arises.of_reaches registry (.inl written) reach
  clear := clear

theorem of_reaches (h : Legible types p) (reach : Reaches types p q) : Legible types q where
  arises o more := h.arises o (reach.trans more)
  clear := h.clear.of_reaches reach

theorem fillable (h : Legible types p) : Fillable types p where
  ordered _ _ reach := (h.arises _ reach).ordered
  keys _ _ reach := (h.clear.keys _ _ reach).distinct
  literals _ reach := Value.keyed_of_scalar (h.arises _ reach).scalar

end Legible

section Levels

variable {r : Resolver} {p : Pattern} {n : Nat} {entered : List String}

theorem randomUrl_accepted (scheme : UrlScheme) :
    (randomUrl scheme).Gives fun s => scheme.accepts s := by
  refine gives_bind.mpr (gives_draw.mpr fun host => gives_value.mpr ?_)
  refine gives_bind.mpr (gives_draw.mpr fun path => gives_value.mpr ?_)
  refine gives_pure.mpr ?_
  cases scheme <;>
    simp [UrlScheme.accepts, UrlScheme.start, Text.startsWith, String.toList_append]

theorem generateWithin_object (row : r.row = none) {fields : List (String × Pattern)}
    {traits : ObjectTraits} : Pattern.generateWithin (n + 1) r entered (.object fields traits) =
      .object <$> generateFields (generateField (Pattern.generateWithin n r entered)) fields [] := by
  have cells (name : String) : r.cell? name = none := by rw [Resolver.cell?, row]; rfl
  simp only [Pattern.generateWithin, cells]

theorem generateWithin_reference_gives {name : String} {Q : Value → Prop}
    (h : ∀ q, r.resolve (.reference name) = .ok q →
      (q.generateWithin n r (name :: entered)).Gives Q) :
    (Pattern.generateWithin (n + 1) r entered (.reference name)).Gives Q := by
  dsimp only [Pattern.generateWithin]
  split
  · exact gives_failure
  · exact gives_bind.mpr (gives_ofContractual.mpr h)

theorem generateWithin_anyOf_gives {alternatives : List Pattern} {Q : Value → Prop}
    (h : ∀ q ∈ alternatives, (q.generateWithin n r entered).Gives Q) :
    (Pattern.generateWithin (n + 1) r entered (.anyOf alternatives)).Gives Q := by
  dsimp only [Pattern.generateWithin]
  split
  · exact gives_failure
  · exact anyAlternative_gives h

theorem generateWithin_accepted (guarded : Guarded r.types) (row : r.row = none)
    (fillable : Fillable r.types p) :
    (p.generateWithin n r entered).Gives (Accepts r p) := by
  induction n generalizing p entered with
  | zero => trivial
  | succ n ih =>
    have part {q : Pattern} (inside : Part p q) :
        (q.generateWithin n r entered).Gives (Accepts r q) := ih (fillable.of_reaches inside.reaches)
    cases p with
    | string => exact fun _ => gives_value.mpr (accepts_string.mpr ⟨_, rfl⟩)
    | number => exact fun _ => gives_value.mpr (accepts_number.mpr ⟨_, rfl⟩)
    | boolean => exact fun _ => gives_value.mpr (accepts_boolean.mpr ⟨_, rfl⟩)
    | null => exact gives_value.mpr (accepts_null.mpr (.inl rfl))
    | url scheme =>
      refine gives_map.mpr ((randomUrl_accepted scheme).imp fun s ok => ?_)
      exact accepts_url.mpr ⟨s, rfl, ok⟩
    | exact v =>
      have same := Value.same_of_keyed v (fillable.literals v (Reaches.refl _))
      exact gives_value.mpr (accepts_exact.mpr same)
    | repeated inner =>
      refine gives_bind.mpr ((part .inner).imp fun v fits => ?_)
      exact gives_value.mpr (accepts_repeated.mpr ⟨[v], rfl, by simpa using fits⟩)
    | reference name =>
      refine generateWithin_reference_gives fun q found => ?_
      exact (ih (fillable.behind (.reference found))).imp fun v => (accepts_resolved found).mpr
    | anyOf alternatives =>
      refine generateWithin_anyOf_gives fun q mem => ?_
      refine (ih (fillable.behind (.anyOf mem))).imp fun v fits => ?_
      exact (accepts_union guarded).mpr ⟨q, mem, fits⟩
    | object fields traits =>
      rw [generateWithin_object row]
      refine gives_map.mpr (Gives.imp (generateFields_gives Fills.nil fun field mem =>
        generateField_gives (part (.field mem))) fun members filled => ?_)
      exact accepts_of_fills (fillable.keys _ _ (Reaches.refl _)) filled
        fun _ _ _ ok => ok.tolerant_of_guarded guarded
    | array elements knownAs =>
      refine gives_map.mpr (Gives.imp (generateElements_gives fun q mem => part ?_)
        fun items each => ?_)
      · cases q with
        | repeated inner => exact .tail mem
        | _ => exact .element mem
      · exact accepts_of_each (fillable.ordered _ _ (Reaches.refl _)) each
          fun _ _ _ _ ok => ok.tolerant_of_guarded guarded

theorem generated_value_fits (guarded : Guarded r.types) (row : r.row = none)
    (fillable : Fillable r.types p) :
    (p.generate r).Gives fun v => p.check r v = some .success :=
  generateWithin_accepted guarded row fillable

def Pattern.isFillable : Pattern → Bool
  | .array elements _ => elements.dropLast.all fun q => !q.isRepeated
  | .object fields _ => decide (fields.map fun field => bareName field.1).Nodup
  | .exact v => v.isData
  | _ => true

theorem Fillable.of_all {types : Entries Pattern} {p : Pattern}
    (h : (reachable types p).all Pattern.isFillable) : Fillable types p where
  ordered _ _ reach := by
    simpa [Pattern.isFillable] using List.all_eq_true.mp h _ reach.mem_reachable
  keys _ _ reach := of_decide_eq_true (List.all_eq_true.mp h _ reach.mem_reachable)
  literals _ reach := Value.keyed_of_isData (List.all_eq_true.mp h _ reach.mem_reachable)

def grove : Resolver :=
  { Resolver.empty with types := [("Tree", .object
      [("kind", .anyOf [.exact (.number (.ofNat 0 (by decide))), .reference "Branches"]),
        ("beside?", .reference "Tree")] ⟨.reject, .json, some "Tree"⟩),
    ("Branches", .array [.anyOf [.string, .url .path], .repeated (.reference "Tree")] none)] }

theorem grove_fits : ∃ v, .ok v ∈ (Pattern.generate grove (.reference "Branches")).results ∧
    Pattern.check grove (.reference "Branches") v = some .success := by
  have fine : (grove.types.all fun type => settlesWithin grove.types 3 type.2) &&
      (reachable grove.types (.reference "Branches")).all Pattern.isFillable &&
      (Pattern.generate grove (.reference "Branches")).results.any Except.isOk := by decide +kernel
  simp only [Bool.and_eq_true, List.any_eq_true] at fine
  obtain ⟨⟨settles, fillable⟩, result, drawn, ok⟩ := fine
  cases result with
  | error => cases ok
  | ok v =>
    have fits := generated_value_fits (.of_settles 3 settles) rfl (.of_all fillable)
    exact ⟨v, drawn, fits.of_results drawn⟩

end Levels

end ApiContract
