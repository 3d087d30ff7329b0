import Mathlib.Data.Nat.Find
import ApiContract.Proofs.Generating
import ApiContract.Proofs.Relaxing

set_option autoImplicit false

/-!
When a generation gives up. It is cut off where it enters a type again, and finds a way out through
other alternatives and keys that may be left out, but a Rest is always given one item. So it gives up
on no pattern that takes a value with an item for each Rest.
-/
namespace ApiContract

@[simp] theorem ContractError.isEndlessRecursion_nested {crumb : String} {error : ContractError} :
    (nested crumb error).isEndlessRecursion = error.isEndlessRecursion := rfl

namespace Gen

variable {α β : Type} {gen : Gen α} {result : Contractual α}

inductive RunsTo : Gen α → Contractual α → Prop
  | value {a : α} : RunsTo (.value a) (.ok a)
  | failure {error : ContractError} : RunsTo (.failure error) (.error error)
  | draw {d : Draw} {next : d.Answer → Gen α} {result : Contractual α} (answer : d.Answer)
      (run : RunsTo (next answer) result) : RunsTo (.draw d next) result

theorem Always.of_runsTo {P : Contractual α → Prop} (h : gen.Always P) (run : gen.RunsTo result) :
    P result := by
  induction run with
  | value | failure => exact h
  | draw answer _ ih => exact ih (h answer)

theorem RunsTo.of_results (mem : result ∈ gen.results) : gen.RunsTo result := by
  induction gen with
  | value a =>
    obtain rfl := List.mem_singleton.mp mem
    exact .value
  | failure error =>
    obtain rfl := List.mem_singleton.mp mem
    exact .failure
  | unending => cases mem
  | draw d next ih =>
    obtain ⟨answer, -, inside⟩ := List.mem_flatMap.mp mem
    exact .draw answer (ih answer inside)

theorem exists_runsTo_of_results (h : gen.results.any fun result => result.isOk) :
    ∃ a, gen.RunsTo (.ok a) := by
  obtain ⟨result, mem, ok⟩ := List.any_eq_true.mp h
  cases result with
  | error error => cases ok
  | ok a => exact ⟨a, .of_results mem⟩

@[simp] theorem runsTo_pure {a b : α} : (pure a : Gen α).RunsTo (.ok b) ↔ b = a := by
  refine ⟨fun run => ?_, ?_⟩
  · cases run
    rfl
  · rintro rfl
    exact .value

theorem not_failure_runsTo {error : ContractError} {a : α} : ¬ (Gen.failure error).RunsTo (.ok a) :=
  nofun

theorem runsTo_draw {d : Draw} {next : d.Answer → Gen α} {result : Contractual α} :
    (Gen.draw d next).RunsTo result ↔ ∃ answer, (next answer).RunsTo result := by
  refine ⟨fun run => ?_, fun ⟨answer, run⟩ => .draw answer run⟩
  cases run with
  | draw answer run => exact ⟨answer, run⟩

theorem runsTo_bind {f : α → Gen β} {b : β} :
    (gen >>= f).RunsTo (.ok b) ↔ ∃ a, gen.RunsTo (.ok a) ∧ (f a).RunsTo (.ok b) := by
  induction gen with
  | value a =>
    refine ⟨fun run => ⟨a, .value, run⟩, ?_⟩
    rintro ⟨_, own, run⟩
    cases own
    exact run
  | failure error => exact ⟨nofun, fun ⟨_, run, _⟩ => absurd run not_failure_runsTo⟩
  | unending => exact ⟨nofun, nofun⟩
  | draw d next ih =>
    have opened : (Gen.draw d next >>= f) = .draw d fun answer => next answer >>= f := rfl
    simp only [opened, runsTo_draw, ih]
    constructor
    · rintro ⟨answer, a, run, after⟩
      exact ⟨a, ⟨answer, run⟩, after⟩
    · rintro ⟨a, ⟨answer, run⟩, after⟩
      exact ⟨answer, a, run, after⟩

@[simp] theorem runsTo_under {crumb : String} {a : α} :
    (gen.under crumb).RunsTo (.ok a) ↔ gen.RunsTo (.ok a) := by
  induction gen with
  | value b => exact Iff.rfl
  | failure error => exact iff_of_false not_failure_runsTo not_failure_runsTo
  | unending => exact Iff.rfl
  | draw d next ih =>
    have opened : (Gen.draw d next).under crumb = .draw d fun answer => (next answer).under crumb :=
      rfl
    simp only [opened, runsTo_draw, ih]

def Spared (gen : Gen α) : Prop :=
  gen.Always fun result => ∀ error, result = .error error → error.isEndlessRecursion = false

@[simp] theorem spared_value {a : α} : (Gen.value a).Spared := nofun

@[simp] theorem spared_failure {error : ContractError} :
    (Gen.failure error : Gen α).Spared ↔ error.isEndlessRecursion = false := by
  simp [Spared, Always]

theorem spared_draw {d : Draw} {next : d.Answer → Gen α} :
    (Gen.draw d next).Spared ↔ ∀ answer, (next answer).Spared :=
  Iff.rfl

theorem Spared.bind {f : α → Gen β} (h : gen.Spared) (next : ∀ a, (f a).Spared) :
    (gen >>= f).Spared := by
  refine Always.bind h (fun a _ => next a) fun error fatal other same => ?_
  cases same
  exact fatal error rfl

theorem Spared.map {f : α → β} (h : gen.Spared) : (f <$> gen).Spared :=
  Spared.bind h fun _ => spared_value

theorem Spared.orElse {handler : ContractError → Gen α} (h : gen.Spared)
    (handled : ∀ error, error.isEndlessRecursion = false → (handler error).Spared) :
    (gen.orElse handler).Spared :=
  Always.orElse h (fun _ ok => ok) fun error fatal => handled error (fatal error rfl)

theorem spared_orElse {handler : ContractError → Gen α}
    (handled : ∀ error, (handler error).Spared) : (gen.orElse handler).Spared := by
  induction gen with
  | value a => exact spared_value
  | failure error => exact handled error
  | unending => trivial
  | draw d after ih => exact fun answer => ih answer

theorem Spared.under {crumb : String} (h : gen.Spared) : (gen.under crumb).Spared :=
  h.orElse fun _ fatal => spared_failure.mpr fatal

end Gen

open Gen

section Choices

variable {generate : Pattern → Gen Value}

theorem mem_eraseIdx_of_ne {p : Pattern} {i : Nat} {patterns : List Pattern}
    (place : i < patterns.length) (mem : p ∈ patterns) (other : patterns[i] ≠ p) :
    p ∈ patterns.eraseIdx i := by
  obtain ⟨k, bound, there⟩ := List.mem_iff_getElem.mp mem
  refine List.mem_eraseIdx_iff_getElem.mpr ⟨k, bound, ?_, there⟩
  rintro rfl
  exact other there

theorem anyAlternative_spared {alternatives : List Pattern} {last : ContractError} {q : Pattern}
    (mem : q ∈ alternatives) (spared : (generate q).Spared) :
    (anyAlternative generate alternatives last).Spared := by
  induction alternatives, last using anyAlternative.induct with
  | case1 => cases mem
  | case2 last first others ih =>
    rw [anyAlternative]
    refine spared_draw.mpr fun i : Fin (others.length + 1) => ?_
    by_cases own : (first :: others)[i] = q
    · rw [own]
      refine spared.orElse fun error fatal => ?_
      rw [if_neg (by simp [fatal])]
      exact spared_failure.mpr fatal
    · refine spared_orElse fun error => ?_
      split
      · exact ih i error (mem_eraseIdx_of_ne i.isLt mem own)
      · next fatal => exact spared_failure.mpr (by simpa using fatal)

theorem generateField_spared {field : String × Pattern}
    (h : isOptional field.1 = false → (generate field.2).Spared) :
    (generateField generate field).Spared := by
  cases optional : isOptional field.1 with
  | true =>
    refine spared_orElse fun error => ?_
    cases endless : error.isEndlessRecursion with
    | true => simp [optional]
    | false => simpa [optional] using endless
  | false =>
    refine Spared.orElse (h optional).map fun error fatal => ?_
    simpa [optional] using fatal

theorem generateFields_spared {fill : String × Pattern → Gen (Option Value)}
    {fields : List (String × Pattern)} {done : Entries Value}
    (h : ∀ field ∈ fields, (fill field).Spared) : (generateFields fill fields done).Spared := by
  induction fields generalizing done with
  | nil => exact spared_value
  | cons field rest ih =>
    refine (h field List.mem_cons_self).bind fun filling => ?_
    have later {done : Entries Value} : (generateFields fill rest done).Spared :=
      ih fun other mem => h other (List.mem_cons_of_mem field mem)
    cases filling <;> exact later

theorem generateElements_spared {elements : List Pattern} {i : Nat}
    (h : ∀ p ∈ elements, (generate (oneItem p)).Spared) :
    (generateElements generate i elements).Spared := by
  induction elements generalizing i with
  | nil => exact spared_value
  | cons p rest ih =>
    have first : (generate (oneItem p)).Spared := h p List.mem_cons_self
    refine Spared.bind first.under fun v => ?_
    exact Spared.bind (ih fun q mem => h q (List.mem_cons_of_mem p mem)) fun _ => spared_value

end Choices

section Escapes

variable {r s : Resolver} {p q : Pattern} {n m : Nat} {entered : List String}

theorem Resolver.not_endless_of_resolve {error : ContractError} (failed : r.resolve p = .error error) :
    error.isEndlessRecursion = false := by
  have unknown {name : String} {error : ContractError} (failed : r.get name = .error error) :
      error.isEndlessRecursion = false := by
    simp only [get] at failed
    split at failed
    · cases failed
    · split at failed <;> cases failed
      rfl
  have chain (hops : Nat) (p : Pattern) (failed : r.follow hops p = .error error) :
      error.isEndlessRecursion = false := by
    induction hops generalizing p with
    | zero =>
      cases p with
      | reference name =>
        cases named : r.get name <;> simp only [follow, named] at failed <;> cases failed
        · exact unknown named
        · rfl
      | _ => cases failed
    | succ hops ih =>
      cases p with
      | reference name =>
        cases named : r.get name with
        | error =>
          simp only [follow, named] at failed
          cases failed
          exact unknown named
        | ok q =>
          simp only [follow, named] at failed
          exact ih q failed
      | _ => cases failed
  exact chain _ p failed

theorem not_endless_of_unresolved {alternatives : List Pattern} {error : ContractError}
    (failed : unresolved? r alternatives = some error) : error.isEndlessRecursion = false := by
  induction alternatives with
  | nil => cases failed
  | cons p rest ih =>
    rw [unresolved?] at failed
    split at failed
    · exact ih failed
    · next unknown =>
      cases failed
      exact Resolver.not_endless_of_resolve unknown

/-- There is a way out of the pattern that enters no more than `n` levels. -/
def escapesWithin (r : Resolver) : Nat → Pattern → Bool
  | 0, _ => false
  | n + 1, p =>
      match p with
      | .repeated inner => escapesWithin r n inner
      | .reference _ =>
          match r.resolve p with
          | .ok q => escapesWithin r n q
          | .error _ => true
      | .anyOf alternatives => alternatives.any (escapesWithin r n)
      | .object fields _ => (requiredFields fields).all fun field => escapesWithin r n field.2
      | .array elements _ => elements.all fun q => escapesWithin r n (oneItem q)
      | _ => true

theorem escapesWithin_mono (escapes : escapesWithin r n p) (h : n ≤ m) : escapesWithin r m p := by
  induction n generalizing m p with
  | zero => cases escapes
  | succ n ih =>
    obtain ⟨m, rfl⟩ : ∃ k, m = k + 1 := ⟨m - 1, by omega⟩
    have deeper {q : Pattern} (escapes : escapesWithin r n q) : escapesWithin r m q :=
      ih escapes (by omega)
    cases p with
    | repeated inner => exact deeper escapes
    | reference name =>
      simp only [escapesWithin] at escapes ⊢
      split
      · next q found => exact deeper (by simpa [found] using escapes)
      · rfl
    | anyOf alternatives =>
      obtain ⟨q, mem, out⟩ := List.any_eq_true.mp escapes
      exact List.any_eq_true.mpr ⟨q, mem, deeper out⟩
    | object fields traits =>
      exact List.all_eq_true.mpr fun field mem => deeper (List.all_eq_true.mp escapes field mem)
    | array elements knownAs =>
      exact List.all_eq_true.mpr fun q mem => deeper (List.all_eq_true.mp escapes q mem)
    | _ => rfl

theorem escapesWithin_oneItem (escapes : escapesWithin r n p) : escapesWithin r n (oneItem p) := by
  cases p with
  | repeated inner =>
    cases n with
    | zero => cases escapes
    | succ n => exact escapesWithin_mono escapes (Nat.le_succ n)
  | _ => exact escapes

theorem exists_escapesWithin_all {α : Type} {items : List α} {f : α → Pattern}
    (h : ∀ a ∈ items, ∃ n, escapesWithin r n (f a)) :
    ∃ n, ∀ a ∈ items, escapesWithin r n (f a) := by
  induction items with
  | nil => exact ⟨0, nofun⟩
  | cons a rest ih =>
    obtain ⟨own, first⟩ := h a List.mem_cons_self
    obtain ⟨others, later⟩ := ih fun b mem => h b (List.mem_cons_of_mem a mem)
    refine ⟨max own others, List.forall_mem_cons.mpr ⟨?_, fun b mem => ?_⟩⟩
    · exact escapesWithin_mono first (Nat.le_max_left _ _)
    · exact escapesWithin_mono (later b mem) (Nat.le_max_right _ _)

theorem exists_escapesWithin_object {fields : List (String × Pattern)} {traits : ObjectTraits}
    (h : ∀ field ∈ requiredFields fields, ∃ n, escapesWithin r n field.2) :
    ∃ n, escapesWithin r n (.object fields traits) := by
  obtain ⟨n, out⟩ := exists_escapesWithin_all h
  exact ⟨n + 1, List.all_eq_true.mpr out⟩

theorem exists_escapesWithin_array {elements : List Pattern} {knownAs : Option String}
    (h : ∀ q ∈ elements, ∃ n, escapesWithin r n (oneItem q)) :
    ∃ n, escapesWithin r n (.array elements knownAs) := by
  obtain ⟨n, out⟩ := exists_escapesWithin_all h
  exact ⟨n + 1, List.all_eq_true.mpr out⟩

/-- The shallowest way out of a type enters no type that it is cut off at, so the names entered may
be all those whose own way out is deeper. -/
theorem generateWithin_spared {fuel : Nat} (row : r.row = none) (escapes : escapesWithin r n p)
    (fresh : ∀ name ∈ entered, escapesWithin r n (.reference name) = false) :
    (p.generateWithin fuel r entered).Spared := by
  induction fuel generalizing n p entered with
  | zero => trivial
  | succ fuel ih =>
    obtain ⟨k, rfl⟩ : ∃ k, n = k + 1 := by
      cases n with
      | zero => cases escapes
      | succ k => exact ⟨k, rfl⟩
    have below {j : Nat} (shallow : j ≤ k + 1) (name : String) (mem : name ∈ entered) :
        escapesWithin r j (.reference name) = false :=
      Bool.eq_false_iff.mpr fun out =>
        Bool.eq_false_iff.mp (fresh name mem) (escapesWithin_mono out shallow)
    have next {q : Pattern} (out : escapesWithin r k q) : (q.generateWithin fuel r entered).Spared :=
      ih out (below (Nat.le_succ k))
    cases p with
    | string | number | boolean => exact fun _ => spared_value
    | null | exact => exact spared_value
    | url scheme => exact Spared.map fun _ => fun _ => spared_value
    | repeated inner => exact Spared.bind (next escapes) fun _ => spared_value
    | reference name =>
      dsimp only [Pattern.generateWithin]
      rw [if_neg fun again => Bool.eq_false_iff.mp (fresh name again) escapes]
      cases found : r.resolve (.reference name) with
      | error error => exact spared_failure.mpr (Resolver.not_endless_of_resolve found)
      | ok q =>
        -- The first level with a way out is one above the first for what is named.
        have out : ∃ m, escapesWithin r m (.reference name) := ⟨k + 1, escapes⟩
        have first : Nat.find out ≤ k + 1 := Nat.find_min' out escapes
        obtain ⟨j, level⟩ : ∃ j, Nat.find out = j + 1 :=
          Nat.exists_eq_succ_of_ne_zero fun zero => by simpa [zero, escapesWithin] using Nat.find_spec out
        have inside : escapesWithin r j q := by
          simpa [level, escapesWithin, found] using Nat.find_spec out
        refine ih inside (List.forall_mem_cons.mpr ⟨?_, below (by omega)⟩)
        exact Bool.eq_false_iff.mpr (Nat.find_min out (by omega))
    | anyOf alternatives =>
      obtain ⟨q, mem, out⟩ := List.any_eq_true.mp escapes
      dsimp only [Pattern.generateWithin]
      cases unknown : unresolved? r alternatives with
      | some error => exact spared_failure.mpr (not_endless_of_unresolved unknown)
      | none => exact anyAlternative_spared mem (next out)
    | object fields traits =>
      rw [generateWithin_object row]
      -- A key that may be left out is left out where it is cut off.
      refine Spared.map (generateFields_spared fun field mem => generateField_spared fun required => ?_)
      exact next (List.all_eq_true.mp escapes field (List.mem_filter.mpr ⟨mem, by simp [required]⟩))
    | array elements knownAs =>
      refine Spared.map (generateElements_spared fun q mem => ?_)
      exact next (List.all_eq_true.mp escapes q mem)

end Escapes

namespace Pattern

mutual

def oneOrMore : Pattern → Pattern
  | .repeated inner => .array [oneOrMore inner, .repeated (oneOrMore inner)] none
  | .anyOf alternatives => .anyOf (oneOrMoreAll alternatives)
  | .object fields traits => .object (oneOrMoreFields fields) traits
  | .array elements knownAs => .array (oneOrMoreElements elements) knownAs
  | other => other

def oneOrMoreAll : List Pattern → List Pattern
  | [] => []
  | pattern :: rest => oneOrMore pattern :: oneOrMoreAll rest

def oneOrMoreFields : List (String × Pattern) → List (String × Pattern)
  | [] => []
  | (key, pattern) :: rest => (key, oneOrMore pattern) :: oneOrMoreFields rest

def oneOrMoreElements : List Pattern → List Pattern
  | [] => []
  | [.repeated inner] => [oneOrMore inner, .repeated (oneOrMore inner)]
  | pattern :: rest => oneOrMore pattern :: oneOrMoreElements rest

end

theorem oneOrMoreAll_eq (patterns : List Pattern) :
    oneOrMoreAll patterns = patterns.map oneOrMore := by
  induction patterns with
  | nil => rfl
  | cons p rest ih => simp [oneOrMoreAll, ih]

theorem oneOrMoreFields_eq (fields : List (String × Pattern)) :
    oneOrMoreFields fields = Entries.mapValues oneOrMore fields := by
  induction fields with
  | nil => rfl
  | cons field rest ih => simp [oneOrMoreFields, Entries.mapValues, ih]

theorem oneOrMoreElements_repeated (init : List Pattern) (inner : Pattern) :
    oneOrMoreElements (init ++ [.repeated inner]) =
      init.map oneOrMore ++ [oneOrMore inner] ++ [.repeated (oneOrMore inner)] := by
  induction init with
  | nil => rfl
  | cons p rest ih =>
    rw [List.cons_append, oneOrMoreElements, ih]
    · rfl
    · simp

theorem oneOrMoreElements_fixed {elements : List Pattern}
    (h : ∀ last, elements.getLast? = some last → last.isRepeated = false) :
    oneOrMoreElements elements = elements.map oneOrMore := by
  induction elements with
  | nil => rfl
  | cons p rest ih =>
    rw [oneOrMoreElements, ih fun last found => h last (by simp [List.getLast?_cons, found])]
    · rfl
    · rintro inner rfl rfl
      cases h (.repeated inner) rfl

theorem oneOrMoreElements_eq_nil {elements : List Pattern} :
    oneOrMoreElements elements = [] ↔ elements = [] := by
  refine ⟨fun none => ?_, fun none => by rw [none, oneOrMoreElements]⟩
  rcases ofElements_cases elements with ⟨init, inner, rfl⟩ | unrepeated
  · simp [oneOrMoreElements_repeated] at none
  · simpa [oneOrMoreElements_fixed unrepeated] using none

theorem isRepeated_oneOrMore (p : Pattern) : p.oneOrMore.isRepeated = false := by
  cases p <;> rfl

theorem oneOrMore_eq_self (p : Pattern) (restless : ∀ q ∈ p.subpatterns, q.isRepeated = false) :
    p.oneOrMore = p := by
  have among {patterns : List Pattern} (h : ∀ q ∈ patterns, q.oneOrMore = q) :
      patterns.map oneOrMore = patterns := (List.map_congr_left h).trans (List.map_id patterns)
  cases p with
  | repeated inner => cases restless _ (mem_subpatterns_self _)
  | anyOf alternatives =>
    have each (q : Pattern) (mem : q ∈ alternatives) : q.oneOrMore = q := by
      have smaller : q.size < (anyOf alternatives).size := Nat.lt_succ_of_le (size_le_sizeAll mem)
      exact oneOrMore_eq_self q fun o inside =>
        restless o (mem_subpatterns_inside (.inl ⟨_, rfl, mem⟩) inside)
    rw [oneOrMore, oneOrMoreAll_eq, among each]
  | object fields traits =>
    have each (field : String × Pattern) (mem : field ∈ fields) :
        (field.1, field.2.oneOrMore) = field := by
      have smaller : field.2.size < (object fields traits).size := Part.size_lt (.field mem)
      exact congrArg (field.1, ·) (oneOrMore_eq_self field.2 fun o inside =>
        restless o (mem_subpatterns_inside (.inr (.field mem)) inside))
    rw [oneOrMore, oneOrMoreFields_eq, Entries.mapValues, List.map_congr_left each, List.map_id']
  | array elements knownAs =>
    have each (q : Pattern) (mem : q ∈ elements) : q.oneOrMore = q := by
      have smaller : q.size < (array elements knownAs).size := Part.size_lt (.element mem)
      exact oneOrMore_eq_self q fun o inside =>
        restless o (mem_subpatterns_inside (.inr (.element mem)) inside)
    rw [oneOrMore, oneOrMoreElements_fixed, among each]
    exact fun last found => restless last (mem_subpatterns_of_step (.inr (.element
      (List.mem_of_getLast? found))))
  | _ => rfl
  termination_by p.size

end Pattern

def Resolver.oneOrMore (resolver : Resolver) : Resolver :=
  { resolver with types := Entries.mapValues Pattern.oneOrMore resolver.types }

section Taking

variable {r s : Resolver} {p q : Pattern} {v : Value}

theorem Resolver.resolve_oneOrMore (h : r.resolve p = .ok q) :
    r.oneOrMore.resolve p.oneOrMore = .ok q.oneOrMore := by
  have named {name : String} {o : Pattern} (h : r.get name = .ok o) :
      r.oneOrMore.get name = .ok o.oneOrMore := by
    simp only [get, oneOrMore, Entries.get?_mapValues] at h ⊢
    cases found : Entries.get? r.types (Token.typeName name) with
    | some own =>
      rw [found] at h
      cases h
      rfl
    | none =>
      rw [found] at h
      dsimp only [Option.map_none] at h ⊢
      split at h
      · next null =>
        cases h
        exact if_pos null
      · cases h
  have chain (hops : Nat) (p : Pattern) (h : r.follow hops p = .ok q) :
      r.oneOrMore.follow hops p.oneOrMore = .ok q.oneOrMore := by
    induction hops generalizing p with
    | zero =>
      cases p with
      | reference name =>
        obtain ⟨_, -, h⟩ := Except.bind_eq_ok.mp h
        cases h
      | _ => cases h; rfl
    | succ hops ih =>
      cases p with
      | reference name =>
        obtain ⟨o, found, h⟩ := Except.bind_eq_ok.mp h
        exact Except.bind_eq_ok.mpr ⟨_, named found, ih o h⟩
      | _ => cases h; rfl
  have length : r.oneOrMore.types.length = r.types.length := List.length_map _
  rw [resolve, length]
  exact chain _ p h

theorem FitsMembers.exists_of_fixed {accepts : Pattern → Value → Prop} {members : Members}
    {items : List Value} (fits : FitsMembers accepts members items) (mem : p ∈ members.fixed) :
    ∃ u ∈ items, accepts p u := by
  obtain ⟨i, short, there⟩ := List.mem_iff_getElem.mp mem
  have place : i < items.length := Nat.lt_of_lt_of_le short fits.length
  obtain ⟨q, own, ok⟩ := fits.items i items[i] (List.getElem?_eq_getElem place)
  have found : members.fixed[i]? = some p := there ▸ List.getElem?_eq_getElem short
  simp only [Members.at?, found, Option.some_or, Option.some.injEq] at own
  exact ⟨items[i], List.getElem_mem place, own ▸ ok⟩

theorem ofElements_oneOrMore_repeated (init : List Pattern) (inner : Pattern) :
    Members.ofElements (Pattern.oneOrMoreElements (init ++ [.repeated inner])) =
      ⟨init.map Pattern.oneOrMore ++ [inner.oneOrMore], some inner.oneOrMore⟩ := by
  rw [Pattern.oneOrMoreElements_repeated, ofElements_repeated]

theorem ofElements_oneOrMore_fixed {elements : List Pattern}
    (h : ∀ last, elements.getLast? = some last → last.isRepeated = false) :
    Members.ofElements (Pattern.oneOrMoreElements elements) =
      ⟨elements.map Pattern.oneOrMore, none⟩ := by
  rw [Pattern.oneOrMoreElements_fixed h, ofElements_fixed]
  intro last found
  rw [List.getLast?_map] at found
  obtain ⟨q, -, rfl⟩ := Option.map_eq_some_iff.mp found
  exact q.isRepeated_oneOrMore

theorem mem_fixed_oneOrMore {elements : List Pattern} (mem : p ∈ elements) :
    p.oneOrMore ∈ (Members.ofElements (Pattern.oneOrMoreElements elements)).fixed ∨
      (oneItem p).oneOrMore ∈ (Members.ofElements (Pattern.oneOrMoreElements elements)).fixed := by
  rcases ofElements_cases elements with ⟨init, inner, rfl⟩ | unrepeated
  · rw [ofElements_oneOrMore_repeated]
    rcases List.mem_append.mp mem with before | last
    · exact .inl (List.mem_append_left _ (List.mem_map_of_mem before))
    · obtain rfl := List.mem_singleton.mp last
      exact .inr (List.mem_append_right _ (List.mem_singleton_self _))
  · rw [ofElements_oneOrMore_fixed unrepeated]
    exact .inl (List.mem_map_of_mem mem)

theorem exists_escapesWithin (named : ∀ {p q : Pattern}, r.resolve p = .ok q →
      s.resolve p.oneOrMore = .ok q.oneOrMore) (accepted : Accepts s p.oneOrMore v) :
    ∃ n, escapesWithin r n p := by
  -- Behind names and unions the pattern gets nearer to what it resolves to, and inside objects and
  -- arrays the value gets lighter. Inside them null is tolerated, so the resolver is not fixed.
  induction weight : v.weight using Nat.strongRecOn generalizing s p v with
  | _ weight lighter =>
  subst weight
  have within {q : Pattern} {u : Value} (light : u.weight < v.weight)
      (ok : Accepts s.tolerant q.oneOrMore u) : ∃ n, escapesWithin r n q :=
    lighter u.weight light (fun found => Resolver.resolve_tolerant (named found)) ok rfl
  refine Accepts.behind_induction (motive := fun o => ∀ p : Pattern, o = p.oneOrMore →
    ∃ n, escapesWithin r n p) accepted ?_ ?_ p rfl
  · rintro _ kind ok p rfl
    cases p with
    | repeated inner =>
      obtain ⟨items, rfl, none | fits⟩ := accepts_elements.mp ok
      · cases none
      · obtain ⟨u, mem, ok⟩ := fits.exists_of_fixed (p := inner.oneOrMore)
          (by simp [Members.ofElements])
        obtain ⟨n, out⟩ := within (Value.Part.weight_lt (.item mem)) ok
        exact ⟨n + 1, out⟩
    | object fields traits =>
      obtain ⟨actual, rfl, fits⟩ := accepts_fields.mp ok
      rw [Pattern.oneOrMoreFields_eq, fitsObject_mapValues] at fits
      refine exists_escapesWithin_object fun field mem => ?_
      obtain ⟨known, required⟩ := mem_of_requiredFields mem
      rcases fits.required field mem with there | ok
      · obtain ⟨u, found⟩ := Option.isSome_iff_exists.mp there
        have member := fits.members field known u (by rwa [bareName_of_required required])
        refine within ?_ (member.resolve_left fun left => ?_)
        · exact Value.Part.weight_lt (.member (Entries.mem_of_get? found))
        · simp [required] at left
      · -- A required key may be missing only where null is taken in its place.
        exact within (u := .null) (Value.weight_object_pos actual) ok
    | array elements knownAs =>
      obtain ⟨items, rfl, none | fits⟩ := accepts_elements.mp ok
      · obtain rfl := Pattern.oneOrMoreElements_eq_nil.mp none
        exact ⟨1, rfl⟩
      · refine exists_escapesWithin_array fun q mem => ?_
        rcases mem_fixed_oneOrMore mem with whole | item
        · obtain ⟨u, there, ok⟩ := fits.exists_of_fixed whole
          obtain ⟨n, out⟩ := within (Value.Part.weight_lt (.item there)) ok
          exact ⟨n, escapesWithin_oneItem out⟩
        · obtain ⟨u, there, ok⟩ := fits.exists_of_fixed item
          exact within (Value.Part.weight_lt (.item there)) ok
    | reference | anyOf => cases kind
    | _ => exact ⟨1, rfl⟩
  · rintro _ o behind ok ih p rfl
    cases p with
    | reference name =>
      cases found : r.resolve (.reference name) with
      -- A name that does not resolve fails, but not for being entered again.
      | error error => exact ⟨1, by simp [escapesWithin, found]⟩
      | ok q =>
        cases behind with
        | reference own =>
          cases own.symm.trans (named found)
          obtain ⟨n, out⟩ := ih q rfl
          exact ⟨n + 1, by simpa [escapesWithin, found] using out⟩
    | anyOf alternatives =>
      cases behind with
      | anyOf mem =>
        rw [Pattern.oneOrMoreAll_eq] at mem
        obtain ⟨q, there, rfl⟩ := List.mem_map.mp mem
        obtain ⟨n, out⟩ := ih q rfl
        exact ⟨n + 1, List.any_eq_true.mpr ⟨q, there, out⟩⟩
    | _ => cases behind

theorem members_of_oneOrMore {f : Pattern → Value → Prop} {elements : List Pattern}
    {items : List Value}
    (fits : FitsMembers f (Members.ofElements (Pattern.oneOrMoreElements elements)) items) :
    FitsMembers (fun p u => f p.oneOrMore u) (Members.ofElements elements) items := by
  rcases ofElements_cases elements with ⟨init, inner, rfl⟩ | unrepeated
  · rw [ofElements_oneOrMore_repeated] at fits
    rw [ofElements_repeated]
    have length := fits.length
    rw [List.length_append, List.length_map] at length
    refine ⟨Nat.le_of_add_right_le length, fun i u found => ?_⟩
    obtain ⟨q, place, ok⟩ := fits.items i u found
    by_cases short : i < init.length
    · have own : (init.map Pattern.oneOrMore ++ [inner.oneOrMore])[i]? = some init[i].oneOrMore := by
        simp [List.getElem?_append, short]
      simp only [Members.at?, own, Option.some_or, Option.some.injEq] at place
      exact ⟨init[i], by simp [Members.at?, short], place ▸ ok⟩
    · have tail : q = inner.oneOrMore := by
        rcases Option.or_eq_some_iff.mp place with last | ⟨-, rest⟩
        · rw [List.getElem?_append_right (by simpa using short)] at last
          exact List.mem_singleton.mp (List.mem_of_getElem? last)
        · exact (Option.some.inj rest).symm
      exact ⟨inner, Members.at?_eq_tail (Nat.le_of_not_lt short), tail ▸ ok⟩
  · rw [ofElements_oneOrMore_fixed unrepeated] at fits
    rw [ofElements_fixed unrepeated]
    refine ⟨by simpa using fits.length, fun i u found => ?_⟩
    obtain ⟨q, place, ok⟩ := fits.items i u found
    simp only [Members.at?, Option.or_none, List.getElem?_map] at place ⊢
    obtain ⟨p, there, rfl⟩ := Option.map_eq_some_iff.mp place
    exact ⟨p, there, ok⟩

theorem accepts_of_oneOrMore (guarded : Guarded r.types)
    (named : ∀ {p q : Pattern}, r.resolve p = .ok q → s.resolve p.oneOrMore = .ok q.oneOrMore)
    (registered : Registered r.types p) (accepted : Accepts s p.oneOrMore v) : Accepts r p v := by
  induction weight : v.weight using Nat.strongRecOn generalizing s p v with
  | _ weight lighter =>
  subst weight
  have within {p q : Pattern} {u : Value} (registered : Registered r.types p) (part : Part p q)
      (light : u.weight < v.weight) (ok : Accepts s.tolerant q.oneOrMore u) : Accepts r q u :=
    lighter u.weight light (fun found => Resolver.resolve_tolerant (named found))
      (registered.of_reaches part.reaches) ok rfl
  refine Accepts.behind_induction (motive := fun o => ∀ p : Pattern, o = p.oneOrMore →
    Registered r.types p → Accepts r p v) accepted ?_ ?_ p rfl registered
  · rintro _ kind ok p rfl registered
    cases p with
    | string => exact accepts_string.mpr (accepts_string.mp ok)
    | number => exact accepts_number.mpr (accepts_number.mp ok)
    | boolean => exact accepts_boolean.mpr (accepts_boolean.mp ok)
    | null => exact accepts_null.mpr (accepts_null.mp ok)
    | url scheme => exact accepts_url.mpr (accepts_url.mp ok)
    | exact expected => exact accepts_exact.mpr (accepts_exact.mp ok)
    | repeated inner =>
      obtain ⟨items, rfl, none | fits⟩ := accepts_elements.mp ok
      · cases none
      · refine accepts_repeated.mpr ⟨items, rfl, fun u mem => ?_⟩
        obtain ⟨i, found⟩ := List.mem_iff_getElem?.mp mem
        have each : FitsMembers _ (Members.ofElements [.repeated inner]) items :=
          members_of_oneOrMore fits
        obtain ⟨q, place, taken⟩ := each.items i u found
        obtain rfl : inner = q := by simpa [Members.at?, Members.ofElements] using place
        exact within registered .inner (Value.Part.weight_lt (.item mem)) taken
    | object fields traits =>
      obtain ⟨actual, rfl, fits⟩ := accepts_fields.mp ok
      rw [Pattern.oneOrMoreFields_eq, fitsObject_mapValues] at fits
      refine (accepts_object guarded registered).mpr ⟨actual, rfl, ?_⟩
      exact fits.imp fun field mem u light taken => within registered (.field mem) light taken
    | array elements knownAs =>
      obtain ⟨items, rfl, none | fits⟩ := accepts_elements.mp ok
      · obtain rfl := Pattern.oneOrMoreElements_eq_nil.mp none
        exact accepts_elements.mpr ⟨items, rfl, .inl rfl⟩
      · refine (accepts_sequence guarded registered rfl).mpr ⟨items, rfl, .inr ?_⟩
        refine (members_of_oneOrMore fits).imp fun q i place u mem taken => ?_
        exact within registered (Members.at?_part place) (Value.Part.weight_lt (.item mem)) taken
    | reference | anyOf => cases kind
  · rintro _ o behind ok ih p rfl registered
    cases p with
    | reference name =>
      obtain ⟨q, chain, resolves⟩ := guarded.resolves_reference registered
      have found : r.resolve (.reference name) = .ok q := resolves r rfl
      cases behind with
      | reference own =>
        cases own.symm.trans (named found)
        have below := registered.of_reaches (.of_unfoldings chain.to_reflTransGen)
        exact (accepts_resolved found).mpr (ih q rfl below)
    | anyOf alternatives =>
      cases behind with
      | anyOf mem =>
        rw [Pattern.oneOrMoreAll_eq] at mem
        obtain ⟨q, there, rfl⟩ := List.mem_map.mp mem
        have below := registered.of_reaches (Unfolds.reaches (.anyOf there))
        exact (accepts_union guarded).mpr ⟨q, there, ih q rfl below⟩
    | _ => cases behind

theorem Resolver.oneOrMore_eq_self
    (restless : ∀ q ∈ Pattern.subpatternsFields r.types, q.isRepeated = false) : r.oneOrMore = r := by
  have each (type : String × Pattern) (mem : type ∈ r.types) : (type.1, type.2.oneOrMore) = type :=
    congrArg (type.1, ·) (type.2.oneOrMore_eq_self fun q inside =>
      restless q (Pattern.mem_subpatternsFields.mpr ⟨_, _, mem, inside⟩))
  rw [oneOrMore, Entries.mapValues, List.map_congr_left each, List.map_id']

theorem generate_spared (row : r.row = none) (accepted : Accepts r.oneOrMore p.oneOrMore v) :
    (p.generate r).Spared := by
  obtain ⟨n, escapes⟩ := exists_escapesWithin Resolver.resolve_oneOrMore accepted
  exact generateWithin_spared row escapes nofun

-- An item for each Rest is more than the pattern asks for.
theorem taken_and_spared_of_oneOrMore (guarded : Guarded r.types) (registered : Registered r.types p)
    (row : r.row = none) (taken : p.oneOrMore.check r.oneOrMore v = some .success) :
    p.check r v = some .success ∧ (p.generate r).Spared :=
  ⟨accepts_of_oneOrMore guarded Resolver.resolve_oneOrMore registered taken,
    generate_spared row taken⟩

variable {error : ContractError}

/-- Generation gives up only on types that take no value with an item for each Rest. -/
theorem endless_takes_none (row : r.row = none) (run : (p.generate r).RunsTo (.error error))
    (endless : error.isEndlessRecursion) (v : Value) :
    p.oneOrMore.check r.oneOrMore v ≠ some .success := by
  intro accepted
  exact Bool.eq_false_iff.mp ((generate_spared row accepted).of_runsTo run error rfl) endless

theorem endless_uninhabited (row : r.row = none) (run : (p.generate r).RunsTo (.error error))
    (endless : error.isEndlessRecursion)
    (restless : ∀ q ∈ reachable r.types p, q.isRepeated = false) (v : Value) :
    p.check r v ≠ some .success := by
  intro accepted
  have pattern : p.oneOrMore = p :=
    p.oneOrMore_eq_self fun q inside => restless q (List.mem_append_left _ inside)
  have resolver : r.oneOrMore = r :=
    Resolver.oneOrMore_eq_self fun q inside => restless q (List.mem_append_right _ inside)
  have filled : Accepts r.oneOrMore p.oneOrMore v := by rwa [pattern, resolver]
  exact Bool.eq_false_iff.mp ((generate_spared row filled).of_runsTo run error rfl) endless

def forest : Resolver :=
  { Resolver.empty with types := [
      ("Tree", .object [("label", .string), ("branches", .reference "Branches")]
        ⟨.reject, .json, some "Tree"⟩),
      ("Branches", .array [.repeated (.reference "Tree")] (some "Branches"))] }

theorem forest_endless : ∃ error, error.isEndlessRecursion ∧
    (Pattern.generate forest (.reference "Tree")).RunsTo (.error error) := by
  have drawn : (Pattern.generate forest (.reference "Tree")).results =
      [.error (.nested "branches" (.nested "[0]" (.endlessRecursion "Tree")))] := by rfl
  exact ⟨_, rfl, .of_results (drawn ▸ List.mem_singleton_self _)⟩

theorem forest_branched_none : ∃ error, forest.row = none ∧ error.isEndlessRecursion ∧
    (Pattern.generate forest (.reference "Tree")).RunsTo (.error error) ∧
      ∀ v, (Pattern.reference "Tree").oneOrMore.check forest.oneOrMore v ≠ some .success := by
  obtain ⟨error, endless, run⟩ := forest_endless
  exact ⟨error, rfl, endless, run, endless_takes_none rfl run endless⟩

def bareTree : Value :=
  .object [("label", .string "oak"), ("branches", .array [])]

/-- A tree without branches is a tree, though no tree can be generated. -/
theorem bareTree_missed : Guarded forest.types ∧ Registered forest.types (.reference "Tree") ∧
    (∀ alternatives, Reaches forest.types (.reference "Tree") (.anyOf alternatives) →
      alternatives ≠ []) ∧
    (∃ error, forest.row = none ∧ error.isEndlessRecursion ∧
      (Pattern.generate forest (.reference "Tree")).RunsTo (.error error)) ∧
    (Pattern.reference "Tree").check forest bareTree = some .success := by
  have fine : isTidyPattern 1 forest.types (.reference "Tree") &&
      (reachable forest.types (.reference "Tree")).all (!Pattern.same (.anyOf []) ·) &&
      decide ((Pattern.reference "Tree").check forest bareTree = some .success) := by decide +kernel
  simp only [Bool.and_eq_true, decide_eq_true_eq] at fine
  obtain ⟨⟨tidy, unions⟩, taken⟩ := fine
  obtain ⟨guarded, tidy⟩ := guarded_and_tidy tidy
  obtain ⟨error, endless, run⟩ := forest_endless
  refine ⟨guarded, tidy.registered, fun alternatives reach => ?_, ⟨error, rfl, endless, run⟩, taken⟩
  rintro rfl
  cases List.all_eq_true.mp unions _ reach.mem_reachable

end Taking

end ApiContract
