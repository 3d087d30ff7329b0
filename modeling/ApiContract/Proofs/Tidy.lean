import Mathlib.Data.List.Nodup
import ApiContract.Proofs.Covering
import ApiContract.Proofs.Written

set_option autoImplicit false

namespace ApiContract

namespace Pattern

def isTidy (types : Entries Pattern) : Pattern → Bool
  | .reference name => (registered? types name).any fun p => !p.isRepeated
  | .anyOf alternatives => alternatives.all fun p => !p.isRepeated
  | .object fields _ =>
      decide (fields.map fun field => bareName field.1).Nodup
        && fields.all fun field => !isOptional (bareName field.1)
  | _ => true

def isSharp : Pattern → Bool
  | .object _ traits => traits.unexpected = .reject
  | .array elements _ =>
      !(Members.ofElements elements).isEndless || (Members.ofElements elements).fixed.isEmpty
  | .exact value => value.integral
  | _ => true

end Pattern

/-- Keys that are told apart by their bare names, which bear no mark themselves. -/
structure BareKeys (fields : List (String × Pattern)) : Prop where
  distinct : (fields.map fun field => bareName field.1).Nodup
  unmarked : ∀ field ∈ fields, isOptional (bareName field.1) = false

theorem marked_bareName {key : String} (optional : isOptional key) : bareName key ++ "?" = key := by
  have last : key.toList.getLast? = some '?' := by simpa [isOptional] using optional
  apply String.toList_inj.mp
  simp [bareName, optional, String.toList_append, List.dropLast_append_getLast? _ last]

theorem isSome_field? {fields : List (String × Pattern)} {name : String} :
    (field? fields name).isSome =
      (Entries.contains fields name || Entries.contains fields (name ++ "?")) := by
  unfold field? Entries.contains
  cases Entries.get? fields name <;> simp

theorem field?_isSome_of_mem {fields : List (String × Pattern)} {field : String × Pattern}
    (mem : field ∈ fields) : (field? fields (bareName field.1)).isSome := by
  have own : Entries.contains fields field.1 := Entries.contains_of_mem (a := field.2) mem
  rw [isSome_field?, Bool.or_eq_true]
  cases optional : isOptional field.1 with
  | true => exact .inr (by rwa [marked_bareName optional])
  | false => exact .inl (by rwa [bareName_of_required optional])

theorem BareKeys.field?_of_mem {fields : List (String × Pattern)} (h : BareKeys fields)
    {key : String} {p : Pattern} (mem : (key, p) ∈ fields) :
    field? fields (bareName key) = some (key, p) := by
  obtain ⟨distinct, bare⟩ := h
  have keys : Entries.Distinct fields := by
    refine List.Nodup.of_map bareName ?_
    simpa [Entries.keys, Function.comp_def] using distinct
  have own : Entries.get? fields key = some p := Entries.get?_of_mem keys mem
  have required : isOptional (bareName key) = false := bare (key, p) mem
  cases optional : isOptional key with
  | false => rw [bareName_of_required optional, field?, own]
  | true =>
    have missing : Entries.get? fields (bareName key) = none := by
      cases found : Entries.get? fields (bareName key) with
      | none => rfl
      | some q =>
        have there : (bareName key, q) ∈ fields := Entries.mem_of_get? found
        have again : bareName (bareName key) = bareName key := bareName_of_required required
        have same := List.inj_on_of_nodup_map distinct there mem again
        have first : bareName key = key := congrArg Prod.fst same
        rw [first, optional] at required
        cases required
    rw [field?, missing, marked_bareName optional, own]
    rfl

def Tidy (types : Entries Pattern) (p : Pattern) : Prop :=
  ∀ q, Reaches types p q → q.isTidy types

def Sharp (types : Entries Pattern) (p : Pattern) : Prop :=
  ∀ q, Reaches types p q → q.isSharp

section Everywhere

variable {types : Entries Pattern} {p q : Pattern}

theorem BareKeys.of_isTidy {fields : List (String × Pattern)} {traits : ObjectTraits}
    (h : (Pattern.object fields traits).isTidy types) : BareKeys fields := by
  simp only [Pattern.isTidy, Bool.and_eq_true, decide_eq_true_eq, List.all_eq_true,
    Bool.not_eq_true'] at h
  exact ⟨h.1, h.2⟩

theorem Tidy.of_all (h : (reachable types p).all (Pattern.isTidy types)) : Tidy types p := by
  intro q reach
  exact List.all_eq_true.mp h q reach.mem_reachable

theorem Tidy.registered (h : Tidy types p) : Registered types p := by
  intro name met
  have named : (registered? types name).any fun p => !p.isRepeated := h _ met
  cases found : registered? types name with
  | none => simp [found] at named
  | some o => rfl

theorem Tidy.keys (h : Tidy types p) {fields : List (String × Pattern)} {traits : ObjectTraits}
    (reach : Reaches types p (.object fields traits)) : BareKeys fields :=
  .of_isTidy (h _ reach)

def isTidyPattern (n : Nat) (types : Entries Pattern) (p : Pattern) : Bool :=
  (types.all fun type => settlesWithin types n type.2)
    && (reachable types p).all (Pattern.isTidy types)

theorem guarded_and_tidy {n : Nat} (h : isTidyPattern n types p) : Guarded types ∧ Tidy types p := by
  obtain ⟨settles, tidy⟩ := Bool.and_eq_true_iff.mp h
  exact ⟨.of_settles n settles, .of_all tidy⟩

theorem Sharp.of_reaches (h : Sharp types p) (reach : Reaches types p q) : Sharp types q :=
  fun o more => h o (reach.trans more)

end Everywhere

theorem Arises.nullable {types : Entries Pattern} {alternatives : List Pattern}
    (h : Arises types (.anyOf alternatives)) :
    ∃ o, alternatives = [.null, o] ∧ o.isInline = false := by
  rcases h with written | ⟨name, o, written, same, -⟩
  · cases written with
    | anyOf _ token => exact ⟨_, rfl, token⟩
  · cases written with
    | anyOf _ token =>
      cases same
      exact ⟨_, rfl, token⟩
    | _ => cases same

theorem Arises.ordered {types : Entries Pattern} {elements : List Pattern} {knownAs : Option String}
    (h : Arises types (.array elements knownAs)) : ∀ p ∈ elements.dropLast, p.isRepeated = false := by
  rcases h with written | ⟨name, o, written, same, -⟩
  · cases written with
    | array _ ordered => exact ordered
  · cases written with
    | array _ ordered =>
      cases same
      exact ordered
    | _ => cases same

theorem Value.same_of_scalar {v : Value} (scalar : v.isScalar) : v.same v := by
  cases v with
  | number n =>
    cases n <;> simp [Value.same, Number.same, Number.toDouble?, Double.sameNumber]
  | object | array | xml => cases scalar
  | _ => simp [Value.same]

theorem Arises.scalar {types : Entries Pattern} {value : Value}
    (h : Arises types (.exact value)) : value.isScalar := by
  rcases h with written | ⟨name, o, written, same, -⟩
  · cases written with
    | exact scalar => exact scalar
  · cases written with
    | exact scalar =>
      cases same
      exact scalar
    | _ => cases same

structure Regular (types : Entries Pattern) (p : Pattern) : Prop where
  arises : ∀ q, Reaches types p q → Arises types q
  tidy : Tidy types p

namespace Regular

variable {types : Entries Pattern} {p q : Pattern}

theorem of_written (registry : WrittenTypes types) (written : Written p) (tidy : Tidy types p) :
    Regular types p where
  arises _ reach := Arises.of_reaches registry (.inl written) reach
  tidy := tidy

theorem nullable {alternatives : List Pattern} (h : Regular types (.anyOf alternatives)) :
    ∃ o, alternatives = [.null, o] ∧ o.isInline = false :=
  (h.arises _ (Reaches.refl _)).nullable

theorem bare {fields : List (String × Pattern)} {traits : ObjectTraits}
    (h : Regular types (.object fields traits)) : BareKeys fields :=
  h.tidy.keys (Reaches.refl _)

variable (h : Regular types p)
include h

theorem of_reaches (reach : Reaches types p q) : Regular types q where
  arises o more := h.arises o (reach.trans more)
  tidy o more := h.tidy o (reach.trans more)

theorem unfold (step : Unfolds types p q) : Regular types q :=
  h.of_reaches step.reaches

theorem part (step : Part p q) : Regular types q :=
  h.of_reaches step.reaches

theorem registered : Registered types p :=
  h.tidy.registered

theorem not_repeated (step : Unfolds types p q) : q.isRepeated = false := by
  have own := h.tidy p (Reaches.refl p)
  cases step with
  | reference named => simpa [Pattern.isTidy, named] using own
  | anyOf mem =>
    simp only [Pattern.isTidy, List.all_eq_true] at own
    simpa using own q mem

end Regular

structure Decisive (types : Entries Pattern) (p : Pattern) : Prop where
  regular : Regular types p
  sharp : Sharp types p

namespace Decisive

variable {types : Entries Pattern} {p q : Pattern} (h : Decisive types p)
include h

theorem of_reaches (reach : Reaches types p q) : Decisive types q where
  regular := h.regular.of_reaches reach
  sharp := h.sharp.of_reaches reach

theorem wide : Wide types p where
  registered := h.regular.registered
  aliases q _ reach := (h.regular.arises q reach).alias
  keys _ _ reach := (h.regular.of_reaches reach).bare.unmarked
  rest elements knownAs reach endless := by
    have own := h.sharp _ reach
    simpa [Pattern.isSharp, endless] using own
  literals _ reach := h.sharp _ reach

theorem narrow : Narrow types p where
  registered := h.regular.registered
  aliases q _ reach := (h.regular.arises q reach).alias
  strict fields traits reach := by
    have own := h.sharp _ reach
    simpa [Pattern.isSharp] using own
  literals _ reach := h.sharp _ reach

end Decisive

end ApiContract
