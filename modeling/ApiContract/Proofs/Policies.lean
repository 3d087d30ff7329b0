import Mathlib.Data.List.Flatten
import ApiContract.Proofs.Counting
import ApiContract.Proofs.Coverage

set_option autoImplicit false

namespace ApiContract

section Policyless

variable {r these those : Resolver} {policy : KeyCombinations} {fuel : Nat}

@[simp] theorem Resolver.resolve_withCombinations (p : Pattern) :
    (r.withCombinations policy).resolve p = r.resolve p :=
  Resolver.resolve_congr (show (r.withCombinations policy).types = r.types from rfl) rfl p

@[simp] theorem Resolver.tolerant_withCombinations :
    (r.withCombinations policy).tolerant = r.tolerant.withCombinations policy :=
  rfl

theorem checkWithin_withCombinations :
    Pattern.checkWithin fuel (r.withCombinations policy) = Pattern.checkWithin fuel r := by
  induction fuel generalizing r with
  | zero => rfl
  | succ fuel ih =>
    funext p v
    cases p <;> simp only [Pattern.checkWithin, Pattern.checkStep,
      Resolver.resolve_withCombinations, Resolver.tolerant_withCombinations, ih]

@[simp] theorem check_withCombinations :
    Pattern.check (r.withCombinations policy) = Pattern.check r := by
  funext p v
  rw [Pattern.check, checkWithin_withCombinations]
  rfl

@[simp] theorem parse_withCombinations :
    Pattern.parse (r.withCombinations policy) = Pattern.parse r := by
  have within (fuel : Nat) :
      Pattern.parseWithin fuel (r.withCombinations policy) = Pattern.parseWithin fuel r := by
    induction fuel with
    | zero => rfl
    | succ fuel ih =>
      funext p text
      cases p <;> simp only [Pattern.parseWithin, Resolver.resolve_withCombinations, ih]
  funext p text
  rw [Pattern.parse, within]
  rfl

theorem compareWithin_withCombinations :
    Pattern.compareWithin fuel (these.withCombinations policy) (those.withCombinations policy) =
      Pattern.compareWithin fuel these those := by
  induction fuel generalizing these those with
  | zero => rfl
  | succ fuel ih =>
    funext p q
    simp only [Pattern.compareWithin, Pattern.compareStep, compareResolved,
      Resolver.resolve_withCombinations, Resolver.tolerant_withCombinations, ih,
      check_withCombinations]

@[simp] theorem encompasses_withCombinations :
    Pattern.encompasses (these.withCombinations policy) (those.withCombinations policy) =
      Pattern.encompasses these those := by
  funext p q
  rw [Pattern.encompasses, Pattern.encompassesFrom, compareWithin_withCombinations]
  rfl

end Policyless

section Scalars

variable {r : Resolver} {p : Pattern}

theorem allScalar_isSome {scalar : Pattern → Option Bool} {alternatives : List Pattern}
    (h : ∀ q ∈ alternatives, (scalar q).isSome) : (allScalar scalar alternatives).isSome := by
  induction alternatives with
  | nil => rfl
  | cons q rest ih =>
    obtain ⟨first, later⟩ := List.forall_mem_cons.mp h
    obtain ⟨answer, same⟩ := Option.isSome_iff_exists.mp first
    cases answer with
    | true => simpa [allScalar, same] using ih later
    | false => simp [allScalar, same]

theorem isScalarWithin_isSome {n : Nat} (settles : settlesWithin r.types n p) :
    (p.isScalarWithin (n + 1) r).isSome := by
  induction n generalizing p with
  | zero => cases settles
  | succ n ih =>
    have next {q : Pattern} (behind : Behind r p q) : (q.isScalarWithin (n + 1) r).isSome := by
      rcases behind.unfolds with rfl | chain
      · rfl
      · exact ih (settlesWithin_of_unfoldings settles chain)
    cases p with
    | reference name =>
      rw [Pattern.isScalarWithin]
      cases found : r.resolve (.reference name) with
      | ok q => exact next (.reference found)
      | error => rfl
    | anyOf alternatives => exact allScalar_isSome fun q mem => next (.anyOf mem)
    | _ => rfl

theorem isScalar_isSome (guarded : Guarded r.types) (p : Pattern) : (p.isScalar r).isSome :=
  isScalarWithin_isSome (settlesWithin_mono (guarded.settles p) (Nat.le_succ _))

end Scalars

namespace Attempt

variable {α β γ δ : Type} {R : α → β → Prop} {S : γ → δ → Prop}

inductive Agree (R : α → β → Prop) : Attempt α → Attempt β → Prop
  | unending : Agree R unending unending
  | failed (e : ContractError) : Agree R (throw e) (throw e)
  | done {a : α} {b : β} (related : R a b) : Agree R (pure a) (pure b)

theorem agree_self {R : α → α → Prop} (x : Attempt α) (related : ∀ a, x = pure a → R a a) :
    Agree R x x := by
  rcases (x : Option (Contractual α)) with _ | e | a
  · exact .unending
  · exact .failed e
  · exact .done (related a rfl)

theorem Agree.bind {x : Attempt α} {y : Attempt β} {f : α → Attempt γ} {g : β → Attempt δ}
    (first : Agree R x y) (next : ∀ a b, R a b → Agree S (f a) (g b)) :
    Agree S (x >>= f) (y >>= g) := by
  cases first with
  | unending => exact .unending
  | failed e => exact .failed e
  | done related => exact next _ _ related

theorem Agree.bind_self {x : Attempt α} {f : α → Attempt γ} {g : α → Attempt δ}
    (next : ∀ a, x = pure a → Agree S (f a) (g a)) : Agree S (x >>= f) (x >>= g) :=
  (agree_self (R := fun a b => x = pure a ∧ a = b) x fun _ same => ⟨same, rfl⟩).bind
    fun _ _ ⟨same, equal⟩ => equal ▸ next _ same

theorem Agree.under {crumb : String} {x : Attempt α} {y : Attempt β} (h : Agree R x y) :
    Agree R (Attempt.under crumb x) (Attempt.under crumb y) := by
  cases h with
  | unending => exact .unending
  | failed e => exact .failed _
  | done related => exact .done related

theorem Agree.mapM {f : γ → Attempt α} {g : γ → Attempt β} {l : List γ}
    (h : ∀ c ∈ l, Agree R (f c) (g c)) : Agree (List.Forall₂ R) (l.mapM f) (l.mapM g) := by
  induction l with
  | nil => exact .done .nil
  | cons c rest ih =>
    obtain ⟨first, later⟩ := List.forall_mem_cons.mp h
    rw [List.mapM_cons, List.mapM_cons]
    exact first.bind fun _ _ related => (ih later).bind fun _ _ more => .done (.cons related more)

end Attempt

section Products

variable {α : Type} {variants others : List Pattern}

theorem combinations_sublist {blocks blocks' : List (List α)}
    (h : List.Forall₂ List.Sublist blocks blocks') :
    (combinations blocks).Sublist (combinations blocks') := by
  induction h with
  | nil => exact .refl _
  | cons first _ ih => exact (first.flatMap _).trans (.flatMap_right _ fun a _ => ih.map _)

theorem distinctVariants_null (apart : Apart variants) :
    distinctVariants (.null :: variants) = .null :: variants.filter fun x => !x.isNull := by
  induction variants using List.reverseRecOn with
  | nil => rfl
  | append_singleton variants x ih =>
    obtain ⟨before, -, fresh⟩ := List.pairwise_append.mp apart
    have own : Pattern.null.same x = x.isNull := by cases x <;> rfl
    have kept : ((variants.filter fun y => !y.isNull).any fun y => y.same x) = false := by
      refine List.any_eq_false.mpr fun y mem => ?_
      exact fresh y (List.mem_filter.mp mem).1 x (List.mem_singleton_self x)
    rw [← List.cons_append, distinctVariants_concat, ih before, List.any_cons, own, kept,
      Bool.or_false, List.filter_append]
    cases null : x.isNull <;> simp [null]

end Products

section Levels

variable {r : Resolver} {row : Row} {entered entered' : List String} {p q o : Pattern}
  {fields : List (String × Pattern)} {traits : ObjectTraits} {field : String × Pattern}
  {variants others : List Pattern} {fuel : Nat}

theorem keyChoices_agree (guarded : Guarded r.types) (fewer : others.Sublist variants) :
    Attempt.Agree List.Sublist
      (keyChoices (r.withCombinations .compositeOnly) row field others)
      (keyChoices (r.withCombinations .exhaustive) row field variants) := by
  have included : (others.map fun y => some (bareName field.1, y)).Sublist
      (variants.map fun y => some (bareName field.1, y)) := fewer.map _
  obtain ⟨scalar, known⟩ := Option.isSome_iff_exists.mp
    (isScalar_isSome (r := r.withCombinations .compositeOnly) guarded field.2)
  unfold keyChoices
  dsimp only
  split
  · exact .done included
  · show Attempt.Agree _ (Attempt.ofOption _ >>= _) _
    rw [known]
    cases scalar with
    | true => exact .done (.cons_cons _ (List.nil_sublist _))
    | false => exact .done (.cons_cons _ included)

theorem fieldVariants_agree {f g : Pattern → Attempt (List Pattern)} (mem : field ∈ fields)
    (below : ∀ q, Opens r row entered (.object fields traits) entered q →
      Attempt.Agree List.Sublist (f q) (g q)) :
    Attempt.Agree List.Sublist
      (fieldVariants f (r.withCombinations .compositeOnly) row field)
      (fieldVariants g (r.withCombinations .exhaustive) row field) := by
  unfold fieldVariants
  split
  · next cell given =>
    simp only [cellVariants, tokenVariants, literalVariant, Resolver.tolerant_withCombinations,
      encompasses_withCombinations, check_withCombinations, parse_withCombinations]
    split
    · next text =>
      refine .bind_self fun token known => .bind_self fun verdict _ => ?_
      have read := read_eq_of_known.mp known
      cases verdict with
      | success => exact (below token (.token mem given text read)).under
      | failure => exact .failed _
    · exact Attempt.agree_self _ fun _ _ => .refl _
  · next free => exact (below field.2 (.field mem free)).under

theorem elementChoices_agree {f g : Pattern → Attempt (List Pattern)} {elements : List Pattern}
    {i : Nat} (below : ∀ q ∈ elements, Attempt.Agree List.Sublist (f q) (g q)) :
    Attempt.Agree (List.Forall₂ List.Sublist) (elementChoices f i elements)
      (elementChoices g i elements) := by
  induction elements generalizing i with
  | nil => exact .done .nil
  | cons q rest ih =>
    obtain ⟨first, later⟩ := List.forall_mem_cons.mp below
    exact first.under.bind fun _ _ fewer => (ih later).bind fun _ _ more => .done (.cons fewer more)

theorem expandStep_agree {f g : List String → Pattern → Attempt (List Pattern)}
    (guarded : Guarded r.types) (single : ∀ alternatives, p ≠ .anyOf alternatives)
    (below : ∀ entered' q, Opens r row entered p entered' q →
      Attempt.Agree List.Sublist (f entered' q) (g entered' q)) :
    Attempt.Agree List.Sublist
      (p.expandStep f (r.withCombinations .compositeOnly) row entered)
      (p.expandStep g (r.withCombinations .exhaustive) row entered) := by
  cases p with
  | repeated inner => exact (below entered inner .inner).bind fun _ _ fewer => .done (fewer.map _)
  | reference name =>
    simp only [Pattern.expandStep, Resolver.resolve_withCombinations]
    split
    · exact .done (.refl _)
    · next new =>
      exact .bind_self fun q found =>
        below _ q (.reference new (Attempt.ofContractual_eq_pure.mp found))
  | anyOf alternatives => exact (single _ rfl).elim
  | object fields traits =>
    refine Attempt.Agree.bind (.mapM fun field mem => ?_) fun _ _ fewer =>
      .done ((combinations_sublist fewer).map _)
    rw [fieldChoices_eq, fieldChoices_eq]
    exact (fieldVariants_agree mem (below entered)).bind fun _ _ => keyChoices_agree guarded
  | array elements knownAs =>
    exact (elementChoices_agree fun q mem => below entered q (.element mem)).bind fun _ _ fewer =>
      .done ((combinations_sublist fewer).map _)
  | _ => exact .done (.refl _)

theorem union_agree (inner : Attempt.Agree List.Sublist
      (o.expandWithin fuel (r.withCombinations .compositeOnly) row entered)
      (o.expandWithin fuel (r.withCombinations .exhaustive) row entered))
    (apart : ∀ variants, o.expandWithin fuel (r.withCombinations .exhaustive) row entered =
      pure variants → Apart variants) :
    Attempt.Agree List.Sublist
      ((Pattern.anyOf [.null, o]).expandWithin (fuel + 1) (r.withCombinations .compositeOnly) row
        entered)
      ((Pattern.anyOf [.null, o]).expandWithin (fuel + 1) (r.withCombinations .exhaustive) row
        entered) := by
  rw [expandWithin_union_null, expandWithin_union_null]
  generalize o.expandWithin fuel (r.withCombinations .compositeOnly) row entered = some_ at inner
  generalize o.expandWithin fuel (r.withCombinations .exhaustive) row entered = all at inner apart
  cases inner with
  | unending => exact .unending
  | failed e => exact .failed e
  | done fewer =>
    -- The variants of `o` are apart, so the union drops null alone on either side.
    have own := apart _ rfl
    refine .done ?_
    rw [distinctVariants_null own, distinctVariants_null (own.sublist fewer)]
    exact .cons_cons _ (fewer.filter _)

theorem Arises.opens (registry : WrittenTypes r.types) (arises : Arises r.types p)
    (opens : Opens r row entered p entered' q) : Arises r.types q := by
  rcases opens.leads with reach | rfl | ⟨_, _, _, _, read⟩
  · exact arises.of_reaches registry reach
  · exact .inl .null
  · exact .inl (written_read read)

theorem expandWithin_agree (guarded : Guarded r.types) (registry : WrittenTypes r.types)
    (rows : NamedRow r.types row) (arises : Arises r.types p) (named : Named r.types p) :
    Attempt.Agree List.Sublist
      (p.expandWithin fuel (r.withCombinations .compositeOnly) row entered)
      (p.expandWithin fuel (r.withCombinations .exhaustive) row entered) := by
  induction fuel generalizing entered p with
  | zero => exact .unending
  | succ fuel ih =>
    have below {entered' : List String} {q : Pattern} (opens : Opens r row entered p entered' q) :
        Attempt.Agree List.Sublist
          (q.expandWithin fuel (r.withCombinations .compositeOnly) row entered')
          (q.expandWithin fuel (r.withCombinations .exhaustive) row entered') :=
      ih (arises.opens registry opens) (named.opens rows opens)
    -- A union in a document is one of null and a pattern.
    by_cases union : ∃ alternatives, p = .anyOf alternatives
    · obtain ⟨alternatives, rfl⟩ := union
      obtain ⟨o, rfl, -⟩ := arises.nullable
      have opens : Opens r row entered (.anyOf [.null, o]) entered o := .anyOf (by simp)
      exact union_agree (below opens) fun variants =>
        expandWithin_apart rows (named.opens rows opens)
    · exact expandStep_agree guarded (fun alternatives same => union ⟨alternatives, same⟩)
        fun _ _ => below

end Levels

section Documents

variable {r : Resolver} {row : Row} {p : Pattern}

theorem namedRow_of_types (named : ∀ type ∈ r.types, Named r.types type.2) :
    NamedRow r.types row := by
  intro key cell token given text read fields traits reach
  rcases reach.inside_or_named with inside | ⟨type, mem, more⟩
  · cases flat_of_tokenText text read _ inside
  · exact named type mem fields traits more

theorem compositeOnly_drops {json : Json} (documented : Documented r.types)
    (guarded : Guarded r.types) (named : ∀ type ∈ r.types, Named r.types type.2)
    (read : Pattern.ofJson json = .ok p) (own : Named r.types p) :
    (∀ e, p.expand (r.withCombinations .compositeOnly) row = throw e ↔
      p.expand (r.withCombinations .exhaustive) row = throw e) ∧
    (∀ variants, p.expand (r.withCombinations .exhaustive) row = pure variants →
      ∃ kept, p.expand (r.withCombinations .compositeOnly) row = pure kept ∧
        kept.Sublist variants) ∧
    ∀ kept, p.expand (r.withCombinations .compositeOnly) row = pure kept →
      ∃ variants, p.expand (r.withCombinations .exhaustive) row = pure variants ∧
        kept.Sublist variants := by
  have agree : Attempt.Agree List.Sublist (p.expand (r.withCombinations .compositeOnly) row)
      (p.expand (r.withCombinations .exhaustive) row) :=
    expandWithin_agree guarded documented.written (namedRow_of_types named)
      (.inl (written_ofJson read)) own
  generalize p.expand (r.withCombinations .compositeOnly) row = some_ at agree ⊢
  generalize p.expand (r.withCombinations .exhaustive) row = all at agree ⊢
  cases agree with
  | unending => exact ⟨fun e => ⟨nofun, nofun⟩, nofun, nofun⟩
  | failed e => exact ⟨fun _ => Iff.rfl, nofun, nofun⟩
  | done fewer =>
    refine ⟨fun e => ⟨nofun, nofun⟩, fun variants same => ?_, fun kept same => ?_⟩
    · obtain rfl := Attempt.pure_inj.mp same
      exact ⟨_, rfl, fewer⟩
    · obtain rfl := Attempt.pure_inj.mp same
      exact ⟨_, rfl, fewer⟩

theorem named_of_all (h : (reachable r.types p).all (Pattern.isTidy r.types)) :
    Named r.types p ∧ ∀ type ∈ r.types, Named r.types type.2 := by
  have here (fields : List (String × Pattern)) (traits : ObjectTraits)
      (mem : .object fields traits ∈ reachable r.types p) :
      (fields.map fun field => bareName field.1).Nodup :=
    (BareKeys.of_isTidy (List.all_eq_true.mp h _ mem)).distinct
  exact ⟨fun fields traits reach => here fields traits reach.mem_reachable,
    fun type mem fields traits reach => here fields traits (mem_reachable_of_type p mem reach)⟩

end Documents

def basketText : String :=
  "[\"\",\x7b\"Price\":\x7b\"amount\":\"(number)\",\"note?\":\"(string?)\"\x7d,"
    ++ "\"Basket\":\x7b\"name?\":\"(string)\",\"price?\":\"(Price)\",\"more?\":\"(Basket?)\"\x7d\x7d,"
    ++ "\x7b\x7d,[[\"\",[],[\"PUT\",\"/\",\x7b\x7d,\x7b\x7d,\"(Basket)\"],[200]]]]"

def baskets : Resolver :=
  (featureOf basketText).resolver

def basketRow : Row := [("amount", "7")]

theorem basket_variants_dropped : ∃ kept variants,
    (patternOf (.string "(Basket)")).expand (baskets.withCombinations .compositeOnly) basketRow =
        pure kept ∧
      (patternOf (.string "(Basket)")).expand (baskets.withCombinations .exhaustive) basketRow =
        pure variants ∧ kept.length = 6 ∧ variants.length = 24 ∧ kept.Sublist variants := by
  have fine : (Pattern.ofJson (.string "(Basket)")).isOk &&
      !(featureOf basketText).active.isEmpty &&
      (baskets.types.all fun type => settlesWithin baskets.types 2 type.2) &&
      (reachable baskets.types (patternOf (.string "(Basket)"))).all (Pattern.isTidy baskets.types) &&
      decide ((variantsOf (baskets.withCombinations .compositeOnly) basketRow
        (patternOf (.string "(Basket)"))).length = 6) &&
      decide ((variantsOf (baskets.withCombinations .exhaustive) basketRow
        (patternOf (.string "(Basket)"))).length = 24) := by
    decide +kernel
  simp only [Bool.and_eq_true, Bool.not_eq_true', List.isEmpty_eq_false_iff, decide_eq_true_eq]
    at fine
  obtain ⟨⟨⟨⟨⟨read, active⟩, settles⟩, tidy⟩, few⟩, many⟩ := fine
  have documented : Documented baskets.types := by
    rw [baskets]
    exact documented_feature (read_featureOf active)
  have guarded : Guarded baskets.types := .of_settles 2 settles
  obtain ⟨own, named⟩ := named_of_all tidy
  have all := expand_variantsOf (List.ne_nil_of_length_eq_add_one many)
  obtain ⟨kept, expansion, fewer⟩ :=
    (compositeOnly_drops documented guarded named (ofJson_patternOf read) own).2.1 _ all
  rw [variantsOf_of_expand expansion] at few
  exact ⟨kept, _, expansion, all, few, many, fewer⟩

end ApiContract
