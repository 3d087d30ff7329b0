import ApiContract.Pattern.Parsing
import ApiContract.Proofs.Variants

set_option autoImplicit false

/-!
Checks and readings depend on no bound, whatever the registry. A value is checked against finitely
many patterns as long as no step is taken into it, so allowing one level more either gives one of
them a verdict or changes nothing any more.
-/
namespace ApiContract

section Stability

variable {α β : Type} {items : List α} {f : Nat → α → Option β}

theorem countP_lt_of_new {p q : α → Bool} {a : α} (grows : ∀ b ∈ items, p b → q b)
    (mem : a ∈ items) (old : p a = false) (new : q a) : items.countP p < items.countP q := by
  obtain ⟨before, after, rfl⟩ := List.append_of_mem mem
  have front : before.countP p ≤ before.countP q :=
    List.countP_mono_left fun b hb => grows b (by simp [hb])
  have back : after.countP p ≤ after.countP q :=
    List.countP_mono_left fun b hb => grows b (by simp [hb])
  rw [List.countP_append, List.countP_append, List.countP_cons_of_pos new,
    List.countP_cons_of_neg (by simp [old])]
  omega

theorem rests_or_finds {n : Nat} (grows : ∀ a ∈ items, Refines (f n a) (f (n + 1) a)) :
    (∀ a ∈ items, f (n + 1) a = f n a) ∨
      items.countP (fun a => (f n a).isSome) < items.countP fun a => (f (n + 1) a).isSome := by
  by_cases same : ∀ a ∈ items, f (n + 1) a = f n a
  · exact .inl same
  · simp only [not_forall] at same
    obtain ⟨a, mem, change⟩ := same
    have old : f n a = none := by
      cases found : f n a with
      | none => rfl
      | some outcome => exact absurd ((grows a mem outcome found).trans found.symm) change
    refine .inr (countP_lt_of_new (fun b hb done => ?_) mem (by simp [old]) ?_)
    · obtain ⟨outcome, found⟩ := Option.isSome_iff_exists.mp done
      exact Option.isSome_iff_exists.mpr ⟨outcome, grows b hb outcome found⟩
    · rw [old] at change
      exact Option.isSome_iff_ne_none.mpr change

theorem rests_of_length_le (grows : ∀ n, ∀ a ∈ items, Refines (f n a) (f (n + 1) a))
    (rests : ∀ n, (∀ a ∈ items, f (n + 1) a = f n a) →
      ∀ a ∈ items, f (n + 2) a = f (n + 1) a) {n : Nat} (enough : items.length ≤ n) :
    ∀ a ∈ items, f (n + 1) a = f n a := by
  have counted (n : Nat) : (∀ a ∈ items, f (n + 1) a = f n a) ∨
      n < items.countP fun a => (f (n + 1) a).isSome := by
    induction n with
    | zero => exact (rests_or_finds (grows 0)).imp_right Nat.zero_lt_of_lt
    | succ n ih =>
      rcases ih with same | many
      · exact .inl (rests n same)
      · exact (rests_or_finds (grows (n + 1))).imp_right fun more => by omega
  refine (counted n).resolve_right fun many => ?_
  have := List.countP_le_length (p := fun a => (f (n + 1) a).isSome) (l := items)
  omega

end Stability

section Steps

variable {r : Resolver} {p q : Pattern} {v : Value} {n m : Nat}

inductive Behind (r : Resolver) : Pattern → Pattern → Prop
  | reference {name : String} {p : Pattern} (found : r.resolve (.reference name) = .ok p) :
      Behind r (.reference name) p
  | anyOf {alternatives : List Pattern} {p : Pattern} (mem : p ∈ alternatives) :
      Behind r (.anyOf alternatives) p

def Pattern.isOutright : Pattern → Bool
  | .reference _ | .anyOf _ => false
  | _ => true

def met (types : Entries Pattern) (p : Pattern) : List Pattern :=
  .null :: reachable types p

theorem length_met (types : Entries Pattern) (p : Pattern) :
    (met types p).length = p.size + Pattern.sizeFields types + 1 := by
  rw [met, List.length_cons, length_reachable]

theorem met_self (types : Entries Pattern) (p : Pattern) : p ∈ met types p :=
  List.mem_cons_of_mem _ (Reaches.refl p).mem_reachable

theorem met_part {types : Entries Pattern} {o : Pattern} (mem : q ∈ met types p) (part : Part q o) :
    o ∈ met types p := by
  rcases List.mem_cons.mp mem with rfl | inside
  · cases part
  · exact List.mem_cons_of_mem _ (reachable_trans inside part.reaches)

theorem met_behind {o : Pattern} (mem : q ∈ met r.types p) (behind : Behind r q o) :
    o ∈ met r.types p := by
  rcases List.mem_cons.mp mem with rfl | inside
  · cases behind
  · cases behind with
    | reference found =>
      rcases Resolver.unfoldings_of_resolve found with rfl | chain
      · exact List.mem_cons_self
      · exact List.mem_cons_of_mem _ (reachable_trans inside (.of_unfoldings chain))
    | anyOf mem =>
      exact List.mem_cons_of_mem _ (reachable_trans inside (Unfolds.reaches (.anyOf mem)))

theorem Simulation.checkSame {f g : Resolver → Pattern → Value → Option Verdict}
    (sim : Simulation Option Option) (here : ∀ q, Behind r p q → sim.rel (f r q v) (g r q v))
    (parts : ∀ q u, Part p q → u.weight < v.weight →
      sim.rel (f r q u) (g r q u) ∧ sim.rel (f r.tolerant q u) (g r.tolerant q u)) :
    sim.rel (Pattern.checkStep f r p v) (Pattern.checkStep g r p v) := by
  cases p with
  | string | number | boolean => cases v <;> exact sim.rel_pure _
  | null =>
    simp only [Pattern.checkStep]
    split <;> exact sim.rel_pure _
  | url scheme => exact sim.rel_pure _
  | exact expected =>
    simp only [Pattern.checkStep]
    split <;> exact sim.rel_pure _
  | repeated inner =>
    cases v with
    | array items =>
      exact sim.everyItem fun u mem => (parts inner u .inner (Value.Part.weight_lt (.item mem))).1
    | _ => exact sim.rel_pure _
  | reference name =>
    simp only [Pattern.checkStep]
    split
    · next q found => exact here q (.reference found)
    · exact sim.rel_pure _
  | anyOf alternatives =>
    have related : sim.rel (Verdict.refusals (fun q => f r q v) alternatives)
        (Verdict.refusals (fun q => g r q v) alternatives) :=
      sim.refusals fun q mem => here q (.anyOf mem)
    refine sim.rel_bind related fun failures => ?_
    cases failures with
    | none => exact sim.rel_pure _
    | some failures =>
      cases only : onlyRefusal? alternatives failures <;> simpa only [only] using sim.rel_pure _
  | object fields traits =>
    exact sim.matchObject fun field mem u lighter => (parts field.2 u (.field mem) lighter).2
  | array elements knownAs =>
    exact sim.matchArray fun q u part lighter => (parts q u part lighter).2

end Steps

namespace Pattern

variable {r s : Resolver} {p q : Pattern} {v : Value} {n m : Nat}

theorem checkWithin_refines (h : n ≤ m) : Refines (checkWithin n r p v) (checkWithin m r p v) := by
  induction n generalizing m r p v with
  | zero => exact Refines.none _
  | succ n ih =>
    obtain ⟨m, rfl⟩ : ∃ k, m = k + 1 := ⟨m - 1, by omega⟩
    apply Refines.simulation.checkSame
    · exact fun q _ => ih (by omega)
    · exact fun q u _ _ => ⟨ih (by omega), ih (by omega)⟩

theorem checkWithin_rests {types : Entries Pattern} (weight : Nat) :
    ∀ (v : Value) (r : Resolver) (n : Nat), v.weight = weight → r.types = types →
      (met types p).length * (weight + 1) ≤ n →
      ∀ q ∈ met types p, checkWithin (n + 1) r q v = checkWithin n r q v := by
  induction weight using Nat.strongRecOn with
  | _ weight lighter =>
  intro v r n hv hr enough
  obtain ⟨k, rfl⟩ : ∃ k, n = (met types p).length * weight + k := Nat.exists_eq_add_of_le <|
    Nat.le_trans (Nat.mul_le_mul_left _ (Nat.le_succ weight)) enough
  refine rests_of_length_le (f := fun k q => checkWithin ((met types p).length * weight + k) r q v)
    (fun k q _ => checkWithin_refines (by omega)) (fun k same q mem => ?_) ?_
  · refine agreement.checkSame (fun o behind => same o (hr ▸ met_behind (hr.symm ▸ mem) behind)) ?_
    intro o u part light
    have inside := met_part mem part
    have room : (met types p).length * (u.weight + 1) ≤ (met types p).length * weight + k :=
      Nat.le_add_right_of_le (Nat.mul_le_mul_left _ (by omega))
    exact ⟨lighter u.weight (by omega) u r _ rfl hr room o inside,
      lighter u.weight (by omega) u r.tolerant _ rfl hr room o inside⟩
  · rw [Nat.mul_succ] at enough
    omega

theorem length_met_le (r : Resolver) (p : Pattern) (v : Value) :
    (met r.types p).length * (v.weight + 1) ≤ checkBound r p v := by
  rw [length_met, checkBound]
  have := v.weight_le_depth
  have rounds : p.size + sizeFields r.types + 1 ≤ 2 * (p.size + r.size + 2) := by
    rw [Resolver.size]
    omega
  exact Nat.mul_le_mul rounds (by omega)

theorem checkWithin_eq (enough : (met r.types p).length * (v.weight + 1) ≤ n) (h : n ≤ m)
    (mem : q ∈ met r.types p) : checkWithin m r q v = checkWithin n r q v := by
  induction h with
  | refl => rfl
  | @step m h ih =>
    rw [checkWithin_rests v.weight v r m rfl rfl (Nat.le_trans enough h) q mem, ih]

theorem check_of_met (enough : (met r.types p).length * (v.weight + 1) ≤ n)
    (mem : q ∈ met r.types p) : check r q v = checkWithin n r q v := by
  have own : checkWithin (max n (checkBound r q v)) r q v = check r q v :=
    checkWithin_eq (length_met_le r q v) (Nat.le_max_right _ _) (met_self r.types q)
  rw [← own]
  exact checkWithin_eq enough (Nat.le_max_left _ _) mem

theorem checkWithin_refines_check : Refines (checkWithin n r p v) (check r p v) := by
  rw [check_of_met (Nat.le_max_right n _) (met_self r.types p)]
  exact checkWithin_refines (Nat.le_max_left n _)

theorem check_eq_step : check r p v = checkStep check r p v := by
  have enough := Nat.le_refl ((met r.types p).length * (v.weight + 1))
  rw [check_of_met (Nat.le_succ_of_le enough) (met_self r.types p)]
  apply agreement.checkSame
  · exact fun q behind => (check_of_met enough (met_behind (met_self _ _) behind)).symm
  · intro q u part lighter
    have mem := met_part (met_self r.types p) part
    have room := Nat.le_trans (Nat.mul_le_mul_left (met r.types p).length
      (show u.weight + 1 ≤ v.weight + 1 by omega)) enough
    exact ⟨(check_of_met room mem).symm, (@check_of_met r.tolerant p q u _ room mem).symm⟩

end Pattern

section Readings

variable {r : Resolver} {p q : Pattern} {text : String} {n m : Nat}

theorem Simulation.firstReading {f g : Pattern → Option (Contractual Value)}
    (sim : Simulation Option Option) {alternatives : List Pattern}
    (h : ∀ q ∈ alternatives, sim.rel (f q) (g q)) :
    sim.rel (firstReading f alternatives) (firstReading g alternatives) := by
  induction alternatives with
  | nil => exact sim.rel_pure _
  | cons q rest ih =>
    refine sim.rel_bind (h q List.mem_cons_self) fun read => ?_
    cases read with
    | ok value => exact sim.rel_pure _
    | error => exact ih fun o mem => h o (List.mem_cons_of_mem q mem)

theorem Simulation.parseSame (sim : Simulation Option Option)
    (here : ∀ q, Behind r p q → sim.rel (q.parseWithin n r text) (q.parseWithin m r text)) :
    sim.rel (p.parseWithin (n + 1) r text) (p.parseWithin (m + 1) r text) := by
  cases p with
  | reference name =>
    simp only [Pattern.parseWithin]
    split
    · next q found => exact here q (.reference found)
    · exact sim.rel_pure _
  | anyOf alternatives =>
    refine sim.rel_bind (sim.firstReading fun q mem => here q (.anyOf mem)) fun read => ?_
    cases read <;> exact sim.rel_pure _
  | _ => exact sim.rel_pure _

namespace Pattern

theorem parseWithin_refines (h : n ≤ m) :
    Refines (p.parseWithin n r text) (p.parseWithin m r text) := by
  induction n generalizing m p with
  | zero => exact Refines.none _
  | succ n ih =>
    obtain ⟨m, rfl⟩ : ∃ k, m = k + 1 := ⟨m - 1, by omega⟩
    exact Refines.simulation.parseSame fun q _ => ih (by omega)

theorem parseWithin_eq (enough : (met r.types p).length ≤ n) (h : n ≤ m)
    (mem : q ∈ met r.types p) : q.parseWithin m r text = q.parseWithin n r text := by
  induction h with
  | refl => rfl
  | @step m h ih =>
    rw [← ih]
    refine rests_of_length_le (f := fun n q => parseWithin n r q text)
      (fun _ _ _ => parseWithin_refines (Nat.le_succ _)) (fun k same q mem => ?_)
      (Nat.le_trans enough h) q mem
    exact agreement.parseSame fun o behind => same o (met_behind mem behind)

theorem parse_of_met (enough : (met r.types p).length ≤ n) (mem : q ∈ met r.types p) :
    q.parse r text = q.parseWithin n r text := by
  have own : q.parseWithin (max n (q.size + r.size + 2)) r text = q.parse r text := by
    refine parseWithin_eq ?_ (Nat.le_max_right _ _) (met_self r.types q)
    rw [length_met, Resolver.size]
    omega
  rw [← own]
  exact parseWithin_eq enough (Nat.le_max_left _ _) mem

theorem parse_level (r : Resolver) (p : Pattern) (text : String) :
    ∃ n, p.parse r text = p.parseWithin (n + 1) r text ∧
      ∀ q, Behind r p q → q.parseWithin n r text = q.parse r text :=
  ⟨(met r.types p).length, parse_of_met (Nat.le_succ _) (met_self _ _),
    fun _ behind => (parse_of_met (Nat.le_refl _) (met_behind (met_self _ _) behind)).symm⟩

theorem parse_reference {name : String} (found : r.resolve (.reference name) = .ok q) :
    (Pattern.reference name).parse r text = q.parse r text := by
  obtain ⟨n, level, behind⟩ := parse_level r (.reference name) text
  rw [level, ← behind q (.reference found)]
  simp only [parseWithin, found]

theorem parse_anyOf {alternatives : List Pattern} :
    (Pattern.anyOf alternatives).parse r text =
      (firstReading (fun q => q.parse r text) alternatives).map fun read =>
        match read with
        | some value => .ok value
        | none => .error (.unreadable (Pattern.anyOf alternatives).typeName text) := by
  obtain ⟨n, level, behind⟩ := parse_level r (.anyOf alternatives) text
  have same := agreement.firstReading fun q mem => behind q (.anyOf mem)
  rw [level, parseWithin, ← same]
  cases firstReading (fun q => q.parseWithin n r text) alternatives with
  | none => rfl
  | some read => cases read <;> rfl

end Pattern

end Readings

section Accepting

variable {r : Resolver} {p q : Pattern} {v : Value}

theorem accepts_resolved {name : String} (found : r.resolve (.reference name) = .ok q) :
    Accepts r (.reference name) v ↔ Accepts r q v := by
  rw [Accepts, Pattern.check_eq_step]
  simp only [Pattern.checkStep, found]
  rfl

theorem resolve_of_accepts {name : String} (h : Accepts r (.reference name) v) :
    ∃ q, r.resolve (.reference name) = .ok q := by
  rw [Accepts, Pattern.check_eq_step] at h
  simp only [Pattern.checkStep] at h
  split at h
  · next q found => exact ⟨q, found⟩
  · simp [Verdict.fail] at h

theorem accepts_nullable : Accepts r (.anyOf [.null, q]) v ↔ Accepts r .null v ∨ Accepts r q v := by
  rw [Accepts, Pattern.check_eq_step]
  constructor
  · intro success
    obtain ⟨o, mem, ok⟩ := Pattern.exists_of_checkStep_anyOf success
    rcases List.mem_cons.mp mem with rfl | mem
    · exact .inl ok
    · exact .inr (List.mem_singleton.mp mem ▸ ok)
  · intro either
    have run : Verdict.refusals (fun o => Pattern.check r o v) [.null, q] = some none := by
      obtain ⟨n, null⟩ := Pattern.check_level r .null v
      cases verdict : Pattern.check r .null v with
      | none =>
        rw [null, Pattern.checkStep] at verdict
        split at verdict <;> cases verdict
      | some first =>
        cases first with
        | success => simp [Verdict.refusals, verdict]
        | failure =>
          have second : Pattern.check r q v = some .success :=
            either.resolve_left fun ok => by simp [Accepts, verdict] at ok
          simp [Verdict.refusals, verdict, second]
    simp [Pattern.checkStep, run]

theorem accepts_fields {fields : List (String × Pattern)} {traits : ObjectTraits} :
    Accepts r (.object fields traits) v ↔ ∃ actual, v = .object actual ∧
      FitsObject (Accepts r.tolerant) fields traits.unexpected actual := by
  rw [Accepts, Pattern.check_eq_step]
  exact matchObject_eq_success

theorem accepts_elements {elements : List Pattern} {knownAs : Option String} :
    Accepts r (.array elements knownAs) v ↔ ∃ items, v = .array items ∧
      (elements = [] ∨ FitsMembers (Accepts r.tolerant) (Members.ofElements elements) items) := by
  rw [Accepts, Pattern.check_eq_step]
  exact matchArray_eq_success

theorem accepts_repeated :
    Accepts r (.repeated p) v ↔ ∃ items, v = .array items ∧ ∀ u ∈ items, Accepts r p u := by
  rw [Accepts, Pattern.check_eq_step]
  cases v with
  | array items => simp [Pattern.checkStep, everyItem_eq_success, Accepts]
  | _ => simp [Pattern.checkStep, Verdict.mismatch, Verdict.fail]

theorem Accepts.behind_induction {motive : Pattern → Prop} (accepted : Accepts r p v)
    (outright : ∀ q, q.isOutright → Accepts r q v → motive q)
    (step : ∀ q o, Behind r q o → Accepts r o v → motive o → motive q) : motive p := by
  have level (n : Nat) (p : Pattern) (h : Pattern.checkWithin n r p v = some .success) :
      motive p := by
    induction n generalizing p with
    | zero => cases h
    | succ n ih =>
      have accepted : Accepts r p v := Pattern.checkWithin_refines_check _ h
      cases p with
      | reference name =>
        obtain ⟨q, found⟩ := resolve_of_accepts accepted
        simp only [Pattern.checkWithin, Pattern.checkStep, found] at h
        exact step _ q (.reference found) ((accepts_resolved found).mp accepted) (ih q h)
      | anyOf alternatives =>
        obtain ⟨q, mem, ok⟩ := Pattern.exists_of_checkStep_anyOf h
        exact step _ q (.anyOf mem) (Pattern.checkWithin_refines_check _ ok) (ih q ok)
      | _ => exact outright _ rfl accepted
  exact level _ p accepted

end Accepting

section Guards

variable {r : Resolver} {p q : Pattern} {v : Value}

theorem Behind.unfolds (h : Behind r p q) :
    q = .null ∨ Relation.TransGen (Unfolds r.types) p q := by
  cases h with
  | anyOf mem => exact .inr (.single (.anyOf mem))
  | @reference name _ found =>
    refine (Resolver.unfoldings_of_resolve found).imp_right fun chain => ?_
    rcases Relation.reflTransGen_iff_eq_or_transGen.mp chain with rfl | more
    · exact absurd rfl (Resolver.concrete_of_follow found name)
    · exact more

theorem Reaches.of_behind (chain : Relation.ReflTransGen (Behind r) p q) :
    q = .null ∨ Reaches r.types p q := by
  induction chain with
  | refl => exact .inr (Reaches.refl p)
  | tail _ behind ih =>
    rcases ih with rfl | before
    · cases behind
    · refine behind.unfolds.imp_right fun unfolds => ?_
      exact before.trans (.of_unfoldings unfolds.to_reflTransGen)

theorem Pattern.check_ends (guarded : Guarded r.types) (p : Pattern) (v : Value) :
    (check r p v).isSome := by
  induction weight : v.weight using Nat.strongRecOn generalizing r p v with
  | _ weight lighter =>
  subst weight
  have null : (check r .null v).isSome := by
    obtain ⟨n, level⟩ := check_level r .null v
    rw [level, checkStep]
    split <;> rfl
  -- Behind a name stands what a chain of several steps leads to, so the chain is in the motive.
  have main : ∀ q, Relation.ReflTransGen (Unfolds r.types) p q → (check r q v).isSome := by
    refine guarded.unfold_induction (motive := fun p => ∀ q,
      Relation.ReflTransGen (Unfolds r.types) p q → (check r q v).isSome) (fun p ih q chain => ?_) p
    rcases Relation.ReflTransGen.cases_head chain with rfl | ⟨o, step, more⟩
    · rw [check_eq_step]
      refine endings.checkSame (g := check) (fun q behind => ?_) fun q u _ light => ?_
      · rcases behind.unfolds with rfl | unfolds
        · exact null
        · obtain ⟨o, step, more⟩ := Relation.TransGen.head'_iff.mp unfolds
          exact ih o step q more
      · exact ⟨lighter u.weight light guarded q u rfl,
          lighter u.weight light (r := r.tolerant) guarded q u rfl⟩
    · exact ih o step q more
  exact main p .refl

theorem firstReading_isSome {reading : Pattern → Option (Contractual Value)}
    {alternatives : List Pattern} (h : ∀ q ∈ alternatives, (reading q).isSome) :
    (firstReading reading alternatives).isSome := by
  induction alternatives with
  | nil => rfl
  | cons q rest ih =>
    obtain ⟨first, later⟩ := List.forall_mem_cons.mp h
    obtain ⟨read, same⟩ := Option.isSome_iff_exists.mp first
    cases read with
    | ok v => simp [firstReading, same]
    | error => simpa [firstReading, same] using ih later

theorem Pattern.parse_isSome {text : String} {n : Nat} (settles : settlesWithin r.types n p) :
    (show Option (Contractual Value) from p.parse r text).isSome := by
  induction n generalizing p with
  | zero => cases settles
  | succ n ih =>
    have next {q : Pattern} (behind : Behind r p q) :
        (show Option (Contractual Value) from q.parse r text).isSome := by
      rcases behind.unfolds with rfl | chain
      · rfl
      · exact ih (settlesWithin_of_unfoldings settles chain)
    cases p with
    | reference name =>
      cases found : r.resolve (.reference name) with
      | ok q =>
        rw [parse_reference found]
        exact next (.reference found)
      | error =>
        obtain ⟨k, level, -⟩ := parse_level r (.reference name) text
        rw [level]
        simp only [parseWithin, found]
        rfl
    | anyOf alternatives =>
      rw [parse_anyOf, Option.isSome_map]
      exact firstReading_isSome fun q mem => next (.anyOf mem)
    | _ => rfl

theorem accepts_union (guarded : Guarded r.types) {alternatives : List Pattern} :
    Accepts r (.anyOf alternatives) v ↔ ∃ q ∈ alternatives, Accepts r q v := by
  rw [Accepts, Pattern.check_eq_step]
  constructor
  · exact Pattern.exists_of_checkStep_anyOf
  · rintro ⟨q, mem, ok⟩
    exact Pattern.checkStep_anyOf_of_mem mem ok fun o _ => Pattern.check_ends guarded o v

end Guards

section Tolerance

variable {r : Resolver} {p q : Pattern} {v : Value}

theorem Resolver.get_tolerant {name : String} (h : r.get name = .ok p) :
    r.tolerant.get name = .ok p := by
  cases found : Entries.get? r.types (Token.typeName name) with
  | some o => simpa only [Resolver.get, Resolver.tolerant, found] using h
  | none =>
    simp only [Resolver.get, Resolver.tolerant, found, Bool.true_and] at h ⊢
    split at h
    · next null => rwa [if_pos (Bool.and_eq_true_iff.mp null).2]
    · cases h

theorem Resolver.follow_tolerant {hops : Nat} (h : r.follow hops p = .ok q) :
    r.tolerant.follow hops p = .ok q := by
  induction hops generalizing p with
  | zero =>
    cases p with
    | reference name =>
      obtain ⟨_, -, h⟩ := Except.bind_eq_ok.mp h
      cases h
    | _ => exact h
  | succ hops ih =>
    cases p with
    | reference name =>
      obtain ⟨o, named, h⟩ := Except.bind_eq_ok.mp h
      exact Except.bind_eq_ok.mpr ⟨o, r.get_tolerant named, ih h⟩
    | _ => exact h

theorem Resolver.resolve_tolerant (h : r.resolve p = .ok q) : r.tolerant.resolve p = .ok q :=
  Resolver.follow_tolerant h

theorem Accepts.tolerant_of_unions (accepted : Accepts r p v)
    (unions : ∀ alternatives, Reaches r.types p (.anyOf alternatives) → ∀ q ∈ alternatives, ∀ u,
      Accepts r.tolerant q u → Accepts r.tolerant (.anyOf alternatives) u) :
    Accepts r.tolerant p v := by
  -- Lists alone keep the resolver for their items; fields and elements have the tolerant one.
  induction weight : v.weight using Nat.strongRecOn generalizing p v with
  | _ weight lighter =>
  subst weight
  refine Accepts.behind_induction (motive := fun q => (∀ alternatives,
    Reaches r.types q (.anyOf alternatives) → ∀ o ∈ alternatives, ∀ u, Accepts r.tolerant o u →
      Accepts r.tolerant (.anyOf alternatives) u) → Accepts r.tolerant q v) accepted ?_ ?_ unions
  · intro q kind ok unions
    cases q with
    | string => exact accepts_string.mpr (accepts_string.mp ok)
    | number => exact accepts_number.mpr (accepts_number.mp ok)
    | boolean => exact accepts_boolean.mpr (accepts_boolean.mp ok)
    | null => exact accepts_null.mpr (accepts_null.mp ok)
    | url scheme => exact accepts_url.mpr (accepts_url.mp ok)
    | exact expected => exact accepts_exact.mpr (accepts_exact.mp ok)
    | repeated inner =>
      obtain ⟨items, rfl, each⟩ := accepts_repeated.mp ok
      refine accepts_repeated.mpr ⟨items, rfl, fun u mem => ?_⟩
      exact lighter u.weight (Value.Part.weight_lt (.item mem)) (each u mem)
        (fun alternatives reach => unions alternatives ((Part.reaches .inner).trans reach)) rfl
    | object fields traits => exact accepts_fields.mpr (accepts_fields.mp ok)
    | array elements knownAs => exact accepts_elements.mpr (accepts_elements.mp ok)
    | reference | anyOf => cases kind
  · intro q o behind ok ih unions
    have taken : Accepts r.tolerant o v := ih fun alternatives reach => by
      rcases behind.unfolds with rfl | chain
      · cases reach.eq_null
      · exact unions alternatives ((Reaches.of_unfoldings chain.to_reflTransGen).trans reach)
    cases behind with
    | reference found => exact (accepts_resolved (Resolver.resolve_tolerant found)).mpr taken
    | anyOf mem => exact unions _ (Reaches.refl _) o mem v taken

theorem Accepts.tolerant_of_guarded (accepted : Accepts r p v) (guarded : Guarded r.types) :
    Accepts r.tolerant p v :=
  accepted.tolerant_of_unions fun _ _ q mem _ taken =>
    (accepts_union (r := r.tolerant) guarded).mpr ⟨q, mem, taken⟩

end Tolerance

end ApiContract
