import Mathlib.Data.List.Perm.Subperm
import Mathlib.Data.List.ProdSigma
import ApiContract.Proofs.Comparing
import ApiContract.Proofs.Tracing

set_option autoImplicit false

/-!
When a comparison ends. The stack stops a comparison that comes back to a pair of names, but one
side may be without a name whenever the other has one. A comparison has no end exactly when it
leads back to a comparison it is part of, with no pair put on the stack in between; otherwise it
stays within the bound on its depth.
-/
namespace ApiContract

theorem Nested.reaches {types others : Entries Pattern} {r s x y : Resolver} {a b p q : Pattern}
    (h : Nested x y a b r s p q) :
    (r = x ∧ s = y ∨ r = x.tolerant ∧ s = y.tolerant) ∧ Reaches types a p ∧
      Reaches others b q := by
  cases h with
  | right mem => exact ⟨.inl ⟨rfl, rfl⟩, Reaches.refl _, Unfolds.reaches (.anyOf mem)⟩
  | left mem => exact ⟨.inl ⟨rfl, rfl⟩, Unfolds.reaches (.anyOf mem), Reaches.refl _⟩
  | fields mem found =>
    exact ⟨.inr ⟨rfl, rfl⟩, Part.reaches (.field mem), Part.reaches (.field (mem_of_field? found))⟩
  | items first second place place' =>
    exact ⟨.inr ⟨rfl, rfl⟩, (members?_part first place).reaches,
      (members?_part second place').reaches⟩

theorem nodup_entering {stack : TypeStack} {a b : Pattern} (distinct : stack.Nodup)
    (free : isHeld stack a b = false) : (entering stack a b).Nodup := by
  refine List.nodup_append.mpr ⟨distinct, ?_, fun pair held other new => ?_⟩
  · cases namePair? a b <;> simp
  · rintro rfl
    rw [isHeld_iff.mpr ⟨pair, held, Option.mem_toList.mp new⟩] at free
    cases free

structure Meeting where
  stack : TypeStack
  these : Resolver
  those : Resolver
  bigger : Pattern
  smaller : Pattern

namespace Meeting

def within (n : Nat) (M : Meeting) : Option Verdict :=
  Pattern.compareAt n M.stack M.these M.those M.bigger M.smaller

def level (answer : Meeting → Option Verdict) (M : Meeting) : Traced Meeting Verdict :=
  if isHeld M.stack M.bigger M.smaller then pure .success
  else
    Pattern.compareStep
      (fun r s p q => .ask answer ⟨entering M.stack M.bigger M.smaller, r, s, p, q⟩)
      (fun r p v => .lift (Pattern.check r p v)) M.these M.those M.bigger M.smaller

/-- The second comparison is asked for by the first, once those before it are decided. -/
def Calls (M N : Meeting) : Prop :=
  ∃ n, N ∈ (M.level (within n)).asked

variable {M N : Meeting} {n m : Nat}

theorem within_succ : M.within (n + 1) =
    if isHeld M.stack M.bigger M.smaller then some .success
    else
      Pattern.compareStep (fun r s p q => within n ⟨entering M.stack M.bigger M.smaller, r, s, p, q⟩)
        Pattern.check M.these M.those M.bigger M.smaller := rfl

theorem outcome_level : (M.level (within n)).outcome = M.within (n + 1) := by
  rw [within_succ]
  unfold level
  split
  · rfl
  · exact Traced.outcomes.compareStep (fun _ _ _ _ _ => rfl) fun _ _ _ _ _ _ _ _ _ => rfl

theorem level_extends (h : n ≤ m) :
    (M.level (within n)).asked <+: (M.level (within m)).asked ∧
      ((M.level (within n)).outcome.isSome → M.level (within n) = M.level (within m)) := by
  unfold level
  split
  · exact Traced.extending.rel_pure _
  · refine Traced.extending.compareStep (fun _ _ _ _ _ => ⟨List.prefix_rfl, fun _ => rfl⟩)
      fun _ _ _ _ r s p q _ => ⟨List.prefix_rfl, fun ends => ?_⟩
    obtain ⟨verdict, done⟩ := Option.isSome_iff_exists.mp ends
    have more : within m ⟨_, r, s, p, q⟩ = some verdict := Pattern.compareAt_mono h verdict done
    simp only [Traced.ask] at done ⊢
    rw [done, more]

structure Over (types others : Entries Pattern) (M : Meeting) : Prop where
  guarded : Guarded types
  guarded' : Guarded others
  these : M.these.types = types
  those : M.those.types = others
  registered : Registered types M.bigger
  registered' : Registered others M.smaller

structure Descends (types others : Entries Pattern) (M N : Meeting) : Prop where
  free : isHeld M.stack M.bigger M.smaller = false
  stack : N.stack = entering M.stack M.bigger M.smaller
  resolvers : N.these = M.these ∧ N.those = M.those ∨
    N.these = M.these.tolerant ∧ N.those = M.those.tolerant
  bigger : Reaches types M.bigger N.bigger
  smaller : Reaches others M.smaller N.smaller

section Levels

variable {types others : Entries Pattern}

theorem Over.isSome_iff (based : Over types others M) :
    (M.within (n + 1)).isSome ↔ ∀ N ∈ (M.level (within n)).asked, (N.within n).isSome := by
  have related : (Traced.ending fun N : Meeting => (N.within n).isSome).rel
      (M.level (within n)) (M.level (within n)) := by
    unfold level
    split
    · exact Simulation.rel_pure _ _
    · refine Simulation.compareStep _ (fun a found p v inside => ?_)
        fun _ _ _ _ r s p q _ => by simp [Traced.ask, Traced.ending]
      obtain ⟨b, -, unfolds, resolves⟩ := based.guarded.resolves _ based.registered
      obtain rfl : b = a := by
        have := (resolves M.these based.these).symm.trans found
        cases this
        rfl
      have below := based.registered.of_reaches (.of_unfoldings unfolds)
      have known : Registered types p := by
        rcases inside with rfl | part
        · exact below
        · exact below.of_reaches part.reaches
      have ends : (Pattern.check M.these.tolerant p v).isSome := by
        obtain ⟨guarded, rfl⟩ := And.intro based.guarded based.these.symm
        exact Pattern.check_isSome (r := M.these.tolerant) guarded known v
      simpa [Traced.ending, Traced.lift] using ends
  rw [← outcome_level]
  exact related

theorem Over.descends (based : Over types others M) (call : Calls M N) :
    Descends types others M N := by
  obtain ⟨n, mem⟩ := call
  have related : (Traced.asking (Descends types others M)).rel
      (M.level (within n)) (M.level (within n)) := by
    unfold level
    split
    · exact Simulation.rel_pure _ _
    · next free =>
      refine Simulation.compareStep _ (fun a found p v inside => nofun)
        fun a b found found' r s p q nested => ?_
      obtain ⟨c, -, unfolds, resolves⟩ := based.guarded.resolves _ based.registered
      obtain ⟨d, -, unfolds', resolves'⟩ := based.guarded'.resolves _ based.registered'
      rw [resolves M.these based.these] at found
      rw [resolves' M.those based.those] at found'
      cases found
      cases found'
      obtain ⟨resolvers, first, second⟩ := nested.reaches
      intro N asked
      obtain rfl := List.mem_singleton.mp asked
      exact ⟨by simpa using free, rfl, resolvers, (Reaches.of_unfoldings unfolds).trans first,
        (Reaches.of_unfoldings unfolds').trans second⟩
  exact related N mem

theorem Over.of_calls (based : Over types others M) (call : Calls M N) : Over types others N := by
  have below := based.descends call
  refine ⟨based.guarded, based.guarded', ?_, ?_, based.registered.of_reaches below.bigger,
    based.registered'.of_reaches below.smaller⟩
  · rcases below.resolvers with ⟨same, -⟩ | ⟨same, -⟩ <;> rw [same] <;> exact based.these
  · rcases below.resolvers with ⟨-, same⟩ | ⟨-, same⟩ <;> rw [same] <;> exact based.those

theorem Over.within_of_calls (based : Over types others M) (ends : (M.within (n + 1)).isSome)
    (call : Calls M N) : (N.within n).isSome := by
  obtain ⟨k, mem⟩ := call
  apply based.isSome_iff.mp ends N
  rcases Nat.le_total k n with le | le
  · exact (level_extends le).1.subset mem
  · rw [← outcome_level] at ends
    rwa [(level_extends le).2 ends]

theorem Over.not_loop (based : Over types others M) (ends : (M.within n).isSome) :
    ¬ Relation.TransGen Calls M M := by
  induction n generalizing M with
  | zero => cases ends
  | succ n ih =>
    intro loop
    obtain ⟨N, call, back⟩ := Relation.TransGen.head'_iff.mp loop
    exact ih (based.of_calls call) (based.within_of_calls ends call) (.tail' back call)

theorem Over.exists_chain (based : Over types others M) (deep : M.within n = none) :
    ∃ l, l.length = n ∧ (M :: l).IsChain Calls := by
  induction n generalizing M with
  | zero => exact ⟨[], rfl, .singleton M⟩
  | succ n ih =>
    obtain ⟨N, mem, deeper⟩ : ∃ N ∈ (M.level (within n)).asked, (N.within n).isSome = false := by
      have some_ := based.isSome_iff (n := n).not.mp (by simp [deep])
      simpa using some_
    have call : Calls M N := ⟨n, mem⟩
    obtain ⟨l, length, chain⟩ := ih (based.of_calls call) (by simpa using deeper)
    exact ⟨N :: l, by simp [length], .cons_cons call chain⟩

end Levels

section Counting

variable {these those : Resolver} {bigger smaller : Pattern}

def first (these those : Resolver) (bigger smaller : Pattern) : Meeting :=
  ⟨[], these, those, bigger, smaller⟩

def namePairs (these those : Resolver) (bigger smaller : Pattern) : List (String × String) :=
  reachableNames these.types bigger ×ˢ reachableNames those.types smaller

structure Later (these those : Resolver) (bigger smaller : Pattern) (M : Meeting) : Prop where
  based : Over these.types those.types M
  distinct : M.stack.Nodup
  names : M.stack ⊆ namePairs these those bigger smaller
  resolvers : (M.these, M.those) ∈ [(these, those), (these.tolerant, those.tolerant)]
  bigger : M.bigger ∈ reachable these.types bigger
  smaller : M.smaller ∈ reachable those.types smaller

theorem Later.of_calls (h : Later these those bigger smaller M) (call : Calls M N) :
    Later these those bigger smaller N := by
  have step := h.based.descends call
  refine ⟨h.based.of_calls call, ?_, ?_, ?_, reachable_trans h.bigger step.bigger,
    reachable_trans h.smaller step.smaller⟩
  · rw [step.stack]
    exact nodup_entering h.distinct step.free
  · rw [step.stack]
    intro pair mem
    rcases mem_entering.mp mem with held | named
    · exact h.names held
    · obtain ⟨first, second⟩ := namePair?_eq_some.mp named
      exact List.mem_product.mpr
        ⟨mem_reachableNames h.bigger first, mem_reachableNames h.smaller second⟩
  · have before := h.resolvers
    simp only [List.mem_cons, List.not_mem_nil, or_false, Prod.mk.injEq] at before ⊢
    rcases step.resolvers with ⟨same, same'⟩ | ⟨same, same'⟩ <;> rw [same, same']
    · exact before
    · rcases before with ⟨old, old'⟩ | ⟨old, old'⟩ <;> rw [old, old'] <;> exact .inr ⟨rfl, rfl⟩

theorem Later.of_first (based : Over these.types those.types (first these those bigger smaller))
    (h : Relation.ReflTransGen Calls (first these those bigger smaller) M) :
    Later these those bigger smaller M := by
  induction h with
  | refl =>
    exact ⟨based, List.nodup_nil, List.nil_subset _, List.mem_cons_self,
      (Reaches.refl _).mem_reachable, (Reaches.refl _).mem_reachable⟩
  | tail _ call ih => exact ih.of_calls call

theorem Later.stack_grows (h : Later these those bigger smaller M)
    (calls : Relation.TransGen Calls M N) : M.stack <+: N.stack := by
  have chain : Later these those bigger smaller N ∧ M.stack <+: N.stack := by
    induction calls with
    | single call =>
      refine ⟨h.of_calls call, ?_⟩
      rw [(h.based.descends call).stack]
      exact List.prefix_append _ _
    | tail _ call ih =>
      refine ⟨ih.1.of_calls call, ?_⟩
      rw [(ih.1.based.descends call).stack]
      exact ih.2.trans (List.prefix_append _ _)
  exact chain.2

/-- What tells two comparisons on one chain apart: the stack only grows along it. -/
def mark (M : Meeting) : Nat × (Resolver × Resolver) × Pattern × Pattern :=
  (M.stack.length, (M.these, M.those), M.bigger, M.smaller)

def marks (these those : Resolver) (bigger smaller : Pattern) :
    List (Nat × (Resolver × Resolver) × Pattern × Pattern) :=
  List.range ((namePairs these those bigger smaller).length + 1) ×ˢ
    ([(these, those), (these.tolerant, those.tolerant)] ×ˢ
      (reachable these.types bigger ×ˢ reachable those.types smaller))

theorem Later.mark_mem (h : Later these those bigger smaller M) :
    M.mark ∈ marks these those bigger smaller := by
  have short := (h.distinct.subperm h.names).length_le
  simp only [mark, marks, List.mem_product, List.mem_range]
  exact ⟨by omega, h.resolvers, h.bigger, h.smaller⟩

theorem Later.loop_of_mark_eq (h : Later these those bigger smaller M)
    (calls : Relation.TransGen Calls M N) (same : M.mark = N.mark) :
    Relation.TransGen Calls M M := by
  obtain ⟨stack, r, s, p, q⟩ := M
  obtain ⟨stack', r', s', p', q'⟩ := N
  simp only [mark, Prod.mk.injEq] at same
  obtain ⟨length, ⟨rfl, rfl⟩, rfl, rfl⟩ := same
  obtain rfl := (h.stack_grows calls).eq_of_length length
  exact calls

theorem length_marks_le : (marks these those bigger smaller).length ≤
    Pattern.compareBound these those bigger smaller := by
  have patterns : (reachable these.types bigger).length * (reachable those.types smaller).length ≤
      (bigger.size + these.size + 2) * (smaller.size + those.size + 2) := by
    rw [length_reachable, length_reachable]
    exact Nat.mul_le_mul (Nat.le_add_right _ 2) (Nat.le_add_right _ 2)
  have names : (namePairs these those bigger smaller).length ≤
      (bigger.names.length + these.types.length + (Pattern.namesFields these.types).length) *
        (smaller.names.length + those.types.length + (Pattern.namesFields those.types).length) := by
    rw [namePairs, List.length_product, reachableNames, reachableNames, List.length_append,
      List.length_append]
    exact Nat.mul_le_mul (by omega) (by omega)
  rw [marks, List.length_product, List.length_range, List.length_product, List.length_product,
    Nat.mul_comm]
  refine Nat.mul_le_mul ?_ (Nat.add_le_add names (by decide))
  rw [Nat.mul_assoc]
  simp only [List.length_cons, List.length_nil]
  omega

theorem ends_of_no_loop (based : Over these.types those.types (first these those bigger smaller))
    (noLoop : ∀ M, Relation.ReflTransGen Calls (first these those bigger smaller) M →
      ¬ Relation.TransGen Calls M M) :
    ((first these those bigger smaller).within
      (Pattern.compareBound these those bigger smaller)).isSome := by
  -- A chain without a loop has no two comparisons of one mark.
  cases deep : (first these those bigger smaller).within
      (Pattern.compareBound these those bigger smaller) with
  | some verdict => rfl
  | none =>
    obtain ⟨l, length, chain⟩ := based.exists_chain deep
    have pairwise : (first these those bigger smaller :: l).Pairwise (Relation.TransGen Calls) :=
      List.isChain_iff_pairwise.mp (chain.imp fun _ _ call => .single call)
    have later (M : Meeting) (mem : M ∈ first these those bigger smaller :: l) :
        Relation.ReflTransGen Calls (first these those bigger smaller) M := by
      rcases List.mem_cons.mp mem with rfl | mem
      · exact .refl
      · exact ((List.pairwise_cons.mp pairwise).1 M mem).to_reflTransGen
    have distinct : ((first these those bigger smaller :: l).map mark).Nodup := by
      refine List.pairwise_map.mpr (pairwise.imp_of_mem fun {M N} mem _ calls same => ?_)
      exact noLoop M (later M mem) ((Later.of_first based (later M mem)).loop_of_mark_eq calls same)
    have inside : (first these those bigger smaller :: l).map mark ⊆
        marks these those bigger smaller := by
      intro k mem
      obtain ⟨M, there, rfl⟩ := List.mem_map.mp mem
      exact (Later.of_first based (later M there)).mark_mem
    have few := (distinct.subperm inside).length_le
    have := @length_marks_le these those bigger smaller
    simp only [List.length_map, List.length_cons, length] at few
    omega

end Counting

end Meeting

section Deciding

open Meeting

variable {these those : Resolver} {bigger smaller : Pattern}

section Guards

variable (guarded : Guarded these.types) (guarded' : Guarded those.types)
  (registered : Registered these.types bigger) (registered' : Registered those.types smaller)
include guarded guarded' registered registered'

theorem over_first : Over these.types those.types (first these those bigger smaller) :=
  ⟨guarded, guarded', rfl, rfl, registered, registered'⟩

theorem no_loop_of_ends {n : Nat} (ends : ((first these those bigger smaller).within n).isSome)
    {M : Meeting} (calls : Relation.ReflTransGen Calls (first these those bigger smaller) M) :
    ¬ Relation.TransGen Calls M M := by
  have based := over_first guarded guarded' registered registered'
  have later : ∃ n, (M.within n).isSome := by
    induction calls with
    | refl => exact ⟨n, ends⟩
    | tail before call ih =>
      obtain ⟨n, ends⟩ := ih
      cases n with
      | zero => cases ends
      | succ n => exact ⟨n, (Later.of_first based before).based.within_of_calls ends call⟩
  obtain ⟨n, ends⟩ := later
  exact (Later.of_first based calls).based.not_loop ends

theorem encompasses_of_compareAt {n : Nat} {verdict : Verdict}
    (h : Pattern.compareAt n [] these those bigger smaller = some verdict) :
    Pattern.encompasses these those bigger smaller = some verdict := by
  have ends : ((first these those bigger smaller).within n).isSome :=
    Option.isSome_iff_exists.mpr ⟨verdict, h⟩
  have some_ := ends_of_no_loop (over_first guarded guarded' registered registered') fun M calls =>
    no_loop_of_ends guarded guarded' registered registered' ends calls
  obtain ⟨other, bounded⟩ := Option.isSome_iff_exists.mp some_
  -- Both outcomes are there at the greater of the two depths.
  have deep := Pattern.compareAt_mono (Nat.le_max_left _ n) other bounded
  have given := Pattern.compareAt_mono
    (Nat.le_max_right (Pattern.compareBound these those bigger smaller) n) verdict h
  rw [Pattern.encompasses_eq_compareAt, ← deep.symm.trans given]
  exact bounded

end Guards

/-- A comparison has an outcome exactly when it does not come back to a part of itself that is
still open, and so none exactly when it is endless. -/
theorem encompasses_isSome_iff (guarded : Guarded these.types) (guarded' : Guarded those.types)
    (registered : Registered these.types bigger) (registered' : Registered those.types smaller) :
    (Pattern.encompasses these those bigger smaller).isSome ↔
      ∀ M, Relation.ReflTransGen Calls (first these those bigger smaller) M →
        ¬ Relation.TransGen Calls M M := by
  rw [Pattern.encompasses_eq_compareAt]
  constructor
  · intro ends M calls
    exact no_loop_of_ends guarded guarded' registered registered' ends calls
  · exact ends_of_no_loop (over_first guarded guarded' registered registered')

def holder (knownAs : Option String) (p : Pattern) : Pattern :=
  .object [("x?", p)] { unexpected := .reject, kind := .json, knownAs }

def twoDeep : Resolver :=
  { Resolver.empty with
    types := [("A", holder (some "A") (holder none (.reference "A")))] }

theorem registered_twoDeep {p : Pattern}
    (names : ∀ name, .reference name ∈ p.subpatterns → name = "A") :
    Registered twoDeep.types p := by
  have name : Token.typeName "A" = "A" := by decide +kernel
  intro other met
  have mem := met.mem_reachable
  simp only [reachable, twoDeep, holder, Pattern.subpatternsFields, Pattern.subpatterns,
    List.mem_append, List.mem_cons, List.not_mem_nil, reduceCtorEq, Pattern.reference.injEq,
    or_false, false_or] at mem
  obtain rfl : other = "A" := mem.elim (names other) id
  simp [registered?, twoDeep, Entries.get?, name]

/-- One side has a name where the other has none, at every level. -/
theorem twoDeep_endless :
    ¬ (Pattern.encompasses twoDeep twoDeep (.reference "A")
      (holder none (.reference "A"))).isSome := by
  let there : Meeting :=
    ⟨[], twoDeep.tolerant, twoDeep.tolerant, holder none (.reference "A"), .reference "A"⟩
  let back : Meeting :=
    ⟨[], twoDeep.tolerant, twoDeep.tolerant, .reference "A", holder none (.reference "A")⟩
  have enter : Calls (first twoDeep twoDeep (.reference "A") (holder none (.reference "A")))
      there := ⟨0, List.mem_singleton.mpr rfl⟩
  have out : Calls there back := ⟨0, List.mem_singleton.mpr rfl⟩
  have home : Calls back there := ⟨0, List.mem_singleton.mpr rfl⟩
  have acyclic := encompasses_isSome_iff (Guarded.of_settles 1 rfl) (Guarded.of_settles 1 rfl)
    (registered_twoDeep (p := .reference "A") (by simp [Pattern.subpatterns]))
    (registered_twoDeep (p := holder none (.reference "A"))
      (by simp [holder, Pattern.subpatterns, Pattern.subpatternsFields]))
  rw [acyclic]
  exact fun noLoop => noLoop there (.single enter) (.tail (.single out) home)

end Deciding

end ApiContract
