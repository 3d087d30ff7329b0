import Mathlib.Data.List.Forall2
import ApiContract.Pattern.Matching

set_option autoImplicit false

namespace ApiContract

/-- A relation between the runs of two monads that `pure` and `bind` keep. -/
structure Simulation (m n : Type → Type) [Monad m] [Monad n] where
  rel : {α : Type} → m α → n α → Prop
  rel_pure : ∀ {α : Type} (a : α), rel (pure a : m α) (pure a : n α)
  rel_bind : ∀ {α β : Type} {x : m α} {y : n α} {f : α → m β} {g : α → n β},
    rel x y → (∀ a, rel (f a) (g a)) → rel (x >>= f) (y >>= g)

namespace Simulation

variable {m n : Type → Type} [Monad m] [Monad n] (sim : Simulation m n) {α β : Type}

theorem rel_map [LawfulMonad m] [LawfulMonad n] {x : m α} {y : n α} (f : α → β)
    (h : sim.rel x y) : sim.rel (f <$> x) (f <$> y) := by
  rw [map_eq_pure_bind, map_eq_pure_bind]
  exact sim.rel_bind h fun a => sim.rel_pure (f a)

theorem thenCheck {x : m Verdict} {y : n Verdict} {next : Unit → m Verdict}
    {more : Unit → n Verdict} (first : sim.rel x y) (second : sim.rel (next ()) (more ())) :
    sim.rel (Verdict.thenCheck x next) (Verdict.thenCheck y more) := by
  refine sim.rel_bind first fun verdict => ?_
  cases verdict with
  | success => exact second
  | failure => exact sim.rel_pure _

theorem every {f : α → m Verdict} {g : α → n Verdict} {l : List α}
    (h : ∀ a ∈ l, sim.rel (f a) (g a)) : sim.rel (Verdict.every f l) (Verdict.every g l) := by
  induction l with
  | nil => exact sim.rel_pure _
  | cons a rest ih =>
    exact sim.thenCheck (h a List.mem_cons_self) (ih fun b hb => h b (List.mem_cons_of_mem a hb))

theorem refusals {f : α → m Verdict} {g : α → n Verdict} {l : List α}
    (h : ∀ a ∈ l, sim.rel (f a) (g a)) :
    sim.rel (Verdict.refusals f l) (Verdict.refusals g l) := by
  induction l with
  | nil => exact sim.rel_pure _
  | cons a rest ih =>
    refine sim.rel_bind (h a List.mem_cons_self) fun verdict => ?_
    cases verdict with
    | success => exact sim.rel_pure _
    | failure =>
      refine sim.rel_bind (ih fun b hb => h b (List.mem_cons_of_mem a hb)) fun failures => ?_
      cases failures <;> exact sim.rel_pure _

end Simulation

def Refines {α : Type} (x y : Option α) : Prop :=
  ∀ a, x = some a → y = some a

namespace Refines

variable {α : Type} {x y z : Option α}

theorem refl (x : Option α) : Refines x x := fun _ h => h

theorem none (y : Option α) : Refines Option.none y := by
  intro a h
  cases h

theorem antisymm (first : Refines x y) (second : Refines y x) : x = y := by
  cases hx : x with
  | some a => exact (first a hx).symm
  | none =>
    cases hy : y with
    | some a => rw [second a hy] at hx; cases hx
    | none => rfl

def simulation : Simulation Option Option where
  rel := Refines
  rel_pure _ := refl _
  rel_bind first next := by
    intro b h
    obtain ⟨a, ha, hb⟩ := Option.bind_eq_some_iff.mp h
    exact Option.bind_eq_some_iff.mpr ⟨a, first a ha, next a b hb⟩

end Refines

def agreement : Simulation Option Option where
  rel x y := x = y
  rel_pure _ := rfl
  rel_bind first next := by
    rw [first]
    exact congrArg _ (funext next)

def endings : Simulation Option Option where
  rel x _ := x.isSome
  rel_pure _ := rfl
  rel_bind first next := by
    obtain ⟨a, rfl⟩ := Option.isSome_iff_exists.mp first
    exact next a

namespace Verdict

variable {α : Type} {f : α → Option Verdict} {l : List α} {x : Option Verdict}
  {next : Unit → Option Verdict} {failure : Failure}

theorem under_eq_success {crumb : String} {verdict : Verdict} :
    verdict.under crumb = .success ↔ verdict = .success := by
  cases verdict <;> simp [under]

theorem map_under_eq_success {crumb : String} :
    under crumb <$> x = some .success ↔ x = some .success := by
  cases x <;> simp [under_eq_success]

theorem isSuccess_iff {verdict : Verdict} : verdict.isSuccess ↔ verdict = .success := by
  cases verdict <;> simp [isSuccess]

theorem thenCheck_eq_success :
    thenCheck x next = some .success ↔ x = some .success ∧ next () = some .success := by
  rcases x with _ | (_ | failure) <;> simp [thenCheck]

theorem every_eq_success : every f l = some .success ↔ ∀ a ∈ l, f a = some .success := by
  induction l with
  | nil => simp [every]
  | cons a rest ih => simp [every, thenCheck_eq_success, ih]

theorem refusals_eq_none_of_mem {a : α} (mem : a ∈ l) (success : f a = some .success)
    (ends : ∀ b ∈ l, (f b).isSome) : refusals f l = some none := by
  induction l with
  | nil => cases mem
  | cons b rest ih =>
    obtain ⟨verdict, hb⟩ := Option.isSome_iff_exists.mp (ends b List.mem_cons_self)
    cases verdict with
    | success => simp [refusals, hb]
    | failure failure =>
      have hrest : a ∈ rest := by
        rcases List.mem_cons.mp mem with rfl | h
        · rw [success] at hb; cases hb
        · exact h
      simp [refusals, hb, ih hrest fun c hc => ends c (List.mem_cons_of_mem b hc)]

theorem exists_success_of_refusals (h : refusals f l = some none) :
    ∃ a ∈ l, f a = some .success := by
  induction l with
  | nil => simp [refusals] at h
  | cons a rest ih =>
    obtain ⟨verdict, ha, hrest⟩ := Option.bind_eq_some_iff.mp h
    cases verdict with
    | success => exact ⟨a, List.mem_cons_self, ha⟩
    | failure failure =>
      obtain ⟨failures, hf, hn⟩ := Option.bind_eq_some_iff.mp hrest
      cases failures with
      | some fs => cases hn
      | none =>
        obtain ⟨b, hb, success⟩ := ih hf
        exact ⟨b, List.mem_cons_of_mem a hb, success⟩

theorem map_under_eq_failure {crumb : String} :
    under crumb <$> x = some (.failure failure) ↔
      ∃ inner, x = some (.failure inner) ∧ failure = inner.under crumb := by
  rcases x with _ | (_ | inner) <;> simp [under, eq_comm]

theorem thenCheck_eq_failure : thenCheck x next = some (.failure failure) ↔
    x = some (.failure failure) ∨ x = some .success ∧ next () = some (.failure failure) := by
  rcases x with _ | (_ | first) <;> simp [thenCheck]

theorem exists_failure_of_every (h : every f l = some (.failure failure)) :
    ∃ a ∈ l, f a = some (.failure failure) := by
  induction l with
  | nil => cases h
  | cons a rest ih =>
    rcases thenCheck_eq_failure.mp h with first | ⟨-, later⟩
    · exact ⟨a, List.mem_cons_self, first⟩
    · obtain ⟨b, mem, failed⟩ := ih later
      exact ⟨b, List.mem_cons_of_mem a mem, failed⟩

theorem forall₂_of_refusals {failures : List Failure} (h : refusals f l = some (some failures)) :
    List.Forall₂ (fun a failure => f a = some (.failure failure)) l failures := by
  induction l generalizing failures with
  | nil =>
    cases h
    exact .nil
  | cons a rest ih =>
    obtain ⟨verdict, first, h⟩ := Option.bind_eq_some_iff.mp h
    cases verdict with
    | success => cases h
    | failure failure =>
      obtain ⟨others, later, h⟩ := Option.bind_eq_some_iff.mp h
      cases others with
      | none => cases h
      | some others =>
        cases h
        exact .cons first (ih later)

end Verdict

end ApiContract
