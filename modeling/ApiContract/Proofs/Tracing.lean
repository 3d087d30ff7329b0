import ApiContract.Proofs.Checks

set_option autoImplicit false

namespace ApiContract

structure Traced (σ α : Type) where
  asked : List σ
  outcome : Option α

namespace Traced

variable {σ α β : Type}

def bind (x : Traced σ α) (f : α → Traced σ β) : Traced σ β :=
  match x.outcome with
  | none => ⟨x.asked, none⟩
  | some a => ⟨x.asked ++ (f a).asked, (f a).outcome⟩

instance : Monad (Traced σ) where
  pure a := ⟨[], some a⟩
  bind := bind

def ask (answer : σ → Option α) (s : σ) : Traced σ α :=
  ⟨[s], answer s⟩

def lift (outcome : Option α) : Traced σ α :=
  ⟨[], outcome⟩

theorem bind_none {x : Traced σ α} {f : α → Traced σ β} (h : x.outcome = none) :
    x >>= f = ⟨x.asked, none⟩ := by
  show bind x f = _
  rw [bind, h]

theorem bind_some {x : Traced σ α} {f : α → Traced σ β} {a : α} (h : x.outcome = some a) :
    x >>= f = ⟨x.asked ++ (f a).asked, (f a).outcome⟩ := by
  show bind x f = _
  rw [bind, h]

instance : LawfulMonad (Traced σ) := by
  refine LawfulMonad.mk' _ ?_ (fun _ _ => rfl) ?_
  · rintro α ⟨asked, _ | a⟩
    · rfl
    · show Traced.mk (asked ++ []) (some a) = _
      rw [List.append_nil]
  · rintro α β γ ⟨asked, _ | a⟩ f g
    · rfl
    · show bind (bind ⟨asked, some a⟩ f) g = bind ⟨asked, some a⟩ fun x => bind (f x) g
      simp only [bind]
      cases (f a).outcome <;> simp

def outcomes : Simulation (Traced σ) Option where
  rel x y := x.outcome = y
  rel_pure _ := rfl
  rel_bind {_ _ x y f g} first next := by
    cases h : x.outcome with
    | none =>
      rw [bind_none h, ← first, h]
      rfl
    | some a =>
      rw [bind_some h, ← first, h]
      exact next a

def asking (kind : σ → Prop) : Simulation (Traced σ) (Traced σ) where
  rel x _ := ∀ s ∈ x.asked, kind s
  rel_pure _ := by simp [pure]
  rel_bind {_ _ x y f g} first next := by
    cases h : x.outcome with
    | none => rwa [bind_none h]
    | some a =>
      rw [bind_some h]
      intro s mem
      rcases List.mem_append.mp mem with before | after
      · exact first s before
      · exact next a s after

def ending (answered : σ → Prop) : Simulation (Traced σ) (Traced σ) where
  rel x _ := x.outcome.isSome ↔ ∀ s ∈ x.asked, answered s
  rel_pure _ := by simp [pure]
  rel_bind {_ _ x y f g} first next := by
    cases h : x.outcome with
    | none => simpa [bind_none h, h] using first
    | some a =>
      rw [h] at first
      have before := first.mp rfl
      rw [bind_some h]
      simp only [List.mem_append, next a]
      exact ⟨fun after s mem => mem.elim (before s) (after s), fun all s mem => all s (.inr mem)⟩

def extending : Simulation (Traced σ) (Traced σ) where
  rel x y := x.asked <+: y.asked ∧ (x.outcome.isSome → x = y)
  rel_pure _ := ⟨List.prefix_rfl, fun _ => rfl⟩
  rel_bind {_ _ x y f g} first next := by
    cases h : x.outcome with
    | none =>
      rw [bind_none h]
      refine ⟨?_, nofun⟩
      cases hy : y.outcome with
      | none => simpa [bind_none hy] using first.1
      | some b =>
        rw [bind_some hy]
        exact first.1.trans (List.prefix_append _ _)
    | some a =>
      obtain rfl := first.2 (by rw [h]; rfl)
      rw [bind_some h, bind_some h]
      refine ⟨(List.prefix_append_right_inj _).mpr (next a).1, fun ends => ?_⟩
      rw [(next a).2 ends]

end Traced

end ApiContract
