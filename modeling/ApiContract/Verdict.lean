import ApiContract.Breadcrumb
import ApiContract.Value.Basic

set_option autoImplicit false

namespace ApiContract

structure Failure where
  crumbs : List String
  message : String
  scenario : Option String
  deriving DecidableEq, Repr

namespace Failure

def ofMessage (message : String) : Failure :=
  ⟨[], message, none⟩

def under (crumb : String) (failure : Failure) : Failure :=
  { failure with crumbs := crumb :: failure.crumbs }

def path (failure : Failure) : String :=
  Breadcrumb.render failure.crumbs

def messages (failure : Failure) : List String :=
  if failure.message = "" then [] else [failure.message]

def report (failure : Failure) : String :=
  let scenario := match failure.scenario with
    | some name => "In scenario \"" ++ name ++ "\"\n"
    | none => ""
  let place := if failure.path = "" then "" else ">> " ++ failure.path ++ "\n\n"
  scenario ++ place ++ failure.message

end Failure

inductive Verdict where
  | success
  | failure (f : Failure)
  deriving DecidableEq, Repr, Inhabited

namespace Verdict

def fail (message : String) : Verdict :=
  .failure (Failure.ofMessage message)

def mismatch (expected : String) (actual : Value) : Verdict :=
  fail ("Expected " ++ expected ++ ", actual was " ++ actual.display)

def isSuccess : Verdict → Bool
  | .success => true
  | .failure _ => false

def under (crumb : String) : Verdict → Verdict
  | .success => .success
  | .failure f => .failure (f.under crumb)

def inScenario (name : String) : Verdict → Verdict
  | .success => .success
  | .failure f => .failure { f with scenario := some name }

def andThen : Verdict → (Unit → Verdict) → Verdict
  | .success, next => next ()
  | failed, _ => failed

def all : List Verdict → Verdict
  | [] => .success
  | .success :: rest => all rest
  | .failure f :: _ => .failure f

def failure? : Verdict → Option Failure
  | .success => none
  | .failure f => some f

section Checks

variable {m : Type → Type} [Monad m] {α : Type}

def thenCheck (first : m Verdict) (second : Unit → m Verdict) : m Verdict := do
  match ← first with
  | .success => second ()
  | failed => return failed

def every (check : α → m Verdict) : List α → m Verdict
  | [] => pure .success
  | a :: rest => thenCheck (check a) fun _ => every check rest

def refusals (check : α → m Verdict) : List α → m (Option (List Failure))
  -- Runs the check on one after the other until one succeeds; none then, else all failures.
  | [] => pure (some [])
  | a :: rest => do
      match ← check a with
      | .success => return none
      | .failure f =>
          match ← refusals check rest with
          | none => return none
          | some fs => return some (f :: fs)

end Checks

end Verdict

structure Report where
  verdicts : List Verdict
  deriving DecidableEq, Repr

namespace Report

def passed (report : Report) : Nat :=
  report.verdicts.countP Verdict.isSuccess

def failed (report : Report) : Nat :=
  report.verdicts.countP fun verdict => !verdict.isSuccess

def success (report : Report) : Bool :=
  report.failed = 0

def failures (report : Report) : List Failure :=
  report.verdicts.filterMap Verdict.failure?

def merge (a b : Report) : Report :=
  ⟨a.verdicts ++ b.verdicts⟩

def text (report : Report) : String :=
  "\n\n".intercalate (report.failures.map Failure.report)

end Report

end ApiContract
