import ApiContract.Contract.Document
import ApiContract.Text.Blank

set_option autoImplicit false

namespace ApiContract

namespace Compatibility

def accepting (older : Scenario) (variant : RequestPattern) :
    List Scenario → Option (List Scenario × Option Failure)
  | [] => return ([], none)
  | newer :: rest => do
      match ← newer.request.encompasses newer.resolver older.resolver variant with
      | .success =>
          let (taking, failure) ← accepting older variant rest
          return (newer :: taking, failure)
      | .failure failure =>
          let (taking, _) ← accepting older variant rest
          return (taking, some failure)

def noMatchingRequest : Failure :=
  (Failure.ofMessage "No matching request").under "REQUEST"

def statusGone (status : UInt16) : Verdict :=
  Verdict.under "RESPONSE" (Verdict.under "STATUS" (.fail
    ("The newer contract no longer returns status " ++ toString status.toNat
      ++ " for this request")))

def compareVariant (older : Scenario) (counterparts : List Scenario) (variant : RequestPattern) :
    Option Verdict := do
  -- The request the other way round than the response.
  let (taking, failure) ← accepting older variant counterparts
  if taking.isEmpty then return .failure (failure.getD noMatchingRequest)
  let sameStatus := taking.filter fun newer => newer.response.status = older.response.status
  if sameStatus.isEmpty then return statusGone older.response.status
  Verdict.every (fun newer : Scenario =>
    older.response.encompasses older.resolver newer.resolver newer.response) sameStatus

def apiRemoved (older : Scenario) : Verdict :=
  Verdict.under "REQUEST" (.fail ("API was removed: no " ++ older.request.method ++ " "
    ++ older.request.path.display ++ " in the newer contract"))

def compareScenario (newer : List Scenario) (older : Scenario) : Option (List Verdict) := do
  let resolver := older.resolver.withCombinations .exhaustive
  match ← (older.requestVariants resolver [] : Option (Contractual (List RequestPattern))) with
  | .error error =>
      return [((Verdict.fail error.message).under "REQUEST").inScenario older.name]
  | .ok variants =>
      let counterparts := newer.filter fun candidate =>
        candidate.request.sameShape older.request
      if counterparts.isEmpty then return [(apiRemoved older).inScenario older.name]
      variants.mapM fun variant =>
        (compareVariant older counterparts variant).map (Verdict.inScenario older.name)

def compare (older newer : Feature) : Option Report := do
  return ⟨(← older.active.mapM (compareScenario newer.active)).flatten⟩

inductive Outcome where
  | checked (report : Report)
  | unresolvable (message : String)
  | brokenOff (reason : Option String)
  deriving Repr

structure Output where
  exitCode : Nat
  message : String
  deriving DecidableEq, Repr

def summary (report : Report) (conclusion : String) : String :=
  let counts := "Tests run: " ++ toString (report.passed + report.failed) ++ ", Passed: "
    ++ toString report.passed ++ ", Failed: " ++ toString report.failed ++ "\n\n"
  let failures := Text.trim report.text
  let failures := if failures = "" then "" else failures ++ "\n\n"
  Text.trim (counts ++ failures ++ conclusion)

def Outcome.output : Outcome → Output
  | .checked report =>
      if report.success then
        ⟨0, summary report "The newer contract is backward compatible"⟩
      else ⟨1, summary report "The newer contract is NOT backward compatible"⟩
  | .unresolvable message => ⟨1, message⟩
  | .brokenOff reason =>
      ⟨1, "Could not run backward compatibility check, got exception\n"
        ++ reason.getD "unknown panic"⟩

end Compatibility

end ApiContract
