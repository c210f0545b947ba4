import HeapShape.Ident

/-
  Errors of an analysis.

  An error is an answer of its own: unlike a fault, it leaves the state of
  the analysis behind.

  Key definitions include:
    * `AnalysisError`
    * `AnalysisError.message`
-/

namespace HeapShape

/- Why an analysis gives no result. -/
inductive AnalysisError where
  /- A function has no graph. -/
  | unknownFunction (f : FunctionId)
  /- The work list did not drain within its limit. -/
  | iterationLimit (iterations limit : Nat)
  /- A call site still needs propagation at the end. -/
  | unstable (cs : CallSiteId) (state : String)
  /- A field address leaves the word range. -/
  | offsetOverflow (function : String) (base offset : Nat)
  /- Any other reason. -/
  | other (reason : String)
deriving DecidableEq, Repr

/- The wording of an error. -/
def AnalysisError.message : AnalysisError → String
| .unknownFunction f => "Unknown function fn#" ++ toString f
| .iterationLimit iterations limit =>
    "Fixpoint did not converge after "
      ++ toString iterations ++ " iterations (limit "
      ++ toString limit ++ ")"
| .unstable cs state =>
    "Call site cs#" ++ toString cs
      ++ " is not stable after propagation: " ++ state
| .offsetOverflow function base offset =>
    "Offset overflow in " ++ function ++ ": "
      ++ toString base ++ " + " ++ toString offset
| .other reason => "Analysis error: " ++ reason

end HeapShape
