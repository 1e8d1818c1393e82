import Stacking.Diagnostic

/-!
# Settings

The waiting times of a session and what its findings are published with. The times are checked
when settings are made, so that every value of the type is usable.
-/

namespace Stacking

/-- The settings of a session. -/
structure Settings where
  /-- How long, in milliseconds, a document has to be left alone before it is analysed. -/
  debounceMs : Int := 400
  /-- How long, in milliseconds, an analysis can be put off by further changes. -/
  maxWaitMs : Int := 1000
  helpUri : String := defaultHelpUri
  source : String := defaultSource
  debounce_pos : 0 < debounceMs := by decide
  debounce_le_maxWait : debounceMs ≤ maxWaitMs := by decide

/-- Times that no session can use. -/
inductive SettingsFault where
  | debounceNotPositive (debounceMs : Int)
  | maxWaitTooSmall (maxWaitMs debounceMs : Int)
deriving DecidableEq

/-- The wording of a fault. -/
def SettingsFault.message : SettingsFault → String
  | .debounceNotPositive d => "debounce_ms must be positive, got " ++ toString d
  | .maxWaitTooSmall m d =>
    "max_wait_ms (" ++ toString m ++ ") must not be smaller than debounce_ms (" ++ toString d ++ ")"

/-- Checks the times and makes settings of them. -/
def Settings.make (debounceMs maxWaitMs : Int) (helpUri source : String) :
    Except SettingsFault Settings :=
  if h : 0 < debounceMs then
    if h' : debounceMs ≤ maxWaitMs then .ok ⟨debounceMs, maxWaitMs, helpUri, source, h, h'⟩
    else .error (.maxWaitTooSmall maxWaitMs debounceMs)
  else .error (.debounceNotPositive debounceMs)

end Stacking
