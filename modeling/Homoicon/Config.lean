/-!
# Evaluator configuration
-/

namespace Homoicon

structure Config where
  maxDepth : Nat := 256
  /-- Steps between two checks for an interrupt; zero counts as one. -/
  pollInterval : Nat := 1024
  /-- Whether every state of every step is noted in the journal. -/
  traceSteps : Bool := false
  /-- Where the interactive loop keeps its history. -/
  historyFile : Option String := none
  deriving DecidableEq, Inhabited

def Config.pollPeriod (c : Config) : Nat := max 1 c.pollInterval

theorem Config.pollPeriod_pos (c : Config) : 0 < c.pollPeriod := by
  unfold Config.pollPeriod
  omega

end Homoicon
