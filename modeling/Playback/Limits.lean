/-!
# Limits of a run
-/

namespace Playback

structure Limits where
  /-- How many entries a child set may hold before a frame is no longer opened in it; `none` for any
  number. -/
  iterations : Option Nat := none
  /-- How many calls of each function are traced. -/
  tracedCalls : Nat := 1000
  /-- How deep calls may be nested. -/
  recursion : Nat := 1000

end Playback
