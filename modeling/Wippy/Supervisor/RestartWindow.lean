/-! The limit on restarts, `system/supervisor/restart_window.go`. A time is a number of nanoseconds. -/

namespace Wippy.Supervisor

structure RestartIntensity where
  maxRestarts : Int
  window : Int64
  deriving DecidableEq, Repr

structure RestartWindow where
  policy : Option RestartIntensity
  times : List Int := []
  next : Nat := 0
  deriving DecidableEq, Repr

/-- `Time.Sub`: the duration that is closest to the difference. -/
def sub (t u : Int) : Int64 := .ofInt (max (-9223372036854775808) (min 9223372036854775807 (t - u)))

/-- Whether a restart at `now` is admitted; `none` where the source panics. -/
def RestartWindow.admit (w : RestartWindow) (now : Int) : Option (Bool × RestartWindow) :=
  match w.policy with
  | none => some (true, w)
  | some policy =>
    if w.times.length < policy.maxRestarts then some (true, { w with times := w.times ++ [now] })
    else do
      let oldest ← w.times[w.next]?
      if sub now oldest < policy.window then some (false, w)
      else some (true, { w with times := w.times.set w.next now, next := (w.next + 1) % w.times.length })

/-- The decisions on a sequence of times, after those in `log`. -/
def RestartWindow.run (w : RestartWindow) (log : List (Int × Bool)) : List Int → Option (List (Int × Bool))
  | [] => some log
  | now :: times => do
    let (admitted, w) ← w.admit now
    w.run (log ++ [(now, admitted)]) times

end Wippy.Supervisor
