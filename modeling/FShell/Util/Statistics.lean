import Mathlib

/-!
# CPU timers

`CPU_Timer` subtracts a reading of the clock when it is started and adds one
when it is stopped.  Its assertions say that starts and stops alternate and
that it is not printed while it runs.

Calls that respect the protocol leave the sum of the differences of matching
readings (`run_of_protocol`).  The protocol itself looks at the calls only.
-/

namespace FShell

inductive TimerCall
  | start
  | stop
  | print
  deriving DecidableEq, Repr

/-- `CPU_Timer`. -/
structure CpuTimer (R : Type) where
  running : Bool
  time : R

/-- Whether the timer runs after the call, or a violated assertion. -/
def TimerCall.after : TimerCall → Bool → Option Bool
  | start, false => some true
  | stop, true => some false
  | print, false => some false
  | _, _ => none

/-- The calls one after the other. -/
def protocol : Bool → List TimerCall → Option Bool
  | running, [] => some running
  | running, c :: calls => (c.after running).bind fun running => protocol running calls

@[simp] theorem protocol_nil (running : Bool) : protocol running [] = some running := rfl

theorem protocol_append (running : Bool) (xs ys : List TimerCall) :
    protocol running (xs ++ ys) =
      (protocol running xs).bind fun running => protocol running ys := by
  induction xs generalizing running with
  | nil => rfl
  | cons c xs ih =>
      rw [List.cons_append, protocol, protocol, Option.bind_assoc]
      exact congrArg _ (funext fun running => ih running)

namespace CpuTimer

variable {R : Type} [AddCommGroup R]

/-- A call when the clock reads `now`. -/
def call (timer : CpuTimer R) (now : R) : TimerCall → Option (CpuTimer R)
  | .start => if timer.running then none else some ⟨true, timer.time - now⟩
  | .stop => if timer.running then some ⟨false, timer.time + now⟩ else none
  | .print => if timer.running then none else some timer

/-- The calls with their readings, up to a violated assertion. -/
def run : CpuTimer R → List (TimerCall × R) → Option (CpuTimer R)
  | timer, [] => some timer
  | timer, (c, now) :: calls => (timer.call now c).bind fun timer => run timer calls

/-- The differences between the reading of a start and that of the stop after it. -/
def differences : List (TimerCall × R) → List R
  | (.start, started) :: (.stop, stopped) :: calls => (stopped - started) :: differences calls
  | (.print, _) :: calls => differences calls
  | _ => []

/-- The assertions look at the protocol only. -/
theorem map_running_run (timer : CpuTimer R) (calls : List (TimerCall × R)) :
    (run timer calls).map CpuTimer.running = protocol timer.running (calls.map Prod.fst) := by
  induction calls generalizing timer with
  | nil => rfl
  | cons entry calls ih =>
      obtain ⟨c, now⟩ := entry
      obtain ⟨running, time⟩ := timer
      rw [List.map_cons, protocol, run, Option.map_bind]
      cases c <;> cases running <;> simp [call, TimerCall.after, ih]

/-- **The time that is reported.** -/
theorem run_of_protocol (time : R) (calls : List (TimerCall × R))
    (h : protocol false (calls.map Prod.fst) = some false) :
    run ⟨false, time⟩ calls = some ⟨false, time + (differences calls).sum⟩ := by
  induction calls using differences.induct generalizing time with
  | case1 started stopped calls ih =>
      rw [run, call, if_neg (by simp), Option.bind_some, run, call, if_pos rfl, Option.bind_some,
        ih _ h, differences, List.sum_cons]
      have htime : time - started + stopped + (differences calls).sum =
          time + (stopped - started + (differences calls).sum) := by
        rw [sub_add_comm, add_comm (stopped - started), add_assoc]
      rw [htime]
  | case2 now calls ih =>
      rw [run, call, if_neg (by simp), Option.bind_some, ih _ h, differences]
  | case3 calls hstart hprint =>
      cases calls with
      | nil => simp [run, differences]
      | cons entry calls =>
          obtain ⟨c, now⟩ := entry
          cases c with
          | stop => cases h
          | print => exact absurd rfl (hprint now calls)
          | start =>
              -- a start that is not stopped next breaks the protocol or is left running
              cases calls with
              | nil => cases h
              | cons entry calls =>
                  obtain ⟨c, now'⟩ := entry
                  cases c with
                  | stop => exact absurd rfl (hstart now now' calls)
                  | start => cases h
                  | print => cases h

end CpuTimer

end FShell
