import Mathlib.Data.List.Basic

/-!
# `marl::Event`

`Event` (`marl/event.h`) is a flag and a `Mode` behind a mutex. Every method holds the mutex for its whole body, so
each is one atomic step on `Data`, and a wait that finds the event unsignalled sleeps and returns in a later step.
`Run` is any interleaving of such steps by any number of threads. Main result: `event_contract`, from the step
invariant `auto_step_bound`.
-/

namespace Marl.Event

/-! ## The shared data and the methods -/

/-- `Event::Mode`. -/
inductive Mode
  | auto
  | manual
  deriving DecidableEq, Repr

/-- `Event::Data`, less its mutex and condition variable. -/
structure Data where
  mode : Mode
  signalled : Bool
  deriving DecidableEq, Repr

/-- `Event::Event(mode, initialState)`. -/
def new (mode : Mode) (initialState : Bool) : Data := ⟨mode, initialState⟩

/-- `Event::signal`: an event already signalled is left as it is. -/
def signal (d : Data) : Data :=
  if d.signalled then d else { d with signalled := true }

/-- `Event::clear`. -/
def clear (d : Data) : Data := { d with signalled := false }

/-- The auto-reset that ends `wait`, `wait_for`, `wait_until` and a successful `test`. -/
def autoReset (d : Data) : Data :=
  if d.mode = .auto then { d with signalled := false } else d

/-- `Event::test`. It is also what `wait_for` and `wait_until` do once `cv.wait_for` has returned, since the
condition variable returns the value of the predicate `signalled`. -/
def test (d : Data) : Bool × Data :=
  if !d.signalled then (false, d) else (true, autoReset d)

/-- `Event::isSignalled`. -/
def isSignalled (d : Data) : Bool × Data := (d.signalled, d)

@[simp] theorem signal_mode (d : Data) : (signal d).mode = d.mode := by
  unfold signal; split <;> rfl

@[simp] theorem signal_signalled (d : Data) : (signal d).signalled = true := by
  unfold signal; split <;> simp_all

@[simp] theorem autoReset_mode (d : Data) : (autoReset d).mode = d.mode := by
  unfold autoReset; split <;> rfl

theorem autoReset_signalled (d : Data) : (autoReset d).signalled = (d.signalled && d.mode != .auto) := by
  unfold autoReset; split <;> simp_all

@[simp] theorem test_mode (d : Data) : (test d).2.mode = d.mode := by
  unfold test; split <;> simp

/-! ## Threads, steps and runs -/

/-- Where a thread is in its calls on the event: between calls, or asleep in the `cv.wait` of `wait`
(`timed = false`) or of `wait_for` / `wait_until` (`timed = true`). -/
inductive Pc
  | idle
  | asleep (timed : Bool)
  deriving DecidableEq, Repr

/-- The shared data and the threads that hold copies of the event. -/
structure Sys where
  data : Data
  threads : List Pc

/-- What a step returns: `signal` reports the flag it read, and `sleep` is a wait that went to sleep. -/
inductive Obs
  | signal (found : Bool)
  | clear
  | test (r : Bool)
  | isSignalled (r : Bool)
  | sleep
  | waitReturn (r : Bool)
  deriving DecidableEq, Repr

/-- One atomic step of thread `i`: a whole call that does not block; the start of a wait, which returns at once on a
signalled event (`cv.wait` tests `pred` first); a sleeper woken with `signalled` set; or a timed sleeper at its
deadline, returning what `test` returns (`timeout`) or, untested, `false` (`expire`). -/
inductive Step : Sys → Obs → Sys → Prop
  | signal {d ts} (i : Nat) : ts[i]? = some .idle → Step ⟨d, ts⟩ (.signal d.signalled) ⟨signal d, ts⟩
  | clear {d ts} (i : Nat) : ts[i]? = some .idle → Step ⟨d, ts⟩ .clear ⟨clear d, ts⟩
  | test {d ts} (i : Nat) : ts[i]? = some .idle → Step ⟨d, ts⟩ (.test (test d).1) ⟨(test d).2, ts⟩
  | isSignalled {d ts} (i : Nat) : ts[i]? = some .idle →
      Step ⟨d, ts⟩ (.isSignalled (isSignalled d).1) ⟨(isSignalled d).2, ts⟩
  | waitNow {d ts} (i : Nat) : ts[i]? = some .idle → d.signalled = true →
      Step ⟨d, ts⟩ (.waitReturn true) ⟨autoReset d, ts⟩
  | sleep {d ts} (i : Nat) (timed : Bool) : ts[i]? = some .idle → d.signalled = false →
      Step ⟨d, ts⟩ .sleep ⟨d, ts.set i (.asleep timed)⟩
  | wake {d ts timed} (i : Nat) : ts[i]? = some (.asleep timed) → d.signalled = true →
      Step ⟨d, ts⟩ (.waitReturn true) ⟨autoReset d, ts.set i .idle⟩
  | timeout {d ts} (i : Nat) : ts[i]? = some (.asleep true) →
      Step ⟨d, ts⟩ (.waitReturn (test d).1) ⟨(test d).2, ts.set i .idle⟩
  | expire {d ts} (i : Nat) : ts[i]? = some (.asleep true) →
      Step ⟨d, ts⟩ (.waitReturn false) ⟨d, ts.set i .idle⟩

/-- Any interleaving of steps, with what each returned, in order. -/
inductive Run : Sys → List Obs → Sys → Prop
  | refl (s : Sys) : Run s [] s
  | tail {s t u : Sys} {tr : List Obs} {o : Obs} : Run s tr t → Step t o u → Run s (tr ++ [o]) u

/-- A call that succeeded: a wait that returned, or a `test` or timed wait that returned `true`. -/
def Obs.success : Obs → Bool
  | .test r => r
  | .waitReturn r => r
  | _ => false

/-- A `signal` that found the event unsignalled. -/
def Obs.freshSignal : Obs → Bool
  | .signal found => !found
  | _ => false

theorem step_mode {s s' : Sys} {o : Obs} (h : Step s o s') : s'.data.mode = s.data.mode := by
  cases h <;> simp [clear, isSignalled]

theorem run_mode {s s' : Sys} {tr : List Obs} (h : Run s tr s') : s'.data.mode = s.data.mode := by
  induction h with
  | refl => rfl
  | tail _ hs ih => rw [step_mode hs, ih]

/-! ## `Auto` mode: one fresh signal, one success -/

/-- In `Auto` mode a step that succeeds consumes the flag, and only a fresh signal raises it. -/
theorem auto_step_bound {s s' : Sys} {o : Obs} (h : Step s o s') (ha : s.data.mode = .auto) :
    o.success.toNat + s'.data.signalled.toNat ≤ o.freshSignal.toNat + s.data.signalled.toNat := by
  cases h with
  | @signal d => cases hd : d.signalled <;> simp_all [Obs.success, Obs.freshSignal, signal]
  | clear => simp [Obs.success, Obs.freshSignal, clear]
  | @test d | @timeout d => cases hd : d.signalled <;> simp_all [Obs.success, Obs.freshSignal, test, autoReset]
  | isSignalled => simp [Obs.success, Obs.freshSignal, isSignalled]
  | waitNow | wake => simp_all [Obs.success, Obs.freshSignal, autoReset]
  | sleep | expire => simp [Obs.success, Obs.freshSignal]

/-- Over any run of an `Auto` event, successes plus the final flag are bounded by fresh signals plus the first
flag. -/
theorem auto_run_bound {s s' : Sys} {tr : List Obs} (h : Run s tr s') (ha : s.data.mode = .auto) :
    tr.countP Obs.success + s'.data.signalled.toNat ≤ tr.countP Obs.freshSignal + s.data.signalled.toNat := by
  induction h with
  | refl => simp
  | tail hr hs ih =>
    have := auto_step_bound hs (by rw [run_mode hr, ha])
    simp only [List.countP_append, List.countP_singleton] at *
    split <;> split <;> simp_all <;> omega

/-! ## `Manual` mode and `isSignalled` -/

/-- In `Manual` mode no step but `clear` takes the flag from `true` to `false`. -/
theorem manual_reset_only_clear {s s' : Sys} {o : Obs} (h : Step s o s') (hm : s.data.mode = .manual)
    (hs : s.data.signalled = true) (hs' : s'.data.signalled = false) : o = .clear := by
  cases h <;> simp_all [signal, test, autoReset, isSignalled]

/-- `isSignalled` changes neither the data nor any thread. -/
theorem isSignalled_step_eq {s s' : Sys} {r : Bool} (h : Step s (.isSignalled r) s') : s' = s := by
  cases h; rfl

/-! ## The contract over every interleaving -/

/-- For any threads sharing one event: in `Auto` mode the successful calls never outnumber the fresh signals plus
one for an initially signalled event; in `Manual` mode only `clear` resets the flag; `isSignalled` changes
nothing. -/
theorem event_contract :
    (∀ (init : Bool) (ts : List Pc) (tr : List Obs) (s : Sys), Run ⟨new .auto init, ts⟩ tr s →
      tr.countP Obs.success ≤ tr.countP Obs.freshSignal + init.toNat) ∧
    (∀ (s s' : Sys) (o : Obs), Step s o s' → s.data.mode = .manual → s.data.signalled = true →
      s'.data.signalled = false → o = .clear) ∧
    (∀ (s s' : Sys) (r : Bool), Step s (.isSignalled r) s' → s' = s) := by
  refine ⟨fun init ts tr s h => ?_, fun _ _ _ => manual_reset_only_clear, fun _ _ _ => isSignalled_step_eq⟩
  have := auto_run_bound h rfl
  simp only [new] at this
  omega

/-- Two threads wait on an `Auto` event, the second with a deadline; a third signals it; the timed wait expires
returning `false`, and the first wait returns. A `Manual` event is cleared, and `isSignalled` is read. -/
theorem event_contract_at_signal_test :
    Run ⟨new .auto false, [.idle, .idle, .idle]⟩
        [.sleep, .sleep, .signal false, .waitReturn false, .waitReturn true]
        ⟨new .auto false, [.idle, .idle, .idle]⟩ ∧
      [Obs.sleep, .sleep, .signal false, .waitReturn false, .waitReturn true].countP Obs.success ≤
        [Obs.sleep, .sleep, .signal false, .waitReturn false, .waitReturn true].countP Obs.freshSignal +
          (false : Bool).toNat ∧
      (Step ⟨new .manual true, [.idle]⟩ .clear ⟨clear (new .manual true), [.idle]⟩ ∧ Obs.clear = .clear) ∧
      (Step ⟨new .auto true, [.idle]⟩ (.isSignalled true) ⟨new .auto true, [.idle]⟩ ∧
        (⟨new .auto true, [.idle]⟩ : Sys) = ⟨new .auto true, [.idle]⟩) := by
  have hr : Run ⟨new .auto false, [.idle, .idle, .idle]⟩
      [.sleep, .sleep, .signal false, .waitReturn false, .waitReturn true]
      ⟨new .auto false, [.idle, .idle, .idle]⟩ :=
    .tail (.tail (.tail (.tail (.tail (.refl ⟨new .auto false, [.idle, .idle, .idle]⟩) (.sleep 0 false rfl rfl))
      (.sleep 1 true rfl rfl)) (.signal 2 rfl)) (.expire 1 rfl)) (.wake 0 rfl rfl)
  have hc : Step ⟨new .manual true, [.idle]⟩ .clear ⟨clear (new .manual true), [.idle]⟩ := .clear 0 rfl
  have hi : Step ⟨new .auto true, [.idle]⟩ (.isSignalled true) ⟨new .auto true, [.idle]⟩ := .isSignalled 0 rfl
  exact ⟨hr, event_contract.1 false _ _ _ hr, ⟨hc, event_contract.2.1 _ _ _ hc rfl rfl rfl⟩,
    ⟨hi, event_contract.2.2 _ _ _ hi⟩⟩

end Marl.Event
