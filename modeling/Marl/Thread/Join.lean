import Mathlib.Logic.Relation

/-!
# `marl::Thread` on Windows: `join()` against `Impl::run`

The statements of `Impl::run` and the owner's `join()`, wake-ups and deletion of the `Impl`, in any interleaving
(`Step`). `reach_join_safe`: a returned `join()` saw `run` end, a blocked joiner has not missed the `notify_all()`,
and the thread touches a deleted `Impl` only if it was deleted before any `join()` returned.
`reach_join_completes_iff`: a `join()` can complete exactly when `CreateRemoteThreadEx` started the thread.
-/

namespace Marl.Thread.Join

/-! ## The thread, the owner and their steps -/

/-- Where the thread is in `Impl::run`: never started (`CreateRemoteThreadEx` failed), in `func()`, before
`func = Func()`, before it takes `mutex`, holding it before `finished = true`, before `cv.notify_all()` and before
the lock is released at the end of `run`, and after it, when the thread no longer touches the `Impl`. -/
inductive Runner
  | unstarted
  | calling
  | clearing
  | locking
  | setting
  | notifying
  | unlocking
  | exited
  deriving DecidableEq, Repr

/-- Whether the thread holds `impl->mutex`: from `std::unique_lock<std::mutex> lock(mutex)` to the end of `run`. -/
def Runner.holds : Runner → Bool
  | .setting | .notifying | .unlocking => true
  | _ => false

/-- Where the owner of the `Thread` is: outside `join()`, blocked in `impl->cv.wait`, unblocked and about to take
the mutex again, or past `~Thread`. -/
inductive Joiner
  | idle
  | blocked
  | woken
  | gone
  deriving DecidableEq, Repr

/-- The thread, the owner, `impl->finished`, whether the `Impl` is still allocated, and whether a `join()` has
returned. -/
structure Handshake where
  runner : Runner
  joiner : Joiner
  finished : Bool
  alive : Bool
  joined : Bool
  deriving DecidableEq, Repr

/-- Undefined behaviour: the thread touches an `Impl` that `~Thread` has deleted. -/
inductive Fault
  | useAfterFree
  deriving DecidableEq, Repr

/-- `cv.notify_all()`: a joiner blocked in `cv.wait` is unblocked. -/
def Joiner.notify : Joiner → Joiner
  | .blocked => .woken
  | j => j

/-- The next statement of `Impl::run`, `none` once `run` has returned or if the thread never started. -/
def advance (h : Handshake) : Option Handshake :=
  match h.runner with
  | .unstarted => none
  | .calling => some { h with runner := .clearing }
  | .clearing => some { h with runner := .locking }
  | .locking => some { h with runner := .setting }
  | .setting => some { h with runner := .notifying, finished := true }
  | .notifying => some { h with runner := .unlocking, joiner := h.joiner.notify }
  | .unlocking => some { h with runner := .exited }
  | .exited => none

/-- A step of the thread. Each statement of `run` touches `func`, `mutex`, `finished` or `cv` of the `Impl`, so on a
deleted `Impl` it is a use after free. -/
def runnerStep (h : Handshake) : Option (Except Fault Handshake) :=
  (advance h).map fun h' => if h.alive then .ok h' else .error .useAfterFree

/-- The test of `cv.wait(lock, pred)`, with `impl->mutex` held: return from `join()` when `finished` is set, and
otherwise release the mutex and block. -/
def recheck (h : Handshake) : Handshake :=
  if h.finished then { h with joiner := .idle, joined := true } else { h with joiner := .blocked }

/-- One step of the thread or of the owner: `join()` tests `finished` under `impl->mutex` and blocks; an unblocked
joiner tests it again; `~Thread` or a move assignment over the `Thread` deletes the `Impl`. -/
inductive Step : Handshake → Handshake → Prop
  | runner {h h' : Handshake} : runnerStep h = some (.ok h') → Step h h'
  | join {h : Handshake} : h.joiner = .idle → h.runner.holds = false → Step h (recheck h)
  | spurious {h : Handshake} : h.joiner = .blocked → Step h { h with joiner := .woken }
  | rejoin {h : Handshake} : h.joiner = .woken → h.runner.holds = false → Step h (recheck h)
  | destroy {h : Handshake} : h.joiner = .idle → Step h { h with joiner := .gone, alive := false }

/-- `Thread(logicalCpu, func)`: a new `Impl` with `finished = false`, and the thread started if `created`. -/
def init (created : Bool) : Handshake :=
  ⟨if created then .calling else .unstarted, .idle, false, true, false⟩

/-- The states the steps reach from a new `Thread`. -/
def Reach (created : Bool) (h : Handshake) : Prop := Relation.ReflTransGen Step (init created) h

/-! ## One statement of `run` -/

/-- The statements of `run` left before it returns. -/
def Runner.rank : Runner → Nat
  | .unstarted | .exited => 0
  | .calling => 6
  | .clearing => 5
  | .locking => 4
  | .setting => 3
  | .notifying => 2
  | .unlocking => 1

@[simp] theorem Joiner.notify_eq_gone (j : Joiner) : j.notify = .gone ↔ j = .gone := by
  cases j <;> simp [Joiner.notify]

@[simp] theorem Joiner.notify_ne_blocked (j : Joiner) : j.notify ≠ .blocked := by
  cases j <;> simp [Joiner.notify]

/-- The thread has a next statement from its start to the end of `run`. -/
theorem advance_isSome {h : Handshake} : (advance h).isSome ↔ h.runner ≠ .unstarted ∧ h.runner ≠ .exited := by
  obtain ⟨r, j, f, a, d⟩ := h
  cases r <;> simp [advance]

/-- A statement of `run` leaves one fewer to go, never goes back to `unstarted`, and frees nothing. -/
theorem advance_spec {h h' : Handshake} (ha : advance h = some h') :
    h'.runner.rank + 1 = h.runner.rank ∧ h'.runner ≠ .unstarted ∧ h'.alive = h.alive := by
  obtain ⟨r, j, f, a, d⟩ := h
  cases r <;> simp only [advance, Option.some.injEq, reduceCtorEq] at ha <;> subst ha <;> simp [Runner.rank]

/-- A statement of the thread runs as written exactly on a live `Impl`. -/
theorem runnerStep_eq_ok {h h' : Handshake} :
    runnerStep h = some (.ok h') ↔ h.alive = true ∧ advance h = some h' := by
  unfold runnerStep
  cases advance h <;> cases h.alive <;> simp [eq_comm]

/-- A statement of the thread is a use after free exactly on a deleted `Impl`. -/
theorem runnerStep_eq_error {h : Handshake} {e : Fault} :
    runnerStep h = some (.error e) ↔ h.alive = false ∧ (advance h).isSome := by
  unfold runnerStep
  cases e; cases advance h <;> cases h.alive <;> simp

/-! ## The invariant -/

/-- What holds in every state reached from `Thread(logicalCpu, func)`: `finished` is set exactly from
`finished = true` on; a `join()` that returned saw the end of `run`; a blocked joiner has not missed the
`notify_all()`; and only `~Thread` frees the `Impl`. -/
structure Inv (created : Bool) (h : Handshake) : Prop where
  started : h.runner = .unstarted ↔ created = false
  finished : h.finished = true ↔ h.runner = .notifying ∨ h.runner = .unlocking ∨ h.runner = .exited
  joined : h.joined = true → h.runner = .exited
  blocked : h.joiner = .blocked → h.runner ≠ .unlocking ∧ h.runner ≠ .exited
  alive : h.alive = false ↔ h.joiner = .gone

section Inv

variable {created : Bool} {h h' : Handshake}

/-- A new `Thread`. -/
theorem init_inv : Inv created (init created) := by
  cases created <;> constructor <;> simp [init]

/-- Each statement of `run` keeps the invariant: after `finished = true` comes the `notify_all()` that unblocks a
joiner still blocked. -/
theorem advance_inv (hi : Inv created h) (ha : advance h = some h') : Inv created h' := by
  obtain ⟨r, j, f, a, d⟩ := h
  obtain ⟨hs, hf, hd, hb, hl⟩ := hi
  cases r <;> simp only [advance, Option.some.injEq, reduceCtorEq] at ha <;> subst ha <;> constructor <;> simp_all

/-- Taking the mutex, the owner finds `finished` set only once the thread has released the mutex for good. -/
theorem recheck_inv (hi : Inv created h) (hm : h.runner.holds = false) (hg : h.joiner ≠ .gone) :
    Inv created (recheck h) := by
  obtain ⟨r, j, f, a, d⟩ := h
  obtain ⟨hs, hf, hd, hb, hl⟩ := hi
  cases f <;> cases r <;> simp only [Runner.holds, reduceCtorEq] at hm <;> constructor <;> simp_all [recheck]

/-- Every step of either side keeps the invariant. -/
theorem Step.inv (hi : Inv created h) (hs : Step h h') : Inv created h' := by
  cases hs with
  | runner hr => exact advance_inv hi (runnerStep_eq_ok.1 hr).2
  | join hj hm | rejoin hj hm => exact recheck_inv hi hm (by simp [hj])
  | spurious hj => exact ⟨hi.started, hi.finished, hi.joined, by simp, by simp [hi.alive, hj]⟩
  | destroy hj => exact ⟨hi.started, hi.finished, hi.joined, by simp [hj], by simp⟩

/-- Every state reached from a new `Thread` satisfies the invariant. -/
theorem reach_inv (hr : Reach created h) : Inv created h := by
  induction hr with
  | refl => exact init_inv
  | tail _ hs ih => exact Step.inv ih hs

end Inv

/-! ## Safety -/

/-- Over every interleaving: a `join()` that returned saw `run` finish with the `Impl`; a blocked joiner has not
missed the `notify_all()`; the thread touches a deleted `Impl` only if it was deleted before any `join()` returned,
as deleting it while the thread is in `run` does. -/
theorem reach_join_safe {created : Bool} {h : Handshake} (hr : Reach created h) :
    (h.joined = true → h.runner = .exited) ∧
    (h.joiner = .blocked → h.runner ≠ .unlocking ∧ h.runner ≠ .exited) ∧
    (runnerStep h = some (.error .useAfterFree) → h.joiner = .gone ∧ h.joined = false) ∧
    (h.joiner = .idle → h.runner ≠ .unstarted → h.runner ≠ .exited →
      ∃ h', Step h h' ∧ runnerStep h' = some (.error .useAfterFree)) := by
  have hi := reach_inv hr
  refine ⟨hi.joined, hi.blocked, fun hu => ?_, fun hj hu he => ⟨_, .destroy hj, ?_⟩⟩
  · obtain ⟨hl, hs⟩ := runnerStep_eq_error.1 hu
    refine ⟨hi.alive.1 hl, ?_⟩
    cases hd : h.joined
    · rfl
    · exact absurd (hi.joined hd) (advance_isSome.1 hs).2
  · exact runnerStep_eq_error.2 ⟨rfl, advance_isSome.2 ⟨hu, he⟩⟩

/-- The owner joins a thread that runs `run` to its end; joins a thread that has not reached `finished = true`; and
deletes the `Impl` while the thread is still in `func()`. -/
theorem reach_join_safe_runs :
    (let h : Handshake := ⟨.exited, .idle, true, true, true⟩;
      h.joined = true → h.runner = .exited) ∧
    (let h : Handshake := ⟨.calling, .blocked, false, true, false⟩;
      h.joiner = .blocked → h.runner ≠ .unlocking ∧ h.runner ≠ .exited) ∧
    (let h : Handshake := ⟨.calling, .gone, false, false, false⟩;
      runnerStep h = some (.error .useAfterFree) → h.joiner = .gone ∧ h.joined = false) ∧
    (let h := init true;
      h.joiner = .idle → h.runner ≠ .unstarted → h.runner ≠ .exited →
        ∃ h', Step h h' ∧ runnerStep h' = some (.error .useAfterFree)) :=
  ⟨(reach_join_safe (.tail (.tail (.tail (.tail (.tail (.tail (.tail .refl (.runner rfl)) (.runner rfl))
      (.runner rfl)) (.runner rfl)) (.runner rfl)) (.runner rfl)) (.join rfl rfl) :
        Reach true ⟨.exited, .idle, true, true, true⟩)).1,
    (reach_join_safe (.single (.join rfl rfl) : Reach true ⟨.calling, .blocked, false, true, false⟩)).2.1,
    (reach_join_safe (.single (.destroy rfl) : Reach true ⟨.calling, .gone, false, false, false⟩)).2.2.1,
    (reach_join_safe (.refl : Reach true (init true))).2.2.2⟩

/-! ## Completion -/

/-- With the `Impl` alive, a started thread runs `run` to its end. -/
theorem Inv.runs_to_exit {created : Bool} {h : Handshake} (hi : Inv created h) (ha : h.alive = true)
    (hu : h.runner ≠ .unstarted) :
    ∃ h', Relation.ReflTransGen Step h h' ∧ Inv created h' ∧ h'.alive = true ∧ h'.runner = .exited := by
  by_cases he : h.runner = .exited
  · exact ⟨h, .refl, hi, ha, he⟩
  · obtain ⟨h₁, h1⟩ := Option.isSome_iff_exists.1 (advance_isSome.2 ⟨hu, he⟩)
    have hr := advance_spec h1
    obtain ⟨h', hs, hi', ha', he'⟩ := (advance_inv hi h1).runs_to_exit (hr.2.2 ▸ ha) hr.2.1
    exact ⟨h', .head (.runner (runnerStep_eq_ok.2 ⟨ha, h1⟩)) hs, hi', ha', he'⟩
termination_by h.runner.rank
decreasing_by omega

/-- From every state where the `Thread` still exists, some interleaving completes a `join()` exactly when the thread
was created: otherwise `finished` is never set and no `join()` ever returns. -/
theorem reach_join_completes_iff {created : Bool} {h : Handshake} (hr : Reach created h) (hg : h.joiner ≠ .gone) :
    (∃ h', Relation.ReflTransGen Step h h' ∧ h'.joiner = .idle ∧ h'.joined = true) ↔ created = true := by
  have hi := reach_inv hr
  constructor
  · rintro ⟨h', hs, -, hd⟩
    have hi' := reach_inv (hr.trans hs)
    cases created
    · exact absurd (hi'.joined hd) (by simp [hi'.started.2 rfl])
    · rfl
  · intro hc
    have ha : h.alive = true := by simpa [← hi.alive] using hg
    obtain ⟨h₁, hs, hi₁, ha₁, he⟩ := hi.runs_to_exit ha (by simp [hi.started, hc])
    have hm : h₁.runner.holds = false := by simp [he, Runner.holds]
    have hf : h₁.finished = true := hi₁.finished.2 (by simp [he])
    refine ⟨recheck h₁, hs.tail ?_, by simp [recheck, hf]⟩
    cases hj : h₁.joiner with
    | idle => exact .join hj hm
    | woken => exact .rejoin hj hm
    | blocked => exact absurd he (hi₁.blocked hj).2
    | gone => simp [← hi₁.alive, ha₁] at hj

/-- If `CreateRemoteThreadEx` failed, a `join()` on the new `Thread` never returns. -/
theorem reach_join_completes_iff_uncreated :
    (∃ h', Relation.ReflTransGen Step (init false) h' ∧ h'.joiner = .idle ∧ h'.joined = true) ↔ false = true :=
  reach_join_completes_iff (Relation.ReflTransGen.refl : Reach false (init false)) (by decide)

end Marl.Thread.Join
