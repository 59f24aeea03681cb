import Mathlib.Logic.Function.Basic
import Mathlib.Data.List.Basic
import Marl.Ownership

/-!
# `marl::Thread`: who holds a `Thread::Impl`

The `Thread` operations of `thread.cpp` on either platform, over any number of `Thread` variables, with a log of
what the code does to each `Impl`. Main results: `run_impl_ownership` (single ownership, each `Impl` deleted at most
once and, once every `Thread` is gone, exactly once, on POSIX after its `join()`), `run_fault_kinds` (what can go
wrong next) and `moveAssign_release_differs` (a move assignment deletes an `Impl` without `CloseHandle`).
-/

namespace Marl.Thread

/-! ## The data and the operations -/

/-- The two implementations of `Thread` in `thread.cpp`. -/
inductive Platform
  | windows
  | posix
  deriving DecidableEq, Repr

/-- What the code does to an `Impl`: `new Impl` (and `CreateRemoteThreadEx` on Windows),
`CloseHandle(impl->handle)`, and `delete impl`. -/
inductive Call
  | create (impl : Nat)
  | closeHandle (impl : Nat)
  | delete (impl : Nat)
  deriving DecidableEq, Repr

/-- What ends the program or is undefined: a `delete` of an `Impl` already deleted; a use of a `Thread` outside its
lifetime; `join()` on a `Thread` holding `nullptr`; on POSIX, `join()` of a thread already joined, which throws
`std::system_error`, and the destruction of a `std::thread` not joined, which calls `std::terminate`. -/
inductive Fault
  | doubleDelete
  | lifetime
  | joinNull
  | notJoinable
  | terminate
  deriving DecidableEq, Repr

/-- Every `Impl` ever created (alive or deleted), the `impl` of each `Thread` variable (`none` when the variable is
not alive), whether the thread of each `Impl` has been joined, and the log of calls. -/
structure World where
  impls : List Bool
  ts : Nat → Option (Option Nat)
  joined : Nat → Bool
  log : List Call

/-- The operations on the `Thread` variables of a program. -/
inductive Op
  | ctor (i : Nat)
  | ctorMove (i j : Nat)
  | assignMove (i j : Nat)
  | join (i : Nat)
  | dtor (i : Nat)

/-- Whether `Impl` `n` is alive. -/
def alive (w : World) (n : Nat) : Bool := w.impls[n]?.getD false

/-- `delete impl`: the `Impl` must be alive. On POSIX it destroys `impl->thread`, and `~std::thread` calls
`std::terminate` when the thread has not been joined. -/
def deleteImpl (pf : Platform) (w : World) (n : Nat) : Except Fault World :=
  if !alive w n then .error .doubleDelete
  else if pf = .posix ∧ w.joined n = false then .error .terminate
  else .ok { w with impls := w.impls.set n false, log := w.log ++ [.delete n] }

/-- `~Thread()`. On Windows `if (impl) { CloseHandle(impl->handle); delete impl; }`; on POSIX `delete impl;`,
which does nothing on `nullptr`. -/
def release : Platform → World → Option Nat → Except Fault World
  | .windows, w, some n => deleteImpl .windows { w with log := w.log ++ [.closeHandle n] } n
  | .windows, w, none => pure w
  | .posix, w, some n => deleteImpl .posix w n
  | .posix, w, none => pure w

/-- `Thread::join()`. On Windows `MARL_ASSERT(impl != nullptr)`, then a wait until the thread function has returned
(it is taken to return), which a later `join()` finds at once; on POSIX `impl->thread.join()`. -/
def join (pf : Platform) (w : World) : Option Nat → Except Fault World
  | none => .error .joinNull
  | some n =>
    if pf = .posix ∧ w.joined n = true then .error .notJoinable
    else .ok { w with joined := Function.update w.joined n true }

/-- `Thread` variable `i` must be alive; its `impl`. -/
def live (w : World) (i : Nat) : Except Fault (Option Nat) :=
  match w.ts i with
  | some impl => .ok impl
  | none => .error .lifetime

/-- Variable `i` must not hold a live `Thread` yet. -/
def fresh (w : World) (i : Nat) : Except Fault Unit :=
  match w.ts i with
  | some _ => .error .lifetime
  | none => .ok ()

/-- The first statement of `operator=(Thread&& rhs)`: `if (impl) { delete impl; impl = nullptr; }`. -/
def dropImpl (pf : Platform) (w : World) (i : Nat) : Option Nat → Except Fault World
  | some n => do
    let w ← deleteImpl pf w n
    pure { w with ts := Function.update w.ts i (some none) }
  | none => pure w

/-- One operation. `Thread(logicalCpu, func)` creates an `Impl`; `Thread(Thread&& rhs)` takes `rhs.impl`;
`operator=(Thread&& rhs)` runs `if (impl) { delete impl; impl = nullptr; } impl = rhs.impl; rhs.impl = nullptr;`;
`join()` runs `join`; `~Thread()` runs `release`. -/
def exec (pf : Platform) (w : World) : Op → Except Fault World
  | .ctor i => do
    fresh w i
    pure { w with impls := w.impls ++ [true], ts := Function.update w.ts i (some (some w.impls.length)),
                  log := w.log ++ [.create w.impls.length] }
  | .ctorMove i j => do
    fresh w i
    let rhs ← live w j
    pure { w with ts := Function.update (Function.update w.ts i (some rhs)) j (some none) }
  | .assignMove i j => do
    let impl ← live w i
    let w ← dropImpl pf w i impl
    let rhs ← live w j
    let w := { w with ts := Function.update w.ts i (some rhs) }
    pure { w with ts := Function.update w.ts j (some none) }
  | .join i => do
    let impl ← live w i
    join pf w impl
  | .dtor i => do
    let impl ← live w i
    let w ← release pf w impl
    pure { w with ts := Function.update w.ts i none }

/-- The program before its first operation. -/
def World.init : World := ⟨[], fun _ => none, fun _ => false, []⟩

/-- The operations a program can write: constructors into variables not yet alive, the others on live `Thread`s. -/
def Op.Lifetime (w : World) : Op → Prop
  | .ctor i => w.ts i = none
  | .ctorMove i j => w.ts i = none ∧ w.ts j ≠ none
  | .assignMove i j => w.ts i ≠ none ∧ w.ts j ≠ none
  | .join i | .dtor i => w.ts i ≠ none

/-! ## Ownership of the `Impl`s -/

/-- The `Impl` variable `i` holds. -/
def own (w : World) (i : Nat) : Option Nat := (w.ts i).join

/-- The `Impl` an operation deletes: the one a move assignment overwrites (its own on a move to itself), or the one
`~Thread` releases. -/
def Op.deletes (w : World) : Op → Option Nat
  | .assignMove i _ | .dtor i => own w i
  | _ => none

/-- On POSIX, an operation that deletes an `Impl` whose thread has not been joined. -/
def Op.Terminates (pf : Platform) (w : World) (op : Op) : Prop :=
  pf = .posix ∧ ∃ n, op.deletes w = some n ∧ w.joined n = false

/-- A `join()` of a `Thread` holding `nullptr`. -/
def Op.JoinsNull (w : World) : Op → Prop
  | .join i => w.ts i = some none
  | _ => False

/-- On POSIX, a `join()` of a thread already joined. -/
def Op.JoinsTwice (pf : Platform) (w : World) : Op → Prop
  | .join i => pf = .posix ∧ ∃ n, own w i = some n ∧ w.joined n = true
  | _ => False

/-- Single ownership of the `Impl`s; in the log one `delete` of each `Impl` deleted and none of the others; on
POSIX every `Impl` deleted was joined first. -/
structure Inv (pf : Platform) (w : World) : Prop where
  owns : Ownership.Inv (own w) (alive w)
  deletes : ∀ n, w.log.count (.delete n) = if n < w.impls.length ∧ alive w n = false then 1 else 0
  joinedFirst : pf = .posix → ∀ n < w.impls.length, alive w n = false → w.joined n = true

theorem inv_init (pf : Platform) : Inv pf World.init :=
  ⟨⟨fun o => by simp [alive, own, World.init], fun _ _ _ h => by simp [own, World.init] at h⟩,
    fun n => by simp [World.init], fun _ n hn => by simp [World.init] at hn⟩

section Steps

variable {pf : Platform} {w w' : World} {i j n : Nat}

theorem alive_lt (h : alive w n = true) : n < w.impls.length := by
  by_contra hn
  simp [alive, List.getElem?_eq_none (by omega : w.impls.length ≤ n)] at h

theorem deleteImpl_of_alive (h : alive w n = true) (hj : pf = .posix → w.joined n = true) :
    deleteImpl pf w n = .ok { w with impls := w.impls.set n false, log := w.log ++ [.delete n] } := by
  cases pf <;> simp_all [deleteImpl]

theorem deleteImpl_terminate (h : alive w n = true) (hj : w.joined n = false) :
    deleteImpl .posix w n = .error .terminate := by
  simp [deleteImpl, h, hj]

theorem alive_set (ts : Nat → Option (Option Nat)) (jn : Nat → Bool) (log : List Call) (x : Nat) :
    alive ⟨w.impls.set n false, ts, jn, log⟩ x = (alive w x && x != n) := by
  by_cases hx : x = n
  · subst hx
    simp only [alive, List.getElem?_set_self', bne_self_eq_false, Bool.and_false]
    cases w.impls[x]? <;> rfl
  · simp [alive, List.getElem?_set_ne (Ne.symm hx), hx]

/-- Variable `i` releases the `Impl` `n` it holds, joined first on POSIX; the log gains calls `cs` with one
`delete n` and no other `delete`, and `i` is left holding `nullptr` or not alive. -/
theorem Inv.release (hw : Inv pf w) (hi : own w i = some n) (hj : pf = .posix → w.joined n = true)
    {v : Option (Option Nat)} (hv : v.join = none) {cs : List Call}
    (hcs : ∀ x, cs.count (.delete x) = if x = n then 1 else 0) :
    Inv pf ⟨w.impls.set n false, Function.update w.ts i v, w.joined, w.log ++ cs⟩ := by
  have hn := hw.owns.owned hi
  constructor
  · refine hw.owns.rebind (i := i) none (fun k => ?_) (fun x => ?_) (by simp)
    · by_cases hk : k = i
      · subst hk; simp only [own, Function.update_same, hv, if_true]
      · simp [own, hk]
    · rw [alive_set _ _ _ x, hi]
      by_cases hx : x = n
      · simp [hx]
      · simp [hx, Ne.symm hx]
  · intro x
    rw [List.count_append, hw.deletes x, hcs x, alive_set _ _ _ x, List.length_set]
    by_cases hx : x = n
    · subst hx; simp [hn, alive_lt hn]
    · simp [hx]
  · intro hp x hx hd
    rw [alive_set _ _ _ x] at hd
    by_cases hxn : x = n
    · exact hxn ▸ hj hp
    · exact hw.joinedFirst hp x (by simpa using hx) (by simpa [hxn] using hd)

theorem alive_push (ts : Nat → Option (Option Nat)) (jn : Nat → Bool) (log : List Call) (x : Nat) :
    alive ⟨w.impls ++ [true], ts, jn, log⟩ x = (alive w x || x == w.impls.length) := by
  unfold alive
  rcases Nat.lt_trichotomy x w.impls.length with h | rfl | h
  · simp [List.getElem?_append_left h, h.ne]
  · simp
  · simp [List.getElem?_eq_none (by simp; omega : (w.impls ++ [true]).length ≤ x),
      List.getElem?_eq_none (by omega : w.impls.length ≤ x), h.ne']

/-- The move constructor, into a variable holding nothing: `j`'s `Impl` passes to `i`. -/
theorem Inv.move (hw : Inv pf w) (hi : own w i = none) (hij : i ≠ j) {rhs : Option Nat} (hj : w.ts j = some rhs) :
    Inv pf { w with ts := Function.update (Function.update w.ts i (some rhs)) j (some none) } := by
  refine ⟨?_, hw.deletes, hw.joinedFirst⟩
  cases rhs with
  | none =>
    refine hw.owns.rebind (i := i) none (fun k => ?_) (fun x => by simp [hi, alive]) (by simp)
    by_cases hkj : k = j
    · subst hkj; simp [own, hj, Ne.symm hij]
    · by_cases hk : k = i
      · subst hk; simp [own, hkj]
      · simp [own, hk, hkj]
  | some o =>
    have ho : own w j = some o := by simp [own, hj]
    have hal := hw.owns.owned ho
    refine hw.owns.transfer o hij ho hi (fun k => ?_) (fun x => ?_) (fun _ => rfl)
    · by_cases hkj : k = j
      · subst hkj; simp [own, Ne.symm hij]
      · by_cases hk : k = i
        · subst hk; simp [own, hkj]
        · simp [own, hk, hkj]
    · by_cases hx : x = o
      · subst hx; simpa [alive] using hal
      · simp [alive, beq_false_of_ne hx, hx]

theorem exec_ctor (hw : Inv pf w) (h : w.ts i = none) : ∃ w', exec pf w (.ctor i) = .ok w' ∧ Inv pf w' := by
  refine ⟨_, by simp [exec, fresh, h, bind, Except.bind, pure, Except.pure]; rfl, ?_, fun x => ?_, ?_⟩
  · refine hw.owns.rebind (i := i) (some w.impls.length) (fun k => ?_) (fun x => ?_)
      (fun n hn => ?_)
    · by_cases hk : k = i
      · subst hk; simp [own]
      · simp [own, hk]
    · rw [alive_push, show own w i = none by simp [own, h]]
      simp only [Bool.or_eq_true, beq_iff_eq, ne_eq, reduceCtorEq, not_false_eq_true, and_true, Option.some.injEq]
      exact or_congr_right eq_comm
    · cases hn
      cases ha : alive w w.impls.length
      · rfl
      · exact absurd (alive_lt ha) (lt_irrefl _)
  · simp only [List.count_append, List.count_singleton', alive_push, List.length_append, List.length_singleton]
    rw [hw.deletes x]
    by_cases hx : x = w.impls.length
    · subst hx; simp
    · have : x < w.impls.length + 1 ↔ x < w.impls.length := by omega
      simp [hx, this]
  · intro hp x hx hd
    simp only [alive_push, Bool.or_eq_false_iff, beq_eq_false_iff_ne, List.length_append,
      List.length_singleton] at hd hx
    exact hw.joinedFirst hp x (by omega) hd.1

theorem exec_ctorMove (hw : Inv pf w) (h : Op.Lifetime w (.ctorMove i j)) :
    ∃ w', exec pf w (.ctorMove i j) = .ok w' ∧ Inv pf w' := by
  obtain ⟨hi, hj⟩ := h
  obtain ⟨rhs, hrhs⟩ := Option.ne_none_iff_exists'.1 hj
  have hij : i ≠ j := fun e => by simp [e, hrhs] at hi
  exact ⟨_, by simp [exec, fresh, live, hi, hrhs, bind, Except.bind, pure, Except.pure],
    hw.move (by simp [own, hi]) hij hrhs⟩

/-- The first statement of a move assignment, when it does not terminate the program: variable `i` is left holding
`nullptr`, and no other variable and no thread changes. -/
theorem dropImpl_spec (hw : Inv pf w) {impl : Option Nat} (hti : w.ts i = some impl)
    (ht : ¬ (Op.assignMove i j).Terminates pf w) :
    ∃ w₁, dropImpl pf w i impl = .ok w₁ ∧ Inv pf w₁ ∧ w₁.ts i = some none ∧ (∀ k, k ≠ i → w₁.ts k = w.ts k) ∧
      w₁.joined = w.joined := by
  cases impl with
  | none => exact ⟨w, rfl, hw, hti, fun _ _ => rfl, rfl⟩
  | some n =>
    have hi : own w i = some n := by simp [own, hti]
    have hj : pf = .posix → w.joined n = true := fun hp => by simpa using fun h => ht ⟨hp, n, hi, h⟩
    refine ⟨⟨w.impls.set n false, Function.update w.ts i (some none), w.joined, w.log ++ [.delete n]⟩,
      by simp [dropImpl, deleteImpl_of_alive (hw.owns.owned hi) hj, bind, Except.bind, pure, Except.pure],
      hw.release hi hj (v := some none) rfl (fun x => ?_), by simp, fun k hk => by simp [hk], rfl⟩
    by_cases hx : x = n <;> simp [hx]

theorem exec_assignMove (hw : Inv pf w) (h : Op.Lifetime w (.assignMove i j))
    (ht : ¬ (Op.assignMove i j).Terminates pf w) : ∃ w', exec pf w (.assignMove i j) = .ok w' ∧ Inv pf w' := by
  obtain ⟨hi, hj⟩ := h
  obtain ⟨impl, hti⟩ := Option.ne_none_iff_exists'.1 hi
  obtain ⟨w₁, he₁, hw₁, hi₁, hk₁, -⟩ := dropImpl_spec hw hti ht
  by_cases hij : j = i
  · subst hij
    refine ⟨w₁, ?_, hw₁⟩
    simp only [exec, live, hti, he₁, hi₁, bind, Except.bind, pure, Except.pure, Function.update_idem]
    rw [← hi₁, Function.update_eq_self]
  · obtain ⟨rhs, hrhs⟩ := Option.ne_none_iff_exists'.1 hj
    have hrhs₁ : w₁.ts j = some rhs := by rw [hk₁ j hij, hrhs]
    exact ⟨_, by simp [exec, live, hti, he₁, hrhs₁, bind, Except.bind, pure, Except.pure],
      hw₁.move (by simp [own, hi₁]) (Ne.symm hij) hrhs₁⟩

theorem exec_join (hw : Inv pf w) (h : w.ts i ≠ none) (hn : ¬ (Op.join i).JoinsNull w)
    (ht : ¬ (Op.join i).JoinsTwice pf w) : ∃ w', exec pf w (.join i) = .ok w' ∧ Inv pf w' := by
  obtain ⟨impl, hti⟩ := Option.ne_none_iff_exists'.1 h
  cases impl with
  | none => exact absurd hti hn
  | some n =>
    have hj : ¬ (pf = .posix ∧ w.joined n = true) := fun hp => ht ⟨hp.1, n, by simp [own, hti], hp.2⟩
    refine ⟨{ w with joined := Function.update w.joined n true },
      by simp only [exec, live, hti, join, hj, bind, Except.bind, if_false], hw.owns, hw.deletes, fun hp x hx hd => ?_⟩
    by_cases hx' : x = n
    · subst hx'; simp
    · simpa [hx'] using hw.joinedFirst hp x hx hd

theorem exec_dtor (hw : Inv pf w) (h : w.ts i ≠ none) (ht : ¬ (Op.dtor i).Terminates pf w) :
    ∃ w', exec pf w (.dtor i) = .ok w' ∧ Inv pf w' := by
  obtain ⟨impl, hti⟩ := Option.ne_none_iff_exists'.1 h
  cases impl with
  | none =>
    refine ⟨{ w with ts := Function.update w.ts i none }, by
      cases pf <;> simp [exec, live, hti, release, bind, Except.bind, pure, Except.pure],
      ?_, hw.deletes, hw.joinedFirst⟩
    refine hw.owns.rebind (i := i) none (fun k => ?_) (fun x => by simp [alive, own, hti]) (by simp)
    by_cases hk : k = i
    · subst hk; simp [own]
    · simp [own, hk]
  | some n =>
    have hi : own w i = some n := by simp [own, hti]
    have hn := hw.owns.owned hi
    cases pf with
    | windows =>
      refine ⟨⟨w.impls.set n false, Function.update w.ts i none, w.joined, w.log ++ [.closeHandle n, .delete n]⟩,
        ?_, hw.release hi nofun (v := none) rfl (fun x => ?_)⟩
      · have hn' : w.impls[n]?.getD false = true := hn
        simp [exec, live, hti, release, deleteImpl, alive, hn', bind, Except.bind, pure, Except.pure]
      · by_cases hx : x = n <;> simp [hx]
    | posix =>
      have hj : w.joined n = true := by simpa using fun h => ht ⟨rfl, n, hi, h⟩
      refine ⟨⟨w.impls.set n false, Function.update w.ts i none, w.joined, w.log ++ [.delete n]⟩, ?_,
        hw.release hi (fun _ => hj) (v := none) rfl (fun x => ?_)⟩
      · simp [exec, live, hti, release, deleteImpl_of_alive hn (fun _ => hj), bind, Except.bind, pure, Except.pure]
      · by_cases hx : x = n <;> simp [hx]

/-- An operation on live `Thread`s that neither terminates the program nor joins wrongly succeeds and keeps the
invariant. -/
theorem exec_of_lifetime (hw : Inv pf w) {op : Op} (hl : Op.Lifetime w op) (ht : ¬ op.Terminates pf w)
    (hn : ¬ op.JoinsNull w) (hj : ¬ op.JoinsTwice pf w) : ∃ w', exec pf w op = .ok w' ∧ Inv pf w' := by
  cases op with
  | ctor i => exact exec_ctor hw hl
  | ctorMove i j => exact exec_ctorMove hw hl
  | assignMove i j => exact exec_assignMove hw hl ht
  | join i => exact exec_join hw hl hn hj
  | dtor i => exact exec_dtor hw hl ht

/-- On POSIX, deleting an `Impl` not joined ends the program, before anything else is checked. -/
theorem exec_of_terminates (hw : Inv pf w) {op : Op} (ht : op.Terminates pf w) : exec pf w op = .error .terminate := by
  obtain ⟨rfl, n, hd, hj⟩ := ht
  cases op with
  | assignMove i j | dtor i =>
    have hti : w.ts i = some (some n) := Option.join_eq_some.1 hd
    simp [exec, live, hti, dropImpl, release, deleteImpl_terminate (hw.owns.owned hd) hj, bind, Except.bind]
  | _ => cases hd

theorem exec_of_joinsNull {op : Op} (h : op.JoinsNull w) : exec pf w op = .error .joinNull := by
  cases op <;> simp only [Op.JoinsNull] at h
  simp [exec, live, h, join, bind, Except.bind]

theorem exec_of_joinsTwice {op : Op} (h : op.JoinsTwice pf w) : exec pf w op = .error .notJoinable := by
  cases op with
  | join i =>
    obtain ⟨rfl, n, hn, hj⟩ := h
    have hti : w.ts i = some (some n) := Option.join_eq_some.1 hn
    simp [exec, live, hti, join, hj, bind, Except.bind]
  | _ => exact absurd h id

/-- An operation on a `Thread` outside its lifetime is refused, unless a move assignment has already terminated the
program by deleting an `Impl` not joined. -/
theorem exec_of_not_lifetime (hw : Inv pf w) {op : Op} (hl : ¬ Op.Lifetime w op) (ht : ¬ op.Terminates pf w) :
    exec pf w op = .error .lifetime := by
  cases op with
  | ctor i =>
    obtain ⟨t, h⟩ := Option.ne_none_iff_exists'.1 hl
    simp [exec, fresh, h, bind, Except.bind]
  | ctorMove i j =>
    by_cases hi : w.ts i = none
    · have hj : w.ts j = none := by simpa [Op.Lifetime, hi] using hl
      simp [exec, fresh, live, hi, hj, bind, Except.bind]
    · obtain ⟨t, h⟩ := Option.ne_none_iff_exists'.1 hi
      simp [exec, fresh, h, bind, Except.bind]
  | assignMove i j =>
    by_cases hi : w.ts i = none
    · simp [exec, live, hi, bind, Except.bind]
    · obtain ⟨impl, hti⟩ := Option.ne_none_iff_exists'.1 hi
      have hj : w.ts j = none := by simpa [Op.Lifetime, hi] using hl
      have hij : j ≠ i := fun e => by simp [e, hti] at hj
      obtain ⟨w₁, he₁, -, -, hk₁, -⟩ := dropImpl_spec hw hti ht
      simp [exec, live, hti, he₁, hk₁ j hij, hj, bind, Except.bind]
  | join i | dtor i =>
    have h : w.ts i = none := by simpa [Op.Lifetime] using hl
    simp [exec, live, h, bind, Except.bind]

/-- From a state with the invariant an operation succeeds and keeps the invariant, or faults on a `Thread` outside
its lifetime, by a `join()` of `nullptr` or, on POSIX, of a thread already joined, or on POSIX by deleting an `Impl`
not joined: no `Impl` is ever deleted twice. -/
theorem exec_cases (hw : Inv pf w) (op : Op) : (∃ w', exec pf w op = .ok w' ∧ Inv pf w') ∨
    ∃ f, exec pf w op = .error f ∧ (f = .lifetime ∨ (f = .terminate ∧ op.Terminates pf w) ∨
      (f = .joinNull ∧ op.JoinsNull w) ∨ (f = .notJoinable ∧ op.JoinsTwice pf w)) := by
  by_cases ht : op.Terminates pf w
  · exact .inr ⟨_, exec_of_terminates hw ht, .inr (.inl ⟨rfl, ht⟩)⟩
  by_cases hl : Op.Lifetime w op
  · by_cases hn : op.JoinsNull w
    · exact .inr ⟨_, exec_of_joinsNull hn, .inr (.inr (.inl ⟨rfl, hn⟩))⟩
    by_cases hj : op.JoinsTwice pf w
    · exact .inr ⟨_, exec_of_joinsTwice hj, .inr (.inr (.inr ⟨rfl, hj⟩))⟩
    exact .inl (exec_of_lifetime hw hl ht hn hj)
  · exact .inr ⟨_, exec_of_not_lifetime hw hl ht, .inl rfl⟩

theorem exec_inv {op : Op} (hw : Inv pf w) (h : exec pf w op = .ok w') : Inv pf w' := by
  rcases exec_cases hw op with ⟨_, he, hi⟩ | ⟨_, he, -⟩ <;> rw [he] at h <;> cases h
  exact hi

theorem exec_fault {op : Op} {f : Fault} (hw : Inv pf w) (h : exec pf w op = .error f) :
    f = .lifetime ∨ (f = .terminate ∧ op.Terminates pf w) ∨ (f = .joinNull ∧ op.JoinsNull w) ∨
      (f = .notJoinable ∧ op.JoinsTwice pf w) := by
  rcases exec_cases hw op with ⟨_, he, -⟩ | ⟨_, he, hf⟩ <;> rw [he] at h <;> cases h
  exact hf

end Steps

/-! ## Programs -/

/-- A program: operations from the start, each of which succeeded. -/
inductive Run (pf : Platform) : List Op → World → Prop
  | nil : Run pf [] World.init
  | step {ops : List Op} {w w' : World} {op : Op} : Run pf ops w → exec pf w op = .ok w' → Run pf (ops ++ [op]) w'

/-- Two `Thread`s, both joined; `t2 = move(t0)`, the self-move `t1 = move(t1)`, `t1 = move(t2)`, and the
destruction of all three. -/
def joinedProgram : List Op :=
  [.ctor 0, .ctor 1, .join 0, .join 1, .ctorMove 2 0, .assignMove 1 1, .assignMove 1 2, .dtor 0, .dtor 1, .dtor 2]

section Programs

variable {pf : Platform} {ops : List Op} {w : World}

theorem run_inv (h : Run pf ops w) : Inv pf w := by
  induction h with
  | nil => exact inv_init pf
  | step _ he ih => exact exec_inv ih he

/-- Over every program on either platform, each `Impl` is held by at most one `Thread` and is alive exactly while
one holds it, no `Impl` is deleted twice, once every `Thread` is gone each has been deleted exactly once, and on
POSIX each `Impl` deleted was joined first. -/
theorem run_impl_ownership (h : Run pf ops w) :
    Ownership.Inv (own w) (alive w) ∧ (∀ n, w.log.count (.delete n) ≤ 1) ∧
      ((∀ i, w.ts i = none) → ∀ n < w.impls.length, w.log.count (.delete n) = 1) ∧
      (pf = .posix → ∀ n < w.impls.length, alive w n = false → w.joined n = true) := by
  have hw := run_inv h
  refine ⟨hw.owns, fun n => by rw [hw.deletes n]; split <;> omega, fun hnone n hn => ?_, hw.joinedFirst⟩
  rw [hw.deletes n, if_pos ⟨hn, hw.owns.none_alive (fun i => by simp [own, hnone i]) n⟩]

theorem run_impl_ownership_joined :
    ∃ w, Run .posix joinedProgram w ∧ (∀ i, w.ts i = none) ∧
      ∀ n < w.impls.length, w.log.count (.delete n) = 1 ∧ w.joined n = true := by
  have hr := (.step (.step (.step (.step (.step (.step (.step (.step (.step (.step .nil (by rfl)) (by rfl))
    (by rfl)) (by rfl)) (by rfl)) (by rfl)) (by rfl)) (by rfl)) (by rfl)) (by rfl) : Run .posix joinedProgram _)
  have hgone (w) (hr : Run .posix joinedProgram w) (hnone : ∀ i, w.ts i = none) :
      ∀ n < w.impls.length, w.log.count (.delete n) = 1 ∧ w.joined n = true := fun n hn =>
    ⟨(run_impl_ownership hr).2.2.1 hnone n hn, (run_impl_ownership hr).2.2.2 rfl n hn
      ((run_impl_ownership hr).1.none_alive (fun i => by simp [own, hnone i]) n)⟩
  refine ⟨_, hr, ?none, hgone _ hr ?none⟩
  intro i
  simp only [Function.update_apply, World.init]
  split_ifs <;> rfl

end Programs

/-! ## How a move assignment releases an `Impl` -/

/-- On Windows, destroying a `Thread` closes the handle of its `Impl` before deleting it. A move assignment over a
`Thread` that holds an `Impl` deletes it without closing its handle, and a move of a `Thread` to itself deletes
its own `Impl` and leaves it holding `nullptr`. -/
theorem moveAssign_release_differs :
    ((exec .windows World.init (.ctor 0) >>= fun w => exec .windows w (.dtor 0)).map World.log =
        .ok [.create 0, .closeHandle 0, .delete 0]) ∧
    ((exec .windows World.init (.ctor 0) >>= fun w => exec .windows w (.ctor 1) >>= fun w =>
        exec .windows w (.assignMove 0 1)).map World.log = .ok [.create 0, .create 1, .delete 0]) ∧
    ((exec .windows World.init (.ctor 0) >>= fun w => exec .windows w (.assignMove 0 0)).map
        (fun w => (w.ts 0, w.log)) = .ok (some none, [.create 0, .delete 0])) :=
  ⟨rfl, rfl, rfl⟩

end Marl.Thread
