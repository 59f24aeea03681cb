import Mathlib.Logic.Function.Basic
import Mathlib.Data.List.Basic
import Marl.Ownership

/-!
# `marl::move_only_function`

The members of `marl/move_only_function.h` as the code computes them, over a store of every callable object ever
constructed, and `exec` for the operations on a program's wrappers. Main results: `run_ownership` (a wrapper is
non-empty exactly when it owns one live object no other wrapper owns, and every object is destroyed once every
wrapper is gone), `run_faults_only_null_or_misaligned` (the only faults are the calls through a null `ops_` and a
small callable built in `object_` with a stricter alignment than it has) and `run_refines_boxes` (a wrapper is a box
holding the callable last stored). `assignNull_after_default_faults`: `f = nullptr` on an empty wrapper faults.
-/

namespace Marl.MoveOnlyFunction

/-! ## The data -/

/-- `kMaximumOptimizableSize = 3 * sizeof(void*)`, on a 64-bit target. -/
def kMaximumOptimizableSize : Nat := 3 * 8

/-- The `TypeOps` table `ops_` points to: that of `EraseCopySmall`, where the callable lives in `object_`, or that of
`EraseCopyLarge`, where `object_` holds a pointer to a heap copy. -/
inductive Path
  | small
  | large
  deriving DecidableEq, Repr

/-- A callable passed to a constructor or an assignment: what calling it computes, and `sizeof` and `alignof` of its
decayed type. -/
structure Callable where
  fn : Nat
  size : Nat
  align : Nat
  deriving DecidableEq, Repr

/-- The path `move_only_function(F&&)` takes. -/
def pathOf (c : Callable) : Path :=
  if c.size ≤ kMaximumOptimizableSize then .small else .large

/-- The alignment `object_` has: it is `aligned_storage<kMaximumOptimizableSize, 1>` placed first in the wrapper,
which is aligned as its other member, the pointer `ops_`. -/
def objectAlign : Nat := 8

/-- `EraseCopySmall` constructs the callable in `object_`, which is undefined when its alignment is stricter. -/
def Callable.Misaligned (c : Callable) : Prop := pathOf c = .small ∧ objectAlign % c.align ≠ 0

instance (c : Callable) : Decidable c.Misaligned := inferInstanceAs (Decidable (_ ∧ _))

/-- A callable object, constructed in a buffer or on the heap, and whether it is still alive. -/
structure Obj where
  fn : Nat
  alive : Bool
  deriving DecidableEq, Repr

/-- A wrapper: `ops_` (`none` for `nullptr`), and the object its buffer holds or points to. -/
structure Wrapper where
  ops : Option Path
  object : Nat
  deriving DecidableEq, Repr

/-- Undefined behaviour: a call through a null `ops_`, a use or destruction of an object that is not alive, a use
of a wrapper outside its lifetime, or a callable constructed in `object_` at an alignment it does not have. -/
inductive Fault
  | nullOps
  | deadObject
  | lifetime
  | misaligned
  deriving DecidableEq, Repr

/-! ## The object store -/

/-- `new (buffer) Decayed(...)` or `new Decayed(...)`: a new object, with the next id. -/
def construct (objs : List Obj) (fn : Nat) : List Obj × Nat := (objs ++ [⟨fn, true⟩], objs.length)

/-- Object `o`, which must be alive. -/
def fetch (objs : List Obj) (o : Nat) : Except Fault Obj :=
  match objs[o]? with
  | some ob => if ob.alive then .ok ob else .error .deadObject
  | none => .error .deadObject

/-- `~Decayed()` or `delete`: object `o` must be alive. -/
def destroy (objs : List Obj) (o : Nat) : Except Fault (List Obj) := do
  let ob ← fetch objs o
  pure (objs.set o { ob with alive := false })

/-! ## The members -/

/-- `ops_->manager(dest, src)`, with `src = none` for `nullptr`. Returns the store and the object the destination
buffer holds afterwards. -/
def manager : Path → List Obj → Nat → Option Nat → Except Fault (List Obj × Nat)
  | .small, objs, _, some s => do
    let ob ← fetch objs s
    let (objs, o) := construct objs ob.fn
    let objs ← destroy objs s
    pure (objs, o)
  | .small, objs, dest, none => do pure (← destroy objs dest, dest)
  | .large, objs, _, some s => pure (objs, s)
  | .large, objs, dest, none => do pure (← destroy objs dest, dest)

/-- `move_only_function()` and `move_only_function(std::nullptr_t)`. -/
def empty : Wrapper := ⟨none, 0⟩

/-- `move_only_function(F&& function)`: `EraseCopySmall` or `EraseCopyLarge` constructs one new object. -/
def ofCallable (objs : List Obj) (c : Callable) : Except Fault (List Obj × Wrapper) :=
  if c.Misaligned then .error .misaligned else
    let (objs, o) := construct objs c.fn
    .ok (objs, ⟨some (pathOf c), o⟩)

/-- `move_only_function(move_only_function&& function)`: the new wrapper, and the source after the move. -/
def ofMoved (objs : List Obj) (src : Wrapper) : Except Fault (List Obj × Wrapper × Wrapper) :=
  match src.ops with
  | none => pure (objs, empty, { src with ops := none })
  | some p => do
    let (objs, o) ← manager p objs 0 (some src.object)
    pure (objs, ⟨some p, o⟩, { src with ops := none })

/-- `~move_only_function()`: `if (ops_) ops_->manager(&object_, nullptr);`. -/
def destruct (objs : List Obj) (wr : Wrapper) : Except Fault (List Obj) :=
  match wr.ops with
  | none => pure objs
  | some p => do pure (← manager p objs wr.object none).1

/-- `operator=(F&& function)`: `this->~move_only_function()`, then construction in place. -/
def assignCallable (objs : List Obj) (wr : Wrapper) (c : Callable) : Except Fault (List Obj × Wrapper) := do
  let objs ← destruct objs wr
  ofCallable objs c

/-- `operator=(std::nullptr_t)`: the manager is called through `ops_` with no test for `nullptr`. -/
def assignNull (objs : List Obj) (wr : Wrapper) : Except Fault (List Obj × Wrapper) :=
  match wr.ops with
  | none => .error .nullOps
  | some p => do pure ((← manager p objs wr.object none).1, { wr with ops := none })

/-- `operator()`: the invoker calls the object the buffer holds or points to. -/
def invoke (objs : List Obj) (wr : Wrapper) : Except Fault Nat :=
  match wr.ops with
  | none => .error .nullOps
  | some _ => do pure (← fetch objs wr.object).fn

/-! ## Programs over many wrappers -/

/-- The wrappers of a program, by variable (`none` when not alive), and every object ever constructed. -/
structure World where
  objs : List Obj
  ws : Nat → Option Wrapper

/-- The operations on the wrapper variables of a program. -/
inductive Op
  | ctorEmpty (i : Nat)
  | ctorCallable (i : Nat) (c : Callable)
  | ctorMove (i j : Nat)
  | assignCallable (i : Nat) (c : Callable)
  | assignMove (i j : Nat)
  | assignNull (i : Nat)
  | invoke (i : Nat)
  | dtor (i : Nat)

/-- Wrapper `i` must be alive. -/
def live (w : World) (i : Nat) : Except Fault Wrapper :=
  match w.ws i with
  | some wr => .ok wr
  | none => .error .lifetime

/-- Variable `i` must not hold a live wrapper yet. -/
def fresh (w : World) (i : Nat) : Except Fault Unit :=
  match w.ws i with
  | some _ => .error .lifetime
  | none => .ok ()

/-- One operation: the new world, and what `operator()` returned. A move assignment to itself does nothing
(`if (&function != this)`). -/
def exec (w : World) : Op → Except Fault (World × Option Nat)
  | .ctorEmpty i => do
    fresh w i
    pure (⟨w.objs, Function.update w.ws i (some empty)⟩, none)
  | .ctorCallable i c => do
    fresh w i
    let (objs, wr) ← ofCallable w.objs c
    pure (⟨objs, Function.update w.ws i (some wr)⟩, none)
  | .ctorMove i j => do
    fresh w i
    let src ← live w j
    let (objs, wr, src') ← ofMoved w.objs src
    pure (⟨objs, Function.update (Function.update w.ws j (some src')) i (some wr)⟩, none)
  | .assignCallable i c => do
    let wr ← live w i
    let (objs, wr') ← assignCallable w.objs wr c
    pure (⟨objs, Function.update w.ws i (some wr')⟩, none)
  | .assignMove i j => do
    let wr ← live w i
    let src ← live w j
    if j = i then pure (w, none) else do
    let objs ← destruct w.objs wr
    let (objs, wr', src') ← ofMoved objs src
    pure (⟨objs, Function.update (Function.update w.ws j (some src')) i (some wr')⟩, none)
  | .assignNull i => do
    let wr ← live w i
    let (objs, wr') ← assignNull w.objs wr
    pure (⟨objs, Function.update w.ws i (some wr')⟩, none)
  | .invoke i => do
    let wr ← live w i
    pure (w, some (← invoke w.objs wr))
  | .dtor i => do
    let wr ← live w i
    pure (⟨← destruct w.objs wr, Function.update w.ws i none⟩, none)

/-- The program before its first operation. -/
def World.init : World := ⟨[], fun _ => none⟩

/-! ## The store: what construction, destruction and the manager do -/

/-- Whether object `o` is alive. -/
def isAlive (objs : List Obj) (o : Nat) : Bool := (objs[o]?.map Obj.alive).getD false

/-- What object `o` computes. -/
def fnOf (objs : List Obj) (o : Nat) : Option Nat := objs[o]?.map Obj.fn

section Store

variable {objs objs' : List Obj} {o x : Nat}

theorem isAlive_lt (h : isAlive objs o = true) : o < objs.length := by
  unfold isAlive at h
  by_contra hlt
  simp [List.getElem?_eq_none (by omega : objs.length ≤ o)] at h

theorem isAlive_length : isAlive objs objs.length = false := by
  cases h : isAlive objs objs.length
  · rfl
  · exact absurd (isAlive_lt h) (lt_irrefl _)

@[simp] theorem isAlive_construct (fn : Nat) :
    isAlive (construct objs fn).1 x = (isAlive objs x || x == objs.length) := by
  unfold isAlive construct
  rcases Nat.lt_trichotomy x objs.length with h | rfl | h
  · simp [List.getElem?_append_left h, h.ne]
  · simp
  · simp [List.getElem?_eq_none (by simp; omega : (objs ++ [_]).length ≤ x),
      List.getElem?_eq_none (by omega : objs.length ≤ x), h.ne']

@[simp] theorem fnOf_construct (fn : Nat) :
    fnOf (construct objs fn).1 x = if x = objs.length then some fn else fnOf objs x := by
  unfold fnOf construct
  rcases Nat.lt_trichotomy x objs.length with h | rfl | h
  · simp [List.getElem?_append_left h, h.ne]
  · simp
  · simp [List.getElem?_eq_none (by simp; omega : (objs ++ [_]).length ≤ x),
      List.getElem?_eq_none (by omega : objs.length ≤ x), h.ne']

theorem fetch_eq_ok {ob : Obj} : fetch objs o = .ok ob ↔ objs[o]? = some ob ∧ ob.alive = true := by
  unfold fetch
  cases h : objs[o]? with
  | none => simp
  | some ob' =>
    by_cases ha : ob'.alive = true
    · simp only [ha, if_true, Except.ok.injEq, Option.some.injEq]
      exact ⟨fun e => e ▸ ⟨rfl, ha⟩, fun e => e.1⟩
    · simp only [Bool.not_eq_true] at ha
      simp only [ha, Bool.false_eq_true, if_false, Option.some.injEq]
      exact ⟨(fun e => nomatch e), fun ⟨e, h'⟩ => by simp [e ▸ ha] at h'⟩

theorem fetch_of_isAlive (h : isAlive objs o = true) : ∃ ob, fetch objs o = .ok ob ∧ fnOf objs o = some ob.fn := by
  unfold isAlive at h
  cases hob : objs[o]? with
  | none => simp [hob] at h
  | some ob => exact ⟨ob, fetch_eq_ok.2 ⟨hob, by simpa [hob] using h⟩, by simp [fnOf, hob]⟩

/-- Destroying a live object kills it and nothing else, and changes no object's callable. -/
theorem destroy_of_isAlive (h : isAlive objs o = true) : ∃ objs', destroy objs o = .ok objs' ∧
    (∀ x, isAlive objs' x = (isAlive objs x && x != o)) ∧ ∀ x, fnOf objs' x = fnOf objs x := by
  obtain ⟨ob, hf, -⟩ := fetch_of_isAlive h
  have hob := (fetch_eq_ok.1 hf).1
  have hlt : o < objs.length := isAlive_lt h
  refine ⟨objs.set o { ob with alive := false }, by simp [destroy, hf, bind, Except.bind, pure, Except.pure],
    fun x => ?_, fun x => ?_⟩
  · by_cases hx : x = o
    · subst hx; simp [isAlive, List.getElem?_set, hlt]
    · simp [isAlive, List.getElem?_set, Ne.symm hx, hx]
  · by_cases hx : x = o
    · subst hx; simp [fnOf, List.getElem?_set, hlt, hob]
    · simp [fnOf, List.getElem?_set, Ne.symm hx]

theorem destroy_length (h : destroy objs o = .ok objs') : objs'.length = objs.length := by
  unfold destroy at h
  cases hf : fetch objs o <;> simp_all [bind, Except.bind, pure, Except.pure]
  rw [← h, List.length_set]

/-- Called with `nullptr`, the manager of either path destroys the object of the destination. -/
theorem manager_none (p : Path) (objs : List Obj) (d : Nat) :
    manager p objs d none = (destroy objs d).map (·, d) := by
  cases p <;> simp only [manager] <;> cases destroy objs d <;> rfl

/-- Called with a source, the manager moves a live object. The destination then holds an object that computes
the same callable. The source object is gone unless it is that same object (the large path copies the pointer),
and a newly constructed object was not alive before. -/
theorem manager_some (p : Path) (d : Nat) (h : isAlive objs o = true) :
    ∃ objs' o', manager p objs d (some o) = .ok (objs', o') ∧
      (∀ x, isAlive objs' x = ((isAlive objs x && x != o) || x == o')) ∧
      fnOf objs' o' = fnOf objs o ∧ (∀ x, x ≠ o' → fnOf objs' x = fnOf objs x) ∧
      (isAlive objs o' = true → o' = o) := by
  cases p with
  | large =>
    refine ⟨objs, o, rfl, fun x => ?_, rfl, fun _ _ => rfl, fun _ => rfl⟩
    by_cases hx : x = o
    · simp [hx, h]
    · simp [beq_false_of_ne hx, hx]
  | small =>
    obtain ⟨ob, hf, hfn⟩ := fetch_of_isAlive h
    have hlt := isAlive_lt h
    obtain ⟨objs', hd, hal, hfn'⟩ := destroy_of_isAlive (show isAlive (construct objs ob.fn).1 o = true by simp [h])
    refine ⟨objs', objs.length, by simp [manager, hf, hd, bind, Except.bind, pure, Except.pure]; rfl, fun x => ?_,
      by simp [hfn', hfn], fun x hx => by simp [hfn', hx], fun ha => absurd (isAlive_lt ha) (lt_irrefl _)⟩
    rw [hal, isAlive_construct]
    by_cases hx : x = objs.length
    · subst hx; simp [isAlive_length, hlt.ne']
    · simp [beq_false_of_ne hx]

end Store

/-! ## Ownership -/

/-- The object wrapper `i` owns: the one its buffer holds or points to, when `ops_` is not null. -/
def own (w : World) (i : Nat) : Option Nat := (w.ws i).bind fun wr => wr.ops.map fun _ => wr.object

/-- The ownership invariant: the live objects are exactly the owned ones, and no two wrappers own the same one. -/
abbrev Inv (w : World) : Prop := Ownership.Inv (own w) (isAlive w.objs)

theorem inv_init : Inv World.init :=
  ⟨fun o => by simp [isAlive, own, World.init], fun _ _ _ h => by simp [own, World.init] at h⟩

/-! ## What a wrapper is for -/

/-- The abstract wrappers: each variable is not alive, or alive and empty, or holding one callable. -/
abbrev Boxes := Nat → Option (Option Nat)

/-- What the operations do to boxes. A stored callable stays until the next assignment; a move hands it to the
destination and leaves the source empty; `operator()` returns it. -/
def absExec (b : Boxes) : Op → Boxes × Option Nat
  | .ctorEmpty i => (Function.update b i (some none), none)
  | .ctorCallable i c => (Function.update b i (some (some c.fn)), none)
  | .ctorMove i j => (Function.update (Function.update b j (some none)) i (some (b j).join), none)
  | .assignCallable i c => (Function.update b i (some (some c.fn)), none)
  | .assignMove i j =>
    if j = i then (b, none) else (Function.update (Function.update b j (some none)) i (some (b j).join), none)
  | .assignNull i => (Function.update b i (some none), none)
  | .invoke i => (b, (b i).join)
  | .dtor i => (Function.update b i none, none)

/-- The box each wrapper variable is: not alive, empty (`ops_` null), or the callable of the object it owns. -/
def view (w : World) : Boxes := fun i => (w.ws i).map fun wr => wr.ops.bind fun _ => fnOf w.objs wr.object

/-- The operations a program can write: constructors into variables not yet alive, the others on live
wrappers. -/
def Op.Lifetime (w : World) : Op → Prop
  | .ctorEmpty i | .ctorCallable i _ => w.ws i = none
  | .ctorMove i j => w.ws i = none ∧ w.ws j ≠ none
  | .assignCallable i _ | .assignNull i | .invoke i | .dtor i => w.ws i ≠ none
  | .assignMove i j => w.ws i ≠ none ∧ w.ws j ≠ none

/-- The operations that call through `ops_` while it is null: `operator()` and `operator=(nullptr)` on an empty
wrapper. -/
def Op.CallsNull (w : World) : Op → Prop
  | .assignNull i | .invoke i => ∃ wr, w.ws i = some wr ∧ wr.ops = none
  | _ => False

/-- The operations that construct a callable in `object_` at an alignment it does not have. -/
def Op.Misaligned : Op → Prop
  | .ctorCallable _ c | .assignCallable _ c => c.Misaligned
  | _ => False

/-- The operation succeeds, keeps the invariant, and does to the boxes what `absExec` says. -/
def Correct (w : World) (op : Op) : Prop :=
  ∃ w' r, exec w op = .ok (w', r) ∧ Inv w' ∧ view w' = (absExec (view w) op).1 ∧ r = (absExec (view w) op).2

section Ops

variable {w : World} {i j : Nat}

theorem own_update (objs : List Obj) (x : Option Wrapper) (k : Nat) :
    own ⟨objs, Function.update w.ws i x⟩ k =
      if k = i then x.bind (fun wr => wr.ops.map fun _ => wr.object) else own w k := by
  by_cases hk : k = i
  · subst hk; simp [own]
  · simp [own, hk]

theorem correct_ctorEmpty (hw : Inv w) (h : w.ws i = none) : Correct w (.ctorEmpty i) := by
  refine ⟨⟨w.objs, Function.update w.ws i (some empty)⟩, none,
    by simp [exec, fresh, h, bind, Except.bind, pure, Except.pure], ?_, ?_, rfl⟩
  · refine hw.rebind (i := i) none (fun k => ?_) (fun x => ?_) (by simp)
    · simp [own_update, empty]
    · simp [own, h]
  · funext k
    by_cases hk : k = i
    · subst hk; simp [view, absExec, empty]
    · simp [view, absExec, hk]

theorem correct_ctorCallable (hw : Inv w) (h : w.ws i = none) {c : Callable} (hm : ¬ c.Misaligned) :
    Correct w (.ctorCallable i c) := by
  refine ⟨⟨(construct w.objs c.fn).1, Function.update w.ws i (some ⟨some (pathOf c), w.objs.length⟩)⟩, none,
    by simp [exec, fresh, h, ofCallable, hm, bind, Except.bind, pure, Except.pure]; rfl, ?_, ?_, rfl⟩
  · refine hw.rebind (i := i) (some w.objs.length) (fun k => ?_) (fun x => ?_)
      (fun n hn => by cases hn; exact isAlive_length)
    · simp [own_update]
    · simp only [isAlive_construct, Bool.or_eq_true, beq_iff_eq, own, h, Option.none_bind, ne_eq, reduceCtorEq,
        not_false_eq_true, and_true, Option.some.injEq]
      exact or_congr_right eq_comm
  · funext k
    by_cases hk : k = i
    · subst hk; simp [view, absExec]
    · simp only [view, absExec, Function.update_noteq hk]
      cases hwk : w.ws k with
      | none => rfl
      | some wr =>
        cases hop : wr.ops with
        | none => simp [hop]
        | some p =>
          have := isAlive_lt (hw.owned (k := k) (o := wr.object) (by simp [own, hwk, hop]))
          simp [hop, this.ne]

/-- Destroying a live wrapper destroys the object it owns and nothing else. -/
theorem destruct_spec (hw : Inv w) {wr : Wrapper} (h : w.ws i = some wr) : ∃ objs', destruct w.objs wr = .ok objs' ∧
    (∀ x, isAlive objs' x = true ↔ isAlive w.objs x = true ∧ own w i ≠ some x) ∧
    (∀ x, fnOf objs' x = fnOf w.objs x) ∧ objs'.length = w.objs.length := by
  cases hop : wr.ops with
  | none => exact ⟨w.objs, by simp [destruct, hop]; rfl, fun x => by simp [own, h, hop], fun _ => rfl, rfl⟩
  | some p =>
    have ho : own w i = some wr.object := by simp [own, h, hop]
    obtain ⟨objs', hd, hal, hfn⟩ := destroy_of_isAlive (hw.owned ho)
    refine ⟨objs', by simp [destruct, hop, manager_none, hd, bind, Except.bind, pure, Except.pure]; rfl,
      fun x => ?_, hfn, destroy_length hd⟩
    rw [hal, ho]
    by_cases hx : x = wr.object
    · simp [hx]
    · simp [hx, Ne.symm hx]

/-- A wrapper keeps its box when its variable is untouched and the objects it may own keep their callables. -/
theorem view_keep {w' : World} {k : Nat} (hk : w'.ws k = w.ws k)
    (hfn : ∀ x, own w k = some x → fnOf w'.objs x = fnOf w.objs x) : view w' k = view w k := by
  simp only [view, hk]
  cases hwk : w.ws k with
  | none => rfl
  | some wr =>
    cases hop : wr.ops with
    | none => simp [hop]
    | some p => simp [hop, hfn wr.object (by simp [own, hwk, hop])]

theorem correct_dtor (hw : Inv w) (h : w.ws i ≠ none) : Correct w (.dtor i) := by
  obtain ⟨wr, hwr⟩ := Option.ne_none_iff_exists'.1 h
  obtain ⟨objs', hd, hal, hfn, -⟩ := destruct_spec hw hwr
  refine ⟨⟨objs', Function.update w.ws i none⟩, none,
    by simp [exec, live, hwr, hd, bind, Except.bind, pure, Except.pure], ?_, ?_, rfl⟩
  · exact hw.rebind (i := i) none (fun k => by simp [own_update]) (fun x => by simp [hal]) (by simp)
  · funext k
    by_cases hk : k = i
    · subst hk; simp [view, absExec]
    · rw [show (absExec (view w) (.dtor i)).1 k = view w k by simp [absExec, hk]]
      exact view_keep (by simp [hk]) (fun x _ => hfn x)

theorem correct_assignNull (hw : Inv w) (h : w.ws i ≠ none) (hn : ¬ Op.CallsNull w (.assignNull i)) :
    Correct w (.assignNull i) := by
  obtain ⟨wr, hwr⟩ := Option.ne_none_iff_exists'.1 h
  obtain ⟨p, hop⟩ : ∃ p, wr.ops = some p := Option.ne_none_iff_exists'.1 fun e => hn ⟨wr, hwr, e⟩
  obtain ⟨objs', hd, hal, hfn, -⟩ := destruct_spec hw hwr
  have hm : manager p w.objs wr.object none = .ok (objs', wr.object) := by
    simp only [destruct, hop] at hd
    rw [manager_none] at hd ⊢
    cases hx : destroy w.objs wr.object <;> simp_all [bind, Except.bind, pure, Except.pure, Except.map]
  refine ⟨⟨objs', Function.update w.ws i (some { wr with ops := none })⟩, none,
    by simp [exec, live, hwr, assignNull, hop, hm, bind, Except.bind, pure, Except.pure], ?_, ?_, rfl⟩
  · exact hw.rebind (i := i) none (fun k => by simp [own_update]) (fun x => by simp [hal]) (by simp)
  · funext k
    by_cases hk : k = i
    · subst hk; simp [view, absExec]
    · rw [show (absExec (view w) (.assignNull i)).1 k = view w k by simp [absExec, hk]]
      exact view_keep (by simp [hk]) (fun x _ => hfn x)

theorem correct_invoke (hw : Inv w) (h : w.ws i ≠ none) (hn : ¬ Op.CallsNull w (.invoke i)) :
    Correct w (.invoke i) := by
  obtain ⟨wr, hwr⟩ := Option.ne_none_iff_exists'.1 h
  obtain ⟨p, hop⟩ : ∃ p, wr.ops = some p := Option.ne_none_iff_exists'.1 fun e => hn ⟨wr, hwr, e⟩
  obtain ⟨ob, hf, hfn⟩ := fetch_of_isAlive (hw.owned (k := i) (o := wr.object) (by simp [own, hwr, hop]))
  exact ⟨w, some ob.fn, by simp [exec, live, hwr, invoke, hop, hf, bind, Except.bind, pure, Except.pure], hw, rfl,
    by simp [absExec, view, hwr, hop, hfn]⟩

theorem correct_assignCallable (hw : Inv w) (h : w.ws i ≠ none) {c : Callable} (hm : ¬ c.Misaligned) :
    Correct w (.assignCallable i c) := by
  obtain ⟨wr, hwr⟩ := Option.ne_none_iff_exists'.1 h
  obtain ⟨objs₁, hd, hal, hfn, hlen⟩ := destruct_spec hw hwr
  refine ⟨⟨(construct objs₁ c.fn).1, Function.update w.ws i (some ⟨some (pathOf c), objs₁.length⟩)⟩, none,
    by simp [exec, live, hwr, assignCallable, hd, ofCallable, hm, bind, Except.bind, pure, Except.pure]; rfl,
    ?_, ?_, rfl⟩
  · refine hw.rebind (i := i) (some objs₁.length) (fun k => by simp [own_update]) (fun x => ?_)
      (fun n hn => by cases hn; rw [hlen]; exact isAlive_length)
    simp only [isAlive_construct, Bool.or_eq_true, beq_iff_eq, hal, Option.some.injEq]
    exact or_congr_right eq_comm
  · funext k
    by_cases hk : k = i
    · subst hk; simp [view, absExec]
    · rw [show (absExec (view w) (.assignCallable i c)).1 k = view w k by simp [absExec, hk]]
      refine view_keep (by simp [hk]) (fun x hx => ?_)
      have hlt : x < objs₁.length := hlen ▸ isAlive_lt (hw.owned hx)
      simp [hlt.ne, hfn]

/-- The move constructor, into a wrapper that owns nothing: the callable moves from `j` to `i`. -/
theorem move_core (hw : Inv w) (hi : own w i = none) (hij : i ≠ j) {src : Wrapper} (hj : w.ws j = some src) :
    ∃ objs' wr' src', ofMoved w.objs src = .ok (objs', wr', src') ∧
      Inv ⟨objs', Function.update (Function.update w.ws j (some src')) i (some wr')⟩ ∧
      view ⟨objs', Function.update (Function.update w.ws j (some src')) i (some wr')⟩ =
        Function.update (Function.update (view w) j (some none)) i (some (view w j).join) := by
  cases hop : src.ops with
  | none =>
    refine ⟨w.objs, empty, { src with ops := none }, by simp [ofMoved, hop]; rfl, ?_, ?_⟩
    · refine hw.rebind (i := i) none (fun k => ?_) (fun x => by simp [hi]) (by simp)
      by_cases hk : k = i
      · subst hk; simp [own, empty]
      · by_cases hkj : k = j
        · subst hkj; simp [own, hk, hj, hop]
        · simp [own, hk, hkj]
    · funext k
      by_cases hk : k = i
      · subst hk; simp [view, hj, hop, empty]
      · by_cases hkj : k = j
        · subst hkj; simp [view, hk]
        · simp [view, hk, hkj]
  | some p =>
    have hs : own w j = some src.object := by simp [own, hj, hop]
    obtain ⟨objs', o', hm, hal, hfo, hfn, hfresh⟩ := manager_some p 0 (hw.owned hs)
    refine ⟨objs', ⟨some p, o'⟩, { src with ops := none },
      by simp [ofMoved, hop, hm, bind, Except.bind, pure, Except.pure], ?_, ?_⟩
    · refine hw.transfer o' hij hs hi (fun k => ?_) hal hfresh
      by_cases hk : k = i
      · subst hk; simp [own]
      · by_cases hkj : k = j
        · subst hkj; simp [own, hk]
        · simp [own, hk, hkj]
    · funext k
      by_cases hk : k = i
      · subst hk; simp [view, hj, hop, hfo]
      · by_cases hkj : k = j
        · subst hkj; simp [view, hk]
        · rw [show Function.update (Function.update (view w) j (some none)) i (some (view w j).join) k = view w k
            by simp [hk, hkj]]
          refine view_keep (by simp [hk, hkj]) (fun x hx => hfn x fun e => hkj ?_)
          exact hw.unique _ _ _ hx (e ▸ hfresh (e ▸ hw.owned hx) ▸ hs)

theorem correct_ctorMove (hw : Inv w) (h : Op.Lifetime w (.ctorMove i j)) : Correct w (.ctorMove i j) := by
  obtain ⟨hi, hj⟩ := h
  obtain ⟨src, hsrc⟩ := Option.ne_none_iff_exists'.1 hj
  have hij : i ≠ j := fun e => by simp [e, hsrc] at hi
  obtain ⟨objs', wr', src', hm, hinv, hview⟩ := move_core hw (by simp [own, hi]) hij hsrc
  exact ⟨_, none, by simp [exec, fresh, live, hi, hsrc, hm, bind, Except.bind, pure, Except.pure], hinv,
    by rw [hview]; rfl, rfl⟩

theorem correct_assignMove (hw : Inv w) (h : Op.Lifetime w (.assignMove i j)) : Correct w (.assignMove i j) := by
  obtain ⟨hi, hj⟩ := h
  obtain ⟨wr, hwr⟩ := Option.ne_none_iff_exists'.1 hi
  obtain ⟨src, hsrc⟩ := Option.ne_none_iff_exists'.1 hj
  by_cases hij : j = i
  · subst hij
    exact ⟨w, none, by simp [exec, live, hwr, bind, Except.bind, pure, Except.pure], hw, by simp [absExec],
      by simp [absExec]⟩
  obtain ⟨objs₁, hd, hal, hfn, -⟩ := destruct_spec hw hwr
  let w₁ : World := ⟨objs₁, Function.update w.ws i (some { wr with ops := none })⟩
  have hw₁ : Inv w₁ :=
    hw.rebind (i := i) none (fun k => by simp [w₁, own_update]) (fun x => by simp [w₁, hal]) (by simp)
  have hsrc₁ : w₁.ws j = some src := by simp [w₁, hij, hsrc]
  obtain ⟨objs', wr', src', hm, hinv, hview⟩ := move_core hw₁ (by simp [w₁, own]) (Ne.symm hij) hsrc₁
  have hws : Function.update (Function.update w₁.ws j (some src')) i (some wr') =
      Function.update (Function.update w.ws j (some src')) i (some wr') := by
    simp only [w₁]
    rw [Function.update_comm (Ne.symm hij), Function.update_idem, Function.update_comm hij]
  have hv₁ : view w₁ = Function.update (view w) i (some none) := by
    funext k
    by_cases hk : k = i
    · subst hk; simp [view, w₁]
    · rw [Function.update_noteq hk]
      exact view_keep (by simp [w₁, hk]) (fun x _ => hfn x)
  refine ⟨⟨objs', Function.update (Function.update w.ws j (some src')) i (some wr')⟩, none,
    by simp [exec, live, hwr, hsrc, hij, hd, hm, bind, Except.bind, pure, Except.pure], hws ▸ hinv, ?_,
    by simp [absExec, hij]⟩
  rw [← hws, hview, hv₁]
  simp only [absExec, hij, if_false, Function.update_noteq hij]
  rw [Function.update_comm (Ne.symm hij) (some none) (some none) (view w), Function.update_idem]

end Ops

/-! ## Every operation, and every program -/

section Programs

variable {w w' : World} {op : Op} {r : Option Nat}

theorem exec_correct (hw : Inv w) (hl : Op.Lifetime w op) (hn : ¬ Op.CallsNull w op) (hm : ¬ op.Misaligned) :
    Correct w op := by
  cases op with
  | ctorEmpty i => exact correct_ctorEmpty hw hl
  | ctorCallable i c => exact correct_ctorCallable hw hl hm
  | ctorMove i j => exact correct_ctorMove hw hl
  | assignCallable i c => exact correct_assignCallable hw hl hm
  | assignMove i j => exact correct_assignMove hw hl
  | assignNull i => exact correct_assignNull hw hl hn
  | invoke i => exact correct_invoke hw hl hn
  | dtor i => exact correct_dtor hw hl

/-- An operation on a wrapper outside its lifetime is refused before anything else. -/
theorem exec_of_not_lifetime (hl : ¬ Op.Lifetime w op) : exec w op = .error .lifetime := by
  cases op with
  | ctorEmpty i | ctorCallable i _ =>
    obtain ⟨wr, h⟩ := Option.ne_none_iff_exists'.1 hl
    simp [exec, fresh, h, bind, Except.bind]
  | ctorMove i j =>
    by_cases hi : w.ws i = none
    · have hj : w.ws j = none := by simpa [Op.Lifetime, hi] using hl
      simp [exec, fresh, live, hi, hj, bind, Except.bind]
    · obtain ⟨wr, h⟩ := Option.ne_none_iff_exists'.1 hi
      simp [exec, fresh, h, bind, Except.bind]
  | assignMove i j =>
    by_cases hi : w.ws i = none
    · simp [exec, live, hi, bind, Except.bind]
    · obtain ⟨wr, h⟩ := Option.ne_none_iff_exists'.1 hi
      have hj : w.ws j = none := by simpa [Op.Lifetime, hi] using hl
      simp [exec, live, h, hj, bind, Except.bind]
  | assignCallable i _ | assignNull i | invoke i | dtor i =>
    have h : w.ws i = none := by simpa [Op.Lifetime] using hl
    simp [exec, live, h, bind, Except.bind]

/-- `operator=(nullptr)` and `operator()` on an empty wrapper call through the null `ops_`. -/
theorem exec_of_callsNull (h : Op.CallsNull w op) : exec w op = .error .nullOps := by
  cases op <;> simp only [Op.CallsNull] at h <;> obtain ⟨wr, hwr, hop⟩ := h <;>
    simp [exec, live, hwr, assignNull, invoke, hop, bind, Except.bind]

/-- A small callable of a stricter alignment than `object_`'s faults, once the destination's own object is
destroyed. -/
theorem exec_of_misaligned (hw : Inv w) (hl : Op.Lifetime w op) (hm : op.Misaligned) :
    exec w op = .error .misaligned := by
  cases op with
  | ctorCallable i c => simp [exec, fresh, show w.ws i = none from hl, ofCallable, show c.Misaligned from hm, bind,
      Except.bind]
  | assignCallable i c =>
    obtain ⟨wr, hwr⟩ := Option.ne_none_iff_exists'.1 hl
    obtain ⟨objs₁, hd, -⟩ := destruct_spec hw hwr
    simp [exec, live, hwr, assignCallable, hd, ofCallable, show c.Misaligned from hm, bind, Except.bind]
  | _ => exact absurd hm id

/-- From a state with the invariant, an operation does what `absExec` says and keeps the invariant, or faults by a
call through a null `ops_`, by a small callable constructed at an alignment `object_` does not have, or by a use of
a wrapper outside its lifetime: no object is ever used or destroyed when it is not alive. -/
theorem exec_cases (hw : Inv w) (op : Op) : Correct w op ∨ ∃ f, exec w op = .error f ∧
    (f = .lifetime ∨ (f = .nullOps ∧ Op.CallsNull w op) ∨ (f = .misaligned ∧ op.Misaligned)) := by
  by_cases hl : Op.Lifetime w op
  · by_cases hn : Op.CallsNull w op
    · exact .inr ⟨_, exec_of_callsNull hn, .inr (.inl ⟨rfl, hn⟩)⟩
    by_cases hm : op.Misaligned
    · exact .inr ⟨_, exec_of_misaligned hw hl hm, .inr (.inr ⟨rfl, hm⟩)⟩
    exact .inl (exec_correct hw hl hn hm)
  · exact .inr ⟨_, exec_of_not_lifetime hl, .inl rfl⟩

theorem exec_fault (hw : Inv w) {f : Fault} (h : exec w op = .error f) :
    f = .lifetime ∨ (f = .nullOps ∧ Op.CallsNull w op) ∨ (f = .misaligned ∧ op.Misaligned) := by
  rcases exec_cases hw op with ⟨_, _, he, -⟩ | ⟨f', he, hf⟩ <;> rw [he] at h <;> cases h
  exact hf

theorem exec_inv_refines (hw : Inv w) (h : exec w op = .ok (w', r)) :
    Inv w' ∧ view w' = (absExec (view w) op).1 ∧ r = (absExec (view w) op).2 := by
  rcases exec_cases hw op with ⟨_, _, he, hinv⟩ | ⟨_, he, -⟩ <;> rw [he] at h <;> cases h
  exact hinv

/-- A program: operations from the start, each of which succeeded, with what each `operator()` returned. -/
inductive Run : List Op → World → List (Option Nat) → Prop
  | nil : Run [] World.init []
  | step {ops : List Op} {w w' : World} {rs : List (Option Nat)} {op : Op} {r : Option Nat} :
      Run ops w rs → exec w op = .ok (w', r) → Run (ops ++ [op]) w' (rs ++ [r])

/-- The same program on boxes. -/
def absRun (ops : List Op) : Boxes × List (Option Nat) :=
  ops.foldl (fun (b, rs) op => ((absExec b op).1, rs ++ [(absExec b op).2])) (fun _ => none, [])

theorem absRun_append (ops : List Op) (op : Op) :
    absRun (ops ++ [op]) = ((absExec (absRun ops).1 op).1, (absRun ops).2 ++ [(absExec (absRun ops).1 op).2]) := by
  simp [absRun, List.foldl_append]

/-- Every program keeps the invariant, and its wrappers are the boxes the abstract program gives, with the same
results of every `operator()`. -/
theorem run_inv_refines {ops : List Op} {rs : List (Option Nat)} (h : Run ops w rs) :
    Inv w ∧ (view w, rs) = absRun ops := by
  induction h with
  | nil => exact ⟨inv_init, by simp [absRun]; funext i; rfl⟩
  | step _ he ih =>
    obtain ⟨hinv, hv, hr⟩ := exec_inv_refines ih.1 he
    refine ⟨hinv, ?_⟩
    rw [absRun_append, ← ih.2, hv, hr]

/-- Once every wrapper of a program is gone, every object it ever constructed has been destroyed. -/
theorem run_all_destroyed {ops : List Op} {rs : List (Option Nat)} (h : Run ops w rs) (hw : ∀ i, w.ws i = none) :
    ∀ o, isAlive w.objs o = false :=
  (run_inv_refines h).1.none_alive fun i => by simp [own, hw i]

/-- A wrapper is non-empty exactly when it owns a live object that no other wrapper owns. -/
theorem nonEmpty_iff_owns (hw : Inv w) {i : Nat} {wr : Wrapper} (h : w.ws i = some wr) :
    wr.ops.isSome = true ↔
      ∃ o, own w i = some o ∧ isAlive w.objs o = true ∧ ∀ j, own w j = some o → j = i := by
  constructor
  · intro hs
    obtain ⟨p, hp⟩ := Option.isSome_iff_exists.1 hs
    have ho : own w i = some wr.object := by simp [own, h, hp]
    exact ⟨wr.object, ho, hw.owned ho, fun j hj => hw.unique _ _ _ hj ho⟩
  · rintro ⟨o, ho, -⟩
    simp only [own, h, Option.some_bind] at ho
    cases hop : wr.ops <;> simp_all

/-- `f0` and `f1` hold a small callable computing `7` and a large one computing `9`; then `f2 = move(f0)`, the
self-move `f1 = move(f1)`, `f0 = move(f1)`, and a call of `f0` and of `f2`. -/
def movesProgram : List Op :=
  [.ctorCallable 0 ⟨7, 8, 8⟩, .ctorCallable 1 ⟨9, 32, 8⟩, .ctorMove 2 0, .assignMove 1 1, .assignMove 0 1,
    .invoke 0, .invoke 2]

/-- Over every program, a wrapper is non-empty exactly when it owns a live object no other wrapper owns, and once
every wrapper is gone every object it constructed has been destroyed. -/
theorem run_ownership {ops : List Op} {rs : List (Option Nat)} (h : Run ops w rs) :
    (∀ i wr, w.ws i = some wr →
      (wr.ops.isSome = true ↔
        ∃ o, own w i = some o ∧ isAlive w.objs o = true ∧ ∀ j, own w j = some o → j = i)) ∧
    ((∀ i, w.ws i = none) → ∀ o, isAlive w.objs o = false) :=
  ⟨fun _ _ hi => nonEmpty_iff_owns (run_inv_refines h).1 hi, run_all_destroyed h⟩

theorem run_ownership_moves :
    (∃ w rs, Run movesProgram w rs ∧ ∀ i wr, w.ws i = some wr →
      (wr.ops.isSome = true ↔
        ∃ o, own w i = some o ∧ isAlive w.objs o = true ∧ ∀ j, own w j = some o → j = i)) ∧
    ∃ w rs, Run (movesProgram ++ [.dtor 0, .dtor 1, .dtor 2]) w rs ∧ (∀ i, w.ws i = none) ∧
      ∀ o, isAlive w.objs o = false := by
  have hr := (.step (.step (.step (.step (.step (.step (.step .nil (by rfl)) (by rfl)) (by rfl)) (by rfl)) (by rfl))
    (by rfl)) (by rfl) : Run movesProgram _ _)
  have hr' := (.step (.step (.step hr (by rfl)) (by rfl)) (by rfl) :
    Run (movesProgram ++ [.dtor 0, .dtor 1, .dtor 2]) _ _)
  refine ⟨⟨_, _, hr, (run_ownership hr).1⟩, _, _, hr', fun i => ?_, (run_ownership hr').2 fun i => ?_⟩ <;>
  · simp only [Function.update_apply, World.init]; split_ifs <;> rfl

/-- After any program, the next operation faults only by a call through a null `ops_`, a small callable of a
stricter alignment than `object_`'s, or a use of a wrapper outside its lifetime. -/
theorem run_faults_only_null_or_misaligned {ops : List Op} {rs : List (Option Nat)} (h : Run ops w rs) {f : Fault}
    (he : exec w op = .error f) :
    f = .lifetime ∨ (f = .nullOps ∧ Op.CallsNull w op) ∨ (f = .misaligned ∧ op.Misaligned) :=
  exec_fault (run_inv_refines h).1 he

/-- After the moves, a call of the moved-from `f1` and a small callable aligned to 16 fault. -/
theorem run_faults_moves :
    ∃ w rs, Run movesProgram w rs ∧ ∀ op f, (op, f) ∈ [(Op.invoke 1, Fault.nullOps),
        (.ctorCallable 3 ⟨5, 16, 16⟩, .misaligned)] →
      exec w op = .error f ∧
        (f = .lifetime ∨ (f = .nullOps ∧ Op.CallsNull w op) ∨ (f = .misaligned ∧ op.Misaligned)) := by
  have hr := (.step (.step (.step (.step (.step (.step (.step .nil (by rfl)) (by rfl)) (by rfl)) (by rfl)) (by rfl))
    (by rfl)) (by rfl) : Run movesProgram _ _)
  refine ⟨_, _, hr, fun op f hm => ?_⟩
  simp only [List.mem_cons, Prod.mk.injEq, List.mem_singleton, List.not_mem_nil, or_false] at hm
  rcases hm with ⟨rfl, rfl⟩ | ⟨rfl, rfl⟩ <;>
  exact ⟨by rfl, run_faults_only_null_or_misaligned hr (by rfl)⟩

/-- Every program's wrappers are the boxes the abstract program gives, and each `operator()` returns the callable
last stored, carried along by moves. -/
theorem run_refines_boxes {ops : List Op} {rs : List (Option Nat)} (h : Run ops w rs) : (view w, rs) = absRun ops :=
  (run_inv_refines h).2

/-- The callable computing `9` reaches `f0` through the self-move and the move, and `7` reaches `f2`. -/
theorem run_refines_boxes_moves :
    ∃ w, Run movesProgram w [none, none, none, none, none, some 9, some 7] ∧
      (view w, [none, none, none, none, none, some 9, some 7]) = absRun movesProgram := by
  have hr := (.step (.step (.step (.step (.step (.step (.step .nil (by rfl)) (by rfl)) (by rfl)) (by rfl)) (by rfl))
    (by rfl)) (by rfl) : Run movesProgram _ [none, none, none, none, none, some 9, some 7])
  exact ⟨_, hr, run_refines_boxes hr⟩

end Programs

/-- `f = nullptr` on a default-constructed `move_only_function<void()> f;` calls the manager through a null
`ops_`. -/
theorem assignNull_after_default_faults :
    (exec World.init (.ctorEmpty 0) >>= fun (w, _) => exec w (.assignNull 0)) = .error .nullOps := rfl

end Marl.MoveOnlyFunction
