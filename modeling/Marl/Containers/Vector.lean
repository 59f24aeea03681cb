import Mathlib.Data.List.Basic
import Mathlib.Algebra.Group.Nat.Basic

/-!
# `containers::vector`

`marl::containers::vector<T, BASE_CAPACITY>` over a memory of objects alive in each storage and the allocator's live
allocations, with `size_t` sizes taken modulo `2 ^ 64`. Main results: `run_refines_list` (every run whose `reserve`
calls do not wrap refines a list), `run_grown` (each allocation at least doubles the capacity), `reserve_wraps` and
`pushBack_self_grow` (a wrapped `reserve`, and `push_back(v[j])` at the capacity, break the vector), `assign_spec`,
`free_implicitCopy` and `construct_spec` (assignment, the implicit copy constructor, copies and moves).
-/

namespace Marl.Containers.Vector

/-! ## Storage, objects and the allocator -/

/-- Where a `TStorage*` points: the inline `buffer`, or the allocation with this number. -/
inductive Storage
  | buffer
  | heap (id : Nat)
  deriving DecidableEq, Repr

/-- `sizeof(T)` and the fields of `vector<T, BASE_CAPACITY>`, the objects alive in each storage, and the allocator's
live allocations, each with the number of elements it has room for. -/
structure State (α : Type) where
  baseCapacity : Nat
  elemSize : Nat
  count : Nat
  capacity : Nat
  elements : Option Storage
  allocation : Option Nat
  cells : Storage → Nat → Option α
  live : List (Nat × Nat)
  nextId : Nat

/-- Undefined behaviour: a null `elements` followed, storage freed or indexed past its end, an object used or
destroyed that is not alive, an allocation freed twice; or a failed `MARL_ASSERT`. -/
inductive Fault
  | null
  | dangling
  | dead
  | doubleFree
  | assert (msg : String)
  deriving DecidableEq, Repr

variable {α : Type}

/-- The number of elements a storage holds, `none` once it is freed. -/
def storageSize (s : State α) : Storage → Option Nat
  | .buffer => some s.baseCapacity
  | .heap id => s.live.lookup id

/-- `&elements[i]`: a slot of live storage. -/
def slot (s : State α) (p : Option Storage) (i : Nat) : Except Fault Storage :=
  match p with
  | none => throw .null
  | some st => match storageSize s st with
    | some n => if i < n then pure st else throw .dangling
    | none => throw .dangling

/-- The objects alive once the one in slot `i` of `st` is `x`. -/
def setCell (cells : Storage → Nat → Option α) (st : Storage) (i : Nat) (x : Option α) :
    Storage → Nat → Option α :=
  fun st' j => if st' = st ∧ j = i then x else cells st' j

/-- `new (&elements[i]) T(v)`. -/
def construct (s : State α) (p : Option Storage) (i : Nat) (v : α) : Except Fault (State α) := do
  let st ← slot s p i
  pure { s with cells := setCell s.cells st i (some v) }

/-- Reading `elements[i]`: the object there must be alive. -/
def read (s : State α) (p : Option Storage) (i : Nat) : Except Fault α := do
  let st ← slot s p i
  match s.cells st i with
  | some v => pure v
  | none => throw .dead

/-- `elements[i].~T()`. -/
def destroyAt (s : State α) (p : Option Storage) (i : Nat) : Except Fault (State α) := do
  let st ← slot s p i
  if (s.cells st i).isNone then throw .dead
  pure { s with cells := setCell s.cells st i none }

/-- `allocator->allocate(request)`, with room for `n` elements: a new allocation, and its number. -/
def allocate (s : State α) (n : Nat) : State α × Nat :=
  ({ s with live := (s.nextId, n) :: s.live, nextId := s.nextId + 1 }, s.nextId)

/-- `allocator->free(allocation)`. -/
def allocatorFree (s : State α) (id : Nat) : Except Fault (State α) :=
  if (s.live.lookup id).isSome then pure { s with live := s.live.filter (·.1 != id) } else throw .doubleFree

/-! ## The vector -/

/-- `vector::free()`: the `count` elements destroyed, and the allocation freed if there is one. -/
def free (s : State α) : Except Fault (State α) := do
  let s ← (List.range s.count).foldlM (fun s i => destroyAt s s.elements i) s
  match s.allocation with
  | none => pure s
  | some id => do
    let s ← allocatorFree s id
    pure { s with elements := none }

/-- `vector::reserve(n)`: past the capacity, `capacity = max(n * 2, 8)` and a request of `sizeof(T) * capacity`
bytes, both in `size_t`, which holds `request.size / sizeof(T)` elements; the elements are moved into it and the old
storage freed. -/
def reserve (s : State α) (n : Nat) : Except Fault (State α) := do
  if n > s.capacity then
    let s := { s with capacity := max (n * 2 % 2 ^ 64) 8 }
    let (s, id) := allocate s (s.elemSize * s.capacity % 2 ^ 64 / s.elemSize)
    let s ← (List.range s.count).foldlM (fun s i => do construct s (some (.heap id)) i (← read s s.elements i)) s
    let s ← free s
    pure { s with elements := some (.heap id), allocation := some id }
  else pure s

/-- What `const T& el` refers to: a value of its own, or the object in slot `j` of the storage `p`. -/
inductive Arg (α : Type)
  | value (v : α)
  | elem (p : Option Storage) (j : Nat)

/-- `T(el)` reads the value `el` refers to; an object of a storage must be alive. -/
def Arg.get (s : State α) : Arg α → Except Fault α
  | .value v => pure v
  | .elem p j => read s p j

/-- `vector::push_back(el)`: `reserve(count + 1)`, then `T(el)` in slot `count`, which reads `el` after `reserve`.
`emplace_back(el)` is the same with the value moved in. -/
def pushBack (s : State α) (el : Arg α) : Except Fault (State α) := do
  let s ← reserve s (s.count + 1)
  let v ← el.get s
  let s ← construct s s.elements s.count v
  pure { s with count := s.count + 1 }

/-- `vector::pop_back()`. -/
def popBack (s : State α) : Except Fault (State α) := do
  if ¬s.count > 0 then throw (.assert "pop_back() called on empty vector")
  let s := { s with count := s.count - 1 }
  destroyAt s s.elements s.count

/-- `vector::operator[](i)`: the assertion, and the reference to `elements[i]`. -/
def index (s : State α) (i : Nat) : Except Fault (Arg α) := do
  if ¬i < s.count then throw (.assert "index %d exceeds vector size %d")
  pure (.elem s.elements i)

/-- Reading `operator[](i)`. -/
def get (s : State α) (i : Nat) : Except Fault α := do
  (← index s i).get s

/-- `while (count < n) new (&elements[count++]) T();`: `k` more elements, each `T()`. -/
def constructTail (dflt : α) : Nat → State α → Except Fault (State α)
  | 0, s => pure s
  | k + 1, s => do
    let s' ← construct s s.elements s.count dflt
    constructTail dflt k { s' with count := s.count + 1 }

/-- `while (n < count) elements[--count].~T();`: the last `k` elements destroyed. -/
def destroyTail : Nat → State α → Except Fault (State α)
  | 0, s => pure s
  | k + 1, s => do
    let s := { s with count := s.count - 1 }
    let s ← destroyAt s s.elements s.count
    destroyTail k s

/-- `vector::resize(n)`, `dflt` being `T()`: the two loops run `n - count` and `count - n` times. -/
def resize (s : State α) (n : Nat) (dflt : α) : Except Fault (State α) := do
  let s ← reserve s n
  let s ← constructTail dflt (n - s.count) s
  destroyTail (s.count - n) s

/-- The loop of `operator=`: `new (&elements[i]) T(other[i])` for the elements of `other`, from index `i` on. -/
def copyLoop : Nat → List α → State α → Except Fault (State α)
  | _, [], s => pure s
  | i, v :: vs, s => do
    let s ← construct s s.elements i v
    copyLoop (i + 1) vs s

/-- `vector::operator=(const vector& other)`, `other` holding the elements `other`. -/
def assign (s : State α) (other : List α) : Except Fault (State α) := do
  let s ← free s
  let s ← reserve s other.length
  let s := { s with count := other.length }
  copyLoop 0 other s

/-- A new vector: `vector(allocator)` with the default member initialisers, for `T` of size `elemSize`. -/
def empty (baseCapacity elemSize : Nat) : State α :=
  ⟨baseCapacity, elemSize, 0, baseCapacity, some .buffer, none, fun _ _ => none, [], 0⟩

/-- `operator[](i)` on a vector holding `L`: its `i`-th element, or the assertion. -/
def listGet (L : List α) (i : Nat) : Except Fault α :=
  match L[i]? with
  | some v => .ok v
  | none => .error (.assert "index %d exceeds vector size %d")

/-- `reserve(n)` computes its sizes without wrapping: it needs no room, or `sizeof(T) * max(2 n, 8)` is below
`2 ^ 64`. -/
def Fits (s : State α) (n : Nat) : Prop := n ≤ s.capacity ∨ s.elemSize * max (n * 2) 8 < 2 ^ 64

instance (s : State α) (n : Nat) : Decidable (Fits s n) := inferInstanceAs (Decidable (_ ∨ _))

/-! ## Slots and objects -/

section Objects

variable {s : State α} {p : Option Storage} {st : Storage} {i n : Nat}

@[simp] theorem setCell_apply (cells : Storage → Nat → Option α) (x : Option α) (st' : Storage) (j : Nat) :
    setCell cells st i x st' j = if st' = st ∧ j = i then x else cells st' j := rfl

/-- A slot inside live storage. -/
theorem slot_eq (hp : p = some st) (hn : storageSize s st = some n) (hi : i < n) : slot s p i = pure st := by
  subst hp; simp [slot, hn, hi]

theorem read_eq {v : α} (hs : slot s p i = pure st) (hv : s.cells st i = some v) : read s p i = pure v := by
  simp [read, hs, hv]

theorem construct_eq (hs : slot s p i = pure st) (v : α) :
    construct s p i v = pure { s with cells := setCell s.cells st i (some v) } := by
  simp [construct, hs]

theorem destroyAt_eq (hs : slot s p i = pure st) (hv : (s.cells st i).isSome) :
    destroyAt s p i = pure { s with cells := setCell s.cells st i none } := by
  simp [destroyAt, hs, Option.isNone_iff_eq_none, Option.ne_none_iff_isSome.mpr hv]

end Objects

/-! ## The loops -/

section Loops

variable {st : Storage} {n : Nat}

@[simp] theorem storageSize_cells (s : State α) (c : Storage → Nat → Option α) :
    storageSize { s with cells := c } = storageSize s := rfl

@[simp] theorem storageSize_count (s : State α) (k : Nat) : storageSize { s with count := k } = storageSize s := rfl

/-- Objects that are alive exactly where they were leave the state as it was. -/
theorem cells_eq_self {s : State α} {c : Storage → Nat → Option α} (h : ∀ t j, c t j = s.cells t j) :
    { s with cells := c } = s := by
  cases s; simp only [State.mk.injEq, true_and, and_true]; exact funext₂ h

/-- The loop of `free` destroys the objects in slots `0 .. k - 1` of the storage `elements` points to. -/
theorem foldlM_destroyAt {s : State α} (he : s.elements = some st) (hn : storageSize s st = some n) :
    ∀ k, k ≤ n → (∀ i < k, (s.cells st i).isSome) →
      (List.range k).foldlM (fun s i => destroyAt s s.elements i) s =
        .ok { s with cells := fun st' j => if st' = st ∧ j < k then none else s.cells st' j }
  | 0, _, _ => by simp; rfl
  | k + 1, hk, halive => by
    rw [List.range_succ, List.foldlM_append, foldlM_destroyAt he hn k (by omega) fun i hi => halive i (by omega)]
    simp only [List.foldlM_cons, List.foldlM_nil, bind, Except.bind]
    rw [destroyAt_eq (s := { s with cells := fun st' j => if st' = st ∧ j < k then none else s.cells st' j })
      (slot_eq he hn (by omega)) (by simpa using halive k (by omega))]
    simp only [pure, Except.pure, Except.ok.injEq, State.mk.injEq, true_and, and_true]
    funext st' j
    by_cases hst : st' = st <;> simp only [hst, setCell_apply, true_and, false_and, if_false]
    split_ifs <;> first | rfl | omega

/-- The loop of `reserve` moves the objects in slots `0 .. k - 1` of the storage `elements` points to into slots of
allocation `id`. -/
theorem foldlM_move {s : State α} {id m : Nat} (he : s.elements = some st) (hn : storageSize s st = some n)
    (hm : storageSize s (.heap id) = some m) (hne : st ≠ .heap id) :
    ∀ k, k ≤ n → k ≤ m → (∀ i < k, (s.cells st i).isSome) →
      (List.range k).foldlM (fun s i => do construct s (some (.heap id)) i (← read s s.elements i)) s =
        .ok { s with cells := fun st' j => if st' = .heap id ∧ j < k then s.cells st j else s.cells st' j }
  | 0, _, _, _ => by simp; rfl
  | k + 1, hkn, hkm, halive => by
    rw [List.range_succ, List.foldlM_append,
      foldlM_move he hn hm hne k (by omega) (by omega) fun i hi => halive i (by omega)]
    obtain ⟨v, hv⟩ := Option.isSome_iff_exists.mp (halive k (by omega))
    simp only [List.foldlM_cons, List.foldlM_nil, bind, Except.bind]
    rw [read_eq (s := { s with cells := fun st' j => if st' = .heap id ∧ j < k then s.cells st j else s.cells st' j })
      (v := v) (slot_eq he hn (by omega)) (by simp [hne, hv])]
    simp only [pure, Except.pure]
    rw [construct_eq
      (s := { s with cells := fun st' j => if st' = .heap id ∧ j < k then s.cells st j else s.cells st' j })
      (slot_eq (p := some (.heap id)) rfl hm (by omega))]
    simp only [pure, Except.pure, Except.ok.injEq, State.mk.injEq, true_and, and_true]
    funext st' j
    by_cases hst : st' = .heap id <;> simp only [hst, setCell_apply, true_and, false_and, if_false]
    split_ifs <;> first | rfl | omega | simp_all

/-- The loop of `operator=` constructs the elements of `vs` in slots `i, i + 1, ...` of the storage `elements`
points to. -/
theorem copyLoop_eq : ∀ (vs : List α) (i : Nat) (s : State α), s.elements = some st →
    storageSize s st = some n → i + vs.length ≤ n → copyLoop i vs s =
      .ok { s with cells := fun st' j =>
        if st' = st ∧ i ≤ j ∧ j < i + vs.length then vs[j - i]? else s.cells st' j }
  | [], i, s, _, _, _ => by
    simp only [copyLoop, List.length_nil, Nat.add_zero, pure, Except.pure, Except.ok.injEq]
    exact (cells_eq_self fun _ _ => if_neg (by omega)).symm
  | v :: vs, i, s, he, hn, hlen => by
    rw [List.length_cons] at hlen
    simp only [copyLoop, bind, Except.bind]
    rw [construct_eq (slot_eq he hn (by omega))]
    simp only [pure, Except.pure]
    rw [copyLoop_eq vs (i + 1) { s with cells := setCell s.cells st i (some v) } he hn (by omega)]
    simp only [Except.ok.injEq, State.mk.injEq, true_and, and_true]
    funext st' j
    by_cases hst : st' = st <;> simp only [hst, setCell_apply, true_and, false_and, if_false]
    rcases Nat.lt_or_ge j i with hj | hj
    · rw [if_neg (by omega), if_neg (by omega), if_neg (by omega)]
    · obtain ⟨d, rfl⟩ := Nat.exists_eq_add_of_le hj
      rcases d with _ | d
      · simp
      · simp only [show i + (d + 1) ≠ i by omega, show i + (d + 1) - i = d + 1 by omega,
          show i + (d + 1) - (i + 1) = d by omega, List.getElem?_cons_succ, List.length_cons, if_false]
        split_ifs <;> first | rfl | omega

/-- The first loop of `resize` constructs `k` elements `T()` after the last. -/
theorem constructTail_eq (dflt : α) : ∀ (k : Nat) (s : State α), s.elements = some st →
    storageSize s st = some n → s.count + k ≤ n → constructTail dflt k s =
      .ok { s with count := s.count + k,
                   cells := fun st' j => if st' = st ∧ s.count ≤ j ∧ j < s.count + k then some dflt
                     else s.cells st' j }
  | 0, s, _, _, _ => by
    simp only [constructTail, Nat.add_zero, pure, Except.pure, Except.ok.injEq]
    exact (cells_eq_self fun _ _ => if_neg (by omega)).symm
  | k + 1, s, he, hn, hk => by
    simp only [constructTail, bind, Except.bind]
    rw [construct_eq (slot_eq he hn (by omega))]
    simp only [pure, Except.pure]
    rw [constructTail_eq dflt k { s with cells := setCell s.cells st s.count (some dflt), count := s.count + 1 }
      he hn (by simp only; omega)]
    simp only [Except.ok.injEq, State.mk.injEq, true_and, and_true]
    refine ⟨by omega, funext fun st' => funext fun j => ?_⟩
    by_cases hst : st' = st <;> simp only [hst, setCell_apply, true_and, false_and, if_false]
    split_ifs <;> first | rfl | omega

/-- The second loop of `resize` destroys the last `k` elements. -/
theorem destroyTail_eq : ∀ (k : Nat) (s : State α), s.elements = some st → storageSize s st = some n →
    k ≤ s.count → s.count ≤ n → (∀ j, s.count - k ≤ j → j < s.count → (s.cells st j).isSome) →
      destroyTail k s =
        .ok { s with count := s.count - k,
                     cells := fun st' j =>
                       if st' = st ∧ s.count - k ≤ j ∧ j < s.count then none else s.cells st' j }
  | 0, s, _, _, _, _, _ => by
    simp only [destroyTail, Nat.sub_zero, pure, Except.pure, Except.ok.injEq]
    exact (cells_eq_self fun _ _ => if_neg (by omega)).symm
  | k + 1, s, he, hn, hk, hc, halive => by
    simp only [destroyTail]
    rw [destroyAt_eq (s := { s with count := s.count - 1 }) (slot_eq he hn (by omega))
      (halive _ (by omega) (by omega))]
    simp only [bind, Except.bind, pure, Except.pure]
    rw [destroyTail_eq k { s with count := s.count - 1, cells := setCell s.cells st (s.count - 1) none }
      he hn (by simp only; omega) (by simp only; omega) fun j hj hj' => by
      simp only [setCell_apply] at hj hj' ⊢
      rw [if_neg (by omega)]
      exact halive j (by omega) (by omega)]
    simp only [Except.ok.injEq, State.mk.injEq, true_and, and_true]
    refine ⟨by omega, funext fun st' => funext fun j => ?_⟩
    by_cases hst : st' = st <;> simp only [hst, setCell_apply, true_and, false_and, if_false]
    split_ifs <;> first | rfl | omega

end Loops

/-- `free()` with `count` elements alive in the storage `elements` points to: they are destroyed, then the allocation
is freed if there is one. -/
theorem free_eq {s : State α} {st : Storage} {c : Nat} (he : s.elements = some st)
    (hn : storageSize s st = some c) (hc : s.count ≤ c) (halive : ∀ i < s.count, (s.cells st i).isSome) :
    free s = match s.allocation with
      | none => .ok { s with cells := fun st' j => if st' = st ∧ j < s.count then none else s.cells st' j }
      | some id => (allocatorFree
          { s with cells := fun st' j => if st' = st ∧ j < s.count then none else s.cells st' j } id).map
          fun s => { s with elements := none } := by
  rw [free, foldlM_destroyAt he hn s.count hc halive]
  cases s.allocation <;> rfl

/-- A new allocation leaves the size of every other storage as it was. -/
theorem storageSize_allocate (s : State α) {c : Nat} {st : Storage} (hst : st ≠ .heap s.nextId) :
    storageSize { s with live := (s.nextId, c) :: s.live, nextId := s.nextId + 1 } st = storageSize s st := by
  cases st with
  | buffer => rfl
  | heap id =>
    have : (id == s.nextId) = false := beq_eq_false_iff_ne.mpr fun h => hst (h ▸ rfl)
    simp [storageSize, List.lookup_cons, this]

/-! ## The invariant -/

/-- The vector holds `L`: `count` is its length, `elements` points to the buffer, with no allocation, or to the
vector's one live allocation, room for `capacity` elements holding `L` and nothing after it, and no object is alive
anywhere else; `sizeof(T)` is positive. -/
structure Inv (s : State α) (L : List α) : Prop where
  count_eq : s.count = L.length
  count_le : s.count ≤ s.capacity
  storage : (s.elements = some .buffer ∧ s.allocation = none ∧ s.capacity = s.baseCapacity ∧ s.live = []) ∨
    ∃ id, s.elements = some (.heap id) ∧ s.allocation = some id ∧ s.live = [(id, s.capacity)] ∧ id < s.nextId
  cells : ∀ st i, s.cells st i = if s.elements = some st then L[i]? else none
  elemSize_pos : 0 < s.elemSize

section Inv

variable {s : State α} {L : List α} {n : Nat}

/-- The storage `elements` points to is live, with room for `capacity` elements. -/
theorem Inv.elements (h : Inv s L) : ∃ st, s.elements = some st ∧ storageSize s st = some s.capacity := by
  rcases h.storage with ⟨he, -, hc, -⟩ | ⟨id, he, -, hl, -⟩
  · exact ⟨_, he, by simp [storageSize, hc]⟩
  · exact ⟨_, he, by simp [storageSize, hl]⟩

/-- The elements are alive. -/
theorem Inv.alive (h : Inv s L) {st : Storage} (he : s.elements = some st) {i : Nat} (hi : i < s.count) :
    (s.cells st i).isSome := by
  rw [h.cells, if_pos he, List.getElem?_eq_getElem (h.count_eq ▸ hi)]; rfl

/-- With no allocation, the elements are in the buffer. -/
theorem Inv.inline (h : Inv s L) (ha : s.allocation = none) :
    s.elements = some .buffer ∧ s.capacity = s.baseCapacity ∧ s.live = [] := by
  rcases h.storage with ⟨he, -, hc, hl⟩ | ⟨id, -, ha', -⟩
  · exact ⟨he, hc, hl⟩
  · rw [ha] at ha'; cases ha'

/-- With an allocation, the elements are in it, and it is the one live allocation. -/
theorem Inv.heap (h : Inv s L) {id : Nat} (ha : s.allocation = some id) :
    s.elements = some (.heap id) ∧ s.live = [(id, s.capacity)] ∧ id < s.nextId := by
  rcases h.storage with ⟨-, ha', -⟩ | ⟨id', he, ha', hl, hlt⟩
  · rw [ha] at ha'; cases ha'
  · rw [ha] at ha'; cases ha'; exact ⟨he, hl, hlt⟩

/-- The next allocation, numbered `nextId`, is not the storage the elements are in. -/
theorem Inv.fresh (h : Inv s L) {st : Storage} (he : s.elements = some st) : st ≠ .heap s.nextId := by
  rcases h.storage with ⟨he', -⟩ | ⟨old, he', -, -, hlt⟩ <;> rw [he] at he' <;> cases he'
  · simp
  · simp only [ne_eq, Storage.heap.injEq]; omega

/-- A new vector holds nothing. -/
theorem inv_empty (base : Nat) {elemSize : Nat} (hE : 0 < elemSize) : Inv (empty base elemSize : State α) [] :=
  ⟨rfl, Nat.zero_le _, .inl ⟨rfl, rfl, rfl, rfl⟩, by simp [empty], hE⟩

/-- `reserve(n)` within the capacity does nothing. -/
theorem reserve_of_le (hn : n ≤ s.capacity) : reserve s n = .ok s := by
  simp [reserve, Nat.not_lt.mpr hn]; rfl

/-- Past the capacity `reserve(n)` sets the capacity to `max(n * 2, 8)` and gets an allocation of `request.size /
sizeof(T)` elements, both modulo `2 ^ 64`; when the elements fit in it, it moves them there and frees the old
storage. -/
theorem reserve_grow (h : Inv s L) (hn : s.capacity < n)
    (hm : s.count ≤ s.elemSize * max (n * 2 % 2 ^ 64) 8 % 2 ^ 64 / s.elemSize) :
    reserve s n = .ok { s with
      capacity := max (n * 2 % 2 ^ 64) 8, elements := some (.heap s.nextId), allocation := some s.nextId,
      cells := fun t j => if some (Storage.heap s.nextId) = some t then L[j]? else none,
      live := [(s.nextId, s.elemSize * max (n * 2 % 2 ^ 64) 8 % 2 ^ 64 / s.elemSize)], nextId := s.nextId + 1 } := by
  obtain ⟨st, he, hsz⟩ := h.elements
  have hne := h.fresh he
  have hcount := h.count_le
  simp only [reserve, if_pos hn, allocate]
  rw [foldlM_move ?he ?hn (by simp [storageSize, List.lookup_cons]) hne s.count h.count_le hm ?halive]
  case he => exact he
  case hn => exact (storageSize_allocate s hne).trans hsz
  case halive => exact fun i hi => h.alive he hi
  simp only [bind, Except.bind]
  rw [free_eq ?he ?hn ?hc ?halive]
  case he => exact he
  case hn => exact (storageSize_allocate s hne).trans hsz
  case hc => exact hcount
  case halive => exact fun i hi => by simpa [hne.symm] using h.alive he hi
  -- the objects after the move and `free`: `L` in the new allocation, nothing elsewhere
  have hcells (t : Storage) (j : Nat) :
      (if t = st ∧ j < s.count then none else
        if t = .heap s.nextId ∧ j < s.count then s.cells st j else s.cells t j) =
      if some (Storage.heap s.nextId) = some t then L[j]? else none := by
    have hL : ¬j < s.count → L[j]? = none := fun hj => List.getElem?_eq_none (by rw [← h.count_eq]; omega)
    simp only [h.cells, he, Option.some.injEq]
    by_cases h1 : t = .heap s.nextId
    · subst h1; by_cases hj : j < s.count <;> simp [hne, Ne.symm hne, hj, hL]
    · by_cases h2 : t = st
      · subst h2; by_cases hj : j < s.count <;> simp [h1, Ne.symm h1, hj, hL]
      · simp [h1, h2, Ne.symm h1, Ne.symm h2]
  rcases h.storage with ⟨hb, ha, hc, hl⟩ | ⟨old, hh, ha, hl, hlt⟩
  · simp only [ha, hl, pure, Except.pure, Except.ok.injEq, State.mk.injEq, true_and, and_true]
    exact funext₂ hcells
  · have hold : (old == s.nextId) = false := beq_eq_false_iff_ne.mpr (by omega)
    have hnew : (s.nextId != old) = true := bne_iff_ne.mpr (by omega)
    simp only [ha, allocatorFree, hl, List.lookup_cons, List.lookup_nil, hold, beq_self_eq_true,
      Option.isSome_some, if_true, List.filter_cons, hnew, bne_self_eq_false, List.filter_nil, Bool.false_eq_true,
      if_false, Except.map, pure, Except.pure, Except.ok.injEq, State.mk.injEq, true_and, and_true]
    exact funext₂ hcells

/-- Past the capacity, a `reserve(n)` that fits computes `max(2 n, 8)` and gets room for that many elements. -/
theorem Fits.sizes (hf : Fits s n) (hn : s.capacity < n) (hE : 0 < s.elemSize) :
    max (n * 2 % 2 ^ 64) 8 = max (n * 2) 8 ∧ s.elemSize * max (n * 2) 8 % 2 ^ 64 / s.elemSize = max (n * 2) 8 := by
  have hlt : s.elemSize * max (n * 2) 8 < 2 ^ 64 := hf.resolve_left (by omega)
  have h2 : n * 2 < 2 ^ 64 := lt_of_le_of_lt (le_trans (le_max_left _ _) (Nat.le_mul_of_pos_left _ hE)) hlt
  rw [Nat.mod_eq_of_lt h2, Nat.mod_eq_of_lt hlt, Nat.mul_div_cancel_left _ hE]
  exact ⟨rfl, rfl⟩

/-- A `reserve(n)` that fits keeps the elements and leaves room for at least `n`: past the capacity it moves them to
a new allocation and frees the old one. -/
theorem reserve_spec (h : Inv s L) (n : Nat) (hf : Fits s n) :
    ∃ s', reserve s n = .ok s' ∧ Inv s' L ∧ n ≤ s'.capacity := by
  by_cases hn : s.capacity < n
  · obtain ⟨hc, hm⟩ := hf.sizes hn h.elemSize_pos
    have hcount := h.count_le
    refine ⟨_, reserve_grow h hn (by rw [hc, hm]; omega), ⟨h.count_eq, by simp only [hc]; omega,
      .inr ⟨s.nextId, rfl, rfl, by simp only [hc, hm], by simp⟩, fun t j => rfl, h.elemSize_pos⟩,
      by simp only [hc]; omega⟩
  · exact ⟨s, reserve_of_le (by omega), h, by omega⟩

/-- Past the capacity, when `sizeof(T) * max(2 n, 8)` wraps around `2 ^ 64`, `reserve(n)` leaves no room for `n`
elements: the capacity it sets is below `n`, or the allocation it gets holds fewer elements than that capacity. -/
theorem reserve_wraps (h : Inv s L) (hn : s.capacity < n) (h64 : n < 2 ^ 64) (hw : ¬ Fits s n)
    (hm : s.count ≤ s.elemSize * max (n * 2 % 2 ^ 64) 8 % 2 ^ 64 / s.elemSize) :
    ∃ s', reserve s n = .ok s' ∧ (s'.capacity < n ∨
      ∃ m, s'.elements = some (.heap s.nextId) ∧ storageSize s' (.heap s.nextId) = some m ∧ m < s'.capacity) := by
  refine ⟨_, reserve_grow h hn hm, ?_⟩
  simp only [Fits, not_or, not_le, not_lt] at hw
  by_cases h2 : n * 2 < 2 ^ 64
  · -- the capacity is `max(2 n, 8)`, but `sizeof(T)` times it wraps
    refine .inr ⟨s.elemSize * max (n * 2 % 2 ^ 64) 8 % 2 ^ 64 / s.elemSize, rfl, by simp [storageSize], ?_⟩
    show s.elemSize * max (n * 2 % 2 ^ 64) 8 % 2 ^ 64 / s.elemSize < max (n * 2 % 2 ^ 64) 8
    rw [Nat.mod_eq_of_lt h2, Nat.div_lt_iff_lt_mul h.elemSize_pos]
    calc s.elemSize * max (n * 2) 8 % 2 ^ 64 < 2 ^ 64 := Nat.mod_lt _ (Nat.two_pow_pos 64)
      _ ≤ s.elemSize * max (n * 2) 8 := hw.2
      _ = max (n * 2) 8 * s.elemSize := Nat.mul_comm _ _
  · -- `n * 2` itself wraps, to `n * 2 - 2 ^ 64`
    refine .inl ?_
    show max (n * 2 % 2 ^ 64) 8 < n
    rw [Nat.mod_eq_sub_mod (by omega), Nat.mod_eq_of_lt (by omega)]
    omega

/-- `vector<int, 1>::reserve(2 ^ 61)` on a new vector asks for `4 * 2 ^ 62` bytes, which is `0` in `size_t`: the
`push_back` after it constructs past the end of an allocation with room for nothing. -/
theorem reserve_wraps_int :
    (∃ s', reserve (empty 1 4 : State Nat) (2 ^ 61) = .ok s' ∧ (s'.capacity < 2 ^ 61 ∨
      ∃ m, s'.elements = some (.heap 0) ∧ storageSize s' (.heap 0) = some m ∧ m < s'.capacity)) ∧
    (reserve (empty 1 4 : State Nat) (2 ^ 61) >>= fun s => pushBack s (.value 7)) = .error .dangling :=
  ⟨reserve_wraps (inv_empty 1 (by decide)) (by decide) (by decide) (by decide) (by decide), rfl⟩

/-- `(L ++ [v])[j]?`, by where `j` falls. -/
theorem getElem?_append_singleton (L : List α) (v : α) (j : Nat) :
    (L ++ [v])[j]? = if j = L.length then some v else L[j]? := by
  rcases Nat.lt_or_ge j L.length with hj | hj
  · rw [List.getElem?_append_left hj, if_neg (by omega)]
  · rw [List.getElem?_append_right hj, List.getElem?_eq_none hj]
    rcases Nat.eq_or_lt_of_le hj with rfl | hj'
    · simp
    · rw [if_neg (by omega), List.getElem?_eq_none (by simp; omega)]

/-- Once `reserve(count + 1)` has left room, `push_back(el)` constructs the value `el` refers to after the last
element. -/
theorem pushBack_of_reserve (h : Inv s L) {el : Arg α} {s1 : State α} {v : α} (hr : reserve s (s.count + 1) = .ok s1)
    (h1 : Inv s1 L) (hn : s.count + 1 ≤ s1.capacity) (hv : el.get s1 = .ok v) :
    ∃ s', pushBack s el = .ok s' ∧ Inv s' (L ++ [v]) := by
  obtain ⟨st, he, hsz⟩ := h1.elements
  have hc : s1.count = s.count := by rw [h1.count_eq, h.count_eq]
  simp only [pushBack, hr, hv, bind, Except.bind]
  rw [construct_eq (slot_eq he hsz (by omega))]
  refine ⟨_, rfl, ⟨by simp [h1.count_eq], by simp only; omega, h1.storage, fun t j => ?_, h1.elemSize_pos⟩⟩
  simp only [setCell_apply, h1.cells t j, he, Option.some.injEq, getElem?_append_singleton, ← h1.count_eq]
  by_cases ht : st = t
  · subst ht; by_cases hj : j = s1.count <;> simp [hj]
  · simp [ht, Ne.symm ht]

/-- `push_back(v)` appends `v`. -/
theorem pushBack_spec (h : Inv s L) (v : α) (hf : Fits s (s.count + 1)) :
    ∃ s', pushBack s (.value v) = .ok s' ∧ Inv s' (L ++ [v]) := by
  obtain ⟨s1, hr, h1, hn⟩ := reserve_spec h (s.count + 1) hf
  exact pushBack_of_reserve h hr h1 hn rfl

/-- `push_back(v[j])` with room to spare appends the `j`-th element. -/
theorem pushBack_elem_spec (h : Inv s L) {j : Nat} {v : α} (hv : L[j]? = some v) (hc : s.count < s.capacity) :
    ∃ s', pushBack s (.elem s.elements j) = .ok s' ∧ Inv s' (L ++ [v]) := by
  obtain ⟨st, he, hsz⟩ := h.elements
  have hj : j < s.count := h.count_eq ▸ (List.getElem?_eq_some_iff.1 hv).1
  exact pushBack_of_reserve h (reserve_of_le hc) h hc
    (read_eq (slot_eq he hsz (by omega)) (by rw [h.cells, if_pos he, hv]))

/-- `push_back(v[j])` on a full vector: `reserve` moves the elements out, destroys them and frees the allocation if
there is one, before `T(el)` reads `el`, a destroyed object in the buffer or freed storage. -/
theorem pushBack_self_grow (h : Inv s L) {j : Nat} (hj : j < s.count) (hc : s.capacity ≤ s.count)
    (hf : Fits s (s.count + 1)) :
    (index s j >>= pushBack s) = .error (if s.allocation = none then .dead else .dangling) := by
  obtain ⟨hc', hm⟩ := hf.sizes (by omega) h.elemSize_pos
  have hcount := h.count_le
  simp only [index, if_neg (not_not_intro hj), pushBack, reserve_grow h (show s.capacity < s.count + 1 by omega)
    (by rw [hc', hm]; omega), bind, Except.bind, pure, Except.pure, Arg.get, read, slot]
  cases ha : s.allocation with
  | none =>
    obtain ⟨he, hb, -⟩ := h.inline ha
    simp [he, storageSize, show j < s.baseCapacity by omega]
  | some old =>
    obtain ⟨he, -, hlt⟩ := h.heap ha
    simp [he, storageSize, List.lookup_cons, show (old == s.nextId) = false from beq_eq_false_iff_ne.mpr (by omega)]

/-- `vector<int, 1>` holding `[5]` inline, and the same with `[5]` in an allocation of room for one: in each,
`v.push_back(v[0])` reads a `5` that `reserve` has destroyed, or one in freed storage. -/
theorem pushBack_self_grow_five :
    (let s : State Nat := ⟨1, 4, 1, 1, some .buffer, none, fun st i => if st = .buffer ∧ i = 0 then some 5 else none,
        [], 0⟩;
      Inv s [5] ∧ (index s 0 >>= pushBack s) = .error .dead) ∧
    (let s : State Nat := ⟨0, 4, 1, 1, some (.heap 0), some 0,
        fun st i => if st = .heap 0 ∧ i = 0 then some 5 else none, [(0, 1)], 1⟩;
      Inv s [5] ∧ (index s 0 >>= pushBack s) = .error .dangling) := by
  have hb : Inv (⟨1, 4, 1, 1, some .buffer, none, fun st i => if st = .buffer ∧ i = 0 then some 5 else none, [], 0⟩ :
      State Nat) [5] := by
    refine ⟨rfl, by decide, .inl ⟨rfl, rfl, rfl, rfl⟩, fun st i => ?_, by decide⟩
    rcases st with _ | k <;> rcases i with _ | i <;> simp
  have hh : Inv (⟨0, 4, 1, 1, some (.heap 0), some 0, fun st i => if st = .heap 0 ∧ i = 0 then some 5 else none,
      [(0, 1)], 1⟩ : State Nat) [5] := by
    refine ⟨rfl, by decide, .inr ⟨0, rfl, rfl, rfl, by decide⟩, fun st i => ?_, by decide⟩
    rcases st with _ | _ | k <;> rcases i with _ | i <;> simp
  exact ⟨⟨hb, pushBack_self_grow hb (by decide) (by decide) (.inr (by decide))⟩,
    ⟨hh, pushBack_self_grow hh (by decide) (by decide) (.inr (by decide))⟩⟩

/-- `pop_back()` on a vector holding something drops the last element. -/
theorem popBack_spec (h : Inv s L) (hL : L ≠ []) : ∃ s', popBack s = .ok s' ∧ Inv s' L.dropLast := by
  obtain ⟨st, he, hsz⟩ := h.elements
  have hpos : s.count > 0 := by rw [h.count_eq]; exact List.length_pos.mpr hL
  have hcount := h.count_le
  simp only [popBack, hpos, not_true_eq_false, if_false]
  rw [destroyAt_eq (s := { s with count := s.count - 1 }) (slot_eq he hsz (by omega)) (h.alive he (by omega))]
  refine ⟨_, rfl, ⟨by simp [h.count_eq], by simp only; omega, h.storage, fun t j => ?_, h.elemSize_pos⟩⟩
  simp only [setCell_apply, h.cells t j, he, Option.some.injEq, List.getElem?_dropLast, ← h.count_eq]
  by_cases ht : st = t
  · subst ht; by_cases hj : j = s.count - 1
    · simp [hj]
    · simp only [hj, and_false, if_false, true_and, if_true]
      by_cases hj' : j < s.count - 1
      · simp [hj']
      · have : L.length ≤ j := by rw [← h.count_eq]; omega
        simp [hj', this]
  · simp [ht, Ne.symm ht]

/-- `pop_back()` on an empty vector fails its assertion. -/
theorem popBack_empty (h : Inv s []) : popBack s = .error (.assert "pop_back() called on empty vector") := by
  simp [popBack, h.count_eq]; rfl

/-- `operator[](i)` reads the `i`-th element, and fails its assertion past the end. -/
theorem get_spec (h : Inv s L) (i : Nat) : get s i = listGet L i := by
  obtain ⟨st, he, hsz⟩ := h.elements
  have hcount := h.count_le
  by_cases hi : i < s.count
  · have hiL : i < L.length := h.count_eq ▸ hi
    have hv : L[i]? = some L[i] := List.getElem?_eq_getElem hiL
    simp only [get, index, listGet, if_neg (not_not_intro hi), hv, bind, Except.bind, pure, Except.pure, Arg.get]
    exact read_eq (slot_eq he hsz (by omega)) (by rw [h.cells, if_pos he, hv])
  · simp only [get, index, listGet, if_pos hi, bind, Except.bind,
      List.getElem?_eq_none (show L.length ≤ i by rw [← h.count_eq]; omega)]

/-- `(L.take n ++ List.replicate (n - L.length) d)[j]?`, by where `j` falls. -/
theorem getElem?_resize (L : List α) (n : Nat) (d : α) (j : Nat) :
    (L.take n ++ List.replicate (n - L.length) d)[j]? =
      if j < n then (if j < L.length then L[j]? else some d) else none := by
  have hlen : (L.take n).length = min n L.length := List.length_take ..
  rcases Nat.lt_or_ge j (min n L.length) with hj | hj
  · rw [List.getElem?_append_left (by rw [hlen]; exact hj), List.getElem?_take, if_pos (by omega),
      if_pos (by omega), if_pos (by omega)]
  · rw [List.getElem?_append_right (by rw [hlen]; exact hj), List.getElem?_replicate, hlen]
    by_cases hjn : j < n
    · rw [if_pos (by omega), if_pos hjn, if_neg (by omega)]
    · rw [if_neg (by omega), if_neg hjn]

/-- `resize(n)` keeps the first `n` elements and adds `T()` up to `n`. -/
theorem resize_spec (h : Inv s L) (n : Nat) (dflt : α) (hf : Fits s n) :
    ∃ s', resize s n dflt = .ok s' ∧ Inv s' (L.take n ++ List.replicate (n - L.length) dflt) := by
  obtain ⟨s1, hr, h1, hn⟩ := reserve_spec h n hf
  obtain ⟨st, he, hsz⟩ := h1.elements
  have hc1 := h1.count_le
  have hL := h1.count_eq
  simp only [resize, hr, bind, Except.bind]
  rw [constructTail_eq dflt (n - s1.count) s1 he hsz (by omega)]
  simp only
  rw [destroyTail_eq _ _ ?he ?hn ?hk ?hc ?halive]
  case he => exact he
  case hn => exact hsz
  case hk => simp only; omega
  case hc => simp only; omega
  case halive =>
    intro j hj hj'
    simp only at hj hj' ⊢
    rw [h1.cells, if_pos he]
    split_ifs with h'
    · rfl
    · rw [List.getElem?_eq_getElem (by omega)]; rfl
  refine ⟨_, rfl, ⟨by simp [List.length_take]; omega, by simp only; omega, h1.storage, fun t j => ?_,
    h1.elemSize_pos⟩⟩
  simp only [h1.cells t j, he, Option.some.injEq, getElem?_resize]
  by_cases ht : st = t
  · subst ht
    simp only [true_and, if_true, ← hL]
    by_cases hjn : j < n <;> by_cases hjc : j < s1.count
    · rw [if_neg (by omega), if_neg (by omega), if_pos hjn, if_pos hjc]
    · rw [if_neg (by omega), if_pos (by omega), if_pos hjn, if_neg hjc]
    · rw [if_pos (by omega), if_neg hjn]
    · rw [if_neg (by omega), if_neg (by omega), if_neg hjn, List.getElem?_eq_none (by omega)]
  · simp [ht, Ne.symm ht]

/-- Once `free()` has destroyed the elements, no object is alive. -/
theorem Inv.cells_destroyed (h : Inv s L) {st : Storage} (he : s.elements = some st) :
    (fun t j => if t = st ∧ j < s.count then none else s.cells t j) = fun _ _ => none := by
  funext t j
  rw [h.cells]
  by_cases ht : st = t
  · subst ht; by_cases hj : j < s.count
    · simp [hj]
    · simp [hj, he, List.getElem?_eq_none (show L.length ≤ j by rw [← h.count_eq]; omega)]
  · simp [he, ht]

/-- `free()` destroys the elements, frees the allocation if there is one and then nulls `elements`; `count`,
`capacity` and `allocation` stay as they were. -/
theorem free_of_inv (h : Inv s L) :
    free s = .ok { s with cells := fun _ _ => none, live := [],
                          elements := if s.allocation = none then s.elements else none } := by
  obtain ⟨st, he, hsz⟩ := h.elements
  rw [free_eq he hsz h.count_le fun i hi => h.alive he hi, h.cells_destroyed he]
  rcases h.storage with ⟨-, ha, -, hl⟩ | ⟨id, -, ha, hl, -⟩
  · simp only [ha, if_true]; rw [← hl]
  · simp only [ha, allocatorFree, hl, List.lookup_cons, beq_self_eq_true, Option.isSome_some, if_true,
      List.filter_cons, bne_self_eq_false, List.filter_nil, reduceCtorEq, if_false]
    rfl

/-- The destructor, `free()`, leaves no object alive and no allocation live. -/
theorem free_spec (h : Inv s L) : ∃ s', free s = .ok s' ∧ (∀ t i, s'.cells t i = none) ∧ s'.live = [] :=
  ⟨_, free_of_inv h, fun _ _ => rfl, rfl⟩

/-- The loop of `operator=`, on a vector that holds nothing and with `count` already set, leaves it holding
`other`. -/
theorem copyLoop_spec {t : State α} (h : Inv t []) {other : List α} (hn : other.length ≤ t.capacity) :
    ∃ t', copyLoop 0 other { t with count := other.length } = .ok t' ∧ Inv t' other := by
  obtain ⟨st, he, hsz⟩ := h.elements
  rw [copyLoop_eq other 0 { t with count := other.length } he hsz (by simpa)]
  refine ⟨_, rfl, ⟨rfl, hn, h.storage, fun u j => ?_, h.elemSize_pos⟩⟩
  simp only [h.cells, he, Option.some.injEq, List.getElem?_nil, Nat.zero_le, true_and, Nat.zero_add,
    Nat.sub_zero]
  by_cases hu : st = u
  · subst hu
    simp only [if_true, true_and]
    split_ifs with hj
    · rfl
    · exact (List.getElem?_eq_none (by omega)).symm
  · simp [hu, Ne.symm hu]

/-- `operator=` on a vector that keeps its elements inline succeeds when the vector is empty or the new elements
fit inline: `free()` then leaves it as good as new. -/
theorem assign_inline (h : Inv s L) (ha : s.allocation = none) {other : List α}
    (hfit : L = [] ∨ other.length ≤ s.baseCapacity) (hf : Fits s other.length) :
    ∃ s', assign s other = .ok s' ∧ Inv s' other := by
  obtain ⟨he, hc, -⟩ := h.inline ha
  simp only [assign, free_of_inv h, if_pos ha, bind, Except.bind]
  rcases hfit with rfl | hfit
  · -- what `free()` leaves of an empty vector is a new vector, which `reserve` keeps one
    have h0 : Inv ({ s with cells := fun _ _ => none, live := [], elements := s.elements } : State α) [] := by
      refine ⟨h.count_eq, h.count_le, .inl ⟨he, ha, hc, rfl⟩, fun _ _ => ?_, h.elemSize_pos⟩
      simp
    obtain ⟨s2, hr, h2, hn⟩ := reserve_spec h0 other.length hf
    rw [hr]
    exact copyLoop_spec h2 hn
  · -- `reserve` does nothing, and once `count` is set the old one no longer matters
    have h0 : Inv ({ s with cells := fun _ _ => none, live := [], elements := s.elements, count := 0 } : State α)
        [] := by
      refine ⟨rfl, Nat.zero_le _, .inl ⟨he, ha, hc, rfl⟩, fun _ _ => ?_, h.elemSize_pos⟩
      simp
    rw [reserve_of_le ?hle]
    case hle => simp only; omega
    exact copyLoop_spec h0 (by simp only; omega)

/-- `operator=` with more elements than fit inline, on a vector holding some inline: `reserve` moves the elements
that `free()` has already destroyed. -/
theorem assign_inline_grow (h : Inv s L) (ha : s.allocation = none) (hL : L ≠ []) {other : List α}
    (hn : s.baseCapacity < other.length) : assign s other = .error .dead := by
  obtain ⟨he, hc, -⟩ := h.inline ha
  obtain ⟨k, hk⟩ : ∃ k, s.count = k + 1 := Nat.exists_eq_succ_of_ne_zero (by rw [h.count_eq]; simpa using hL)
  have hpos : 0 < s.baseCapacity := by have := h.count_le; omega
  simp only [assign, free_of_inv h, if_pos ha, bind, Except.bind, reserve,
    if_pos (show other.length > s.capacity by omega), allocate, hk, List.range_succ_eq_map, List.foldlM_cons]
  -- `reserve` moves slot `0` of the buffer, which `free()` has destroyed
  simp [read, slot, he, storageSize, hpos]

/-- `operator=` on a vector whose elements are in an allocation: `free()` has freed it, nulled `elements` and left
`allocation` set, so the copy or `reserve` follows the null `elements`, or `reserve` or the destructor frees the
allocation a second time. -/
theorem assign_heap (h : Inv s L) {id : Nat} (ha : s.allocation = some id) (other : List α) :
    ∃ f, (assign s other >>= free) = .error f ∧ (f = .null ∨ f = .doubleFree) := by
  have hlt := (h.heap ha).2.2
  simp only [assign, free_of_inv h, ha, bind, Except.bind, reduceCtorEq, if_false]
  by_cases hn : other.length > s.capacity
  · simp only [reserve, if_pos hn, allocate]
    cases hc : s.count with
    | zero =>
      -- nothing to move: `reserve`'s `free()` frees the old allocation again
      have hne : (id == s.nextId) = false := beq_eq_false_iff_ne.mpr (by omega)
      refine ⟨.doubleFree, ?_, .inr rfl⟩
      simp only [List.range_zero, List.foldlM_nil, free, allocatorFree, List.lookup_cons, hne, bind, Except.bind,
        pure, Except.pure]
      rfl
    | succ k =>
      -- the first element is moved out of the null `elements`
      exact ⟨.null, by rw [List.range_succ_eq_map]; rfl, .inl rfl⟩
  · rw [reserve_of_le ?hle]
    case hle => simp only; omega
    cases other with
    | nil => exact ⟨.doubleFree, rfl, .inr rfl⟩  -- the destructor frees the old allocation again
    | cons v vs => exact ⟨.null, rfl, .inl rfl⟩  -- the copy constructs through the null `elements`

/-- `operator=` leaves the vector holding `other` when it keeps its elements inline and is empty or `other` fits
inline, and its `reserve` does not wrap; otherwise the assignment, or the destructor after it, is undefined
behaviour. -/
theorem assign_spec (h : Inv s L) (other : List α) :
    (s.allocation = none ∧ (L = [] ∨ other.length ≤ s.baseCapacity) → Fits s other.length →
      ∃ s', assign s other = .ok s' ∧ Inv s' other) ∧
    (¬(s.allocation = none ∧ (L = [] ∨ other.length ≤ s.baseCapacity)) →
      ∃ f, (assign s other >>= free) = .error f ∧ (f = .null ∨ f = .dead ∨ f = .doubleFree)) := by
  refine ⟨fun ⟨ha, hfit⟩ => assign_inline h ha hfit, fun hbad => ?_⟩
  cases ha : s.allocation with
  | none =>
    simp only [ha, true_and, not_or, not_le] at hbad
    exact ⟨.dead, by rw [assign_inline_grow h ha hbad.1 hbad.2]; rfl, .inr (.inl rfl)⟩
  | some id =>
    obtain ⟨f, hf, hf'⟩ := assign_heap h ha other
    exact ⟨f, hf, hf'.imp_right .inr⟩

/-- A vector with no inline room that has grown to an allocation holding `[5]`: assigning `[1, 2]` to it is
undefined behaviour. -/
theorem assign_spec_grown :
    ∃ s : State Nat, Inv s [5] ∧ s.allocation = some 0 ∧
      ∃ f, (assign s [1, 2] >>= free) = .error f ∧ (f = .null ∨ f = .dead ∨ f = .doubleFree) := by
  have h : Inv (⟨0, 4, 1, 8, some (.heap 0), some 0, fun st i => if st = .heap 0 ∧ i = 0 then some 5 else none,
      [(0, 8)], 1⟩ : State Nat) [5] := by
    refine ⟨rfl, by decide, .inr ⟨0, rfl, rfl, rfl, by decide⟩, fun st i => ?_, by decide⟩
    rcases st with _ | _ | k <;> rcases i with _ | i <;> simp
  exact ⟨_, h, rfl, (assign_spec h [1, 2]).2 (by simp)⟩

end Inv

/-! ## The copy constructor the compiler declares -/

/-- `vector<T, BASE_CAPACITY> b(a)` with `a` of the same type. The constructor template taking a
`vector<T, BASE_CAPACITY_2>` is never a copy constructor, and none is declared, so this calls the one the compiler
declares, which copies each field: `b.elements` and `b.allocation` are `a`'s, and `b` never uses its own buffer.
Over the memory `t`, `b` is `t` read through `a`'s fields as they were at the copy. -/
def implicitCopy (a t : State α) : State α :=
  { t with count := a.count, capacity := a.capacity, elements := a.elements, allocation := a.allocation }

section Copy

variable {s : State α} {L : List α}

/-- Destroying a vector and a copy the compiler's copy constructor made of it, in either order (both run `free()`
with the same fields): the second `free()` destroys the elements the first destroyed, through `elements` into the
buffer or into the freed allocation, or frees the allocation again. Only an empty vector that keeps its elements
inline survives it. -/
theorem free_implicitCopy (h : Inv s L) :
    (L = [] ∧ s.allocation = none → ∃ t, (free s >>= fun t => free (implicitCopy s t)) = .ok t) ∧
    (L ≠ [] ∨ s.allocation ≠ none → (free s >>= fun t => free (implicitCopy s t)) =
      .error (if s.allocation = none then .dead else if L.isEmpty then .doubleFree else .dangling)) := by
  -- the second `free()` runs on `a`'s fields over memory with no object alive and no allocation live
  have hcopy :
      (free s >>= fun t => free (implicitCopy s t)) = free { s with cells := fun _ _ => none, live := [] } := by
    rw [free_of_inv h]; rfl
  rw [hcopy]
  cases L with
  | nil =>
    have hc : s.count = 0 := h.count_eq
    cases ha : s.allocation with
    | none => exact ⟨fun _ => ⟨_, by simp only [free, hc, ha]; rfl⟩, fun h' => by simp at h'⟩
    | some id => exact ⟨fun h' => by simp at h', fun _ => by simp only [free, hc, ha]; rfl⟩
  | cons v vs =>
    obtain ⟨k, hk⟩ : ∃ k, s.count = k + 1 := ⟨vs.length, h.count_eq⟩
    refine ⟨fun h' => absurd h'.1 (List.cons_ne_nil v vs), fun _ => ?_⟩
    simp only [free, hk, List.range_succ_eq_map, List.foldlM_cons]
    cases ha : s.allocation with
    | none =>
      obtain ⟨he, hb, -⟩ := h.inline ha
      have hpos : 0 < s.baseCapacity := by have := h.count_le; omega
      simp [destroyAt, slot, he, storageSize, hpos]; rfl
    | some id =>
      simp [destroyAt, slot, (h.heap ha).1, storageSize]; rfl

/-- A vector of `BASE_CAPACITY` 2 holding `[5]` in its buffer. -/
theorem inv_five :
    Inv (⟨2, 4, 1, 2, some .buffer, none, fun st i => if st = .buffer ∧ i = 0 then some 5 else none, [], 0⟩ :
      State Nat) [5] := by
  refine ⟨rfl, by decide, .inl ⟨rfl, rfl, rfl, rfl⟩, fun st i => ?_, by decide⟩
  rcases st with _ | k <;> rcases i with _ | i <;> simp

/-- That vector and its copy: the second destructor destroys `5` again. -/
theorem free_implicitCopy_five :
    let s : State Nat :=
      ⟨2, 4, 1, 2, some .buffer, none, fun st i => if st = .buffer ∧ i = 0 then some 5 else none, [], 0⟩
    ([5] = [] ∧ s.allocation = none → ∃ t, (free s >>= fun t => free (implicitCopy s t)) = .ok t) ∧
    ([5] ≠ [] ∨ s.allocation ≠ none → (free s >>= fun t => free (implicitCopy s t)) =
      .error (if s.allocation = none then .dead else if [5].isEmpty then .doubleFree else .dangling)) :=
  free_implicitCopy inv_five

end Copy

/-! ## Copies and moves from another vector -/

/-- `operator=(vector<T, BASE_CAPACITY_2>&& other)`: the copy form, with each element moved out of `other` (in the
model a value moves as it copies), then `other.resize(0)`. `other` is another vector with memory of its own, so
reading its elements before the loop reads the same values; `T()` is `dflt`, which `resize(0)` never builds. -/
def moveAssign (s other : State α) (dflt : α) : Except Fault (State α × State α) := do
  let vs ← (List.range other.count).mapM (get other)
  let s ← assign s vs
  let other ← resize other 0 dflt
  pure (s, other)

/-- `vector(const vector<T, BASE_CAPACITY_2>& other, allocator)`: `*this = other` on a new vector, `T` being of size
`elemSize`. -/
def ofCopy (base elemSize : Nat) (other : List α) : Except Fault (State α) := assign (empty base elemSize) other

/-- `vector(vector<T, BASE_CAPACITY_2>&& other, allocator)`: `*this = std::move(other)` on a new vector. -/
def ofMoved (base : Nat) (other : State α) (dflt : α) : Except Fault (State α × State α) :=
  moveAssign (empty base other.elemSize) other dflt

section Move

variable {s o : State α} {L M : List α}

/-- Reading `other[i]` for every `i < other.size()` reads the elements. -/
theorem mapM_get (h : Inv s L) : (List.range s.count).mapM (get s) = .ok L := by
  suffices hn : ∀ n ≤ L.length, (List.range n).mapM (get s) = .ok (L.take n) by
    simpa [h.count_eq] using hn L.length le_rfl
  intro n hn
  induction n with
  | zero => rfl
  | succ n ih =>
    rw [List.range_succ, List.mapM_append, ih (by omega), List.mapM_cons, List.mapM_nil, get_spec h n,
      listGet, List.getElem?_eq_getElem (by omega), List.take_succ, List.getElem?_eq_getElem (by omega)]
    rfl

/-- `resize(0)` destroys the elements and keeps the storage: `capacity`, `elements` and `allocation`. -/
theorem resize_zero (h : Inv s L) (dflt : α) :
    ∃ s', resize s 0 dflt = .ok s' ∧ Inv s' [] ∧
      s'.capacity = s.capacity ∧ s'.elements = s.elements ∧ s'.allocation = s.allocation := by
  obtain ⟨st, he, hsz⟩ := h.elements
  have hr : resize s 0 dflt = destroyTail s.count s := by
    simp only [resize, reserve_of_le (Nat.zero_le _), Nat.zero_sub, Nat.sub_zero]; rfl
  rw [hr, destroyTail_eq s.count s he hsz le_rfl h.count_le fun j _ hj => h.alive he hj]
  obtain ⟨s', hs', h'⟩ := resize_spec h 0 dflt (.inl (Nat.zero_le _))
  rw [hr, destroyTail_eq s.count s he hsz le_rfl h.count_le fun j _ hj => h.alive he hj] at hs'
  cases hs'
  exact ⟨_, rfl, by simpa using h', rfl, rfl, rfl⟩

/-- The move form is the copy form with `other`'s elements, after which `other` is empty and keeps its storage. -/
theorem moveAssign_eq (ho : Inv o M) (dflt : α) :
    ∃ o', Inv o' [] ∧ o'.capacity = o.capacity ∧ o'.elements = o.elements ∧ o'.allocation = o.allocation ∧
      moveAssign s o dflt = (assign s M).map fun s' => (s', o') := by
  obtain ⟨o', hr, h0, hc, he, ha⟩ := resize_zero ho dflt
  refine ⟨o', h0, hc, he, ha, ?_⟩
  simp only [moveAssign, mapM_get ho, bind, Except.bind]
  cases assign s M <;> simp [hr, Except.map, pure, Except.pure]

/-- Constructing a vector from another, by copy (of another `BASE_CAPACITY`) or by move, succeeds and holds the
other's elements, whatever the two capacities, when its `reserve` does not wrap; after the move the other is empty
but keeps its `capacity`, its `elements` and its allocation. -/
theorem construct_spec (ho : Inv o M) (base : Nat) (dflt : α) (hf : Fits (empty base o.elemSize : State α) M.length) :
    (∃ s, ofCopy base o.elemSize M = .ok s ∧ Inv s M) ∧
      ∃ s o', ofMoved base o dflt = .ok (s, o') ∧ Inv s M ∧ Inv o' [] ∧
        o'.capacity = o.capacity ∧ o'.elements = o.elements ∧ o'.allocation = o.allocation := by
  obtain ⟨s, hs, h⟩ : ∃ s, assign (empty base o.elemSize) M = .ok s ∧ Inv s M :=
    assign_inline (inv_empty base ho.elemSize_pos) rfl (.inl rfl) hf
  obtain ⟨o', ho', hc, he, ha, hm⟩ := moveAssign_eq (s := empty base o.elemSize) ho dflt
  exact ⟨⟨s, hs, h⟩, s, o', by rw [ofMoved, hm, hs]; rfl, h, ho', hc, he, ha⟩

/-- Copying `[5]` into a new vector of `BASE_CAPACITY` 4, and moving the vector of `BASE_CAPACITY` 2 holding it into
one. -/
theorem construct_spec_five :
    let o : State Nat :=
      ⟨2, 4, 1, 2, some .buffer, none, fun st i => if st = .buffer ∧ i = 0 then some 5 else none, [], 0⟩
    Fits (empty 4 o.elemSize : State Nat) [5].length ∧ (∃ s, ofCopy 4 o.elemSize [5] = .ok s ∧ Inv s [5]) ∧
      ∃ s o', ofMoved 4 o 0 = .ok (s, o') ∧ Inv s [5] ∧ Inv o' [] ∧
        o'.capacity = o.capacity ∧ o'.elements = o.elements ∧ o'.allocation = o.allocation :=
  ⟨.inl (by decide), construct_spec inv_five 4 0 (.inl (by decide))⟩

end Move

/-! ## Runs -/

/-- A call on the vector: `push_back(v)`, `push_back(v[j])` of one of its own elements, `pop_back()`, `resize(n)`
with `T()` being `dflt`, or `reserve(n)`. -/
inductive Op (α : Type)
  | pushBack (v : α)
  | pushBackElem (j : Nat)
  | popBack
  | resize (n : Nat) (dflt : α)
  | reserve (n : Nat)

/-- The call, on the vector. -/
def exec : Op α → State α → Except Fault (State α)
  | .pushBack v, s => pushBack s (.value v)
  | .pushBackElem j, s => index s j >>= pushBack s
  | .popBack, s => popBack s
  | .resize n dflt, s => resize s n dflt
  | .reserve n, s => reserve s n

/-- The calls one after another; the first fault ends the run. -/
def run (s : State α) (ops : List (Op α)) : Except Fault (State α) :=
  ops.foldlM (fun s op => exec op s) s

/-- What the call does to the list of elements, or the assertion it fails. -/
def Op.apply : Op α → List α → Except String (List α)
  | .pushBack v, L => pure (L ++ [v])
  | .pushBackElem j, L => match L[j]? with
    | some v => pure (L ++ [v])
    | none => throw "index %d exceeds vector size %d"
  | .popBack, [] => throw "pop_back() called on empty vector"
  | .popBack, x :: xs => pure (x :: xs).dropLast
  | .resize n dflt, L => pure (L.take n ++ List.replicate (n - L.length) dflt)
  | .reserve _, L => pure L

/-- The calls, on a list. -/
def applyAll (L : List α) (ops : List (Op α)) : Except String (List α) :=
  ops.foldlM (fun L op => op.apply L) L

/-- The size the call passes to `reserve`. -/
def Op.request (s : State α) : Op α → Nat
  | .pushBack _ | .pushBackElem _ => s.count + 1
  | .popBack => 0
  | .resize n _ | .reserve n => n

/-- A `push_back(v[j])` of an element of a full vector, which `reserve` destroys before it is read. -/
def Op.SelfGrow (s : State α) : Op α → Prop
  | .pushBackElem j => j < s.count ∧ s.capacity ≤ s.count
  | _ => False

instance (s : State α) : (op : Op α) → Decidable (op.SelfGrow s)
  | .pushBackElem _ => inferInstanceAs (Decidable (_ ∧ _))
  | .pushBack _ | .popBack | .resize _ _ | .reserve _ => isFalse id

/-- A call whose `reserve` does not wrap and which is not a `push_back` of an element of a full vector. -/
def Op.Safe (s : State α) (op : Op α) : Prop := Fits s (op.request s) ∧ ¬ op.SelfGrow s

instance (s : State α) (op : Op α) : Decidable (op.Safe s) := inferInstanceAs (Decidable (_ ∧ _))

/-- `P` holds of every call of a run, in the state it is made in, up to the first fault. -/
def Every (P : State α → Op α → Prop) : State α → List (Op α) → Prop
  | _, [] => True
  | s, op :: ops => P s op ∧ match exec op s with
    | .ok s' => Every P s' ops
    | .error _ => True

instance Every.instDecidable {P : State α → Op α → Prop} [∀ s op, Decidable (P s op)] :
    ∀ (s : State α) (ops : List (Op α)), Decidable (Every P s ops)
  | _, [] => isTrue trivial
  | s, op :: ops =>
    have : Decidable (match exec op s with | .ok s' => Every P s' ops | .error _ => True) :=
      match exec op s with
      | .ok s' => Every.instDecidable s' ops
      | .error _ => isTrue trivial
    inferInstanceAs (Decidable (_ ∧ _))

section Run

variable {s s' : State α} {L : List α}

/-- A `push_back(v[j])` of an element of a full vector faults. -/
theorem exec_selfGrow (h : Inv s L) {op : Op α} (hf : Fits s (op.request s)) (hg : op.SelfGrow s) :
    ∃ f, exec op s = .error f := by
  cases op with
  | pushBackElem j => exact ⟨_, pushBack_self_grow h hg.1 hg.2 hf⟩
  | _ => exact absurd hg id

/-- One call whose `reserve` does not wrap keeps the invariant and acts on the list as `Op.apply` says, unless it
is a `push_back` of an element of a full vector; or it fails the assertion `Op.apply` fails. -/
theorem exec_spec (h : Inv s L) (op : Op α) (hf : Fits s (op.request s)) :
    match op.apply L with
    | .ok L' => ¬ op.SelfGrow s → ∃ s', exec op s = .ok s' ∧ Inv s' L'
    | .error msg => exec op s = .error (.assert msg) := by
  cases op with
  | pushBack v => exact fun _ => pushBack_spec h v hf
  | pushBackElem j =>
    simp only [Op.apply]
    cases hv : L[j]? with
    | none =>
      have hj : ¬ j < s.count := fun hj => by simp [List.getElem?_eq_getElem (h.count_eq ▸ hj)] at hv
      simp only [exec, index, if_pos hj]
      rfl
    | some v =>
      intro hg
      have hj : j < s.count := h.count_eq ▸ (List.getElem?_eq_some_iff.1 hv).1
      simp only [exec, index, if_neg (not_not_intro hj), bind, Except.bind, pure, Except.pure]
      exact pushBack_elem_spec h hv (by simp only [Op.SelfGrow, hj, true_and, not_le] at hg; exact hg)
  | popBack =>
    cases L with
    | nil => exact popBack_empty h
    | cons x xs => exact fun _ => popBack_spec h (List.cons_ne_nil x xs)
  | resize n dflt => exact fun _ => resize_spec h n dflt hf
  | reserve n =>
    obtain ⟨s', hr, h', -⟩ := reserve_spec h n hf
    exact fun _ => ⟨s', hr, h'⟩

/-- A call that succeeds and whose `reserve` does not wrap keeps the invariant. -/
theorem exec_inv (h : Inv s L) {op : Op α} (hf : Fits s (op.request s)) (he : exec op s = .ok s') :
    ∃ L', Inv s' L' := by
  have hstep := exec_spec h op hf
  cases hop : op.apply L with
  | error msg => rw [hop] at hstep; rw [hstep] at he; cases he
  | ok L' =>
    rw [hop] at hstep
    by_cases hg : op.SelfGrow s
    · obtain ⟨f, hf'⟩ := exec_selfGrow h hf hg
      rw [hf'] at he; cases he
    · obtain ⟨s'', he', h'⟩ := hstep hg
      rw [he'] at he; cases he
      exact ⟨L', h'⟩

/-- A run of safe calls keeps the invariant and acts on the list as `applyAll` says, or stops at the first
assertion it fails. -/
theorem run_spec (ops : List (Op α)) : ∀ {s : State α} {L : List α}, Inv s L → Every Op.Safe s ops →
    match applyAll L ops with
    | .ok L' => ∃ s', run s ops = .ok s' ∧ Inv s' L'
    | .error msg => run s ops = .error (.assert msg) := by
  induction ops with
  | nil => exact fun h _ => ⟨_, rfl, h⟩
  | cons op ops ih =>
    intro s L h ⟨⟨hf, hg⟩, hrest⟩
    have hstep := exec_spec h op hf
    simp only [applyAll, run, List.foldlM_cons] at ih ⊢
    cases hop : op.apply L with
    | error msg =>
      rw [hop] at hstep
      simp only [bind, Except.bind, hstep]
    | ok L' =>
      rw [hop] at hstep
      obtain ⟨s', hs', h'⟩ := hstep hg
      rw [hs'] at hrest
      simp only [bind, Except.bind, hs']
      exact ih h' hrest

/-- Every run of calls on a new vector whose `reserve` calls do not wrap and which pushes no element of a full
vector onto it refines the same calls on a list: it ends holding the list they give, with `size()` its length,
`operator[]` reading it and the destructor leaving no object alive and no allocation live; or, where the list fails
an assertion, in that assertion. -/
theorem run_refines_list (base elemSize : Nat) (ops : List (Op α)) (hE : 0 < elemSize)
    (hs : Every Op.Safe (empty base elemSize) ops) :
    match applyAll [] ops with
    | .ok L => ∃ s, run (empty base elemSize) ops = .ok s ∧ s.count = L.length ∧
        (∀ i, get s i = listGet L i) ∧
        ∃ s', free s = .ok s' ∧ (∀ t i, s'.cells t i = none) ∧ s'.live = []
    | .error msg => run (empty base elemSize) ops = .error (.assert msg) := by
  have hrun := run_spec ops (inv_empty base hE) hs
  cases hL : applyAll [] ops with
  | error msg => rw [hL] at hrun; exact hrun
  | ok L =>
    rw [hL] at hrun
    obtain ⟨s, hs, h⟩ := hrun
    exact ⟨s, hs, h.count_eq, get_spec h, free_spec h⟩

/-- A vector of `BASE_CAPACITY` 2 of 4-byte elements: `push_back(5)`, `push_back(v[0])` with room to spare,
`reserve(8)`, `push_back(v[1])`, `pop_back()` and `resize(3)`. -/
theorem run_refines_list_selfPush :
    Every Op.Safe (empty 2 4 : State Nat) [.pushBack 5, .pushBackElem 0, .reserve 8, .pushBackElem 1, .popBack,
      .resize 3 0] ∧
    ∃ s, run (empty 2 4) [.pushBack 5, .pushBackElem 0, .reserve 8, .pushBackElem 1, .popBack, .resize 3 0] = .ok s ∧
      s.count = [5, 5, 0].length ∧
      (∀ i, get s i = listGet [5, 5, 0] i) ∧
      ∃ s', free s = .ok s' ∧ (∀ t i, s'.cells t i = none) ∧ s'.live = [] := by
  have hs : Every Op.Safe (empty 2 4 : State Nat)
      [.pushBack 5, .pushBackElem 0, .reserve 8, .pushBackElem 1, .popBack, .resize 3 0] := by decide
  have hrun := run_refines_list 2 4 _ (by decide) hs
  rw [show applyAll [] [Op.pushBack 5, .pushBackElem 0, .reserve 8, .pushBackElem 1, .popBack, .resize 3 0] =
    .ok [5, 5, 0] from rfl] at hrun
  dsimp only at hrun
  exact ⟨hs, hrun⟩

/-- Every successful run of calls whose `reserve` calls do not wrap keeps the invariant. -/
theorem run_inv : ∀ {ops : List (Op α)} {s s' : State α} {L : List α}, Inv s L →
    Every (fun s op => Fits s (op.request s)) s ops → run s ops = .ok s' → ∃ L', Inv s' L'
  | [], _, _, _, h, _, hr => by cases hr; exact ⟨_, h⟩
  | op :: _, s, _, _, h, ⟨hf, hrest⟩, hr => by
    simp only [run, List.foldlM_cons, bind, Except.bind] at hr
    cases he : exec op s with
    | error f => rw [he] at hr; cases hr
    | ok t =>
      rw [he] at hr hrest
      obtain ⟨L', h'⟩ := exec_inv h hf he
      exact run_inv h' hrest hr

end Run

/-! ## Growth -/

/-- `(BASE_CAPACITY, sizeof(T), capacity, nextId)`: the sizes the growth of a vector is about, `nextId` counting the
allocations made. -/
def sizes (s : State α) : Nat × Nat × Nat × Nat := (s.baseCapacity, s.elemSize, s.capacity, s.nextId)

/-- Every allocation has at least doubled the capacity: with none made the capacity is `BASE_CAPACITY`, and with `k`
made it is at least `8 * 2 ^ (k - 1)`. -/
def Grown (base : Nat) (s : State α) : Prop :=
  s.baseCapacity = base ∧ 0 < s.elemSize ∧
    (s.nextId = 0 ∧ s.capacity = base ∨ 0 < s.nextId ∧ 8 * 2 ^ (s.nextId - 1) ≤ s.capacity)

section Growth

variable {s s' : State α} {p : Option Storage} {i n : Nat}

/-- A computation of `Except` that succeeds: both halves succeed. -/
theorem bind_eq_ok {β γ : Type} {x : Except Fault β} {f : β → Except Fault γ} {c : γ} :
    x >>= f = .ok c ↔ ∃ b, x = .ok b ∧ f b = .ok c := by
  cases x <;> simp [bind, Except.bind]

/-- Constructing or destroying an object changes no size. -/
theorem sizes_construct {v : α} (h : construct s p i v = .ok s') : sizes s' = sizes s := by
  obtain ⟨st, -, h⟩ := bind_eq_ok.mp h
  cases h; rfl

theorem sizes_destroyAt (h : destroyAt s p i = .ok s') : sizes s' = sizes s := by
  obtain ⟨st, -, h⟩ := bind_eq_ok.mp h
  dsimp only at h
  split at h
  · cases h
  · cases h; rfl

/-- A loop of steps that keep the sizes keeps them. -/
theorem sizes_foldlM {β : Type} {f : State α → β → Except Fault (State α)}
    (hf : ∀ {s s' : State α} {b : β}, f s b = .ok s' → sizes s' = sizes s) :
    ∀ {l : List β} {s s' : State α}, l.foldlM f s = .ok s' → sizes s' = sizes s
  | [], _, _, h => by cases h; rfl
  | _ :: _, _, _, h => by
    obtain ⟨t, ht, h⟩ := bind_eq_ok.mp h
    exact (sizes_foldlM hf h).trans (hf ht)

/-- `free()` changes no size: it frees the allocation but leaves `capacity`. -/
theorem sizes_free (h : free s = .ok s') : sizes s' = sizes s := by
  obtain ⟨t, ht, h⟩ := bind_eq_ok.mp h
  rw [← sizes_foldlM sizes_destroyAt ht]
  split at h
  · cases h; rfl
  · obtain ⟨u, hu, h⟩ := bind_eq_ok.mp h
    simp only [allocatorFree] at hu
    split at hu <;> cases hu
    cases h; rfl

/-- The loops of `resize` change no size. -/
theorem sizes_constructTail {d : α} :
    ∀ {k : Nat} {s s' : State α}, constructTail d k s = .ok s' → sizes s' = sizes s
  | 0, _, _, h => by cases h; rfl
  | _ + 1, _, _, h => by
    obtain ⟨t, ht, h⟩ := bind_eq_ok.mp h
    have := sizes_construct ht
    exact (sizes_constructTail h).trans this

theorem sizes_destroyTail : ∀ {k : Nat} {s s' : State α}, destroyTail k s = .ok s' → sizes s' = sizes s
  | 0, _, _, h => by cases h; rfl
  | _ + 1, _, _, h => by
    obtain ⟨t, ht, h⟩ := bind_eq_ok.mp h
    have := sizes_destroyAt ht
    exact (sizes_destroyTail h).trans this

/-- `reserve(n)` keeps the sizes, or, past the capacity, makes one allocation and sets the capacity to
`max(n * 2, 8)` modulo `2 ^ 64`. -/
theorem sizes_reserve (h : reserve s n = .ok s') :
    sizes s' = sizes s ∨ s'.baseCapacity = s.baseCapacity ∧ s'.elemSize = s.elemSize ∧
      s'.nextId = s.nextId + 1 ∧ s.capacity < n ∧ s'.capacity = max (n * 2 % 2 ^ 64) 8 := by
  unfold reserve at h
  split at h
  · obtain ⟨t, ht, h⟩ := bind_eq_ok.mp h
    obtain ⟨u, hu, h⟩ := bind_eq_ok.mp h
    -- the move loop reads and constructs, and `free()` destroys and frees: neither changes a size
    have hmove := sizes_foldlM (fun h => (bind_eq_ok.mp h).elim fun _ h => sizes_construct h.2) ht
    have e := (sizes_free hu).trans hmove
    cases h
    simp only [sizes, allocate, Prod.mk.injEq] at e
    exact .inr ⟨e.1, e.2.1, e.2.2.2, by omega, e.2.2.1⟩
  · cases h; exact .inl rfl

/-- `Grown` reads only the sizes. -/
theorem Grown.of_sizes {base : Nat} (he : sizes s' = sizes s) (hg : Grown base s) : Grown base s' := by
  simp only [sizes, Prod.mk.injEq] at he
  simpa only [Grown, he] using hg

/-- An allocation by a `reserve` that fits at least doubles the capacity. -/
theorem Grown.reserve {base : Nat} (hg : Grown base s) (hf : Fits s n) (h : reserve s n = .ok s') :
    Grown base s' := by
  rcases sizes_reserve h with he | ⟨hb, hE, hk, hn, hc⟩
  · exact hg.of_sizes he
  rw [(hf.sizes hn hg.2.1).1] at hc
  refine ⟨hb.trans hg.1, hE ▸ hg.2.1, .inr ⟨by omega, ?_⟩⟩
  rw [hk, hc, Nat.add_sub_cancel]
  rcases hg.2.2 with ⟨h0, -⟩ | ⟨hpos, hle⟩
  · rw [h0]; omega
  · obtain ⟨j, hj⟩ : ∃ j, s.nextId = j + 1 := ⟨s.nextId - 1, by omega⟩
    rw [hj, Nat.add_sub_cancel] at hle
    rw [hj, Nat.pow_succ]
    omega

/-- Every call whose `reserve` fits keeps `Grown`. -/
theorem Grown.of_exec {base : Nat} (hg : Grown base s) {op : Op α} (hf : Fits s (op.request s))
    (h : exec op s = .ok s') : Grown base s' := by
  have hpush {el : Arg α} {t : State α} (hp : pushBack s el = .ok t) (hf : Fits s (s.count + 1)) : Grown base t := by
    obtain ⟨t₁, hr, hp⟩ := bind_eq_ok.mp hp
    obtain ⟨v, -, hp⟩ := bind_eq_ok.mp hp
    obtain ⟨u, hu, hp⟩ := bind_eq_ok.mp hp
    cases hp
    have hc := sizes_construct hu
    exact (hg.reserve hf hr).of_sizes hc
  cases op with
  | pushBack v => exact hpush h hf
  | pushBackElem j =>
    obtain ⟨el, -, h⟩ := bind_eq_ok.mp h
    exact hpush h hf
  | popBack =>
    simp only [exec, popBack] at h
    split at h
    · cases h
    · exact hg.of_sizes (sizes_destroyAt h)
  | resize n dflt =>
    obtain ⟨t, ht, h⟩ := bind_eq_ok.mp h
    obtain ⟨u, hu, h⟩ := bind_eq_ok.mp h
    exact ((hg.reserve hf ht).of_sizes (sizes_constructTail hu)).of_sizes (sizes_destroyTail h)
  | reserve n => exact hg.reserve hf h

/-- Every run whose `reserve` calls fit keeps `Grown`. -/
theorem Grown.of_run {base : Nat} : ∀ {ops : List (Op α)} {s s' : State α}, Grown base s →
    Every (fun s op => Fits s (op.request s)) s ops → run s ops = .ok s' → Grown base s'
  | [], _, _, hg, _, h => by cases h; exact hg
  | op :: _, s, _, hg, ⟨hf, hrest⟩, h => by
    obtain ⟨t, ht, h⟩ := bind_eq_ok.mp h
    have ht' : exec op s = .ok t := ht
    rw [ht'] at hrest
    exact Grown.of_run (hg.of_exec hf ht') hrest h

/-- Past the capacity, a `reserve(n)` that fits sets the capacity to `max(2 n, 8)` and makes one allocation. -/
theorem reserve_grows {L : List α} (h : Inv s L) (hn : s.capacity < n) (hf : Fits s n) :
    ∃ s', reserve s n = .ok s' ∧ s'.capacity = max (n * 2) 8 ∧ s'.nextId = s.nextId + 1 := by
  obtain ⟨hc, hm⟩ := hf.sizes hn h.elemSize_pos
  have hcount := h.count_le
  exact ⟨_, reserve_grow h hn (by rw [hc, hm]; omega), hc, rfl⟩

/-- Over every run of calls from a new vector whose `reserve` calls do not wrap: past the capacity, the next
`reserve(n)` sets the capacity to `max(2 n, 8)` with one allocation, and each allocation made has at least doubled
the capacity: after `k` allocations it is at least `8 * 2 ^ (k - 1)`, so a vector of capacity `c` has made at most
`log2 (c / 8) + 1` allocations. -/
theorem run_grown (base elemSize : Nat) (ops : List (Op α)) {s : State α} (hE : 0 < elemSize)
    (hfit : Every (fun s op => Fits s (op.request s)) (empty base elemSize) ops)
    (h : run (empty base elemSize) ops = .ok s) :
    (s.nextId = 0 ∧ s.capacity = base ∨ 0 < s.nextId ∧ 8 * 2 ^ (s.nextId - 1) ≤ s.capacity) ∧
      ∀ n, s.capacity < n → Fits s n →
        ∃ s', reserve s n = .ok s' ∧ s'.capacity = max (n * 2) 8 ∧ s'.nextId = s.nextId + 1 := by
  obtain ⟨L, hL⟩ := run_inv (inv_empty base hE) hfit h
  exact ⟨(Grown.of_run ⟨rfl, hE, .inl ⟨rfl, rfl⟩⟩ hfit h).2.2, fun n hn hf => reserve_grows hL hn hf⟩

/-- Nine elements of 4 bytes pushed onto a vector with no inline room. -/
theorem run_grown_nine :
    Every (fun s op => Fits s (op.request s)) (empty 0 4 : State Nat) (List.replicate 9 (.pushBack 1)) ∧
    ∃ s : State Nat, run (empty 0 4) (List.replicate 9 (.pushBack 1)) = .ok s ∧
      (s.nextId = 0 ∧ s.capacity = 0 ∨ 0 < s.nextId ∧ 8 * 2 ^ (s.nextId - 1) ≤ s.capacity) ∧
        ∀ n, s.capacity < n → Fits s n →
          ∃ s', reserve s n = .ok s' ∧ s'.capacity = max (n * 2) 8 ∧ s'.nextId = s.nextId + 1 := by
  have hf : Every (fun s op => Fits s (op.request s)) (empty 0 4 : State Nat) (List.replicate 9 (.pushBack 1)) := by
    decide
  obtain ⟨s, hs⟩ : ∃ s : State Nat, run (empty 0 4) (List.replicate 9 (.pushBack 1)) = .ok s := ⟨_, rfl⟩
  exact ⟨hf, s, hs, run_grown 0 4 _ (by decide) hf hs⟩

end Growth

end Marl.Containers.Vector
