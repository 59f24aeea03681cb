import Mathlib.Data.List.Nodup
import Mathlib.Data.List.Perm.Basic
import Mathlib.Data.List.Range
import Mathlib.Algebra.Group.Nat.Basic

/-!
# `containers::list`

`marl::containers::list<T>` keeps its elements in entries linked both ways. Entries come in allocations of
`max(capacity, 8)` entries (`grow`), which the list keeps until it is destroyed, and each entry is on one of two
lists: the elements, from `head`, or the free entries, from `free`. `emplace_front` moves the first free entry to the
front of the elements and `erase` moves an element back to the front of the free list, both by `unlink` and `link`.

Memory maps entry numbers to entries; an allocation's entries are numbered after those of the allocations before it.
An iterator is an `Entry*`, `none` for `end()`.

* `Linked mem prev l`: the `next` and `prev` of each entry of `l` are its neighbours in `l`. `unlink` of an entry of a
  linked list, and `link` of a lone entry to the front of one, leave it linked (`unlink_spec`, `link_spec`).
* `Inv s L fl`: the list holds the (iterator, element) pairs `L` in order, the free entries are `fl`, the two lists
  are linked, and together they hold every entry once. `emplace_front` and `erase` keep it, and never fault on a
  list that has it (`emplaceFront_spec`, `erase_spec`).
* Over every run from an empty list, the list refines a list of (iterator, element) pairs: `emplace_front` puts a
  fresh iterator in front, `erase` takes one out, and every other iterator keeps its element and its place
  (`run_refines`). The destructor destroys exactly the elements held and frees the allocations, which hold
  `8 * 2 ^ (n - 1)` entries after `n` of them (`destroy_spec`).
-/

namespace Marl.Containers.List

/-! ## Entries and the list -/

/-- `list<T>::Entry`: the element (`none` while none is constructed in it) and the links. -/
structure Entry (α : Type) where
  data : Option α
  next : Option Nat
  prev : Option Nat
  deriving DecidableEq, Repr

/-- The fields of `list<T>`, with the memory of its entries. `allocations` is the `AllocationChain`, newest first,
each allocation as its first entry and its number of entries. -/
structure State (α : Type) where
  mem : Nat → Option (Entry α)
  size_ : Nat
  capacity : Nat
  allocations : List (Nat × Nat)
  free : Option Nat
  head : Option Nat

/-- Undefined behaviour: a null or dangling `Entry*` followed, or a failed `MARL_ASSERT`. -/
inductive Fault
  | deref
  | assert (msg : String)
  deriving DecidableEq, Repr

variable {α : Type}

/-- `*p`: the number of the entry a pointer refers to, and the entry. -/
def deref (mem : Nat → Option (Entry α)) : Option Nat → Except Fault (Nat × Entry α)
  | none => throw .deref
  | some i => match mem i with
    | none => throw .deref
    | some e => pure (i, e)

/-- `p->next = n`. -/
def setNext (mem : Nat → Option (Entry α)) (i : Nat) (n : Option Nat) : Nat → Option (Entry α) :=
  Function.update mem i ((mem i).map fun e => { e with next := n })

/-- `p->prev = n`. -/
def setPrev (mem : Nat → Option (Entry α)) (i : Nat) (n : Option Nat) : Nat → Option (Entry α) :=
  Function.update mem i ((mem i).map fun e => { e with prev := n })

/-- An element constructed in `p->data` (`some`), or destroyed (`none`). -/
def setData (mem : Nat → Option (Entry α)) (i : Nat) (d : Option α) : Nat → Option (Entry α) :=
  Function.update mem i ((mem i).map fun e => { e with data := d })

/-- `list<T>::unlink(entry, list)`: the memory, and the new value of `list`. -/
def unlink (mem : Nat → Option (Entry α)) (entry list : Option Nat) :
    Except Fault ((Nat → Option (Entry α)) × Option Nat) := do
  let list ← if list = entry then (·.2.next) <$> deref mem list else pure list
  let (_, e) ← deref mem entry
  let mem ← if e.prev = none then pure mem else do
    let (q, _) ← deref mem e.prev
    pure (setNext mem q e.next)
  let (_, e) ← deref mem entry
  let mem ← if e.next = none then pure mem else do
    let (r, _) ← deref mem e.next
    pure (setPrev mem r e.prev)
  let (i, _) ← deref mem entry
  pure (setNext (setPrev mem i none) i none, list)

/-- `list<T>::link(entry, list)`: the memory, and the new value of `list`. -/
def link (mem : Nat → Option (Entry α)) (entry list : Option Nat) :
    Except Fault ((Nat → Option (Entry α)) × Option Nat) := do
  let (i, e) ← deref mem entry
  if e.next ≠ none then throw (.assert "link() called on entry already linked")
  if e.prev ≠ none then throw (.assert "link() called on entry already linked")
  if list = none then pure (mem, entry) else do
    let mem := setNext mem i list
    let (l, _) ← deref mem list
    pure (setPrev mem l entry, entry)

/-- One iteration of the loop of `grow`: `entry` pushed on the free list. -/
def growStep : (Nat → Option (Entry α)) × Option Nat → Nat → (Nat → Option (Entry α)) × Option Nat
  | (mem, free), entry =>
    let mem := setNext (setPrev mem entry none) entry free
    match free with
    | none => (mem, some entry)
    | some f => (setPrev mem f (some entry), some entry)

/-- The loop of `grow`: the entries `first`, ..., `first + count - 1` pushed on the free list in turn. -/
def growLoop (first count : Nat) (acc : (Nat → Option (Entry α)) × Option Nat) :
    (Nat → Option (Entry α)) × Option Nat :=
  (List.range count).foldl (fun acc i => growStep acc (first + i)) acc

/-- `list<T>::grow(count)`: an allocation of `count` entries, numbered from `capacity` on, each pushed on the free
list in turn, and recorded in the allocation chain. -/
def grow (s : State α) (count : Nat) : State α :=
  let mem := fun i => if s.capacity ≤ i ∧ i < s.capacity + count then some ⟨none, none, none⟩ else s.mem i
  let r := growLoop s.capacity count (mem, s.free)
  { s with mem := r.1, free := r.2, allocations := (s.capacity, count) :: s.allocations,
           capacity := s.capacity + count }

/-- `list<T>::emplace_front(v)`: the list, and the iterator returned. -/
def emplaceFront (s : State α) (v : α) : Except Fault (State α × Option Nat) := do
  let s := if s.free = none then grow s (max s.capacity 8) else s
  let entry := s.free
  let (mem, free) ← unlink s.mem entry s.free
  let (mem, head) ← link mem entry s.head
  let (i, _) ← deref mem entry
  pure ({ s with mem := setData mem i (some v), free, head, size_ := s.size_ + 1 }, entry)

/-- `list<T>::erase(it)`, `it` being the iterator's `Entry*`. -/
def erase (s : State α) (it : Option Nat) : Except Fault (State α) := do
  let (mem, head) ← unlink s.mem it s.head
  let (mem, free) ← link mem it s.free
  let (i, _) ← deref mem it
  pure { s with mem := setData mem i none, head, free, size_ := s.size_ - 1 }

/-- A new list: `list(allocator)`. -/
def empty : State α := ⟨fun _ => none, 0, 0, [], none, none⟩

/-- Following `next` from an entry, at most `fuel` entries: each entry and its data. -/
def walk (mem : Nat → Option (Entry α)) : Nat → Option Nat → List (Nat × Option α)
  | 0, _ => []
  | _, none => []
  | fuel + 1, some i => match mem i with
    | none => []
    | some e => (i, e.data) :: walk mem fuel e.next

/-- Iterating from `begin()` to `end()`: each iterator and its element. The list has at most `capacity` entries. -/
def items (s : State α) : List (Nat × Option α) := walk s.mem s.capacity s.head

/-- `list<T>::~list()`: the elements destroyed, from `head` on, and the allocations freed, along the chain. -/
def destroy (s : State α) : List (Option α) × List (Nat × Nat) :=
  ((walk s.mem s.capacity s.head).map Prod.snd, s.allocations)

/-! ## Neighbours in a list -/

/-- The entry after `i` in `l`. -/
def nextOf : List Nat → Nat → Option Nat
  | [], _ => none
  | a :: l, i => if a = i then l.head? else nextOf l i

/-- The entry before `i` in `l`, with `prev` before the first. -/
def prevOf (prev : Option Nat) : List Nat → Nat → Option Nat
  | [], _ => none
  | a :: l, i => if a = i then prev else prevOf (some a) l i

section Neighbours

variable {l : List Nat} {i j p : Nat}

@[simp] theorem nextOf_nil : nextOf [] i = none := rfl

theorem nextOf_cons (a : Nat) : nextOf (a :: l) i = if a = i then l.head? else nextOf l i := rfl

@[simp] theorem prevOf_nil (x : Option Nat) : prevOf x [] i = none := rfl

theorem prevOf_cons (x : Option Nat) (a : Nat) :
    prevOf x (a :: l) i = if a = i then x else prevOf (some a) l i := rfl

/-- An entry off the list has no successor in it. -/
theorem nextOf_of_not_mem (h : i ∉ l) : nextOf l i = none := by
  induction l with
  | nil => rfl
  | cons a l ih =>
    rw [List.mem_cons, not_or] at h
    rw [nextOf_cons, if_neg (Ne.symm h.1), ih h.2]

/-- A successor in `l` is an entry of `l`. -/
theorem mem_of_nextOf (h : nextOf l i = some j) : j ∈ l := by
  induction l with
  | nil => cases h
  | cons a l ih =>
    rw [nextOf_cons] at h
    split_ifs at h
    · exact List.mem_cons_of_mem _ (List.mem_of_mem_head? h)
    · exact List.mem_cons_of_mem _ (ih h)

/-- A predecessor in `l` is an entry of `l`, or what came before it. -/
theorem mem_of_prevOf {x : Option Nat} (h : prevOf x l i = some j) : x = some j ∨ j ∈ l := by
  induction l generalizing x with
  | nil => cases h
  | cons a l ih =>
    rw [prevOf_cons] at h
    split_ifs at h
    · exact .inl h
    · rcases ih h with h | h
      · exact .inr (Option.some_injective _ h ▸ List.mem_cons_self _ _)
      · exact .inr (List.mem_cons_of_mem _ h)

/-- Only the first entry's `prevOf` depends on what came before the list. -/
theorem prevOf_start (x y : Option Nat) : prevOf x l i = if l.head? = some i then x else prevOf y l i := by
  cases l with
  | nil => simp
  | cons a l => by_cases h : a = i <;> simp [prevOf_cons, h]

/-- No entry of a list without repetitions follows itself. -/
theorem nextOf_ne_self (hl : l.Nodup) : nextOf l i ≠ some i := by
  induction l with
  | nil => simp
  | cons a l ih =>
    obtain ⟨ha, hl⟩ := List.nodup_cons.mp hl
    rw [nextOf_cons]
    split_ifs with h
    · exact fun h' => ha (h ▸ List.mem_of_mem_head? h')
    · exact ih hl

/-- In a list without repetitions, `i` comes before `j` exactly when `j` comes after `i`. -/
theorem prevOf_eq_some_iff (hl : l.Nodup) {x : Option Nat} :
    prevOf x l j = some i ↔ (l.head? = some j ∧ x = some i) ∨ nextOf l i = some j := by
  induction l generalizing x with
  | nil => simp
  | cons a l ih =>
    obtain ⟨ha, hl⟩ := List.nodup_cons.mp hl
    rw [prevOf_cons, nextOf_cons]
    by_cases haj : a = j
    · subst haj
      have h1 : nextOf l i ≠ some a := fun h => ha (mem_of_nextOf h)
      have h2 : l.head? ≠ some a := fun h => ha (List.mem_of_mem_head? h)
      by_cases hai : a = i
      · subst hai; simp [h2]
      · simp [hai, h1]
    · rw [if_neg haj, ih hl]
      by_cases hai : a = i
      · subst hai; simp [haj, nextOf_of_not_mem ha]
      · simp [hai, haj]

/-- In a list without repetitions, `j` follows `i` exactly when `i` precedes `j`. -/
theorem nextOf_eq_some_iff (hl : l.Nodup) : nextOf l i = some j ↔ prevOf none l j = some i := by
  simp [prevOf_eq_some_iff hl]

/-- Taking `p` out of a list, the list starts where `p` ended if `p` was first. -/
theorem head?_erase : (l.erase p).head? = if l.head? = some p then nextOf l p else l.head? := by
  cases l with
  | nil => rfl
  | cons a l => by_cases h : a = p <;> simp [List.erase_cons, nextOf_cons, h]

/-- Taking `p` out of a list, the entry before `p` is followed by the one after it. -/
theorem nextOf_erase (hl : l.Nodup) (hi : i ≠ p) :
    nextOf (l.erase p) i = if nextOf l i = some p then nextOf l p else nextOf l i := by
  induction l with
  | nil => simp
  | cons a l ih =>
    obtain ⟨ha, hl⟩ := List.nodup_cons.mp hl
    by_cases hap : a = p
    · subst hap
      have : nextOf l i ≠ some a := fun h => ha (mem_of_nextOf h)
      simp [nextOf_cons, Ne.symm hi, this]
    · rw [List.erase_cons, if_neg (by simpa using hap), nextOf_cons, nextOf_cons, nextOf_cons, if_neg hap]
      by_cases hai : a = i
      · subst hai
        rw [if_pos rfl, if_pos rfl, head?_erase]
      · rw [if_neg hai, if_neg hai, ih hl]

/-- Taking `p` out of a list, the entry after `p` is preceded by the one before it. -/
theorem prevOf_erase (hl : l.Nodup) (hi : i ≠ p) {x : Option Nat} (hx : x ≠ some p) :
    prevOf x (l.erase p) i = if prevOf x l i = some p then prevOf x l p else prevOf x l i := by
  induction l generalizing x with
  | nil => simp
  | cons a l ih =>
    obtain ⟨ha, hl⟩ := List.nodup_cons.mp hl
    by_cases hap : a = p
    · subst hap
      have hne : prevOf none l i ≠ some a := fun h => (mem_of_prevOf h).elim (by simp) ha
      rw [List.erase_cons_head, prevOf_cons, prevOf_cons, if_neg (Ne.symm hi), if_pos rfl,
        prevOf_start x none, prevOf_start (some a) none]
      by_cases hh : l.head? = some i <;> simp [hh, hne]
    · rw [List.erase_cons, if_neg (by simpa using hap), prevOf_cons, prevOf_cons, prevOf_cons, if_neg hap]
      by_cases hai : a = i
      · simp [hai, hx]
      · rw [if_neg hai, if_neg hai, ih hl (by simpa using hap)]

end Neighbours

/-! ## Linked lists of entries -/

/-- The entries of `l` are linked in its order: each exists, with its neighbours in `l` as `next` and `prev`, and
`prev` before the first. -/
def Linked (mem : Nat → Option (Entry α)) (prev : Option Nat) (l : List Nat) : Prop :=
  ∀ i ∈ l, ∃ e, mem i = some e ∧ e.next = nextOf l i ∧ e.prev = prevOf prev l i

/-- `mem'` holds the same entries as `mem`, with the same data: only links differ. -/
def SameData (mem mem' : Nat → Option (Entry α)) : Prop :=
  ∀ j, (mem' j).map Entry.data = (mem j).map Entry.data

section Linked

variable {mem mem' : Nat → Option (Entry α)} {x : Option Nat} {l : List Nat} {i j p : Nat}

/-- The rest of a linked list is linked, its first entry before it. -/
theorem Linked.tail {a : Nat} (h : Linked mem x (a :: l)) (ha : a ∉ l) : Linked mem (some a) l := by
  intro i hi
  have hai : a ≠ i := fun h => ha (h ▸ hi)
  simpa only [nextOf_cons, prevOf_cons, if_neg hai] using h i (List.mem_cons_of_mem _ hi)

/-- Whether a list is linked depends only on its own entries. -/
theorem Linked.congr (h : Linked mem x l) (hm : ∀ i ∈ l, mem' i = mem i) : Linked mem' x l :=
  fun i hi => hm i hi ▸ h i hi

/-- Iterating from the first entry of a linked list visits its entries in order. -/
theorem walk_of_linked {fuel : Nat} (h : Linked mem x l) (hl : l.Nodup) (hf : l.length ≤ fuel) :
    walk mem fuel l.head? = l.map fun i => (i, (mem i).bind Entry.data) := by
  induction l generalizing x fuel with
  | nil => cases fuel <;> rfl
  | cons a l ih =>
    obtain ⟨ha, hl⟩ := List.nodup_cons.mp hl
    obtain ⟨e, he, hn, -⟩ := h a (List.mem_cons_self _ _)
    obtain ⟨fuel, rfl⟩ : ∃ f, fuel = f + 1 := ⟨fuel - 1, by simp at hf; omega⟩
    rw [nextOf_cons, if_pos rfl] at hn
    simp [walk, he, hn, ih (h.tail ha) hl (by simpa using hf)]

/-- The memory after entry `i`, now `e`, is put in front of the list that starts at `list`: the old first entry
points back to `i`. -/
def pushFront (mem : Nat → Option (Entry α)) (i : Nat) (e : Entry α) (list : Option Nat) :
    Nat → Option (Entry α) := fun j =>
  if j = i then some e else if list = some j then (mem j).map fun e' => { e' with prev := some i } else mem j

/-- A lone entry pushed on the front of a linked list: the list with it in front is linked. -/
theorem Linked.push (h : Linked mem none l) (hi : i ∉ l) {e : Entry α} (hn : e.next = l.head?)
    (hp : e.prev = none) : Linked (pushFront mem i e l.head?) none (i :: l) := by
  intro k hk
  rcases List.mem_cons.mp hk with rfl | hk
  · exact ⟨e, if_pos rfl, by simp [nextOf_cons, hn], by simp [prevOf_cons, hp]⟩
  · have hik : k ≠ i := fun h => hi (h ▸ hk)
    obtain ⟨e', he', hn', hp'⟩ := h k hk
    rw [nextOf_cons, prevOf_cons, if_neg (Ne.symm hik), if_neg (Ne.symm hik), prevOf_start (some i) none]
    by_cases hhk : l.head? = some k
    · exact ⟨{ e' with prev := some i }, by simp [pushFront, hik, hhk, he'], hn', by simp [hhk]⟩
    · exact ⟨e', by simp [pushFront, hik, hhk, he'], hn', by simp [hhk, hp']⟩

/-- `pushFront` leaves every entry but the pushed one and the old first one as it was. -/
theorem pushFront_of_not_mem {e : Entry α} (hj : j ∉ i :: l) :
    pushFront mem i e l.head? j = mem j := by
  rw [List.mem_cons, not_or] at hj
  have : l.head? ≠ some j := fun h' => hj.2 (List.mem_of_mem_head? h')
  simp [pushFront, hj.1, this]

/-- `pushFront` changes links only, if the pushed entry keeps its data. -/
theorem sameData_pushFront {e : Entry α} {list : Option Nat} (he : (mem i).map Entry.data = some e.data) :
    SameData mem (pushFront mem i e list) := by
  intro k
  rcases eq_or_ne k i with rfl | hki
  · simp [pushFront, he]
  · by_cases hk : list = some k <;> simp [pushFront, hki, hk, Option.map_map, Function.comp_def]

/-- An entry `p` taken out of a linked list: its neighbours point to each other. -/
theorem Linked.erase (h : Linked mem none l) (hl : l.Nodup)
    (hm : ∀ k ∈ l.erase p, mem' k = (mem k).map fun e => { e with
      next := if nextOf l k = some p then nextOf l p else e.next,
      prev := if prevOf none l k = some p then prevOf none l p else e.prev }) :
    Linked mem' none (l.erase p) := by
  intro k hk
  obtain ⟨hkp, hk'⟩ := hl.mem_erase_iff.mp hk
  obtain ⟨e, he, hn, hp⟩ := h k hk'
  refine ⟨_, by rw [hm k hk, he]; rfl, ?_, ?_⟩
  · simp only [nextOf_erase hl hkp, hn]
  · simp only [prevOf_erase hl hkp (x := none) (by simp), hp]

end Linked

/-! ## `unlink`, `link` and the loop of `grow` -/

section Operations

variable {mem : Nat → Option (Entry α)} {l : List Nat} {i j p : Nat}

/-- `p->next = n` reads back at `p`. -/
@[simp] theorem setNext_same (n : Option Nat) : setNext mem i n i = (mem i).map fun e => { e with next := n } :=
  Function.update_same _ _ _

@[simp] theorem setNext_of_ne (n : Option Nat) (h : j ≠ i) : setNext mem i n j = mem j :=
  Function.update_noteq h _ _

@[simp] theorem setPrev_same (n : Option Nat) : setPrev mem i n i = (mem i).map fun e => { e with prev := n } :=
  Function.update_same _ _ _

@[simp] theorem setPrev_of_ne (n : Option Nat) (h : j ≠ i) : setPrev mem i n j = mem j :=
  Function.update_noteq h _ _

@[simp] theorem setData_same (d : Option α) : setData mem i d i = (mem i).map fun e => { e with data := d } :=
  Function.update_same _ _ _

@[simp] theorem setData_of_ne (d : Option α) (h : j ≠ i) : setData mem i d j = mem j :=
  Function.update_noteq h _ _

/-- Following a pointer to an entry that exists. -/
theorem deref_some {e : Entry α} (h : mem i = some e) : deref mem (some i) = pure (i, e) := by
  simp [deref, h]

@[simp] theorem Entry.eta (e : Entry α) : ({ data := e.data, next := e.next, prev := e.prev } : Entry α) = e := rfl

/-- `p->next = n`, seen at every entry. -/
theorem setNext_apply (n : Option Nat) (j : Nat) :
    setNext mem i n j = (mem j).map fun e => { e with next := if i = j then n else e.next } := by
  rcases eq_or_ne i j with rfl | h
  · simp [setNext]
  · simp [setNext, h, Ne.symm h]

/-- `p->prev = n`, seen at every entry. -/
theorem setPrev_apply (n : Option Nat) (j : Nat) :
    setPrev mem i n j = (mem j).map fun e => { e with prev := if i = j then n else e.prev } := by
  rcases eq_or_ne i j with rfl | h
  · simp [setPrev]
  · simp [setPrev, h, Ne.symm h]

/-- `unlink` of entry `p`: its neighbours point to each other, and its own links are cleared. -/
theorem unlink_eq {e : Entry α} (hp : mem p = some e) (hq : ∀ q, e.prev = some q → q ≠ p ∧ (mem q).isSome)
    (hr : ∀ r, e.next = some r → r ≠ p ∧ (mem r).isSome) (list : Option Nat) :
    unlink mem (some p) list = .ok (fun j => if j = p then some { e with next := none, prev := none } else
        (mem j).map fun e' => { e' with next := if e.prev = some j then e.next else e'.next,
                                        prev := if e.next = some j then e.prev else e'.prev },
      if list = some p then e.next else list) := by
  rcases e with ⟨d, n, pv⟩
  -- the neighbours that `unlink` follows exist, and are not `p`
  have hnb (k : Nat) (hk : pv = some k ∨ n = some k) : k ≠ p ∧ ∃ e, mem k = some e := by
    rcases hk with hk | hk
    · exact ⟨(hq k hk).1, Option.isSome_iff_exists.mp (hq k hk).2⟩
    · exact ⟨(hr k hk).1, Option.isSome_iff_exists.mp (hr k hk).2⟩
  clear hq hr
  -- four shapes: `p` with or without a predecessor `q`, and with or without a successor `r`
  rcases pv with _ | q <;> rcases n with _ | r
  case' none.some => obtain ⟨hrp, er, her⟩ := hnb r (.inr rfl)
  case' some.none => obtain ⟨hqp, eq, heq⟩ := hnb q (.inl rfl)
  case' some.some =>
    obtain ⟨hqp, eq, heq⟩ := hnb q (.inl rfl)
    obtain ⟨hrp, er, her⟩ := hnb r (.inr rfl)
  all_goals
    clear hnb
    by_cases hl : list = some p <;> simp [unlink, deref, hp, hl, setNext_apply, setPrev_apply, *] <;>
    · refine congrArg (fun m => Except.ok (m, _)) (funext fun j => ?_)
      rcases eq_or_ne j p with rfl | hjp
      · simp [setNext_apply, setPrev_apply, *]
      · simp [setNext_apply, setPrev_apply, Option.map_map, Function.comp_def, Ne.symm hjp, *]

/-- `link` of a lone entry `i` to the front of `list`. -/
theorem link_eq {e : Entry α} {list : Option Nat} (hi : mem i = some e) (hn : e.next = none) (hp : e.prev = none)
    (hl : ∀ k, list = some k → k ≠ i ∧ (mem k).isSome) :
    link mem (some i) list = .ok (pushFront mem i { e with next := list } list, some i) := by
  rcases e with ⟨d, n, pv⟩
  simp only at hn hp
  subst hn hp
  rcases list with _ | k
  · simp only [link, deref, hi]
    refine congrArg (fun m => Except.ok (m, _)) (funext fun j => ?_)
    rcases eq_or_ne j i with rfl | hji
    · simp [pushFront, hi]
    · simp [pushFront, hji]
  · obtain ⟨hki, ek, hek⟩ : k ≠ i ∧ ∃ e, mem k = some e := by
      obtain ⟨h1, h2⟩ := hl k rfl; exact ⟨h1, Option.isSome_iff_exists.mp h2⟩
    simp [link, deref, hi, hek, hki]
    refine congrArg (fun m => Except.ok (m, _)) (funext fun j => ?_)
    rcases eq_or_ne j i with rfl | hji
    · simp [pushFront, hi, Ne.symm hki]
    rcases eq_or_ne j k with rfl | hjk
    · simp [pushFront, hji, hek]
    · simp [pushFront, hji, hjk, Ne.symm hjk]

/-- One iteration of `grow`'s loop pushes entry `i` on the front of the free list. -/
theorem growStep_eq {e : Entry α} {free : Option Nat} (hi : mem i = some e) (hf : free ≠ some i) :
    growStep (mem, free) i = (pushFront mem i { e with next := free, prev := none } free, some i) := by
  rcases free with _ | f
  · refine congrArg (fun m => (m, _)) (funext fun j => ?_)
    rcases eq_or_ne j i with rfl | hji
    · simp [growStep, pushFront, hi]
    · simp [growStep, pushFront, hji]
  · have hfi : f ≠ i := fun h => hf (h ▸ rfl)
    refine congrArg (fun m => (m, _)) (funext fun j => ?_)
    rcases eq_or_ne j i with rfl | hji
    · simp [growStep, pushFront, hi, Ne.symm hfi]
    rcases eq_or_ne j f with rfl | hjf
    · simp [growStep, pushFront, hji]
    · simp [growStep, pushFront, hji, hjf, Ne.symm hjf]

end Operations

/-! ## The operations keep the lists linked -/

section Specs

variable {mem : Nat → Option (Entry α)} {l : List Nat} {i j p : Nat}

/-- Every entry of a linked list exists. -/
theorem Linked.isSome {x : Option Nat} (h : Linked mem x l) (hi : i ∈ l) : (mem i).isSome := by
  obtain ⟨e, he, -⟩ := h i hi
  simp [he]

/-- Changes of links only, one after another. -/
theorem SameData.trans {mem₁ mem₂ : Nat → Option (Entry α)} (h₁ : SameData mem mem₁)
    (h₂ : SameData mem₁ mem₂) : SameData mem mem₂ :=
  fun j => (h₂ j).trans (h₁ j)

/-- After changes of links only, an entry still exists, with its data. -/
theorem SameData.get {mem' : Nat → Option (Entry α)} {e : Entry α} (h : SameData mem mem') (he : mem i = some e) :
    ∃ e', mem' i = some e' ∧ e'.data = e.data := by
  have := h i
  rw [he] at this
  obtain ⟨e', he', hd⟩ := Option.map_eq_some'.mp this
  exact ⟨e', he', hd⟩

/-- `unlink` of an entry of a linked list, from its first entry: the list without it, still linked; the entry
alone; every entry off the list, and all data, unchanged. -/
theorem unlink_spec (h : Linked mem none l) (hl : l.Nodup) (hp : p ∈ l) :
    ∃ mem', unlink mem (some p) l.head? = .ok (mem', (l.erase p).head?) ∧ Linked mem' none (l.erase p) ∧
      (∃ e, mem' p = some e ∧ e.next = none ∧ e.prev = none) ∧ (∀ j, j ∉ l → mem' j = mem j) ∧
      SameData mem mem' := by
  obtain ⟨e, he, hn, hpv⟩ := h p hp
  -- `p`'s neighbours `q` and `r`
  have hq : ∀ q, e.prev = some q → q ≠ p ∧ (mem q).isSome := fun q hq => by
    rw [hpv] at hq
    have hqn := (nextOf_eq_some_iff hl).mpr hq
    exact ⟨fun hqp => nextOf_ne_self hl (hqp ▸ hqn), h.isSome ((mem_of_prevOf hq).resolve_left (by simp))⟩
  have hr : ∀ r, e.next = some r → r ≠ p ∧ (mem r).isSome := fun r hr => by
    rw [hn] at hr
    exact ⟨fun hrp => nextOf_ne_self hl (hrp ▸ hr), h.isSome (mem_of_nextOf hr)⟩
  have hpq (k : Nat) : e.prev = some k ↔ nextOf l k = some p := hpv ▸ (nextOf_eq_some_iff hl).symm
  have hpr (k : Nat) : e.next = some k ↔ prevOf none l k = some p := hn ▸ nextOf_eq_some_iff hl
  refine ⟨_, (unlink_eq he hq hr _).trans (by rw [head?_erase, hn]), h.erase hl fun k hk => ?_,
    ⟨{ e with next := none, prev := none }, if_pos rfl, rfl, rfl⟩, fun k hk => ?_, fun k => ?_⟩
  · simp only [if_neg (hl.mem_erase_iff.mp hk).1, hpq, hpr, ← hn, ← hpv]
  · have hkp : k ≠ p := fun h => hk (h ▸ hp)
    have h1 : e.prev ≠ some k := fun h' => hk ((mem_of_prevOf (hpv ▸ h')).resolve_left (by simp))
    have h2 : nextOf l p ≠ some k := fun h' => hk (mem_of_nextOf h')
    simp [hkp, h1, h2, hn]
  · rcases eq_or_ne k p with rfl | hkp
    · simp [he]
    · simp [hkp, Option.map_map, Function.comp_def]

/-- `link` of a lone entry to the front of a linked list, from its first entry: the list with the entry in front,
still linked; every other entry, and all data, unchanged. -/
theorem link_spec (h : Linked mem none l) (hi : i ∉ l) {e : Entry α} (he : mem i = some e) (hn : e.next = none)
    (hp : e.prev = none) :
    ∃ mem', link mem (some i) l.head? = .ok (mem', some i) ∧ Linked mem' none (i :: l) ∧
      (∀ j, j ∉ i :: l → mem' j = mem j) ∧ SameData mem mem' :=
  ⟨_, link_eq he hn hp fun k hk =>
      ⟨fun hki => hi (hki ▸ List.mem_of_mem_head? hk), h.isSome (List.mem_of_mem_head? hk)⟩,
    h.push hi rfl hp, fun _ hj => pushFront_of_not_mem hj, sameData_pushFront (by simp [he])⟩

/-- One iteration of `grow`'s loop, on an entry off the linked free list. -/
theorem growStep_spec (h : Linked mem none l) (hi : i ∉ l) (hs : (mem i).isSome) :
    (growStep (mem, l.head?) i).2 = some i ∧ Linked (growStep (mem, l.head?) i).1 none (i :: l) ∧
      (∀ j, j ∉ i :: l → (growStep (mem, l.head?) i).1 j = mem j) ∧
      SameData mem (growStep (mem, l.head?) i).1 := by
  obtain ⟨e, he⟩ := Option.isSome_iff_exists.mp hs
  rw [growStep_eq he fun hl => hi (List.mem_of_mem_head? hl)]
  exact ⟨rfl, h.push hi rfl rfl, fun _ hj => pushFront_of_not_mem hj, sameData_pushFront (by simp [he])⟩

/-- Writing `p->data` keeps every list linked. -/
theorem Linked.setData {x : Option Nat} (h : Linked mem x l) (d : Option α) : Linked (setData mem i d) x l := by
  intro k hk
  obtain ⟨e, he, hn, hp⟩ := h k hk
  rcases eq_or_ne k i with rfl | hki
  · exact ⟨{ e with data := d }, by simp [he], hn, hp⟩
  · exact ⟨e, by simp [hki, he], hn, hp⟩

/-- The entries of an allocation of `k` entries from `first`, in the order `grow`'s loop leaves them on the free
list: the last one first. -/
def growEntries (first k : Nat) : List Nat := ((List.range k).map (first + ·)).reverse

/-- One more iteration of `grow`'s loop puts its entry in front. -/
theorem growEntries_succ (first k : Nat) : growEntries first (k + 1) = (first + k) :: growEntries first k := by
  simp [growEntries, List.range_succ]

/-- The entries of an allocation are those numbered from its first on. -/
theorem mem_growEntries {first k : Nat} : j ∈ growEntries first k ↔ first ≤ j ∧ j < first + k := by
  simp only [growEntries, List.mem_reverse, List.mem_map, List.mem_range]
  constructor
  · rintro ⟨n, hn, rfl⟩; omega
  · intro h; exact ⟨j - first, by omega, by omega⟩

/-- `k` iterations of `grow`'s loop push the entries `first`, ..., `first + k - 1`, all off the linked free list, on
its front. -/
theorem growLoop_spec (h : Linked mem none l) (first : Nat) :
    ∀ k, (∀ n < k, (mem (first + n)).isSome ∧ first + n ∉ l) →
      (growLoop first k (mem, l.head?)).2 = (growEntries first k ++ l).head? ∧
      Linked (growLoop first k (mem, l.head?)).1 none (growEntries first k ++ l) ∧
      (∀ j, j ∉ growEntries first k ++ l → (growLoop first k (mem, l.head?)).1 j = mem j) ∧
      SameData mem (growLoop first k (mem, l.head?)).1
  | 0, _ => ⟨rfl, h, fun _ _ => rfl, fun _ => rfl⟩
  | k + 1, hk => by
    obtain ⟨h2, hL, hf, hd⟩ := growLoop_spec h first k fun n hn => hk n (by omega)
    have hnew : first + k ∉ growEntries first k ++ l := by
      simp only [List.mem_append, mem_growEntries, not_or]; exact ⟨by omega, (hk k (by omega)).2⟩
    have hloop : growLoop first (k + 1) (mem, l.head?) =
        growStep ((growLoop first k (mem, l.head?)).1, (growEntries first k ++ l).head?) (first + k) := by
      rw [← h2]; simp [growLoop, List.range_succ]
    obtain ⟨h2', hL', hf', hd'⟩ := growStep_spec hL hnew (by rw [hf _ hnew]; exact (hk k (by omega)).1)
    rw [hloop, growEntries_succ, List.cons_append]
    exact ⟨h2', hL', fun j hj => (hf' j hj).trans (hf j fun h' => hj (List.mem_cons_of_mem _ h')), hd.trans hd'⟩

end Specs

/-! ## The invariant -/

/-- The allocation chain, newest first: each allocation holds `max(capacity, 8)` entries, numbered from the
`capacity` before it. -/
def Tiles : List (Nat × Nat) → Nat → Prop
  | [], capacity => capacity = 0
  | (first, count) :: l, capacity => count = max first 8 ∧ capacity = first + count ∧ Tiles l first

/-- The list holds the elements `L`, in order, each with its iterator (its entry), and its free entries are `fl`. -/
structure Inv (s : State α) (L : List (Nat × α)) (fl : List Nat) : Prop where
  head_eq : s.head = (L.map Prod.fst).head?
  free_eq : s.free = fl.head?
  linked_head : Linked s.mem none (L.map Prod.fst)
  linked_free : Linked s.mem none fl
  perm : (L.map Prod.fst ++ fl).Perm (List.range s.capacity)
  data_head : ∀ x ∈ L, ∃ e, s.mem x.1 = some e ∧ e.data = some x.2
  data_free : ∀ i ∈ fl, ∃ e, s.mem i = some e ∧ e.data = none
  size_eq : s.size_ = L.length
  tiles : Tiles s.allocations s.capacity

section Inv

variable {s : State α} {L : List (Nat × α)} {fl : List Nat}

/-- No entry is on both lists, or twice on one. -/
theorem Inv.nodup (h : Inv s L fl) : (L.map Prod.fst ++ fl).Nodup :=
  h.perm.nodup_iff.mpr (List.nodup_range _)

/-- A new list has the invariant: no elements, no free entries. -/
theorem inv_empty : Inv (empty : State α) [] [] :=
  ⟨rfl, rfl, by simp [Linked], by simp [Linked], by simp [empty], by simp, by simp, rfl, rfl⟩

/-- `grow` with no free entry: the new allocation's entries become the free list. -/
theorem grow_spec (h : Inv s L []) :
    Inv (grow s (max s.capacity 8)) L (growEntries s.capacity (max s.capacity 8)) := by
  -- the memory with the new allocation's entries, before the loop
  let mem : Nat → Option (Entry α) := fun i =>
    if s.capacity ≤ i ∧ i < s.capacity + max s.capacity 8 then some ⟨none, none, none⟩ else s.mem i
  have hfree : s.free = ([] : List Nat).head? := h.free_eq
  obtain ⟨h2, hL, hf, hd⟩ := growLoop_spec (show Linked mem none [] by simp [Linked]) s.capacity
    (max s.capacity 8) fun n hn => ⟨by rw [show mem (s.capacity + n) = _ from if_pos ⟨by omega, by omega⟩]; rfl,
      List.not_mem_nil _⟩
  rw [List.append_nil, ← hfree] at h2 hL hf
  rw [← hfree] at hd
  have hlt : ∀ i ∈ L.map Prod.fst, i < s.capacity := fun i hi =>
    List.mem_range.mp (h.perm.subset (List.mem_append_left _ hi))
  -- the elements' entries are untouched
  have hold : ∀ i ∈ L.map Prod.fst, (growLoop s.capacity (max s.capacity 8) (mem, s.free)).1 i = s.mem i :=
    fun i hi => by
      rw [hf i fun h' => by have := mem_growEntries.mp h'; have := hlt i hi; omega]
      exact if_neg (by have := hlt i hi; omega)
  refine
    { head_eq := h.head_eq
      free_eq := h2
      linked_head := h.linked_head.congr hold
      linked_free := hL
      perm := ?_
      data_head := fun x hx => ?_
      data_free := fun i hi => ?_
      size_eq := h.size_eq
      tiles := ⟨rfl, rfl, h.tiles⟩ }
  · have hp := h.perm
    rw [List.append_nil] at hp
    show List.Perm _ (List.range (s.capacity + max s.capacity 8))
    rw [List.range_add]
    exact hp.append (List.reverse_perm _)
  · obtain ⟨e, he, hde⟩ := h.data_head x hx
    obtain ⟨e', he', hde'⟩ := hd.get (e := e) (i := x.1) (by rw [← he]; exact if_neg (by
      have := hlt x.1 (List.mem_map_of_mem _ hx); omega))
    exact ⟨e', he', hde'.trans hde⟩
  · obtain ⟨e', he', hde'⟩ := hd.get (e := ⟨none, none, none⟩) (i := i) (if_pos (mem_growEntries.mp hi))
    exact ⟨e', he', hde'⟩

/-- An entry's data, carried through changes of links and through `p->data` written elsewhere. -/
theorem data_of_sameData {mem mem' : Nat → Option (Entry α)} {i p : Nat} {e : Entry α} {d : Option α}
    (h : SameData mem mem') (he : mem i = some e) (hd : e.data = d) (hip : i ≠ p) (d' : Option α) :
    ∃ e', setData mem' p d' i = some e' ∧ e'.data = d := by
  obtain ⟨e', he', hd'⟩ := h.get he
  exact ⟨e', by rw [setData_of_ne _ hip, he'], hd'.trans hd⟩

/-- `emplace_front` on a list with the invariant takes the first free entry, after `grow` if there is none, and
returns its iterator, which the list did not hold: the list then holds the new element in front. -/
theorem emplaceFront_spec (h : Inv s L fl) (v : α) :
    ∃ p s' fl', emplaceFront s v = .ok (s', some p) ∧ p ∉ L.map Prod.fst ∧ Inv s' ((p, v) :: L) fl' := by
  -- the list `emplace_front` takes the entry from, after `grow` if there is no free entry
  obtain ⟨f, fl1, h1⟩ : ∃ f fl1, Inv (if s.free = none then grow s (max s.capacity 8) else s) L (f :: fl1) := by
    by_cases hf : s.free = none
    · obtain rfl : fl = [] := List.head?_eq_none_iff.mp (h.free_eq ▸ hf)
      rw [if_pos hf]
      obtain ⟨f, fl1, hfl⟩ := List.exists_cons_of_ne_nil (l := growEntries s.capacity (max s.capacity 8))
        fun h' => by simpa [growEntries] using congrArg List.length h'
      exact ⟨f, fl1, hfl ▸ grow_spec h⟩
    · rcases fl with _ | ⟨f, fl1⟩
      · exact absurd h.free_eq hf
      · exact ⟨f, fl1, by rw [if_neg hf]; exact h⟩
  unfold emplaceFront
  generalize (if s.free = none then grow s (max s.capacity 8) else s) = s1 at h1 ⊢
  dsimp only
  obtain ⟨-, hndf, hdisj⟩ := List.nodup_append.mp h1.nodup
  have hf : f ∉ L.map Prod.fst := fun h' => hdisj h' (List.mem_cons_self _ _)
  obtain ⟨mem1, hu, hL1, ⟨e, he, hen, hep⟩, hframe1, hd1⟩ :=
    unlink_spec h1.linked_free hndf (List.mem_cons_self f fl1)
  obtain ⟨mem2, hl, hL2, hframe2, hd2⟩ :=
    link_spec (h1.linked_head.congr fun i hi => hframe1 i fun h' => hdisj hi h') hf he hen hep
  obtain ⟨e2, he2, -⟩ := hL2 f (List.mem_cons_self _ _)
  rw [List.erase_cons_head] at hu hL1
  refine ⟨f, { s1 with mem := setData mem2 f (some v), free := fl1.head?, head := some f, size_ := s1.size_ + 1 },
    fl1, ?_, hf, ?_⟩
  · simp only [List.head?_cons] at hu
    rw [h1.free_eq, h1.head_eq, List.head?_cons, hu]
    simp only [bind, Except.bind, hl, deref_some he2]
    rfl
  · have hfl1 : ∀ i ∈ fl1, i ≠ f := fun i hi hif => (List.nodup_cons.mp hndf).1 (hif ▸ hi)
    refine
      { head_eq := rfl
        free_eq := rfl
        linked_head := hL2.setData _
        linked_free := (hL1.congr fun i hi => hframe2 i ?_).setData _
        perm := List.perm_middle.symm.trans h1.perm
        data_head := fun x hx => ?_
        data_free := fun i hi => ?_
        size_eq := by simp [h1.size_eq]
        tiles := h1.tiles }
    · rw [List.mem_cons, not_or]
      exact ⟨hfl1 i hi, fun h' => hdisj h' (List.mem_cons_of_mem _ hi)⟩
    · rcases List.mem_cons.mp hx with rfl | hx
      · exact ⟨{ e2 with data := some v }, by simp [he2], rfl⟩
      · obtain ⟨e', he', hd'⟩ := h1.data_head x hx
        have hxf : x.1 ≠ f := fun h' => hf (h' ▸ List.mem_map_of_mem Prod.fst hx)
        exact data_of_sameData (hd1.trans hd2) he' hd' hxf _
    · obtain ⟨e', he', hd'⟩ := h1.data_free i (List.mem_cons_of_mem _ hi)
      exact data_of_sameData (hd1.trans hd2) he' hd' (hfl1 i hi) _

/-- `erase` of an iterator the list holds: the list holds the other elements, in their order, and the entry is first
on the free list. -/
theorem erase_spec (h : Inv s L fl) {p : Nat} (hp : p ∈ L.map Prod.fst) :
    ∃ s', erase s (some p) = .ok s' ∧ Inv s' (L.filter fun x => x.1 != p) (p :: fl) := by
  obtain ⟨hndh, -, hdisj⟩ := List.nodup_append.mp h.nodup
  have hpf : p ∉ fl := fun h' => hdisj hp h'
  obtain ⟨mem1, hu, hL1, ⟨e, he, hen, hep⟩, hframe1, hd1⟩ := unlink_spec h.linked_head hndh hp
  obtain ⟨mem2, hl, hL2, hframe2, hd2⟩ :=
    link_spec (h.linked_free.congr fun i hi => hframe1 i fun h' => hdisj h' hi) hpf he hen hep
  obtain ⟨e2, he2, -⟩ := hL2 p (List.mem_cons_self _ _)
  have hmap : (L.filter fun x => x.1 != p).map Prod.fst = (L.map Prod.fst).erase p := by
    rw [hndh.erase_eq_filter, List.filter_map]; rfl
  refine ⟨{ s with
    mem := setData mem2 p none
    head := ((L.map Prod.fst).erase p).head?
    free := some p
    size_ := s.size_ - 1 }, ?_, ?_⟩
  · simp only [erase, h.head_eq, h.free_eq, hu, hl, bind, Except.bind, deref_some he2]
    rfl
  · refine
      { head_eq := by rw [hmap]
        free_eq := rfl
        linked_head := hmap ▸ (hL1.congr fun i hi => hframe2 i ?_).setData _
        linked_free := hL2.setData _
        perm := ?_
        data_head := fun x hx => ?_
        data_free := fun i hi => ?_
        size_eq := ?_
        tiles := h.tiles }
    · obtain ⟨hip, hi⟩ := hndh.mem_erase_iff.mp hi
      rw [List.mem_cons, not_or]
      exact ⟨hip, fun h' => hdisj hi h'⟩
    · rw [hmap]
      exact List.perm_middle.trans (((List.perm_cons_erase hp).append_right fl).symm.trans h.perm)
    · obtain ⟨hx, hxp⟩ := List.mem_filter.mp hx
      obtain ⟨e', he', hd'⟩ := h.data_head x hx
      exact data_of_sameData (hd1.trans hd2) he' hd' (by simpa using hxp) _
    · rcases List.mem_cons.mp hi with rfl | hi
      · exact ⟨{ e2 with data := none }, by simp [he2], rfl⟩
      · obtain ⟨e', he', hd'⟩ := h.data_free i hi
        have hip : i ≠ p := fun h' => hpf (h' ▸ hi)
        exact data_of_sameData (hd1.trans hd2) he' hd' hip _
    · have hlen := congrArg List.length hmap
      rw [List.length_map, List.length_erase_of_mem hp, List.length_map] at hlen
      exact h.size_eq ▸ hlen.symm

end Inv

/-! ## Runs -/

/-- The lists a client reaches from a new one by `emplace_front`, and by `erase` of an iterator the list holds, each
with the (iterator, element) pairs it should hold: `emplace_front` adds its iterator in front, `erase` takes its
iterator out. -/
inductive Reachable : State α → List (Nat × α) → Prop
  | empty : Reachable empty []
  | emplaced {s s' : State α} {L : List (Nat × α)} {p : Nat} (v : α) :
      Reachable s L → emplaceFront s v = .ok (s', some p) → Reachable s' ((p, v) :: L)
  | erased {s s' : State α} {L : List (Nat × α)} (p : Nat) :
      Reachable s L → p ∈ L.map Prod.fst → erase s (some p) = .ok s' → Reachable s' (L.filter fun x => x.1 != p)

section Runs

variable {s : State α} {L : List (Nat × α)}

/-- Every list a run reaches has the invariant, with the pairs the run says it holds. -/
theorem Reachable.inv (h : Reachable s L) : ∃ fl, Inv s L fl := by
  induction h with
  | empty => exact ⟨[], inv_empty⟩
  | emplaced v _ hrun ih =>
    obtain ⟨fl, hi⟩ := ih
    obtain ⟨p', s'', fl', hrun', -, hi'⟩ := emplaceFront_spec hi v
    rw [hrun] at hrun'
    cases hrun'
    exact ⟨fl', hi'⟩
  | erased p _ hp hrun ih =>
    obtain ⟨fl, hi⟩ := ih
    obtain ⟨s'', hrun', hi'⟩ := erase_spec hi hp
    rw [hrun] at hrun'
    cases hrun'
    exact ⟨_, hi'⟩

/-- Iterating over a list with the invariant visits its elements, in order. -/
theorem Inv.items_eq {fl : List Nat} (h : Inv s L fl) : items s = L.map fun x => (x.1, some x.2) := by
  have hlen : (L.map Prod.fst).length ≤ s.capacity := by
    have := h.perm.length_eq; simp only [List.length_append, List.length_range] at this; omega
  rw [items, h.head_eq, walk_of_linked h.linked_head (List.nodup_append.mp h.nodup).1 hlen, List.map_map]
  refine List.map_congr_left fun x hx => ?_
  obtain ⟨e, he, hd⟩ := h.data_head x hx
  simp [he, hd]

/-- Over every run from a new list, the list holds what a list of (iterator, element) pairs holds when
`emplace_front` puts a fresh iterator in front and `erase` takes one out: iterating visits exactly those pairs in
order, `size()` counts them, `emplace_front` never faults and returns an iterator the list does not hold, and `erase`
of any iterator it holds never faults. -/
theorem run_refines (h : Reachable s L) :
    items s = L.map (fun x => (x.1, some x.2)) ∧ s.size_ = L.length ∧
      (∀ v, ∃ p s', emplaceFront s v = .ok (s', some p) ∧ p ∉ L.map Prod.fst) ∧
      ∀ p ∈ L.map Prod.fst, ∃ s', erase s (some p) = .ok s' := by
  obtain ⟨fl, hi⟩ := h.inv
  refine ⟨hi.items_eq, hi.size_eq, fun v => ?_, fun p hp => ?_⟩
  · obtain ⟨p, s', -, hrun, hp, -⟩ := emplaceFront_spec hi v
    exact ⟨p, s', hrun, hp⟩
  · obtain ⟨s', hrun, -⟩ := erase_spec hi hp
    exact ⟨s', hrun⟩

/-- Two elements put in a new list and the second taken out: the first keeps its iterator, entry 7. -/
theorem run_refines_emplace_erase :
    ∃ s : State Nat, Reachable s [(7, 5)] ∧ items s = [(7, some 5)] := by
  have h1 : Reachable _ [(7, 5)] := Reachable.emplaced 5 Reachable.empty rfl
  have h2 : Reachable _ [(6, 6), (7, 5)] := Reachable.emplaced 6 h1 rfl
  have h3 : Reachable _ [(7, 5)] := Reachable.erased 6 h2 (by decide) rfl
  exact ⟨_, h3, (run_refines h3).1⟩

/-- With allocations of `max(capacity, 8)` entries, the list holds `8 * 2 ^ (n - 1)` entries after `n` of them. -/
theorem capacity_of_tiles : ∀ {l : List (Nat × Nat)} {c : Nat}, Tiles l c →
    c = if l = [] then 0 else 8 * 2 ^ (l.length - 1)
  | [], _, h => h
  | (first, count) :: l, c, ⟨hcount, hc, ht⟩ => by
    have ih := capacity_of_tiles ht
    rw [if_neg (List.cons_ne_nil _ _), List.length_cons, Nat.add_sub_cancel]
    split_ifs at ih with hl
    · subst hl; simp only [List.length_nil, Nat.pow_zero]; omega
    · obtain ⟨n, hn⟩ : ∃ n, l.length = n + 1 := ⟨l.length - 1, by have := List.length_pos.mpr hl; omega⟩
      rw [hn, Nat.add_sub_cancel] at ih
      have := Nat.one_le_two_pow (n := n)
      rw [hn, Nat.pow_succ]; omega

/-- The destructor of a list reached by a run destroys exactly its elements, in order, and frees its allocations,
which hold every entry once: `8 * 2 ^ (n - 1)` entries after `n` allocations. -/
theorem destroy_spec (h : Reachable s L) :
    destroy s = (L.map fun x => some x.2, s.allocations) ∧ Tiles s.allocations s.capacity ∧
      s.capacity = if s.allocations = [] then 0 else 8 * 2 ^ (s.allocations.length - 1) := by
  obtain ⟨fl, hi⟩ := h.inv
  have hitems := hi.items_eq
  rw [items] at hitems
  exact ⟨by rw [destroy, hitems, List.map_map]; rfl, hi.tiles, capacity_of_tiles hi.tiles⟩

/-- Nine elements put in a new list: the ninth takes an entry of a second allocation of 8 entries. -/
theorem destroy_spec_nine :
    ∃ s : State Nat, Reachable s [(15, 9), (0, 8), (1, 7), (2, 6), (3, 5), (4, 4), (5, 3), (6, 2), (7, 1)] ∧
      destroy s = ([some 9, some 8, some 7, some 6, some 5, some 4, some 3, some 2, some 1], [(8, 8), (0, 8)]) ∧
      s.capacity = 16 := by
  have h : Reachable _ [(15, 9), (0, 8), (1, 7), (2, 6), (3, 5), (4, 4), (5, 3), (6, 2), (7, 1)] :=
    .emplaced 9 (.emplaced 8 (.emplaced 7 (.emplaced 6 (.emplaced 5 (.emplaced 4 (.emplaced 3 (.emplaced 2
      (.emplaced 1 .empty rfl) rfl) rfl) rfl) rfl) rfl) rfl) rfl) rfl
  obtain ⟨hd, -, hc⟩ := destroy_spec h
  exact ⟨_, h, hd.trans rfl, hc.trans rfl⟩

end Runs

end Marl.Containers.List
