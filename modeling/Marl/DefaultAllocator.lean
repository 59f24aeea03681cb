import Marl.Memory

/-!
# `DefaultAllocator` (`memory.cpp`)

`DefaultAllocator::allocate` and `free`, with the `aligned_malloc` of `memory.cpp` that stores the block's address
past the `size` bytes it hands out. Main results: `allocate_wraps` (`size + alignment + sizeof(void*)` wraps for sizes
near `2 ^ 64`) and `free_allocate` (otherwise `free` passes `::free` the address `::malloc` returned).
-/

namespace Marl.DefaultAllocator

open Memory

/-! ## The allocator -/

/-- `Allocation::Request`, with the fields the allocator reads. `size` and `alignment` are `size_t`s. -/
structure Request where
  size : Nat
  alignment : Nat
  use_guards : Bool
  size_lt : size < 2 ^ 64
  alignment_lt : alignment < 2 ^ 64
  deriving DecidableEq

/-- `Allocation`: the pointer handed out and the request it answers. -/
structure Allocation where
  ptr : Nat
  request : Request
  deriving DecidableEq

/-- `allocSize` in `aligned_malloc`: `size + alignment + sizeof(void*)`, a `size_t`. -/
def allocSize (alignment size : Nat) : Nat := (size + alignment + 8) % 2 ^ 64

/-- `aligned_malloc(alignment, size)`, where `malloc n` is the address `::malloc(n)` returns. The result is the
pointer and the memory after the `memcpy` of `allocation` to `aligned + size`. -/
def alignedMalloc (malloc : Nat → Nat) (alignment size : Nat) (m : Mem) : Except Fault (Nat × Mem) := do
  let allocation := malloc (allocSize alignment size)
  let some aligned := alignUp allocation alignment | throw .divByZero
  pure (aligned, writeBytes m (aligned + size) (toBytes 8 allocation))

/-- `aligned_free(ptr, size)`: the address it reads back and passes to `free`. -/
def alignedFree (ptr size : Nat) (m : Mem) : Nat := ofBytes (readBytes m (ptr + size) 8)

/-- `DefaultAllocator::allocate(request)`. -/
def allocate (malloc : Nat → Nat) (request : Request) (m : Mem) : Except Fault (Allocation × Mem) := do
  if request.use_guards then throw (.assert "TODO: Guards not yet implemented")
  let (ptr, m) ← if request.alignment > 1 then alignedMalloc malloc request.alignment request.size m
    else pure (malloc request.size, m)
  if ptr = 0 then throw (.assert "Allocation failed")
  pure (⟨ptr, request⟩, m)

/-- `DefaultAllocator::free(allocation)`: the address it passes to `::free`. -/
def free (allocation : Allocation) (m : Mem) : Except Fault Nat := do
  if allocation.request.use_guards then throw (.assert "TODO: Guards not yet implemented")
  if allocation.request.alignment > 1 then pure (alignedFree allocation.ptr allocation.request.size m)
  else pure allocation.ptr

/-! ## The aligned path -/

section Aligned

variable {malloc : Nat → Nat} {alignment size : Nat}

/-- Without wrap-around, `aligned_malloc` rounds the block's address up and stores it past the `size` bytes. -/
theorem alignedMalloc_eq (ha : 0 < alignment) (hs : size + alignment + 8 < 2 ^ 64)
    (hb : malloc (size + alignment + 8) + (size + alignment + 8) ≤ 2 ^ 64) (m : Mem) :
    ∃ p, alignedMalloc malloc alignment size m =
        pure (p, writeBytes m (p + size) (toBytes 8 (malloc (size + alignment + 8)))) ∧
      p % alignment = 0 ∧ malloc (size + alignment + 8) ≤ p ∧ p < malloc (size + alignment + 8) + alignment := by
  obtain ⟨p, hp, hpa, hbp, hpb⟩ := alignUp_spec (malloc (size + alignment + 8)) ha (by omega)
  exact ⟨p, by simp only [alignedMalloc, allocSize, Nat.mod_eq_of_lt hs, hp], hpa, hbp, hpb⟩

/-- `aligned_free` reads back the address stored past the `size` bytes, whatever was written into them. -/
theorem alignedFree_of_agree {p b : Nat} (hp : p + size + 8 ≤ 2 ^ 64) (hb : b < 2 ^ 64) {m m'' : Mem}
    (hm : ∀ x, ¬(p ≤ x ∧ x < p + size) → m'' x = writeBytes m (p + size) (toBytes 8 b) x) :
    alignedFree p size m'' = b := by
  have hread : readBytes m'' (p + size) 8 = readBytes (writeBytes m (p + size) (toBytes 8 b)) (p + size) 8 :=
    readBytes_congr fun k hk => hm _ (by omega)
  have hback := readBytes_writeBytes m (p + size) (toBytes 8 b) (by simp)
  rw [length_toBytes] at hback
  rw [alignedFree, hread, hback, ofBytes_toBytes, Nat.mod_eq_of_lt (by simpa using hb)]

end Aligned

/-! ## `free` undoes `allocate` -/

/-- Without guards and with a byte count that does not wrap, `allocate` succeeds with an aligned pointer whose
`size` bytes and stored address lie in the block, and `free` passes `::free` the address `::malloc` returned. -/
theorem free_allocate (malloc : Nat → Nat) (hmalloc : ∀ n < 2 ^ 64, 0 < malloc n ∧ malloc n + n ≤ 2 ^ 64)
    (request : Request) (hg : request.use_guards = false)
    (hs : 1 < request.alignment → request.size + request.alignment + 8 < 2 ^ 64) (m : Mem) :
    ∃ ptr m', allocate malloc request m = .ok (⟨ptr, request⟩, m') ∧
      (1 < request.alignment → ptr % request.alignment = 0 ∧
        malloc (request.size + request.alignment + 8) ≤ ptr ∧
        ptr + request.size + 8 ≤ malloc (request.size + request.alignment + 8) +
          (request.size + request.alignment + 8)) ∧
      ∀ m'' : Mem, (∀ x, ¬(ptr ≤ x ∧ x < ptr + request.size) → m'' x = m' x) →
        free ⟨ptr, request⟩ m'' = .ok (malloc (if 1 < request.alignment then
          request.size + request.alignment + 8 else request.size)) := by
  by_cases ha : 1 < request.alignment
  · have hs := hs ha
    obtain ⟨hpos, hfit⟩ := hmalloc _ hs
    obtain ⟨p, hrun, hpa, hbp, hpb⟩ := alignedMalloc_eq (by omega) hs hfit m
    have hp0 : p ≠ 0 := by omega
    refine ⟨p, writeBytes m (p + request.size) (toBytes 8 (malloc (request.size + request.alignment + 8))),
      by simp [allocate, hg, ha, hrun, hp0]; rfl, fun _ => ⟨hpa, hbp, by omega⟩, fun m'' hm => ?_⟩
    simp [free, hg, ha, alignedFree_of_agree (by omega) (by omega) hm]; rfl
  · obtain ⟨hpos, -⟩ := hmalloc _ request.size_lt
    refine ⟨malloc request.size, m, by simp [allocate, hg, ha, Nat.pos_iff_ne_zero.mp hpos]; rfl, fun h => absurd h ha,
      fun m'' _ => by simp [free, hg, ha]; rfl⟩

/-- A request of 100 bytes aligned to 16, served at the top of the address space. -/
theorem free_allocate_top :
    ∃ ptr m', allocate (fun n => 2 ^ 64 - n) ⟨100, 16, false, by decide, by decide⟩ (fun _ => 0) =
        .ok (⟨ptr, ⟨100, 16, false, by decide, by decide⟩⟩, m') ∧
      free ⟨ptr, ⟨100, 16, false, by decide, by decide⟩⟩ m' = .ok (2 ^ 64 - 124) := by
  obtain ⟨ptr, m', h, -, hfree⟩ := free_allocate (fun n => 2 ^ 64 - n) (fun n _ => by dsimp only; omega)
    ⟨100, 16, false, by decide, by decide⟩ rfl (fun _ => by decide) (fun _ => 0)
  exact ⟨ptr, m', h, hfree m' fun _ _ => rfl⟩

/-- With `size = 2 ^ 64 - 16` and `alignment = 16`, `allocSize` wraps to `8`: `::malloc` is asked for 8 bytes, and
the address stored at `ptr + size` lies past them. -/
theorem allocate_wraps :
    allocSize 16 (2 ^ 64 - 16) = 8 ∧
      (allocate (fun _ => 16) ⟨2 ^ 64 - 16, 16, false, by decide, by decide⟩ (fun _ => 0)).map
        (fun r => r.1.ptr) = .ok 16 ∧
      ¬(16 + (2 ^ 64 - 16) + 8 ≤ 16 + allocSize 16 (2 ^ 64 - 16)) :=
  ⟨by decide, rfl, by decide⟩

end Marl.DefaultAllocator
