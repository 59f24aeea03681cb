import Mathlib.Algebra.Group.Nat.Basic
import Mathlib.Logic.Function.Basic

/-!
# Aligned allocation (`memory.h`)

`aligned_malloc` and `aligned_free` over a memory of bytes at addresses modulo `2 ^ 64`, with `memcpy` as
`writeBytes` and `readBytes` (`readBytes_writeBytes`). Main results: `alignedMalloc_zero_or_wraps` (the check
`alignment < 256` admits `0`, and `size + 1 + alignment` can wrap) and `alignedMalloc_spec` (otherwise the block is
laid out as intended and `aligned_free` recovers it).
-/

namespace Marl.Memory

/-! ## Bytes in memory -/

/-- Memory: the byte at each address. -/
abbrev Mem := Nat → UInt8

/-- `memcpy(dst, bytes, bytes.size())`, one byte after another, at addresses modulo `2 ^ 64`. -/
def writeBytes (m : Mem) (dst : Nat) : List UInt8 → Mem
  | [] => m
  | b :: bs => writeBytes (Function.update m (dst % 2 ^ 64) b) (dst + 1) bs

/-- The `n` bytes from `src` on. -/
def readBytes (m : Mem) (src : Nat) : Nat → List UInt8
  | 0 => []
  | n + 1 => m (src % 2 ^ 64) :: readBytes m (src + 1) n

/-- The `w` bytes of `n`, least significant first (the machine is little-endian; the round trips below do not
depend on it). -/
def toBytes : Nat → Nat → List UInt8
  | 0, _ => []
  | w + 1, n => UInt8.ofNat (n % 256) :: toBytes w (n / 256)

/-- The number with the given bytes, least significant first. -/
def ofBytes : List UInt8 → Nat
  | [] => 0
  | b :: bs => b.toNat + 256 * ofBytes bs

@[simp] theorem length_toBytes (w n : Nat) : (toBytes w n).length = w := by
  induction w generalizing n with
  | zero => rfl
  | succ w ih => simp [toBytes, ih]

theorem toNat_ofNat (n : Nat) : (UInt8.ofNat n).toNat = n % 256 := rfl

theorem ofBytes_toBytes (w n : Nat) : ofBytes (toBytes w n) = n % 256 ^ w := by
  induction w generalizing n with
  | zero => simp [toBytes, ofBytes, Nat.mod_one]
  | succ w ih => rw [toBytes, ofBytes, ih, toNat_ofNat, Nat.mod_mod, Nat.pow_succ', Nat.mod_mul]

/-- A write leaves every address it does not reach. -/
theorem writeBytes_apply_of_ne {m : Mem} {dst x : Nat} {bs : List UInt8}
    (h : ∀ k < bs.length, (dst + k) % 2 ^ 64 ≠ x) : writeBytes m dst bs x = m x := by
  induction bs generalizing m dst with
  | nil => rfl
  | cons b bs ih =>
    rw [writeBytes, ih fun k hk => by simpa [Nat.add_right_comm, Nat.add_assoc] using h (k + 1) (by simp; omega)]
    exact Function.update_noteq (by simpa using (h 0 (by simp)).symm) _ _

/-- A read sees only the bytes it reads. -/
theorem readBytes_congr {m m' : Mem} {src n : Nat}
    (h : ∀ k < n, m' ((src + k) % 2 ^ 64) = m ((src + k) % 2 ^ 64)) : readBytes m' src n = readBytes m src n := by
  induction n generalizing src with
  | zero => rfl
  | succ n ih =>
    rw [readBytes, readBytes, ih fun k hk => by simpa [Nat.add_assoc, Nat.add_comm 1] using h (k + 1) (by omega)]
    congr 1
    simpa using h 0 (by omega)

/-- Reading back what `memcpy` wrote gives the bytes written, as long as they do not wrap onto themselves. -/
theorem readBytes_writeBytes (m : Mem) (dst : Nat) (bs : List UInt8) (h : bs.length ≤ 2 ^ 64) :
    readBytes (writeBytes m dst bs) dst bs.length = bs := by
  induction bs generalizing m dst with
  | nil => rfl
  | cons b bs ih =>
    simp only [List.length_cons] at h
    rw [List.length_cons, readBytes, writeBytes, ih _ _ (by omega),
      writeBytes_apply_of_ne fun k hk => by omega, Function.update_same]

/-! ## `alignUp` -/

/-- `alignUp(val, alignment)` on `uintptr_t`: `alignment * ((val + alignment - 1) / alignment)`, each operation
modulo `2 ^ 64`. Dividing by a zero `alignment` is undefined: `none`. -/
def alignUp (val alignment : Nat) : Option Nat :=
  if alignment = 0 then none else some (alignment * ((val + alignment - 1) % 2 ^ 64 / alignment) % 2 ^ 64)

/-- When nothing wraps, `alignUp` gives the least multiple of `alignment` at or above `val`. -/
theorem alignUp_spec (val : Nat) {alignment : Nat} (ha : 0 < alignment) (h : val + alignment ≤ 2 ^ 64) :
    ∃ p, alignUp val alignment = some p ∧ p % alignment = 0 ∧ val ≤ p ∧ p < val + alignment := by
  have hq := Nat.div_add_mod (val + alignment - 1) alignment
  have hr := Nat.mod_lt (val + alignment - 1) ha
  refine ⟨alignment * ((val + alignment - 1) / alignment), ?_, Nat.mul_mod_right _ _, by omega, by omega⟩
  rw [alignUp, if_neg (by omega), Nat.mod_eq_of_lt (by omega : val + alignment - 1 < 2 ^ 64),
    Nat.mod_eq_of_lt (by omega)]

/-! ## `marl::aligned_malloc` and `marl::aligned_free` -/

/-- Undefined or failing code: a `MARL_ASSERT` that fails, or a division by zero. -/
inductive Fault
  | assert (msg : String)
  | divByZero
  deriving DecidableEq, Repr

/-- The element count of `new uint8_t[size + sizeof(uint8_t) + alignment]`, a `size_t`. -/
def newCount (alignment size : Nat) : Nat := (size + 1 + alignment) % 2 ^ 64

/-- `marl::aligned_malloc(alignment, size)`, where `newArray` is the address `new uint8_t[n]` returns. The result is
the pointer returned and the memory after `aligned[-1] = offset`. -/
def alignedMalloc (newArray : Nat → Nat) (alignment size : Nat) (m : Mem) : Except Fault (Nat × Mem) := do
  if ¬alignment < 256 then throw (.assert "alignment must less than 256")
  let allocation := newArray (newCount alignment size)
  let some aligned := alignUp ((allocation + 1) % 2 ^ 64) alignment | throw .divByZero
  -- `static_cast<uint8_t>(aligned - allocation)`
  let offset := UInt8.ofNat (aligned + 2 ^ 64 - allocation)
  pure (aligned, Function.update m ((aligned + 2 ^ 64 - 1) % 2 ^ 64) offset)

/-- `marl::aligned_free(ptr)`: the address it passes to `delete[]`. -/
def alignedFree (ptr : Nat) (m : Mem) : Nat :=
  let offset := m ((ptr + 2 ^ 64 - 1) % 2 ^ 64)
  (ptr + 2 ^ 64 - offset.toNat) % 2 ^ 64

/-- For an alignment from `1` to `255` and a count `size + 1 + alignment` that does not wrap: the pointer is aligned,
lies in `(b, b + alignment]` with its `size` bytes in the block, and `aligned_free` gives back `b`. -/
theorem alignedMalloc_spec (newArray : Nat → Nat) (hnew : ∀ n < 2 ^ 64, newArray n + n ≤ 2 ^ 64) (alignment size : Nat)
    (ha : 0 < alignment) (ha' : alignment < 256) (hs : size + 1 + alignment < 2 ^ 64) (m : Mem) :
    ∃ p m', alignedMalloc newArray alignment size m = .ok (p, m') ∧ p % alignment = 0 ∧
      newArray (size + 1 + alignment) < p ∧ p ≤ newArray (size + 1 + alignment) + alignment ∧
      p + size ≤ newArray (size + 1 + alignment) + (size + 1 + alignment) ∧
      p - newArray (size + 1 + alignment) < 256 ∧
      ∀ m'' : Mem, (∀ x, ¬(p ≤ x ∧ x < p + size) → m'' x = m' x) →
        alignedFree p m'' = newArray (size + 1 + alignment) := by
  have hc : newCount alignment size = size + 1 + alignment := Nat.mod_eq_of_lt hs
  have hb := hnew (size + 1 + alignment) hs
  have h1 : (newArray (size + 1 + alignment) + 1) % 2 ^ 64 = newArray (size + 1 + alignment) + 1 :=
    Nat.mod_eq_of_lt (by omega)
  obtain ⟨p, hp, hpa, hbp, hpb⟩ := alignUp_spec (newArray (size + 1 + alignment) + 1) ha (by omega)
  have hlow : (p + 2 ^ 64 - 1) % 2 ^ 64 = p - 1 := by omega
  refine ⟨p, Function.update m (p - 1) (UInt8.ofNat (p + 2 ^ 64 - newArray (size + 1 + alignment))),
    by simp only [alignedMalloc, ha', hc, h1, hp, hlow]; rfl, hpa, by omega, by omega, by omega, by omega, fun m'' hm => ?_⟩
  simp only [alignedFree, hlow, hm (p - 1) (by omega), Function.update_same, toNat_ofNat]
  omega

/-- A block of 117 bytes at the top of the address space, aligned to 16. -/
theorem alignedMalloc_spec_top :
    ∃ p m', alignedMalloc (fun n => 2 ^ 64 - n) 16 100 (fun _ => 0) = .ok (p, m') ∧
      alignedFree p m' = 2 ^ 64 - 117 := by
  obtain ⟨p, m', h, -, -, -, -, -, hfree⟩ :=
    alignedMalloc_spec (fun n => 2 ^ 64 - n) (fun n _ => by dsimp only; omega) 16 100 (by decide) (by decide)
      (by decide) (fun _ => 0)
  exact ⟨p, m', h, hfree m' fun _ _ => rfl⟩

/-- `alignment = 0` passes the check and divides by zero, and with `size = 2 ^ 64 - 1` and `alignment = 1` the count
`size + 1 + alignment` wraps to `1`: a block of one byte at `16` is handed out as `2 ^ 64 - 1` bytes at `17`. -/
theorem alignedMalloc_zero_or_wraps :
    (∀ (newArray : Nat → Nat) (size : Nat) (m : Mem), alignedMalloc newArray 0 size m = .error .divByZero) ∧
      newCount 1 (2 ^ 64 - 1) = 1 ∧
      (alignedMalloc (fun _ => 16) 1 (2 ^ 64 - 1) (fun _ => 0)).map Prod.fst = .ok 17 := by
  exact ⟨fun newArray size m => by simp [alignedMalloc, alignUp]; rfl, by decide, rfl⟩

end Marl.Memory
