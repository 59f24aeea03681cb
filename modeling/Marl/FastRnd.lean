import Marl.Gf2
import Mathlib.Dynamics.PeriodicPts
import Mathlib.Data.Finset.Card
import Mathlib.Tactic.NormNum.Prime

/-!
# `Scheduler::Worker::FastRnd`

`FastRnd` is the xorshift `x ^= x << 13; x ^= x >> 7; x ^= x << 17` on `uint64_t`, a 64 × 64 matrix `T` over GF(2).
Its order `2 ^ 64 - 1` is settled by a computation the kernel checks (`certificate_eq_true`), so every nonzero state
has minimal period `2 ^ 64 - 1` (`minimalPeriod_step`). Main result: `fastRnd_period`.
-/

namespace Marl.FastRnd

open Gf2

/-! ## The generator -/

/-- `FastRnd::operator()` on the generator's state `x`: the new state, which is also the value returned. -/
def call (x : UInt64) : UInt64 :=
  let x := x ^^^ (x <<< 13)
  let x := x ^^^ (x >>> 7)
  x ^^^ (x <<< 17)

/-- `call` on the value of the state. -/
def step (x : Nat) : Nat :=
  let x := x ^^^ (x <<< 13) % 2 ^ 64
  let x := x ^^^ (x >>> 7)
  x ^^^ (x <<< 17) % 2 ^ 64

theorem toNat_xor (a b : UInt64) : (a ^^^ b).toNat = a.toNat ^^^ b.toNat := BitVec.toNat_xor ..

theorem toNat_shiftLeft (a k : UInt64) : (a <<< k).toNat = a.toNat <<< (k.toNat % 64) % 2 ^ 64 := by
  show (a.toBitVec <<< (UInt64.mod k 64).toBitVec).toNat = _
  rw [BitVec.shiftLeft_eq', BitVec.toNat_shiftLeft]
  rfl

theorem toNat_shiftRight (a k : UInt64) : (a >>> k).toNat = a.toNat >>> (k.toNat % 64) := by
  show (a.toBitVec >>> (UInt64.mod k 64).toBitVec).toNat = _
  rw [BitVec.ushiftRight_eq', BitVec.toNat_ushiftRight]
  rfl

theorem toNat_call (x : UInt64) : (call x).toNat = step x.toNat := by
  simp only [call, step, toNat_xor, toNat_shiftLeft, toNat_shiftRight]
  rfl

theorem toNat_iterate_call (n : Nat) (x : UInt64) : (call^[n] x).toNat = step^[n] x.toNat := by
  induction n generalizing x with
  | zero => rfl
  | succ n ih => rw [Function.iterate_succ_apply, Function.iterate_succ_apply, ih, toNat_call]

/-! ## The step is linear -/

theorem shiftLeft_xor (a b k : Nat) : (a ^^^ b) <<< k = a <<< k ^^^ b <<< k :=
  Nat.eq_of_testBit_eq fun i => by simp only [Nat.testBit_shiftLeft, Nat.testBit_xor]; cases decide (i ≥ k) <;> rfl

theorem shiftRight_xor (a b k : Nat) : (a ^^^ b) >>> k = a >>> k ^^^ b >>> k :=
  Nat.eq_of_testBit_eq fun i => by simp only [Nat.testBit_shiftRight, Nat.testBit_xor]

theorem xor_mod_two_pow (a b n : Nat) : (a ^^^ b) % 2 ^ n = a % 2 ^ n ^^^ b % 2 ^ n :=
  Nat.eq_of_testBit_eq fun i => by simp only [Nat.testBit_mod_two_pow, Nat.testBit_xor]; cases decide (i < n) <;> rfl

theorem xorShiftLeft_xor (a b k : Nat) :
    a ^^^ b ^^^ (a ^^^ b) <<< k % 2 ^ 64 = (a ^^^ a <<< k % 2 ^ 64) ^^^ (b ^^^ b <<< k % 2 ^ 64) := by
  rw [shiftLeft_xor, xor_mod_two_pow, xor_xor_xor_comm]

theorem xorShiftRight_xor (a b k : Nat) : a ^^^ b ^^^ (a ^^^ b) >>> k = (a ^^^ a >>> k) ^^^ (b ^^^ b >>> k) := by
  rw [shiftRight_xor, xor_xor_xor_comm]

theorem step_lt {a : Nat} (ha : a < 2 ^ 64) : step a < 2 ^ 64 := by
  have h1 : a ^^^ a <<< 13 % 2 ^ 64 < 2 ^ 64 := Nat.xor_lt_two_pow ha (Nat.mod_lt _ (by omega))
  have h2 : a ^^^ a <<< 13 % 2 ^ 64 ^^^ (a ^^^ a <<< 13 % 2 ^ 64) >>> 7 < 2 ^ 64 :=
    Nat.xor_lt_two_pow h1 (by rw [Nat.shiftRight_eq_div_pow]; exact Nat.lt_of_le_of_lt (Nat.div_le_self _ _) h1)
  exact Nat.xor_lt_two_pow h2 (Nat.mod_lt _ (by omega))

theorem linear_step : Linear step where
  map_zero := rfl
  map_xor a b := by simp only [step, xorShiftLeft_xor, xorShiftRight_xor]
  lt _ := step_lt

/-- The matrix of `step`. -/
def T : Nat := ofCols step

theorem iterate_app_T (n : Nat) {v : Nat} (hv : v < 2 ^ 64) : (app T)^[n] v = step^[n] v := by
  induction n generalizing v with
  | zero => rfl
  | succ n ih => rw [Function.iterate_succ_apply, Function.iterate_succ_apply, T, app_ofCols linear_step hv,
      ← T, ih (step_lt hv)]

theorem iterate_step_lt (n : Nat) {v : Nat} (hv : v < 2 ^ 64) : step^[n] v < 2 ^ 64 := by
  rw [← iterate_app_T n hv]
  cases n with
  | zero => exact hv
  | succ n => rw [Function.iterate_succ_apply']; exact app_lt _ _

/-! ## The certificate -/

/-- The number of nonzero states. -/
def period : Nat := 2 ^ 64 - 1

/-- The prime factors of `period`. -/
def primes : List Nat := [3, 5, 17, 257, 641, 65537, 6700417]

/-- With `ps` the squares of `T`: `T ^ period = 1`, and `T ^ (period / p) + 1` has an inverse for each prime `p` of
`period`. -/
def certificate (ps : List Nat) : Bool :=
  powFrom ps period one == one && primes.all fun p =>
    strict (powFrom ps (period / p) one ^^^ one) fun M => comp (inverse M) M == one

theorem certificate_eq_true : certificate (squares T 64) = true := by decide

theorem period_lt : period < 2 ^ 64 := by decide

theorem iterate_period {v : Nat} (hv : v < 2 ^ 64) : step^[period] v = v := by
  have h := certificate_eq_true
  simp only [certificate, Bool.and_eq_true, beq_iff_eq] at h
  have := congrArg (app · v) h.1
  simp only [app_powFrom, app_one, Nat.mod_eq_of_lt period_lt, Nat.mod_eq_of_lt hv] at this
  rwa [iterate_app_T _ hv] at this

theorem iterate_ne_self {p : Nat} (hp : p ∈ primes) {v : Nat} (hv : v < 2 ^ 64) (h0 : v ≠ 0) :
    step^[period / p] v ≠ v := by
  intro hfix
  have h := certificate_eq_true
  simp only [certificate, Bool.and_eq_true, beq_iff_eq, List.all_eq_true, strict_eq] at h
  have hinv := congrArg (app · v) (h.2 p hp)
  have hker : app (powFrom (squares T 64) (period / p) one ^^^ one) v = 0 := by
    rw [app_xor_mat, app_powFrom, app_one, Nat.mod_eq_of_lt hv,
      Nat.mod_eq_of_lt (lt_of_le_of_lt (Nat.div_le_self _ _) period_lt), iterate_app_T _ hv, hfix, Nat.xor_self]
  simp only [app_comp, hker, app_zero, app_one, Nat.mod_eq_of_lt hv] at hinv
  exact h0 hinv.symm

/-! ## Periods and orbits -/

/-- The product of a list of numbers. -/
def prodOf : List Nat → Nat
  | [] => 1
  | p :: ps => p * prodOf ps

theorem period_eq : period = prodOf primes := by decide

theorem primes_prime : ∀ p ∈ primes, p.Prime := by
  simp only [primes, List.mem_cons, List.mem_singleton, List.not_mem_nil, or_false]
  rintro p (rfl | rfl | rfl | rfl | rfl | rfl | rfl) <;> norm_num

/-- A prime that divides a product of primes is one of them. -/
theorem mem_of_prime_dvd {q : Nat} (hq : q.Prime) :
    ∀ {l : List Nat}, (∀ p ∈ l, p.Prime) → q ∣ prodOf l → q ∈ l
  | [], _, h => absurd (Nat.le_of_dvd Nat.one_pos h) (Nat.not_le.mpr hq.one_lt)
  | p :: l, hl, h => by
    rcases (Nat.Prime.dvd_mul hq).mp h with h | h
    · rw [(Nat.prime_dvd_prime_iff_eq hq (hl p (List.mem_cons_self _ _))).mp h]
      exact List.mem_cons_self _ _
    · exact List.mem_cons_of_mem _ (mem_of_prime_dvd hq (fun p' hp' => hl p' (List.mem_cons_of_mem _ hp')) h)

/-- Every nonzero state returns to itself after exactly `period` steps. -/
theorem minimalPeriod_step {v : Nat} (hv : v < 2 ^ 64) (h0 : v ≠ 0) : Function.minimalPeriod step v = period := by
  have hper : Function.IsPeriodicPt step period v := iterate_period hv
  have hdvd := hper.minimalPeriod_dvd
  obtain ⟨r, hr⟩ := hdvd
  by_contra hne
  have hr1 : r ≠ 1 := fun h => hne (by rw [hr, h, Nat.mul_one])
  obtain ⟨q, hq, hqr⟩ := Nat.exists_prime_and_dvd hr1
  obtain ⟨s, hs⟩ := hqr
  have hq' : q ∣ period := ⟨Function.minimalPeriod step v * s, by rw [hr, hs, Nat.mul_left_comm]⟩
  have hdiv : period / q = Function.minimalPeriod step v * s := by
    rw [hr, hs, ← Nat.mul_assoc, Nat.mul_comm _ q, Nat.mul_assoc, Nat.mul_div_cancel_left _ hq.pos]
  exact iterate_ne_self (mem_of_prime_dvd hq primes_prime (period_eq ▸ hq')) hv h0
    ((Function.isPeriodicPt_minimalPeriod step v).trans_dvd ⟨s, hdiv⟩)

theorem step_zero : step 0 = 0 := rfl

theorem iterate_ne_zero (n : Nat) {v : Nat} (hv : v < 2 ^ 64) (h0 : v ≠ 0) : step^[n] v ≠ 0 := by
  intro hn
  have hback : step^[period * (n + 1) - n] (step^[n] v) = v := by
    rw [← Function.iterate_add_apply,
      Nat.sub_add_cancel (Nat.le_trans (Nat.le_succ n) (Nat.le_mul_of_pos_left _ (by unfold period; omega))),
      Function.iterate_mul, Function.iterate_fixed (iterate_period hv)]
  rw [hn, Function.iterate_fixed step_zero] at hback
  exact h0 hback.symm

/-- From a nonzero state, each nonzero state is reached at exactly one count of steps below `period`. -/
theorem existsUnique_iterate {v : Nat} (hv : v < 2 ^ 64) (h0 : v ≠ 0) {y : Nat} (hy : y < 2 ^ 64) (hy0 : y ≠ 0) :
    ∃! n, n < period ∧ step^[n] v = y := by
  have hinj : Set.InjOn (fun n => step^[n] v) (Finset.range period) := by
    intro a ha b hb hab
    rw [← minimalPeriod_step hv h0] at ha hb
    exact Function.iterate_injOn_Iio_minimalPeriod (Finset.mem_range.mp ha) (Finset.mem_range.mp hb) hab
  have hsub : (Finset.range period).image (fun n => step^[n] v) ⊆ (Finset.range (2 ^ 64)).erase 0 := by
    intro w hw
    obtain ⟨n, -, rfl⟩ := Finset.mem_image.mp hw
    exact Finset.mem_erase.mpr ⟨iterate_ne_zero n hv h0, Finset.mem_range.mpr (iterate_step_lt n hv)⟩
  have heq := Finset.eq_of_subset_of_card_le hsub (by
    rw [Finset.card_image_of_injOn hinj, Finset.card_erase_of_mem (Finset.mem_range.mpr (by omega)),
      Finset.card_range, Finset.card_range, period])
  have hy' : y ∈ (Finset.range period).image (fun n => step^[n] v) := by
    rw [heq]; exact Finset.mem_erase.mpr ⟨hy0, Finset.mem_range.mpr hy⟩
  obtain ⟨n, hn, hny⟩ := Finset.mem_image.mp hy'
  exact ⟨n, ⟨Finset.mem_range.mp hn, hny⟩, fun m ⟨hm, hmy⟩ =>
    hinj (Finset.mem_range.mpr hm) hn (hmy.trans hny.symm)⟩

/-! ## `FastRnd::operator()` -/

theorem toNat_eq_zero {x : UInt64} : x.toNat = 0 ↔ x = 0 :=
  ⟨fun h => UInt64.toNat.inj (h.trans UInt64.toNat_zero.symm), fun h => h ▸ UInt64.toNat_zero⟩

/-- The zero state is fixed. From any other state the generator never reaches zero, first comes back after exactly
`2 ^ 64 - 1` calls, and meets every nonzero state exactly once in between. -/
theorem fastRnd_period :
    call 0 = 0 ∧ ∀ x : UInt64, x ≠ 0 →
      (∀ n, call^[n] x ≠ 0) ∧ call^[2 ^ 64 - 1] x = x ∧ (∀ n, 0 < n → n < 2 ^ 64 - 1 → call^[n] x ≠ x) ∧
      ∀ y : UInt64, y ≠ 0 → ∃! n, n < 2 ^ 64 - 1 ∧ call^[n] x = y := by
  refine ⟨UInt64.toNat.inj (by rw [toNat_call]; rfl), fun x hx => ?_⟩
  have hv := x.toNat_lt_size
  have h0 : x.toNat ≠ 0 := fun h => hx (toNat_eq_zero.mp h)
  have hiff : ∀ n y, call^[n] x = y ↔ step^[n] x.toNat = y.toNat := fun n y =>
    ⟨fun h => by rw [← toNat_iterate_call, h], fun h => UInt64.toNat.inj (by rw [toNat_iterate_call, h])⟩
  refine ⟨fun n h => iterate_ne_zero n hv h0 (by rw [← toNat_iterate_call, h]; rfl),
    (hiff _ _).mpr (iterate_period hv), fun n hn hlt h => ?_, fun y hy => ?_⟩
  · have := Function.IsPeriodicPt.minimalPeriod_le hn ((hiff n x).mp h)
    rw [minimalPeriod_step hv h0, period] at this
    omega
  · obtain ⟨n, ⟨hn, hny⟩, huniq⟩ :=
      existsUnique_iterate hv h0 y.toNat_lt_size (fun h => hy (toNat_eq_zero.mp h))
    exact ⟨n, ⟨hn, (hiff n y).mpr hny⟩, fun m ⟨hm, hmy⟩ => huniq m ⟨hm, (hiff m y).mp hmy⟩⟩

end Marl.FastRnd
