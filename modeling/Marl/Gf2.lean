import Mathlib.Algebra.Group.Nat.Basic
import Mathlib.Logic.Function.Iterate

/-!
# 64 × 64 matrices over GF(2), packed into one number

A vector of GF(2)^64 is a number below `2 ^ 64`, and addition is `^^^`. A matrix is packed column by column into
one number: column `j`, the image of the `j`-th unit vector, is bits `64 j` to `64 j + 63` (`col`). The packing
lets the kernel compute with whole matrices: `comp` forms a product with 64 multiplications of big numbers, since
multiplying a 64-bit column by a number with one bit at the start of each selected column copies it into each of
them without carries (`col_mul`).

* `app M v`, the matrix applied to a vector, is linear in `v` and in `M` (`app_xor`, `app_xor_mat`).
* `app (ofCols f) v = f v` for a linear `f` (`app_ofCols`), and `app (comp A B) v = app A (app B v)` (`app_comp`).
* `powFrom (squares M k) e one` is `M ^ e` for `e < 2 ^ k` (`app_powFrom`).
* `inverse` is Gauss–Jordan elimination. Nothing is proved about it: a claimed inverse is checked by `comp`.
-/

namespace Marl.Gf2

/-! ## Definitions -/

/-- `2 ^ 64 - 1`: the low 64 bits. -/
def mask64 : Nat := 18446744073709551615

/-- `f x`, with `x` evaluated first; it keeps the kernel's evaluation of the loops below from building up terms. -/
def strict {α : Type} (x : Nat) (f : Nat → α) : α :=
  match x with
  | 0 => f 0
  | m + 1 => f (m + 1)

/-- Column `j` of a packed matrix. -/
def col (M j : Nat) : Nat := (M >>> (64 * j)) &&& mask64

/-- The xor of the columns `j < n` of `M` at the set bits of `v`. -/
def appAux (M v : Nat) : Nat → Nat
  | 0 => 0
  | j + 1 => appAux M v j ^^^ (if v.testBit j then col M j else 0)

/-- The matrix `M` applied to the vector `v`. -/
def app (M v : Nat) : Nat := appAux M v 64

/-- Adds the columns `j < k` of `f`, `f` of the `j`-th unit vector, to `acc`. -/
def ofColsAux (f : Nat → Nat) : Nat → Nat → Nat
  | 0, acc => acc
  | k + 1, acc => strict (acc ||| (f (1 <<< k) &&& mask64) <<< (64 * k)) (ofColsAux f k)

/-- The matrix of the map `f`. -/
def ofCols (f : Nat → Nat) : Nat := ofColsAux f 64 0

/-- The identity matrix. -/
def one : Nat := ofCols id

/-- Adds bit `0` of each column `j < k` to `acc`. -/
def spreadAux : Nat → Nat → Nat
  | 0, acc => acc
  | k + 1, acc => strict (acc ||| 1 <<< (64 * k)) (spreadAux k)

/-- Bit `0` of every column. -/
def spread : Nat := spreadAux 64 0

/-- Adds to `acc`, for each `j < n`, column `j` of `A` into every column of `B` that has bit `j` set. -/
def compAux (A B : Nat) : Nat → Nat → Nat
  | 0, acc => acc
  | j + 1, acc => strict (acc ^^^ col A j * ((B >>> j) &&& spread)) (compAux A B j)

/-- The product `A B`. -/
def comp (A B : Nat) : Nat := compAux A B 64 0

/-- `M`, `M ^ 2`, `M ^ 4`, ..., `k` of them. -/
def squares (M : Nat) : Nat → List Nat
  | 0 => []
  | k + 1 => M :: strict (comp M M) fun M' => squares M' k

/-- The product of `acc` and of the matrices of the list at the set bits of `e`. -/
def powFrom : List Nat → Nat → Nat → Nat
  | [], _, acc => acc
  | P :: ps, e, acc => strict (if e % 2 = 1 then comp P acc else acc) (powFrom ps (e / 2))

/-! ## Gauss–Jordan elimination

The columns of `M` become the rows of a 64 × 128 array, each row `j` followed by the unit vector `j`; row operations
keep each row of the form `(M d, d)`. Step `i` takes a row not yet used with bit `i` set and adds it to every other
row with bit `i` set; at the end the row chosen at step `i` is `(e_i, M⁻¹ e_i)`. -/

/-- `2 ^ 128 - 1`. -/
def mask128 : Nat := 340282366920938463463374607431768211455

/-- Adds bit `0` of each row `j < k` to `acc`. -/
def rowStartsAux : Nat → Nat → Nat
  | 0, acc => acc
  | k + 1, acc => strict (acc ||| 1 <<< (128 * k)) (rowStartsAux k)

/-- Bit `0` of every row. -/
def rowStarts : Nat := rowStartsAux 64 0

/-- The rows `j < k`: column `j` of `M`, then the unit vector `j`. -/
def augAux (M : Nat) : Nat → Nat → Nat
  | 0, acc => acc
  | j + 1, acc => strict (acc ||| (col M j ||| 1 <<< (64 + j)) <<< (128 * j)) (augAux M j)

/-- Elimination from bit `i` on, with the rows `R`, the rows already used (`used`, one bit each) and the rows
chosen so far, last first. `none` when no row is left for a bit. -/
def elim : Nat → Nat → Nat → Nat → List Nat → Option (Nat × List Nat)
  | 0, _, R, _, lows => some (R, lows)
  | fuel + 1, i, R, used, lows =>
    strict ((R >>> i) &&& (rowStarts ^^^ used)) fun cand =>
    if cand = 0 then none else
    strict (cand &&& (cand ^^^ (cand - 1))) fun low =>
    strict (R ^^^ ((R >>> i) &&& rowStarts ^^^ low) * ((R / low) &&& mask128)) fun R' =>
    strict (used ||| low) fun used' => elim fuel (i + 1) R' used' (low :: lows)

/-- Packs a list of columns, the first at column `k`, into `acc`. -/
def packAux : List Nat → Nat → Nat → Nat
  | [], _, acc => acc
  | c :: cs, k, acc => strict (acc ||| c <<< (64 * k)) (packAux cs (k + 1))

/-- A candidate inverse of `M` (`0` when elimination fails). -/
def inverse (M : Nat) : Nat :=
  match elim 64 0 (augAux M 64 0) 0 [] with
  | none => 0
  | some (R, lows) => packAux (lows.reverse.map fun low => ((R / low) >>> 64) &&& mask64) 0 0

/-! ## Bits -/

@[simp] theorem strict_eq {α : Type} (x : Nat) (f : Nat → α) : strict x f = f x := by
  cases x <;> rfl

theorem mask64_eq : mask64 = 2 ^ 64 - 1 := rfl

theorem xor_xor_xor_comm (a b c d : Nat) : a ^^^ b ^^^ (c ^^^ d) = a ^^^ c ^^^ (b ^^^ d) := by
  rw [Nat.xor_assoc, ← Nat.xor_assoc b, Nat.xor_comm b c, Nat.xor_assoc c, ← Nat.xor_assoc]

theorem ite_xor (p q : Bool) (c : Nat) :
    (if (p ^^ q) = true then c else 0) = (if p = true then c else 0) ^^^ (if q = true then c else 0) := by
  cases p <;> cases q <;> simp

theorem testBit_col (M j i : Nat) : (col M j).testBit i = (M.testBit (64 * j + i) && decide (i < 64)) := by
  simp only [col, mask64_eq, Nat.testBit_and, Nat.testBit_shiftRight, Nat.testBit_two_pow_sub_one]

theorem col_lt (M j : Nat) : col M j < 2 ^ 64 :=
  Nat.lt_pow_two_of_testBit _ fun i hi => by simp [testBit_col]; omega

theorem col_xor (A B j : Nat) : col (A ^^^ B) j = col A j ^^^ col B j :=
  Nat.eq_of_testBit_eq fun i => by simp only [testBit_col, Nat.testBit_xor]; cases decide (i < 64) <;> simp

theorem col_eq (M j : Nat) : col M j = M / 2 ^ (64 * j) % 2 ^ 64 := by
  rw [col, mask64_eq, Nat.and_pow_two_sub_one_eq_mod, Nat.shiftRight_eq_div_pow]

theorem col_add_mul_zero {y : Nat} (X : Nat) (hy : y < 2 ^ 64) : col (y + 2 ^ 64 * X) 0 = y := by
  rw [col_eq, Nat.mul_zero, Nat.pow_zero, Nat.div_one, Nat.add_mul_mod_self_left, Nat.mod_eq_of_lt hy]

theorem col_add_mul_succ {y : Nat} (X k : Nat) (hy : y < 2 ^ 64) : col (y + 2 ^ 64 * X) (k + 1) = col X k := by
  rw [col_eq, col_eq, Nat.mul_succ, Nat.pow_add, Nat.mul_comm (2 ^ (64 * k)), ← Nat.div_div_eq_div_mul,
    Nat.add_mul_div_left _ _ (by omega), Nat.div_eq_of_lt hy, Nat.zero_add]

/-- Multiplying a column `a` by a number whose bits all start columns puts `a` in exactly those columns. -/
theorem col_mul {a : Nat} (ha : a < 2 ^ 64) (k : Nat) :
    ∀ {E : Nat}, (∀ n, E.testBit n = true → n % 64 = 0) →
      col (a * E) k = if E.testBit (64 * k) then a else 0 := by
  induction k with
  | zero => ?_
  | succ k ih => ?_
  all_goals
    intro E hE
    have hlow : E % 2 ^ 64 = E % 2 := Nat.eq_of_testBit_eq fun i => by
      rw [show E % 2 = E % 2 ^ 1 from rfl]
      rw [Nat.testBit_mod_two_pow, Nat.testBit_mod_two_pow]
      by_cases h : E.testBit i
      · have := hE i h
        simp only [h, Bool.and_true, decide_eq_decide]
        omega
      · simp [h]
    have hsplit : a * E = a * (E % 2) + 2 ^ 64 * (a * (E / 2 ^ 64)) := by
      have hE := Nat.mod_add_div E (2 ^ 64)
      rw [hlow] at hE
      calc a * E = a * (E % 2 + 2 ^ 64 * (E / 2 ^ 64)) := by rw [hE]
        _ = a * (E % 2) + 2 ^ 64 * (a * (E / 2 ^ 64)) := by rw [Nat.mul_add, Nat.mul_left_comm]
    have hy : a * (E % 2) < 2 ^ 64 := by
      rcases Nat.mod_two_eq_zero_or_one E with h | h <;> rw [h] <;> omega
  · rw [hsplit, col_add_mul_zero _ hy, Nat.mul_zero, Nat.testBit_zero]
    rcases Nat.mod_two_eq_zero_or_one E with h | h <;> simp [h]
  · rw [hsplit, col_add_mul_succ _ _ hy, ih fun n hn => ?_, ← Nat.shiftRight_eq_div_pow, Nat.testBit_shiftRight,
      Nat.mul_succ, Nat.add_comm 64]
    rw [← Nat.shiftRight_eq_div_pow, Nat.testBit_shiftRight] at hn
    have := hE _ hn
    omega

theorem testBit_spreadAux (k acc n : Nat) :
    (spreadAux k acc).testBit n = true ↔ acc.testBit n = true ∨ (n % 64 = 0 ∧ n / 64 < k) := by
  induction k generalizing acc with
  | zero => simp [spreadAux]
  | succ k ih =>
    rw [spreadAux, strict_eq, ih, Nat.testBit_or, Nat.one_shiftLeft, Nat.testBit_two_pow]
    by_cases h : acc.testBit n
    · simp [h]
    · simp only [h, Bool.false_or, decide_eq_true_eq, false_or, Bool.false_eq_true]
      omega

theorem testBit_spread (n : Nat) : spread.testBit n = true ↔ n % 64 = 0 ∧ n / 64 < 64 := by
  simp [spread, testBit_spreadAux]

/-! ## Applying a matrix -/

theorem appAux_xor (M v w n : Nat) : appAux M (v ^^^ w) n = appAux M v n ^^^ appAux M w n := by
  induction n with
  | zero => simp [appAux]
  | succ n ih => rw [appAux, appAux, appAux, ih, Nat.testBit_xor, ite_xor, xor_xor_xor_comm]

theorem app_xor (M v w : Nat) : app M (v ^^^ w) = app M v ^^^ app M w := appAux_xor M v w 64

theorem appAux_zero (M n : Nat) : appAux M 0 n = 0 := by
  induction n with
  | zero => rfl
  | succ n ih => simp [appAux, ih]

theorem app_zero (M : Nat) : app M 0 = 0 := appAux_zero M 64

theorem appAux_xor_mat (A B v n : Nat) : appAux (A ^^^ B) v n = appAux A v n ^^^ appAux B v n := by
  induction n with
  | zero => simp [appAux]
  | succ n ih =>
    rw [appAux, appAux, appAux, ih, col_xor, xor_xor_xor_comm]
    cases v.testBit n <;> simp

theorem app_xor_mat (A B v : Nat) : app (A ^^^ B) v = app A v ^^^ app B v := appAux_xor_mat A B v 64

theorem appAux_lt (M v n : Nat) : appAux M v n < 2 ^ 64 := by
  induction n with
  | zero => simp [appAux]
  | succ n ih =>
    refine Nat.xor_lt_two_pow ih ?_
    split
    · exact col_lt M n
    · simp

theorem app_lt (M v : Nat) : app M v < 2 ^ 64 := appAux_lt M v 64

theorem appAux_mod (M v : Nat) {n : Nat} (hn : n ≤ 64) : appAux M (v % 2 ^ 64) n = appAux M v n := by
  induction n with
  | zero => rfl
  | succ n ih =>
    simp only [appAux, ih (by omega), Nat.testBit_mod_two_pow, show n < 64 by omega, decide_True, Bool.true_and]

theorem app_mod (M v : Nat) : app M (v % 2 ^ 64) = app M v := appAux_mod M v (Nat.le_refl _)

/-! ## The matrix of a linear map -/

/-- A map that is linear over GF(2) and keeps 64-bit vectors 64-bit. -/
structure Linear (f : Nat → Nat) : Prop where
  map_zero : f 0 = 0
  map_xor : ∀ a b, f (a ^^^ b) = f a ^^^ f b
  lt : ∀ a < 2 ^ 64, f a < 2 ^ 64

theorem testBit_ofColsAux (f : Nat → Nat) (k acc n : Nat) :
    (ofColsAux f k acc).testBit n = true ↔
      acc.testBit n = true ∨ (n / 64 < k ∧ (f (2 ^ (n / 64))).testBit (n % 64) = true) := by
  induction k generalizing acc with
  | zero => simp [ofColsAux]
  | succ k ih =>
    rw [ofColsAux, strict_eq, ih, Nat.testBit_or, Nat.testBit_shiftLeft, Nat.testBit_and, mask64_eq,
      Nat.testBit_two_pow_sub_one, Nat.one_shiftLeft]
    simp only [Bool.or_eq_true, Bool.and_eq_true, decide_eq_true_eq]
    constructor
    · rintro ((h | ⟨h1, h2, h3⟩) | ⟨h1, h2⟩)
      · exact .inl h
      · have : n / 64 = k := by omega
        exact .inr ⟨by omega, by rw [this]; rwa [show n % 64 = n - 64 * k by omega]⟩
      · exact .inr ⟨by omega, h2⟩
    · rintro (h | ⟨h1, h2⟩)
      · exact .inl (.inl h)
      · by_cases hk : n / 64 = k
        · subst hk
          exact .inl (.inr ⟨by omega, by rwa [show n - 64 * (n / 64) = n % 64 by omega], by omega⟩)
        · exact .inr ⟨by omega, h2⟩

theorem col_ofCols (f : Nat → Nat) {k : Nat} (hk : k < 64) : col (ofCols f) k = f (2 ^ k) % 2 ^ 64 :=
  Nat.eq_of_testBit_eq fun i => by
    rw [testBit_col, Nat.testBit_mod_two_pow]
    by_cases hi : i < 64
    · have h1 : (64 * k + i) / 64 = k := by omega
      have h2 : (64 * k + i) % 64 = i := by omega
      have := testBit_ofColsAux f 64 0 (64 * k + i)
      rw [h1, h2] at this
      simp only [ofCols, Nat.zero_testBit, hk, true_and, false_or, Bool.false_eq_true] at this
      simp only [hi, decide_True, Bool.and_true, Bool.true_and]
      exact Bool.eq_iff_iff.mpr this
    · simp [hi]

theorem mod_two_pow_succ (v n : Nat) : v % 2 ^ (n + 1) = v % 2 ^ n ^^^ (if v.testBit n then 2 ^ n else 0) :=
  Nat.eq_of_testBit_eq fun i => by
    by_cases h : v.testBit n
    · simp only [h, if_true, Nat.testBit_xor, Nat.testBit_mod_two_pow, Nat.testBit_two_pow]
      by_cases hi : i = n
      · subst hi; simp [h]
      · by_cases hlt : i < n <;> simp [hlt, show i < n + 1 ↔ i < n by omega, hi, Ne.symm hi]
    · simp only [h, Bool.false_eq_true, if_false, Nat.xor_zero, Nat.testBit_mod_two_pow]
      by_cases hi : i = n
      · subst hi; simp [h]
      · by_cases hlt : i < n <;> simp [hlt, show i < n + 1 ↔ i < n by omega]

theorem appAux_ofCols {f : Nat → Nat} (hf : Linear f) (v : Nat) {n : Nat} (hn : n ≤ 64) :
    appAux (ofCols f) v n = f (v % 2 ^ n) := by
  induction n with
  | zero => simp [appAux, hf.map_zero, Nat.mod_one]
  | succ n ih =>
    have hcol : col (ofCols f) n = f (2 ^ n) :=
      (col_ofCols f (by omega)).trans (Nat.mod_eq_of_lt (hf.lt _ (Nat.pow_lt_pow_of_lt (by omega) (by omega))))
    rw [appAux, ih (by omega), mod_two_pow_succ, hf.map_xor, hcol]
    cases v.testBit n <;> simp [hf.map_zero]

/-- The matrix of a linear map computes the map. -/
theorem app_ofCols {f : Nat → Nat} (hf : Linear f) {v : Nat} (hv : v < 2 ^ 64) : app (ofCols f) v = f v := by
  rw [app, appAux_ofCols hf v (Nat.le_refl _), Nat.mod_eq_of_lt hv]

theorem linear_id : Linear id := ⟨rfl, fun _ _ => rfl, fun _ h => h⟩

theorem app_one (v : Nat) : app one v = v % 2 ^ 64 := by
  rw [← app_mod, one, app_ofCols linear_id (Nat.mod_lt _ (by omega)), id]

/-! ## Products and powers -/

theorem col_compAux (A B : Nat) {k : Nat} (hk : k < 64) :
    ∀ {n : Nat}, n ≤ 64 → ∀ acc, col (compAux A B n acc) k = col acc k ^^^ appAux A (col B k) n := by
  intro n hn
  induction n with
  | zero => simp [compAux, appAux]
  | succ n ih =>
    intro acc
    have hsparse : ∀ m, ((B >>> n) &&& spread).testBit m = true → m % 64 = 0 := fun m hm => by
      rw [Nat.testBit_and, Bool.and_eq_true, testBit_spread] at hm
      exact hm.2.1
    have hsel : ((B >>> n) &&& spread).testBit (64 * k) = (col B k).testBit n := by
      have := testBit_spread (64 * k)
      rw [Nat.testBit_and, Nat.testBit_shiftRight, testBit_col, Nat.add_comm n]
      simp only [show n < 64 by omega, decide_True, Bool.and_true]
      cases h : spread.testBit (64 * k) <;> simp_all
    rw [compAux, strict_eq, ih (by omega), col_xor, col_mul (col_lt A n) k hsparse, hsel, appAux, Nat.xor_assoc,
      Nat.xor_comm (appAux A (col B k) n)]

theorem col_comp (A B : Nat) {k : Nat} (hk : k < 64) : col (comp A B) k = app A (col B k) := by
  rw [comp, col_compAux A B hk (Nat.le_refl _), show col 0 k = 0 by simp [col_eq], Nat.zero_xor, app]

theorem appAux_comp (A B v : Nat) {n : Nat} (hn : n ≤ 64) :
    appAux (comp A B) v n = app A (appAux B v n) := by
  induction n with
  | zero => simp [appAux, app_zero]
  | succ n ih =>
    rw [appAux, appAux, ih (by omega), app_xor, col_comp A B (by omega)]
    cases v.testBit n <;> simp [app_zero]

/-- The product computes the composite map. -/
theorem app_comp (A B v : Nat) : app (comp A B) v = app A (app B v) := appAux_comp A B v (Nat.le_refl _)

theorem app_iterate_comp (M n v : Nat) : (app (comp M M))^[n] v = (app M)^[2 * n] v := by
  induction n generalizing v with
  | zero => rw [Nat.mul_zero, Function.iterate_zero, Function.iterate_zero]
  | succ n ih =>
    rw [Function.iterate_succ_apply, ih, app_comp, show 2 * (n + 1) = 2 * n + 1 + 1 by omega,
      Function.iterate_succ_apply, Function.iterate_succ_apply]

/-- Binary powering with the list of squares computes the iterate. -/
theorem app_powFrom (k : Nat) :
    ∀ (M e acc v : Nat), app (powFrom (squares M k) e acc) v = (app M)^[e % 2 ^ k] (app acc v) := by
  induction k with
  | zero => intro M e acc v; rw [squares, powFrom, Nat.pow_zero, Nat.mod_one, Function.iterate_zero, id]
  | succ k ih =>
    intro M e acc v
    rw [squares, strict_eq, powFrom, strict_eq, ih, app_iterate_comp, Nat.pow_succ', Nat.mod_mul,
      Nat.add_comm (e % 2), Function.iterate_add_apply]
    apply congrArg
    rcases Nat.mod_two_eq_zero_or_one e with h | h
    · rw [h, if_neg (by decide), Function.iterate_zero, id]
    · rw [h, if_pos rfl, Function.iterate_one, app_comp]

end Marl.Gf2
