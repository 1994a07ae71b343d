import Mathlib.Algebra.Polynomial.Degree.IsMonicOfDegree
import Mathlib.Algebra.Polynomial.OfFn
import Mathlib.FieldTheory.Finite.Extension
import Mathlib.RingTheory.AdjoinRoot

/-! # Polynomials over the field of two elements as numbers

The bits of a number are the coefficients of a polynomial: exclusive or adds, a
shift to the left multiplies by a power of `X`. Remainders and products by a
modulus whose highest bit is known are computed by shifts and exclusive ors, and
Rabin's test for irreducibility reduces to one modular power.
-/

namespace Ferry.Lib.BitPoly

open Polynomial

/-! ## Numbers as polynomials -/

noncomputable def poly (n : ℕ) : (ZMod 2)[X] := ofFn n fun i => if n.testBit i then 1 else 0

theorem coeff_poly (n k : ℕ) : (poly n).coeff k = if n.testBit k then 1 else 0 := by
  by_cases hk : k < n
  · exact ofFn_coeff_eq_val_of_lt _ hk
  · have hle := Nat.not_lt.1 hk
    rw [poly, ofFn_coeff_eq_zero_of_ge _ hle, Nat.testBit_lt_two_pow (hle.trans_lt k.lt_two_pow_self)]
    rfl

theorem testBit_of_lt {n d k : ℕ} (h : n < 2 ^ d) (hk : d ≤ k) : n.testBit k = false :=
  Nat.testBit_lt_two_pow (h.trans_le (Nat.pow_le_pow_right Nat.two_pos hk))

theorem poly_injective : Function.Injective poly := by
  intro m n h
  refine Nat.eq_of_testBit_eq fun i => ?_
  have hi := congrArg (coeff · i) h
  simp only [coeff_poly] at hi
  cases hm : m.testBit i <;> cases hn : n.testBit i <;> simp_all

@[simp] theorem poly_zero : poly 0 = 0 := by
  ext k
  simp [coeff_poly]

@[simp] theorem poly_one : poly 1 = 1 := by
  ext k
  cases k <;> simp [coeff_poly, coeff_one, Nat.testBit_succ]

@[simp] theorem poly_xor (m n : ℕ) : poly (m ^^^ n) = poly m + poly n := by
  ext k
  rw [coeff_add, coeff_poly, coeff_poly, coeff_poly, Nat.testBit_xor]
  cases m.testBit k <;> cases n.testBit k <;> decide

@[simp] theorem poly_shiftLeft (n k : ℕ) : poly (n <<< k) = poly n * X ^ k := by
  ext j
  rw [coeff_mul_X_pow', coeff_poly, coeff_poly, Nat.testBit_shiftLeft]
  by_cases hj : k ≤ j <;> simp [hj]

/-- Bits put behind a shifted number do not meet its own. -/
theorem shiftLeft_or {b k : ℕ} (hb : b < 2 ^ k) (a : ℕ) : a <<< k ||| b = a <<< k ^^^ b := by
  refine Nat.eq_of_testBit_eq fun i => ?_
  rw [Nat.testBit_or, Nat.testBit_xor, Nat.testBit_shiftLeft]
  by_cases hi : k ≤ i
  · simp [testBit_of_lt hb hi]
  · simp [hi]

/-- One step of Horner's rule. -/
theorem poly_shiftRight (n i : ℕ) :
    poly (n >>> i) = poly (n >>> (i + 1)) * X + if n.testBit i then 1 else 0 := by
  ext k
  cases k with
  | zero => split <;> simp_all [coeff_poly]
  | succ k =>
    split <;>
      simp [coeff_poly, Nat.testBit_shiftRight, coeff_one, Nat.add_right_comm i 1, Nat.add_assoc]

theorem degree_poly_lt {n d : ℕ} (h : n < 2 ^ d) : (poly n).degree < d := by
  refine (degree_lt_iff_coeff_zero _ _).2 fun k hk => ?_
  simp [coeff_poly, testBit_of_lt h hk]

theorem eval_one_poly {n k : ℕ} (h : n < 2 ^ (k + 1)) :
    (poly n).eval 1 = (((List.range (k + 1)).filter n.testBit).length : ZMod 2) := by
  have hdegree : (poly n).natDegree < k + 1 :=
    Nat.lt_succ_of_le (natDegree_le_of_degree_le (Order.lt_succ_iff.1 (degree_poly_lt h)))
  rw [eval_eq_sum_range' hdegree, Finset.sum_congr rfl fun i _ => by rw [coeff_poly, one_pow, mul_one],
    Finset.sum_boole]
  congr 1
  simp [Finset.card, Finset.range, Multiset.range]

/-! ## Remainders -/

/-- The leading bit of `v` is cleared by the modulus until the number has at most `d` bits, for so many
rounds. -/
def reduce (p d : ℕ) : ℕ → ℕ → ℕ
  | 0, v => v
  | rounds + 1, v => if v < 2 ^ d then v else reduce p d rounds (v ^^^ p <<< (v.log2 - d))

/-- The product by the bits of `b` below `i`, the highest first. -/
def mulMod (p d rounds a b : ℕ) : ℕ → ℕ → ℕ
  | 0, acc => acc
  | i + 1, acc =>
    let acc := reduce p d rounds (acc <<< 1)
    mulMod p d rounds a b i (if b.testBit i then acc ^^^ a else acc)

/-- The product without a modulus, by the bits of `b` from bit `i` on. -/
def mulFrom (a b : ℕ) : ℕ → ℕ → ℕ → ℕ
  | 0, _, acc => acc
  | rounds + 1, i, acc => mulFrom a b rounds (i + 1) (if b.testBit i then acc ^^^ a <<< i else acc)

def mul (rounds a b : ℕ) : ℕ := mulFrom a b rounds 0 0

noncomputable def res (p n : ℕ) : AdjoinRoot (poly p) := AdjoinRoot.mk _ (poly n)

variable {p d : ℕ}

@[simp] theorem res_zero : res p 0 = 0 := by simp [res]

@[simp] theorem res_self : res p p = 0 := AdjoinRoot.mk_self

@[simp] theorem res_xor (m n : ℕ) : res p (m ^^^ n) = res p m + res p n := by simp [res]

@[simp] theorem res_shiftLeft (n k : ℕ) : res p (n <<< k) = res p n * AdjoinRoot.root _ ^ k := by
  simp [res]

theorem res_two : res p 2 = AdjoinRoot.root _ := by
  have hX : poly 2 = X := (poly_shiftLeft 1 1).trans (by simp)
  rw [res, hX, AdjoinRoot.mk_X]

@[simp] theorem res_reduce (rounds v : ℕ) : res p (reduce p d rounds v) = res p v := by
  induction rounds generalizing v with
  | zero => rfl
  | succ rounds ih =>
    rw [reduce]
    split
    · rfl
    · rw [ih, res_xor, res_shiftLeft, res_self, zero_mul, add_zero]

theorem res_mulMod {rounds a b i acc : ℕ} (h : res p acc = res p a * AdjoinRoot.mk _ (poly (b >>> i))) :
    res p (mulMod p d rounds a b i acc) = res p a * res p b := by
  induction i generalizing acc with
  | zero => exact h
  | succ i ih =>
    refine ih ?_
    have hstep : res p (acc <<< 1) = res p a * AdjoinRoot.mk _ (poly (b >>> (i + 1)) * X) := by
      rw [res_shiftLeft, h, pow_one, map_mul, AdjoinRoot.mk_X, mul_assoc]
    rw [poly_shiftRight b i, map_add, mul_add, ← hstep]
    split <;> simp

theorem res_mulFrom {a b rounds i : ℕ} (hb : b >>> (i + rounds) = 0) (acc : ℕ) :
    res p (mulFrom a b rounds i acc) =
      res p acc + res p a * (AdjoinRoot.mk _ (poly (b >>> i)) * AdjoinRoot.root _ ^ i) := by
  induction rounds generalizing i acc with
  | zero =>
    rw [show b >>> i = 0 from hb]
    simp [mulFrom]
  | succ rounds ih =>
    rw [mulFrom, ih (by rwa [Nat.add_assoc, Nat.add_comm 1]), poly_shiftRight b i]
    split <;> simp <;> ring

theorem res_mul {b rounds : ℕ} (hb : b < 2 ^ rounds) (a : ℕ) : res p (mul rounds a b) = res p a * res p b := by
  have hzero : b >>> (0 + rounds) = 0 := by
    rw [Nat.zero_add, Nat.shiftRight_eq_div_pow]
    exact Nat.div_eq_of_lt hb
  rw [mul, res_mulFrom hzero]
  simp [res]

section
variable (hp : p >>> d = 1)
include hp

theorem testBit_modulus (i : ℕ) : p.testBit (d + i) = decide (i = 0) := by
  rw [← Nat.testBit_shiftRight, hp]
  cases i <;> simp [Nat.testBit_succ]

theorem isMonicOfDegree_poly : (poly p).IsMonicOfDegree d := by
  refine (isMonicOfDegree_iff _ _).2 ⟨natDegree_le_iff_coeff_eq_zero.2 fun k hk => ?_, ?_⟩
  · obtain ⟨i, rfl⟩ := Nat.exists_eq_add_of_lt hk
    rw [coeff_poly, show d + i + 1 = d + (i + 1) from rfl, testBit_modulus hp]
    rfl
  · rw [coeff_poly, show d = d + 0 from rfl, testBit_modulus hp]
    rfl

omit hp in
theorem shiftRight_natDegree {n : ℕ} (hn : poly n ≠ 0) : n >>> (poly n).natDegree = 1 := by
  have hne : n ≠ 0 := by
    rintro rfl
    exact hn poly_zero
  have hlog : n >>> n.log2 = 1 := by
    rw [Nat.shiftRight_eq_div_pow]
    exact Nat.div_eq_of_lt_le (by simpa using Nat.log2_self_le hne)
      (by simpa [pow_succ'] using Nat.lt_log2_self)
  rw [(isMonicOfDegree_poly hlog).natDegree_eq, hlog]

/-- Enough rounds of reduction bring a value below the modulus. -/
theorem reduce_lt {rounds v : ℕ} (hv : v < 2 ^ (d + rounds)) : reduce p d rounds v < 2 ^ d := by
  induction rounds generalizing v with
  | zero => exact hv
  | succ rounds ih =>
    rw [reduce]
    split
    · assumption
    rename_i hge
    have hne : v ≠ 0 := by
      rintro rfl
      exact hge (Nat.two_pow_pos d)
    have hlog : d ≤ v.log2 := Nat.not_lt.1 (mt (Nat.log2_lt hne).1 hge)
    have hmax : v.log2 ≤ d + rounds := Nat.lt_succ_iff.1 ((Nat.log2_lt hne).2 hv)
    refine ih (Nat.lt_of_lt_of_le ?_ (Nat.pow_le_pow_right Nat.two_pos hmax))
    -- the leading bits of both meet
    refine Nat.lt_pow_two_of_testBit _ fun i hi => ?_
    rw [Nat.testBit_xor, Nat.testBit_shiftLeft, decide_eq_true (by omega), Bool.true_and,
      show i - (v.log2 - d) = d + (i - v.log2) by omega, testBit_modulus hp]
    rcases Nat.eq_or_lt_of_le hi with rfl | hlt
    · simp [Nat.testBit_log2 hne]
    · rw [Nat.testBit_lt_two_pow ((Nat.log2_lt hne).1 hlt), decide_eq_false (by omega)]
      rfl

theorem mulMod_lt {rounds a b i acc : ℕ} (hr : 0 < rounds) (ha : a < 2 ^ d) (hacc : acc < 2 ^ d) :
    mulMod p d rounds a b i acc < 2 ^ d := by
  induction i generalizing acc with
  | zero => exact hacc
  | succ i ih =>
    refine ih ?_
    have hshift : acc <<< 1 < 2 ^ (d + rounds) := by
      rw [Nat.shiftLeft_eq]
      calc acc * 2 ^ 1 < 2 ^ d * 2 ^ 1 := Nat.mul_lt_mul_of_pos_right hacc (by decide)
        _ ≤ 2 ^ (d + rounds) := by
          rw [← Nat.pow_add]
          exact Nat.pow_le_pow_right Nat.two_pos (by omega)
    have hred := reduce_lt hp hshift
    split
    · exact Nat.xor_lt_two_pow hred ha
    · exact hred

/-- A number with at most `d` bits is the remainder of what it is congruent to. -/
theorem poly_eq_modByMonic {n : ℕ} {f : (ZMod 2)[X]} (hn : n < 2 ^ d)
    (h : res p n = AdjoinRoot.mk _ f) : poly n = f %ₘ poly p := by
  have hmonic := (isMonicOfDegree_poly hp)
  have hdegree : (poly n).degree < (poly p).degree := by
    rw [degree_eq_natDegree hmonic.monic.ne_zero, hmonic.natDegree_eq]
    exact degree_poly_lt hn
  rw [← (modByMonic_eq_self_iff hmonic.monic).2 hdegree]
  exact modByMonic_eq_of_dvd_sub hmonic.monic (AdjoinRoot.mk_eq_mk.1 h)

theorem res_injOn : Set.InjOn (res p) {n | n < 2 ^ d} := by
  intro m hm n hn h
  refine poly_injective ?_
  rw [poly_eq_modByMonic hp hm h, ← poly_eq_modByMonic hp hn rfl]

end

/-! ## Rabin's test -/

/-- A polynomial of prime degree is irreducible when it has no root and divides `X ^ q ^ n - X`. -/
theorem irreducible_iff_of_prime {k : Type} [Field k] [Finite k] {f : k[X]} (hf : f.natDegree.Prime) :
    Irreducible f ↔ (∀ c, ¬ f.IsRoot c) ∧ f ∣ X ^ Nat.card k ^ f.natDegree - X := by
  constructor
  · intro h
    exact ⟨fun _ => h.not_isRoot_of_natDegree_ne_one hf.ne_one,
      h.natDegree_dvd_iff_dvd_X_pow_card_pow_sub_X.1 dvd_rfl⟩
  · rintro ⟨hroot, hdvd⟩
    have hne : f ≠ 0 := by
      rintro rfl
      exact hf.ne_zero natDegree_zero
    have hunit : ¬ IsUnit f := fun h => hf.ne_zero (natDegree_eq_zero_of_isUnit h)
    obtain ⟨g, hg, hgf⟩ := WfDvdMonoid.exists_irreducible_factor hunit hne
    have hdeg := hg.natDegree_dvd_iff_dvd_X_pow_card_pow_sub_X.2 (hgf.trans hdvd)
    rcases (Nat.dvd_prime hf).1 hdeg with h1 | hsame
    · obtain ⟨c, hc⟩ := exists_root_of_degree_eq_one ((degree_eq_iff_natDegree_eq hg.ne_zero).2 h1)
      exact absurd (hc.dvd hgf) (hroot c)
    · exact (associated_of_dvd_of_natDegree_le hgf hne hsame.ge).irreducible hg

end Ferry.Lib.BitPoly
