import Ferry.Lib.BitPoly
import Ferry.Store.Chunker

/-! # The polynomial arithmetic of the chunker

The 64-bit functions lose no bit when the modulus has degree 53: they agree with
the same loops over numbers without a bound. So the test for irreducibility is
exact, and the fingerprint is the remainder of the last 64 bytes of the chunk.
-/

namespace Ferry

open Lib Lib.BitPoly Polynomial List

/-! ## No bit is lost -/

theorem toNat_shiftLeft {v : UInt64} {k m : Nat} (hv : v.toNat < 2 ^ m) (hk : m + k ≤ 64) (h : k < 64) :
    (v <<< k.toUInt64).toNat = v.toNat <<< k := by
  have hlt : v.toNat <<< k < 2 ^ 64 := by
    rw [Nat.shiftLeft_eq]
    calc v.toNat * 2 ^ k < 2 ^ m * 2 ^ k := Nat.mul_lt_mul_of_pos_right hv (Nat.two_pow_pos k)
      _ ≤ 2 ^ 64 := by
        rw [← Nat.pow_add]
        exact Nat.pow_le_pow_right Nat.two_pos hk
  have hkey : k.toUInt64.toNat % 64 = k := by simp [Nat.toUInt64]; omega
  rw [UInt64.toNat_shiftLeft, hkey, Nat.mod_eq_of_lt hlt]

theorem polyDegree_lt_iff {v : UInt64} {d : Nat} (hv : v ≠ 0) : v.toNat.log2 < d ↔ v.toNat < 2 ^ d :=
  Nat.log2_lt (by simpa [← UInt64.toNat_inj] using hv)

section
variable {p : UInt64} (hp : p.toNat >>> 53 = 1)
include hp

theorem modulus_lt : p.toNat < 2 ^ 54 := by
  rw [Nat.shiftRight_eq_div_pow] at hp
  omega

theorem toNat_gfModLoop (rounds : Nat) (v : UInt64) :
    (gfModLoop p 53 rounds v).toNat = reduce p.toNat 53 rounds v.toNat := by
  induction rounds generalizing v with
  | zero => rfl
  | succ rounds ih =>
    rw [gfModLoop, reduce, polyDegree]
    by_cases hv : v = 0
    · simp [hv]
    simp only [if_neg hv, polyDegree_lt_iff hv]
    split
    · rfl
    · have hlog : v.toNat.log2 < 64 := (polyDegree_lt_iff hv).2 v.toNat_lt
      rw [ih, UInt64.toNat_xor, toNat_shiftLeft (modulus_lt hp) (by omega) (by omega)]

theorem toNat_gfMod (v : UInt64) : (gfMod v p).toNat = reduce p.toNat 53 64 v.toNat :=
  toNat_gfModLoop hp 64 v

theorem gfMod_lt (v : UInt64) : (gfMod v p).toNat < 2 ^ 53 := by
  rw [toNat_gfMod hp]
  exact reduce_lt hp (v.toNat_lt.trans (by decide))

theorem toNat_mulmodLoop {a b acc : UInt64} (ha : a.toNat < 2 ^ 53) (hacc : acc.toNat < 2 ^ 53) (i : Nat) :
    (mulmodLoop a b p 53 i acc).toNat = mulMod p.toNat 53 64 a.toNat b.toNat i acc.toNat := by
  induction i generalizing acc with
  | zero => rfl
  | succ i ih =>
    have hshift : (gfMod (acc <<< 1) p).toNat = reduce p.toNat 53 64 (acc.toNat <<< 1) := by
      rw [toNat_gfMod hp, ← toNat_shiftLeft hacc (k := 1) (by decide) (by decide)]
      rfl
    have hlt := gfMod_lt hp (acc <<< 1)
    rw [mulmodLoop, mulMod, ← hshift]
    split
    · exact ih (by rw [UInt64.toNat_xor]; exact Nat.xor_lt_two_pow hlt ha)
    · exact ih hlt

/-- `gf_mulmod` without a bound on the numbers. -/
theorem toNat_gfMulmod (a b : UInt64) :
    (gfMulmod a b p).toNat = mulMod p.toNat 53 64 (reduce p.toNat 53 64 a.toNat) b.toNat
      ((polyDegree b).getD 0 + 1) 0 := by
  rw [← toNat_gfMod hp]
  exact toNat_mulmodLoop hp (gfMod_lt hp a) (by decide) _

theorem gfMulmod_lt (a b : UInt64) : (gfMulmod a b p).toNat < 2 ^ 53 := by
  rw [toNat_gfMulmod hp, ← toNat_gfMod hp]
  exact mulMod_lt hp (by decide) (gfMod_lt hp a) (by decide)

theorem res_gfMulmod (a b : UInt64) :
    res p.toNat (gfMulmod a b p).toNat = res p.toNat a.toNat * res p.toNat b.toNat := by
  have hshift : b.toNat >>> ((polyDegree b).getD 0 + 1) = 0 := by
    unfold polyDegree
    split
    · simp_all
    · rw [Nat.shiftRight_eq_div_pow]
      exact Nat.div_eq_of_lt Nat.lt_log2_self
  rw [toNat_gfMulmod hp, res_mulMod (by simp [hshift]), res_reduce]

/-! ## The test for irreducibility -/

theorem square_iterate (n : Nat) : ((fun g => gfMulmod g g p)^[n] 2).toNat < 2 ^ 53 ∧
      res p.toNat ((fun g => gfMulmod g g p)^[n] 2).toNat = AdjoinRoot.root _ ^ 2 ^ n := by
  induction n with
  | zero => exact ⟨(by decide : (2 : UInt64).toNat < 2 ^ 53), by simpa using res_two⟩
  | succ n ih =>
    rw [Function.iterate_succ_apply']
    exact ⟨gfMulmod_lt hp _ _, by rw [res_gfMulmod hp, ih.2, ← pow_add, ← two_mul, ← pow_succ']⟩

theorem square_iterate_eq_iff (n : Nat) :
    (fun g => gfMulmod g g p)^[n] 2 = 2 ↔ poly p.toNat ∣ X ^ 2 ^ n - X := by
  obtain ⟨hlt, hres⟩ := square_iterate hp n
  have htwo : res p.toNat (2 : UInt64).toNat = AdjoinRoot.root _ := res_two
  rw [← AdjoinRoot.mk_eq_mk, map_pow, AdjoinRoot.mk_X, ← hres, ← htwo, ← UInt64.toNat_inj]
  exact ⟨congrArg _, fun h => res_injOn hp hlt (by decide) h⟩

end

theorem forall_not_isRoot (p : UInt64) :
    (∀ c, ¬ (poly p.toNat).IsRoot c) ↔ ¬ (p &&& 1 = 0 ∨ countOnes p % 2 = 0) := by
  have hzero : (poly p.toNat).IsRoot 0 ↔ p &&& 1 = 0 := by
    rw [IsRoot, ← coeff_zero_eq_eval_zero, coeff_poly, ← UInt64.toNat_inj, UInt64.toNat_and]
    simp [Nat.testBit_zero, Nat.and_one_is_mod]
  have hone : (poly p.toNat).IsRoot 1 ↔ countOnes p % 2 = 0 := by
    rw [IsRoot, eval_one_poly (k := 63) p.toNat_lt, ZMod.natCast_eq_zero_iff, Nat.dvd_iff_mod_eq_zero]
    rfl
  rw [← hzero, ← hone, not_or]
  exact ⟨fun h => ⟨h 0, h 1⟩, fun h c => by fin_cases c; exacts [h.1, h.2]⟩

theorem shiftRight_eq_one_iff (p : UInt64) : p >>> polyDegreeBound.toUInt64 = 1 ↔ p.toNat >>> 53 = 1 := by
  rw [← UInt64.toNat_inj, UInt64.toNat_shiftRight]
  rfl

theorem isIrreducible_iff (p : UInt64) :
    isIrreducible p ↔ Irreducible (poly p.toNat) ∧ (poly p.toNat).natDegree = 53 := by
  by_cases hp : p.toNat >>> 53 = 1
  · have hdeg := (isMonicOfDegree_poly hp).natDegree_eq
    have hprime : (poly p.toNat).natDegree.Prime := hdeg ▸ by decide
    rw [irreducible_iff_of_prime hprime, forall_not_isRoot, hdeg, Nat.card_zmod, ← square_iterate_eq_iff hp]
    unfold isIrreducible
    rw [if_neg (not_not_intro ((shiftRight_eq_one_iff p).2 hp))]
    split
    · rename_i hroot
      exact iff_of_false Bool.false_ne_true fun h => h.1.1 hroot
    · rename_i hroot
      exact decide_eq_true_iff.trans ⟨fun h => ⟨⟨hroot, h⟩, rfl⟩, fun h => h.1.2⟩
  · refine iff_of_false ?_ fun h => hp ?_
    · simp [isIrreducible, mt (shiftRight_eq_one_iff p).1 hp]
    · rw [← h.2]
      exact shiftRight_natDegree h.1.ne_zero

namespace ValidatedPoly

theorem shiftRight_eq (p : ValidatedPoly) : p.get.toNat >>> 53 = 1 := by
  obtain ⟨hirr, hdeg⟩ := (isIrreducible_iff p.get).1 p.irreducible
  rw [← hdeg]
  exact shiftRight_natDegree hirr.ne_zero

end ValidatedPoly

/-- The test is exact, and the arithmetic by a polynomial that passes it is that of numbers without a
bound. -/
theorem isIrreducible_exact :
    (∀ p : UInt64, isIrreducible p ↔ Irreducible (poly p.toNat) ∧ (poly p.toNat).natDegree = 53) ∧
      ∀ (p : ValidatedPoly) (a b v : UInt64),
        (gfModDeg v p.get polyDegreeBound).toNat = reduce p.get.toNat 53 64 v.toNat ∧
        (gfMulmod a b p.get).toNat = mulMod p.get.toNat 53 64
          (reduce p.get.toNat 53 64 a.toNat) b.toNat ((polyDegree b).getD 0 + 1) 0 ∧
        poly (gfModDeg v p.get polyDegreeBound).toNat = poly v.toNat %ₘ poly p.get.toNat ∧
        poly (gfMulmod a b p.get).toNat = (poly a.toNat * poly b.toNat) %ₘ poly p.get.toNat := by
  refine ⟨isIrreducible_iff, fun p a b v => ?_⟩
  have hp := p.shiftRight_eq
  refine ⟨toNat_gfMod hp v, toNat_gfMulmod hp a b, poly_eq_modByMonic hp (gfMod_lt hp v) ?_,
    poly_eq_modByMonic hp (gfMulmod_lt hp a b) ?_⟩
  · exact (congrArg _ (toNat_gfMod hp v)).trans (res_reduce ..)
  · exact (res_gfMulmod hp a b).trans (map_mul ..).symm

/-- The generator returns irreducible polynomials of degree 53 only, and each of them for some draws. -/
theorem generatePolynomial_exact (p : UInt64) : (∃ draws, generatePolynomial draws = some p) ↔
      Irreducible (poly p.toNat) ∧ (poly p.toNat).natDegree = 53 := by
  rw [← isIrreducible_iff]
  constructor
  · rintro ⟨draws, h⟩
    induction draws with
    | nil => cases h
    | cons draw draws ih =>
      rw [generatePolynomial] at h
      split at h
      · rename_i hirr
        cases h
        exact hirr
      · exact ih h
  · intro hirr
    have hp := (⟨p, hirr⟩ : ValidatedPoly).shiftRight_eq
    have hsame : (p &&& (2 ^ 53 - 1)) ||| 2 ^ 53 = p := by
      rw [← UInt64.toNat_inj, UInt64.toNat_or, UInt64.toNat_and]
      show (p.toNat &&& 2 ^ 53 - 1) ||| 2 ^ 53 = p.toNat
      have hor := Nat.two_pow_add_eq_or_of_lt (Nat.mod_lt p.toNat (Nat.two_pow_pos 53)) 1
      rw [Nat.mul_one] at hor
      rw [Nat.and_two_pow_sub_one_eq_mod, Nat.or_comm, ← hor]
      rw [Nat.shiftRight_eq_div_pow] at hp
      dsimp only at hp
      omega
    exact ⟨[p], by rw [generatePolynomial, hsame, if_pos hirr]⟩

/-! ## The table -/

/-- `out_table` over numbers without a bound. -/
def outWide (p : Nat) (out : UInt8) : Nat :=
  reduce p 53 64 (mul 64 out.toNat ((fun v => reduce p 53 64 (v <<< 1))^[slideOutX] 1))

theorem toNat_gfMulFrom {a b : UInt64} (ha : a.toNat < 2 ^ 8) (hb : b.toNat < 2 ^ 53) (rounds i : Nat)
    (acc : UInt64) : (gfMulFrom a b rounds i acc).toNat = mulFrom a.toNat b.toNat rounds i acc.toNat := by
  induction rounds generalizing i acc with
  | zero => rfl
  | succ rounds ih =>
    rw [gfMulFrom, mulFrom, ih]
    split
    · rename_i hbit
      have hi : i < 53 := Nat.lt_of_not_le fun hle => by simp [testBit_of_lt hb hle] at hbit
      rw [UInt64.toNat_xor, toNat_shiftLeft ha (by omega) (by omega)]
    · rfl

theorem toNat_gfMul {b : UInt64} (hb : b.toNat < 2 ^ 53) (out : UInt8) :
    (gfMul out.toUInt64 b).toNat = mul 64 out.toNat b.toNat := by
  have hout : out.toUInt64.toNat = out.toNat := UInt8.toNat_toUInt64 out
  rw [gfMul, toNat_gfMulFrom (hout ▸ out.toNat_lt) hb, hout]
  rfl

section
variable {p : UInt64} (hp : p.toNat >>> 53 = 1)
include hp

theorem toNat_gfPowX (n : Nat) :
    (gfPowX n p).toNat = (fun v => reduce p.toNat 53 64 (v <<< 1))^[n] 1 ∧ (gfPowX n p).toNat < 2 ^ 53 ∧
      res p.toNat (gfPowX n p).toNat = AdjoinRoot.root _ ^ n := by
  induction n with
  | zero => exact ⟨rfl, (by decide : (1 : UInt64).toNat < 2 ^ 53), by simp [gfPowX, res]⟩
  | succ n ih =>
    have hstep : gfPowX (n + 1) p = gfMod (gfPowX n p <<< 1) p := Function.iterate_succ_apply' ..
    have hshift : (gfPowX n p <<< 1).toNat = (gfPowX n p).toNat <<< 1 :=
      toNat_shiftLeft ih.2.1 (k := 1) (by decide) (by decide)
    refine ⟨?_, hstep ▸ gfMod_lt hp _, ?_⟩
    · rw [hstep, toNat_gfMod hp, hshift, Function.iterate_succ_apply', ih.1]
    · rw [hstep, toNat_gfMod hp, hshift, res_reduce, res_shiftLeft, ih.2.2, pow_one, pow_succ]

theorem toNat_outTable (out : UInt8) :
    (outTable p out).toNat = outWide p.toNat out ∧ (outTable p out).toNat < 2 ^ 53 ∧
      res p.toNat (outTable p out).toNat = res p.toNat out.toNat * AdjoinRoot.root _ ^ slideOutX := by
  obtain ⟨hwide, hlt, hres⟩ := toNat_gfPowX hp slideOutX
  refine ⟨?_, gfMod_lt hp _, ?_⟩
  · rw [outTable, toNat_gfMod hp, toNat_gfMul hlt, hwide, outWide]
  · rw [outTable, toNat_gfMod hp, res_reduce, toNat_gfMul hlt, res_mul (UInt64.toNat_lt _), hres]

end

/-! ## The window -/

/-- The polynomial of some bytes, the first one highest. -/
noncomputable def bytesPoly (l : Bytes) : (ZMod 2)[X] := l.foldl (fun f b => f * X ^ 8 + poly b.toNat) 0

theorem bytesPoly_concat (l : Bytes) (b : UInt8) :
    bytesPoly (l ++ [b]) = bytesPoly l * X ^ 8 + poly b.toNat := by
  simp [bytesPoly]

theorem bytesPoly_cons (o : UInt8) (l : Bytes) :
    bytesPoly (o :: l) = poly o.toNat * X ^ (8 * l.length) + bytesPoly l := by
  induction l using List.reverseRecOn with
  | nil => simp [bytesPoly]
  | append_singleton l b ih =>
    rw [← cons_append, bytesPoly_concat, bytesPoly_concat, ih, length_append, Nat.mul_add, pow_add]
    simp only [length_singleton, Nat.mul_one]
    ring

/-- The last 64 bytes. -/
def lastBytes (l : Bytes) : Bytes := l.drop (l.length - windowSize)

theorem lastBytes_concat_of_lt {l : Bytes} (h : l.length < windowSize) (b : UInt8) :
    lastBytes (l ++ [b]) = lastBytes l ++ [b] := by
  have hlen : (l ++ [b]).length - windowSize = 0 := by
    rw [length_append, length_singleton]
    omega
  rw [lastBytes, lastBytes, hlen, show l.length - windowSize = 0 by omega]
  rfl

/-- The window slides by one byte. -/
theorem lastBytes_concat {l : Bytes} (hi : l.length - windowSize < l.length) (h : windowSize ≤ l.length)
    (b : UInt8) : ∃ rest, rest.length = 63 ∧ lastBytes l = l[l.length - windowSize] :: rest ∧
      lastBytes (l ++ [b]) = rest ++ [b] := by
  have h' : 64 ≤ l.length := h
  refine ⟨l.drop (l.length - windowSize + 1), ?_, drop_eq_getElem_cons hi, ?_⟩
  · rw [length_drop]
    show l.length - (l.length - 64 + 1) = 63
    omega
  · rw [lastBytes, length_append, length_singleton, Nat.sub_add_comm h,
      drop_append_of_le_length (by omega)]

theorem and_splitMask_eq_zero (v : UInt64) :
    v &&& splitMask = 0 ↔ ∀ i < 20, (poly v.toNat).coeff i = 0 := by
  have hmask : (v &&& splitMask).toNat = v.toNat % 2 ^ 20 := by
    rw [UInt64.toNat_and, ← Nat.and_two_pow_sub_one_eq_mod]
    rfl
  rw [← UInt64.toNat_inj, hmask]
  constructor
  · intro h i hi
    have hbit := congrArg (Nat.testBit · i) h
    simp only [Nat.testBit_mod_two_pow, hi] at hbit
    simpa [coeff_poly] using hbit
  · intro h
    refine Nat.eq_of_testBit_eq fun i => ?_
    rw [Nat.testBit_mod_two_pow]
    by_cases hi : i < 20
    · simpa [coeff_poly, hi] using h i hi
    · simp [hi]

namespace Chunker

/-- The state of the chunker after the bytes of a chunk. -/
structure Rolled (p : UInt64) (l : Bytes) (c : Chunker) : Prop where
  modulus : c.poly = p
  filled : c.filled = min windowSize l.length
  wpos : c.wpos = Fin.ofNat windowSize l.length
  win : ∀ i (h : i < l.length), l.length ≤ i + windowSize → c.win.get (Fin.ofNat windowSize i) = l[i]
  lt : c.fp.toNat < 2 ^ 53
  residue : res p.toNat c.fp.toNat = AdjoinRoot.mk _ (bytesPoly (lastBytes l))

/-- The fingerprint without the byte that leaves the window. -/
def slid (c : Chunker) : UInt64 :=
  if c.filled < windowSize then c.fp else c.fp ^^^ outTable c.poly (c.win.get c.wpos)

theorem append_eq (c : Chunker) (b : UInt8) :
    c.append b = { c with
      win := (c.append b).win
      wpos := c.wpos + 1
      filled := if c.filled < windowSize then c.filled + 1 else c.filled
      fp := gfMod ((c.slid <<< 8) ||| b.toUInt64) c.poly } := by
  unfold append slid
  split <;> rfl

theorem get_append (c : Chunker) (b : UInt8) (i : Fin windowSize) :
    (c.append b).win.get i = if c.wpos = i then b else c.win.get i := by
  have hset : (c.append b).win.get i = (c.win.set c.wpos b)[i.val] := by
    unfold append
    split <;> rfl
  rw [hset, Vector.getElem_set]
  simp only [Fin.ext_iff]
  rfl

/-- The fingerprint that `append` leaves, over numbers without a bound. -/
def appendWide (c : Chunker) (b : UInt8) : Nat :=
  let fp := if c.filled < windowSize then c.fp.toNat
    else c.fp.toNat ^^^ outWide c.poly.toNat (c.win.get c.wpos)
  reduce c.poly.toNat 53 64 (fp <<< 8 ||| b.toNat)

theorem Rolled.start (p : UInt64) : Rolled p [] (start p) where
  modulus := rfl
  filled := rfl
  wpos := rfl
  win i h := by cases h
  lt := Nat.two_pow_pos 53
  residue := by simp [Chunker.start, lastBytes, bytesPoly]

namespace Rolled

variable {p : UInt64} (hp : p.toNat >>> 53 = 1) {l : Bytes} {c : Chunker} (h : Rolled p l c)
include hp h

/-- The window without its oldest byte. -/
theorem slid (b : UInt8) : ∃ rest, lastBytes (l ++ [b]) = rest ++ [b] ∧ c.slid.toNat < 2 ^ 53 ∧
    res p.toNat c.slid.toNat = AdjoinRoot.mk _ (bytesPoly rest) ∧
    c.slid.toNat = if c.filled < windowSize then c.fp.toNat
      else c.fp.toNat ^^^ outWide c.poly.toNat (c.win.get c.wpos) := by
  unfold Chunker.slid
  rw [h.filled]
  by_cases hlen : l.length < windowSize
  · rw [if_pos (by omega), if_pos (by omega)]
    exact ⟨_, lastBytes_concat_of_lt hlen b, h.lt, h.residue, rfl⟩
  have hpos : 0 < windowSize := by decide
  obtain ⟨rest, hrest, hold, hnew⟩ := lastBytes_concat (by omega) (Nat.not_lt.1 hlen) b
  have hwpos : c.wpos = Fin.ofNat windowSize (l.length - windowSize) := by
    rw [h.wpos]
    refine Fin.ext ?_
    show l.length % windowSize = (l.length - windowSize) % windowSize
    exact Nat.mod_eq_sub_mod (Nat.not_lt.1 hlen)
  have hout : c.win.get c.wpos = l[l.length - windowSize] := by
    rw [← h.win _ (by omega) (by omega), hwpos]
  obtain ⟨hwide, hlt, hres⟩ := toNat_outTable hp (l[l.length - windowSize])
  rw [if_neg (by omega), if_neg (by omega), hout, h.modulus, UInt64.toNat_xor]
  refine ⟨rest, hnew, Nat.xor_lt_two_pow h.lt hlt, ?_, by rw [hwide]⟩
  rw [res_xor, h.residue, hres, hold, bytesPoly_cons, hrest, show 8 * 63 = slideOutX from rfl]
  have hsame : res p.toNat (l[l.length - windowSize]).toNat * AdjoinRoot.root _ ^ slideOutX =
      AdjoinRoot.mk _ (BitPoly.poly (l[l.length - windowSize]).toNat * X ^ slideOutX) := by
    rw [map_mul, map_pow, AdjoinRoot.mk_X, res]
  rw [hsame, ← map_add, add_right_comm, CharTwo.add_self_eq_zero, zero_add]

/-- The step lemma: the fingerprint is that of the last bytes, and no bit is lost. -/
theorem append (b : UInt8) :
    Rolled p (l ++ [b]) (c.append b) ∧ (c.append b).fp.toNat = c.appendWide b := by
  obtain ⟨rest, hrest, hlt, hres, hwide⟩ := h.slid hp b
  have hword : ((c.slid <<< 8) ||| b.toUInt64).toNat = c.slid.toNat <<< 8 ||| b.toNat := by
    rw [UInt64.toNat_or, UInt8.toNat_toUInt64]
    exact congrArg (· ||| b.toNat) (toNat_shiftLeft hlt (k := 8) (by decide) (by decide))
  rw [append_eq]
  refine ⟨⟨h.modulus, ?_, ?_, ?_, ?_, ?_⟩, ?_⟩
  · simp only [h.filled, length_append, length_singleton]
    split <;> omega
  · show c.wpos + 1 = _
    rw [h.wpos, length_append]
    refine Fin.ext ?_
    simp [Fin.add_def]
  · intro i hi hle
    have hsame : c.wpos = Fin.ofNat windowSize i ↔ l.length % 64 = i % 64 := by
      rw [h.wpos]
      exact Fin.ext_iff
    rw [length_append] at hle
    have hle' : l.length + 1 ≤ i + 64 := hle
    show (c.append b).win.get _ = _
    rw [get_append]
    by_cases hnew : i = l.length
    · rw [if_pos (hsame.2 (by rw [hnew]))]
      simp [hnew]
    have hold : i < l.length := by
      rw [length_append, length_singleton] at hi
      omega
    rw [if_neg (mt hsame.1 (by omega)), getElem_append_left hold]
    exact h.win i hold (by omega)
  · rw [h.modulus]
    exact gfMod_lt hp _
  · rw [h.modulus, toNat_gfMod hp, hword, res_reduce, shiftLeft_or (k := 8) b.toNat_lt, res_xor,
      res_shiftLeft, hres, hrest, bytesPoly_concat, map_add, map_mul, map_pow, AdjoinRoot.mk_X]
    rfl
  · rw [appendWide, ← hwide, h.modulus, toNat_gfMod hp, hword]

end Rolled

end Chunker

/-- The fingerprint is the remainder of the last 64 bytes of the chunk, and no shift on the way loses a bit;
so whether a byte ends the chunk depends on the bytes since the last cut. -/
theorem fingerprint_eq (p : ValidatedPoly) (data : Bytes) (b : UInt8) :
    let c := ((Chunker.start p.get).feed data).1
    let chunk := data.drop ((Chunker.start p.get).feed data).2.sum
    poly c.fp.toNat = bytesPoly (lastBytes chunk) %ₘ poly p.get.toNat ∧
      (c.append b).fp.toNat = c.appendWide b ∧
      ∀ n, (c.push b).2 = some n ↔ n = chunk.length + 1 ∧ (n = maxSize ∨ minSize ≤ n ∧
        ∀ i < 20, (bytesPoly (lastBytes (chunk ++ [b])) %ₘ poly p.get.toNat).coeff i = 0) := by
  intro c chunk
  have hp := p.shiftRight_eq
  have hstep : ∀ l (c : Chunker) b, c.Rolled p.get l ∧ c.len = l.length →
      (c.push b).1.Rolled p.get (if (c.push b).2 = none then l ++ [b] else []) ∧
        (c.push b).1.len = (if (c.push b).2 = none then l ++ [b] else []).length := by
    rintro l c b ⟨h, hlen⟩
    rw [Chunker.push_eq]
    split
    · rw [if_neg (by simp), h.modulus]
      exact ⟨.start p.get, rfl⟩
    · rw [if_pos rfl, length_append, ← hlen]
      have h' := (h.append hp b).1
      exact ⟨⟨h'.modulus, h'.filled, h'.wpos, h'.win, h'.lt, h'.residue⟩, rfl⟩
  obtain ⟨h, hlen⟩ : c.Rolled p.get chunk ∧ c.len = chunk.length :=
    Chunker.counts.feed_rest (R := fun l c => c.Rolled p.get l ∧ c.len = l.length) rfl ⟨.start p.get, rfl⟩
      hstep data
  obtain ⟨h', hwide⟩ := h.append hp b
  refine ⟨poly_eq_modByMonic hp h.lt h.residue, hwide, fun n => ?_⟩
  rw [← poly_eq_modByMonic hp h'.lt h'.residue, ← and_splitMask_eq_zero, Chunker.push_eq, ← hlen]
  split
  · rename_i hcut
    constructor
    · rintro ⟨⟩
      exact ⟨rfl, hcut.symm⟩
    · rintro ⟨rfl, -⟩
      rfl
  · rename_i hcut
    refine iff_of_false (by simp) ?_
    rintro ⟨rfl, h⟩
    exact hcut h.symm

end Ferry
