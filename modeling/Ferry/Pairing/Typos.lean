import Mathlib.Data.Nat.Bitwise
import Ferry.Pairing.Share

/-! # Mistyped pairing codes

A code has five symbols and a check symbol, which stands for the low five bits of
the CRC-32 of the others. The CRC is linear in exclusive or, so whether the check
symbol sees that one symbol was replaced depends on its place and on the exclusive
or of the two symbols alone. Each place has three of them that are not seen.
-/

namespace Ferry

/-! ## CRC-32 -/

def crcBit (c : BitVec 32) : BitVec 32 := if c.getLsbD 0 then (c >>> 1) ^^^ 0xEDB88320#32 else c >>> 1

def crcByte (c : BitVec 32) (b : UInt8) : BitVec 32 := crcBit^[8] (c ^^^ b.toBitVec.setWidth 32)

/-- `crc32fast::hash`. -/
def crc32 (data : Bytes) : BitVec 32 := data.foldl crcByte 0xFFFFFFFF#32 ^^^ 0xFFFFFFFF#32

example : crc32 [49, 50, 51, 52, 53, 54, 55, 56, 57] = 0xCBF43926#32 := by decide +kernel

theorem xor_mask (a b mask : BitVec 32) : a ^^^ mask ^^^ (b ^^^ mask) = a ^^^ b := by
  rw [BitVec.xor_comm b, ← BitVec.xor_assoc, BitVec.xor_assoc a, BitVec.xor_self, BitVec.xor_zero]

theorem crcBit_xor (a b : BitVec 32) : crcBit (a ^^^ b) = crcBit a ^^^ crcBit b := by
  unfold crcBit
  rw [BitVec.getLsbD_xor, BitVec.ushiftRight_xor_distrib]
  cases a.getLsbD 0 <;> cases b.getLsbD 0
  · rfl
  · exact BitVec.xor_assoc ..
  · show a >>> 1 ^^^ b >>> 1 ^^^ 0xEDB88320#32 = a >>> 1 ^^^ 0xEDB88320#32 ^^^ b >>> 1
    rw [BitVec.xor_assoc, BitVec.xor_comm (b >>> 1), BitVec.xor_assoc]
  · exact (xor_mask ..).symm

theorem iterate_crcBit_xor (n : Nat) (a b : BitVec 32) :
    crcBit^[n] (a ^^^ b) = crcBit^[n] a ^^^ crcBit^[n] b := by
  induction n with
  | zero => rfl
  | succ n ih => simp only [Function.iterate_succ_apply', ih, crcBit_xor]

theorem foldl_crcByte_xor (data : Bytes) (s t : BitVec 32) :
    data.foldl crcByte s ^^^ data.foldl crcByte t = crcBit^[8 * data.length] (s ^^^ t) := by
  induction data generalizing s t with
  | nil => rfl
  | cons b data ih =>
    have hbyte : crcByte s b ^^^ crcByte t b = crcBit^[8] (s ^^^ t) := by
      unfold crcByte
      rw [← iterate_crcBit_xor, xor_mask]
    rw [List.foldl_cons, List.foldl_cons, ih, hbyte, List.length_cons, Nat.mul_succ,
      Function.iterate_add_apply]

theorem crc32_xor (before after : Bytes) (x y : UInt8) :
    crc32 (before ++ x :: after) ^^^ crc32 (before ++ y :: after) =
      crcBit^[8 * (after.length + 1)] ((x ^^^ y).toBitVec.setWidth 32) := by
  have hbyte : ∀ s : BitVec 32,
      crcByte s x ^^^ crcByte s y = crcBit^[8] ((x ^^^ y).toBitVec.setWidth 32) := by
    intro s
    unfold crcByte
    rw [← iterate_crcBit_xor, BitVec.xor_comm s, BitVec.xor_comm s, xor_mask, UInt8.toBitVec_xor,
      BitVec.setWidth_xor]
  rw [crc32, crc32, xor_mask, List.foldl_append, List.foldl_append, List.foldl_cons, List.foldl_cons,
    foldl_crcByte_xor, hbyte, Nat.mul_succ, Function.iterate_add_apply]

/-! ## Codes -/

def codeSymbol (i : Nat) : Char := codeAlphabet.getD i '2'

def checkSymbol (data : List Char) : Char :=
  codeSymbol ((crc32 (data.map fun c => c.toNat.toUInt8)).toNat % 32)

namespace PairingCode

/-- `generate`, with what is drawn for the five symbols. -/
def generate (draws : Vector UInt32 5) : List Char :=
  let chars := draws.toList.map fun d => codeSymbol (d &&& 31).toNat
  chars ++ [checkSymbol chars]

def verify (input : List Char) : Bool :=
  let code := codeKey input
  if code.length ≠ 6 ∨ ¬ code.all (· ∈ codeAlphabet) then false
  else checkSymbol (code.take 5) = code.getD 5 '2'

end PairingCode

theorem codeSymbol_mem {i : Nat} (h : i < 32) : codeSymbol i ∈ codeAlphabet := by
  have hall : ∀ i < 32, codeSymbol i ∈ codeAlphabet := by decide
  exact hall i h

theorem codeSymbol_eq_iff {i j : Nat} (hi : i < 32) (hj : j < 32) : codeSymbol i = codeSymbol j ↔ i = j := by
  have hall : ∀ i < 32, ∀ j < 32, codeSymbol i = codeSymbol j → i = j := by decide +kernel
  exact ⟨hall i hi j hj, congrArg _⟩

/-- A property of the symbols is checked index by index. -/
theorem forall_symbol {P : Char → Prop} (h : ∀ i < 32, P (codeSymbol i)) : ∀ c ∈ codeAlphabet, P c := by
  intro c hc
  obtain ⟨i, hi, rfl⟩ := List.mem_iff_getElem.1 hc
  simpa [codeSymbol, hi] using h i hi

theorem codeKey_of_symbols {code : List Char} (h : ∀ c ∈ code, c ∈ codeAlphabet) : codeKey code = code := by
  have hsymbol : ∀ c ∈ codeAlphabet, isWhitespace c = false ∧ (c ≠ '-' ∧ c ≠ ' ') ∧
      toAsciiUppercase c = c := forall_symbol (by decide +kernel)
  have hdrop : ∀ l : List Char, (∀ c ∈ l, c ∈ codeAlphabet) → l.dropWhile isWhitespace = l := by
    intro l hl
    cases l with
    | nil => rfl
    | cons c => exact List.dropWhile_cons_of_neg (by simp [hsymbol c (hl c (List.mem_cons_self ..))])
  have htrim : trimChars code = code := by
    rw [trimChars, hdrop code h, hdrop _ (by simpa using h), List.reverse_reverse]
  rw [codeKey, htrim, List.filter_eq_self.2 fun c hc => by simpa using (hsymbol c (h c hc)).2.1]
  exact (List.map_congr_left fun c hc => (hsymbol c (h c hc)).2.2).trans (List.map_id' code)

/-! ## What the check symbol sees -/

/-- The exclusive ors of two symbols at a place that leave the check symbol as it is. -/
def missed : Nat → List Nat
  | 0 => [0x02, 0x04, 0x06]
  | 1 => [0x3b, 0x4d, 0x76]
  | 2 => [0x20, 0x40, 0x60]
  | 3 => [0x22, 0x45, 0x67]
  | 4 => [0x19, 0x2b, 0x32]
  | _ => []

theorem iterate_crcBit_mod {i d : Nat} (hi : i < 5) (hd : d < 128) (hne : d ≠ 0) :
    (crcBit^[8 * (4 - i + 1)] (BitVec.ofNat 32 d)).toNat % 32 = 0 ↔ d ∈ missed i := by
  have hall : ∀ i < 5, ∀ d < 128, d ≠ 0 →
      ((crcBit^[8 * (4 - i + 1)] (BitVec.ofNat 32 d)).toNat % 32 = 0 ↔ d ∈ missed i) := by
    decide +kernel
  exact hall i hi d hd hne

theorem checkSymbol_eq_iff (before after : List Char) {x y : Char} (hlen : before.length + after.length = 4)
    (hx : x ∈ codeAlphabet) (hy : y ∈ codeAlphabet) (hne : x ≠ y) :
    checkSymbol (before ++ x :: after) = checkSymbol (before ++ y :: after) ↔
      x.toNat ^^^ y.toNat ∈ missed before.length := by
  have hbyte : ∀ x ∈ codeAlphabet, ∀ y ∈ codeAlphabet, x.toNat < 2 ^ 7 ∧
      (x.toNat.toUInt8 ^^^ y.toNat.toUInt8).toBitVec.setWidth 32 = BitVec.ofNat 32 (x.toNat ^^^ y.toNat) := by
    have hall : ∀ i < 32, ∀ j < 32, (codeSymbol i).toNat < 2 ^ 7 ∧
        ((codeSymbol i).toNat.toUInt8 ^^^ (codeSymbol j).toNat.toUInt8).toBitVec.setWidth 32 =
          BitVec.ofNat 32 ((codeSymbol i).toNat ^^^ (codeSymbol j).toNat) := by decide +kernel
    exact forall_symbol fun i hi => forall_symbol (hall i hi)
  have hxor : x.toNat ^^^ y.toNat ≠ 0 := fun h => hne (Char.toNat_inj.1 (Nat.xor_eq_zero_iff.1 h))
  have hlt : x.toNat ^^^ y.toNat < 128 := Nat.xor_lt_two_pow (hbyte x hx y hy).1 (hbyte y hy x hx).1
  have hcrc := crc32_xor (before.map fun c => c.toNat.toUInt8) (after.map fun c => c.toNat.toUInt8)
    x.toNat.toUInt8 y.toNat.toUInt8
  rw [(hbyte x hx y hy).2, List.length_map, show after.length = 4 - before.length by omega] at hcrc
  rw [← iterate_crcBit_mod (by omega) hlt hxor, ← hcrc, checkSymbol, checkSymbol,
    codeSymbol_eq_iff (Nat.mod_lt _ (by decide)) (Nat.mod_lt _ (by decide)), List.map_append,
    List.map_append]
  show _ ↔ (_ ^^^ _) % 2 ^ 5 = 0
  rw [Nat.xor_mod_two_pow]
  exact Nat.xor_eq_zero_iff.symm

namespace PairingCode

theorem verify_append {data : List Char} {c : Char} (hlen : data.length = 5)
    (h : ∀ c' ∈ data ++ [c], c' ∈ codeAlphabet) : verify (data ++ [c]) = decide (checkSymbol data = c) := by
  have hok : ¬ ((data ++ [c]).length ≠ 6 ∨ ¬ (data ++ [c]).all (· ∈ codeAlphabet)) := by
    rw [not_or, not_not, not_not, List.all_eq_true]
    exact ⟨by simp [hlen], fun c' hc' => decide_eq_true (h c' hc')⟩
  unfold verify
  rw [codeKey_of_symbols h, if_neg hok, List.take_left' hlen, List.getD_eq_getElem?_getD,
    List.getElem?_append_right hlen.le, hlen]
  rfl

/-- A code with one symbol replaced is refused, unless the place does not see the two symbols. -/
theorem verify_typo_iff (draws : Vector UInt32 5) {i : Nat} {old new : Char}
    (hold : (generate draws)[i]? = some old) (hnew : new ∈ codeAlphabet) (hne : old ≠ new) :
    verify ((generate draws).set i new) = false ↔ old.toNat ^^^ new.toNat ∉ missed i := by
  obtain ⟨data, hdata, hlen, hcode⟩ : ∃ data : List Char, (∀ c ∈ data, c ∈ codeAlphabet) ∧
      data.length = 5 ∧ generate draws = data ++ [checkSymbol data] := by
    refine ⟨_, fun c hc => ?_, by simp, rfl⟩
    obtain ⟨d, -, rfl⟩ := List.mem_map.1 hc
    exact codeSymbol_mem (by rw [UInt32.toNat_and]; exact Nat.and_lt_two_pow _ (by decide : 31 < 2 ^ 5))
  have hcheck : checkSymbol data ∈ codeAlphabet := codeSymbol_mem (Nat.mod_lt _ (by decide))
  rw [hcode] at hold ⊢
  have hsymbols : ∀ c ∈ (data ++ [checkSymbol data]).set i new, c ∈ codeAlphabet := by
    intro c hc
    rcases List.mem_or_eq_of_mem_set hc with hc | rfl
    · exact (List.mem_append.1 hc).elim (hdata c) fun hc => List.mem_singleton.1 hc ▸ hcheck
    · exact hnew
  by_cases hi : i < 5
  · -- the check symbol stays, and is compared with that of the other symbols
    have hdrop : data = data.take i ++ old :: data.drop (i + 1) := by
      rw [List.getElem?_append_left (by omega)] at hold
      obtain ⟨h, rfl⟩ := List.getElem?_eq_some_iff.1 hold
      rw [List.getElem_cons_drop, List.take_append_drop]
    have hset : data.set i new = data.take i ++ new :: data.drop (i + 1) :=
      List.set_eq_take_append_cons_drop.trans (if_pos (by omega))
    have holdmem : old ∈ codeAlphabet := hdata old (by rw [hdrop]; simp)
    have hplace : (data.take i).length = i := by simp; omega
    have hcases := checkSymbol_eq_iff (data.take i) (data.drop (i + 1)) (by simp; omega) holdmem hnew hne
    rw [hplace, ← hdrop, ← hset] at hcases
    rw [List.set_append_left _ _ (by omega)] at hsymbols ⊢
    rw [verify_append (by simpa using hlen) hsymbols, ← hcases, decide_eq_false_iff_not, eq_comm]
  · -- the check symbol itself was replaced
    have hlast : i = 5 ∧ old = checkSymbol data := by
      rw [List.getElem?_append_right (by omega), hlen] at hold
      obtain ⟨h, rfl⟩ := List.getElem?_eq_some_iff.1 hold
      exact ⟨by simp at h; omega, by simp⟩
    obtain ⟨rfl, rfl⟩ := hlast
    rw [List.set_append_right _ _ hlen.le, hlen] at hsymbols ⊢
    rw [List.set_cons_zero] at hsymbols ⊢
    rw [verify_append hlen hsymbols]
    simp [missed, hne]

theorem verify_typo_last : verify ((generate (.replicate 5 0)).set 4 'A') = false :=
  (@verify_typo_iff (.replicate 5 0) 4 '2' 'A' (by decide +kernel) (by decide) (by decide)).2 (by decide)

/-- The first symbol of the code `22222` mistyped as a 4. -/
theorem verify_typo_missed : verify ((generate (.replicate 5 0)).set 0 '4') = true ∧
    (generate (.replicate 5 0))[0]? = some '2' := by
  decide +kernel

end PairingCode

end Ferry
