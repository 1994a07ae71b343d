import Mathlib.Data.UInt
import Ferry.Lib.Cuts
import Ferry.Store.Format

/-! # Content-defined chunking

A file is cut where a rolling fingerprint of its last 64 bytes has 20 zero bits,
but not before a chunk has 512 KiB and at the latest when it has 8 MiB. The
fingerprint is the remainder of the bytes, read as a polynomial over the field of
two elements, by an irreducible polynomial of degree 53 that belongs to the folder.
-/

namespace Ferry

open Lib

def windowSize : Nat := 64

instance : NeZero windowSize := ⟨by decide⟩

def minSize : Nat := 524288

def splitMask : UInt64 := 2 ^ 20 - 1

def maxSize : Nat := 8388608

def polyDegreeBound : Nat := 53

def slideOutX : Nat := 504

/-! ## Polynomials over the field of two elements -/

def polyDegree (v : UInt64) : Option Nat := if v = 0 then none else some v.toNat.log2

/-- The loop of `gf_mul` over the bits of `b`, from bit `i` on. -/
def gfMulFrom (a b : UInt64) : Nat → Nat → UInt64 → UInt64
  | 0, _, acc => acc
  | rounds + 1, i, acc =>
    gfMulFrom a b rounds (i + 1) (if b.toNat.testBit i then acc ^^^ (a <<< i.toUInt64) else acc)

def gfMul (a b : UInt64) : UInt64 := gfMulFrom a b 64 0 0

/-- The loop of `gf_mod_deg`; each round clears the leading bit, so 64 of them are enough. -/
def gfModLoop (p : UInt64) (d : Nat) : Nat → UInt64 → UInt64
  | 0, v => v
  | rounds + 1, v =>
    match polyDegree v with
    | none => v
    | some dv => if dv < d then v else gfModLoop p d rounds (v ^^^ (p <<< (dv - d).toUInt64))

def gfModDeg (v p : UInt64) (d : Nat) : UInt64 := gfModLoop p d 64 v

def gfMod (v p : UInt64) : UInt64 := gfModDeg v p polyDegreeBound

/-- The loop of `mulmod_deg` over the bits below `i`, the highest first. -/
def mulmodLoop (a b p : UInt64) (d : Nat) : Nat → UInt64 → UInt64
  | 0, acc => acc
  | i + 1, acc =>
    let acc := gfModDeg (acc <<< 1) p d
    mulmodLoop a b p d i (if b.toNat.testBit i then acc ^^^ a else acc)

def gfMulmod (a b p : UInt64) : UInt64 :=
  mulmodLoop (gfModDeg a p polyDegreeBound) b p polyDegreeBound ((polyDegree b).getD 0 + 1) 0

def gfPowX (n : Nat) (p : UInt64) : UInt64 := (fun v => gfModDeg (v <<< 1) p polyDegreeBound)^[n] 1

def countOnes (v : UInt64) : Nat := ((List.range 64).filter v.toNat.testBit).length

def isIrreducible (p : UInt64) : Bool :=
  if p >>> polyDegreeBound.toUInt64 ≠ 1 then false
  else if p &&& 1 = 0 ∨ countOnes p % 2 = 0 then false
  else (fun g => gfMulmod g g p)^[polyDegreeBound] 2 = 2

/-- `generate_polynomial` on the numbers it draws; `none` if it has to draw more. -/
def generatePolynomial : List UInt64 → Option UInt64
  | [] => none
  | draw :: draws =>
    let candidate := (draw &&& (2 ^ 53 - 1)) ||| 2 ^ 53
    if isIrreducible candidate then some candidate else generatePolynomial draws

structure PolynomialError where
  poly : UInt64
  deriving DecidableEq

structure ValidatedPoly where
  get : UInt64
  irreducible : isIrreducible get

/-! ## The chunker -/

structure Chunker where
  poly : UInt64
  win : Vector UInt8 windowSize
  wpos : Fin windowSize
  filled : Nat
  fp : UInt64
  len : Nat

/-- `derived_tables(p).out_table`; that the tables are kept for later is left out. -/
def outTable (p : UInt64) (out : UInt8) : UInt64 :=
  gfMod (gfMul out.toUInt64 (gfPowX slideOutX p)) p

namespace Chunker

def start (p : UInt64) : Chunker := ⟨p, .replicate windowSize 0, 0, 0, 0, 0⟩

def new (p : UInt64) : Except PolynomialError Chunker :=
  if isIrreducible p then .ok (start p) else .error ⟨p⟩

def reset (c : Chunker) : Chunker := start c.poly

def append (c : Chunker) (b : UInt8) : Chunker :=
  if c.filled < windowSize then
    { c with
      win := c.win.set c.wpos b
      wpos := c.wpos + 1
      filled := c.filled + 1
      fp := gfMod ((c.fp <<< 8) ||| b.toUInt64) c.poly }
  else
    { c with
      win := c.win.set c.wpos b
      wpos := c.wpos + 1
      fp := gfMod (((c.fp ^^^ outTable c.poly c.win[c.wpos]) <<< 8) ||| b.toUInt64) c.poly }

inductive Cut where
  | natural
  | max
  deriving DecidableEq

def cutAtThisByte (c : Chunker) : Option Cut :=
  if minSize ≤ c.len ∧ c.fp &&& splitMask = 0 then some .natural
  else if c.len = maxSize then some .max
  else none

def push (c : Chunker) (b : UInt8) : Chunker × Option Nat :=
  let c := c.append b
  let c := { c with len := c.len + 1 }
  match c.cutAtThisByte with
  | some _ => (c.reset, some c.len)
  | none => (c, none)

def feed (c : Chunker) (data : Bytes) : Chunker × List Nat := Lib.feed push c data

/-- `finish`. -/
def pendingLen (c : Chunker) : Nat := c.len

end Chunker

/-- Each length with the place where it starts. -/
def offsetsFrom : Nat → List Nat → List (Nat × Nat)
  | _, [] => []
  | start, len :: lens => (start, len) :: offsetsFrom (start + len) lens

def withTail (lens : List Nat) (tail : Nat) : List Nat := if 0 < tail then lens ++ [tail] else lens

def chunkOffsets (poly : UInt64) (data : Bytes) : Except PolynomialError (List (Nat × Nat)) := do
  let c ← Chunker.new poly
  let (c, lens) := c.feed data
  return offsetsFrom 0 (withTail lens c.pendingLen)

def chunk (poly : UInt64) (data : Bytes) : Except PolynomialError (List Bytes) := do
  let offsets ← chunkOffsets poly data
  return offsets.map fun o => (data.drop o.1).take o.2

/-! ## What one byte does -/

namespace Chunker

@[simp] theorem len_append (c : Chunker) (b : UInt8) : (c.append b).len = c.len := by
  unfold append
  split <;> rfl

@[simp] theorem poly_append (c : Chunker) (b : UInt8) : (c.append b).poly = c.poly := by
  unfold append
  split <;> rfl

/-- A chunk ends where the low 20 bits of the fingerprint are zero, or at its greatest length. -/
theorem push_eq (c : Chunker) (b : UInt8) : c.push b =
    if minSize ≤ c.len + 1 ∧ (c.append b).fp &&& splitMask = 0 ∨ c.len + 1 = maxSize then
      (.start c.poly, some (c.len + 1)) else ({ c.append b with len := c.len + 1 }, none) := by
  unfold push cutAtThisByte reset
  simp only [len_append, poly_append]
  by_cases hnatural : minSize ≤ c.len + 1 ∧ (c.append b).fp &&& splitMask = 0
  · rw [if_pos hnatural, if_pos (.inl hnatural)]
  · rw [if_neg hnatural]
    by_cases hmax : c.len + 1 = maxSize
    · rw [if_pos hmax, if_pos (.inr hmax)]
    · rw [if_neg hmax, if_neg (not_or_intro hnatural hmax)]

theorem push_snd_eq_some {c : Chunker} {b : UInt8} {n : Nat} (h : (c.push b).2 = some n) :
    n = c.len + 1 ∧ (c.push b).1 = c.reset ∧ (minSize ≤ n ∨ n = maxSize) := by
  rw [push_eq] at h ⊢
  split at h
  · rename_i hcut
    cases h
    rw [if_pos hcut]
    exact ⟨rfl, rfl, hcut.imp_left And.left⟩
  · cases h

theorem push_snd_eq_none {c : Chunker} {b : UInt8} (h : (c.push b).2 = none) :
    (c.push b).1.len = c.len + 1 ∧ c.len + 1 ≠ maxSize := by
  rw [push_eq] at h ⊢
  split at h
  · cases h
  · rename_i hcut
    rw [if_neg hcut]
    exact ⟨rfl, fun hmax => hcut (.inr hmax)⟩

theorem poly_push (c : Chunker) (b : UInt8) : (c.push b).1.poly = c.poly := by
  rw [push_eq]
  split
  · rfl
  · exact c.poly_append b

theorem counts : Counts push pendingLen where
  goesOn _ _ h := (push_snd_eq_none h).1
  cuts _ _ _ h := ⟨(push_snd_eq_some h).1, by rw [(push_snd_eq_some h).2.1]; rfl⟩

/-- The run lemma for the lengths of the pieces. -/
theorem feed_sizes (p : UInt64) (data : Bytes) : ((start p).feed data).1.pendingLen < maxSize ∧
      ∀ n ∈ ((start p).feed data).2, minSize ≤ n ∧ n ≤ maxSize := by
  have hstart : 0 < maxSize := by decide
  have hstep : ∀ (c : Chunker) b, c.pendingLen < maxSize → (c.push b).1.pendingLen < maxSize ∧
      ∀ n, (c.push b).2 = some n → minSize ≤ n ∧ n ≤ maxSize := by
    intro c b hc
    have hc' : c.len < maxSize := hc
    cases hcut : (c.push b).2 with
    | none =>
      obtain ⟨hlen, hmax⟩ := push_snd_eq_none hcut
      refine ⟨?_, fun n hn => nomatch hn⟩
      show (c.push b).1.len < maxSize
      omega
    | some =>
      obtain ⟨hn, hreset, hsize⟩ := push_snd_eq_some hcut
      refine ⟨?_, fun m hm => ?_⟩
      · rw [hreset]
        exact hstart
      · cases hm
        have hmin : minSize ≤ maxSize := by decide
        omega
  exact feed_rule hstep (s := start p) hstart data

end Chunker

/-! ## The chunks of a string -/

theorem slices_offsetsFrom (data : Bytes) (start : Nat) (lens : List Nat) :
    (offsetsFrom start lens).map (fun o => (data.drop o.1).take o.2) = (cutAt lens (data.drop start)).1 := by
  induction lens generalizing start with
  | nil => rfl
  | cons len lens ih => rw [offsetsFrom, List.map_cons, ih, cutAt, List.drop_drop]

namespace ValidatedPoly

/-- The chunks of a string, by the lengths that the chunker reports. -/
def chunks (p : ValidatedPoly) (data : Bytes) : List Bytes :=
  let (c, lens) := (Chunker.start p.get).feed data
  (cutAt lens data).1 ++ if 0 < c.pendingLen then [(cutAt lens data).2] else []

theorem new_eq (p : ValidatedPoly) : Chunker.new p.get = .ok (.start p.get) := if_pos p.irreducible

theorem feed_fits (p : ValidatedPoly) (data : Bytes) : ((Chunker.start p.get).feed data).2.sum ≤ data.length ∧
      (cutAt ((Chunker.start p.get).feed data).2 data).2.length =
        ((Chunker.start p.get).feed data).1.pendingLen := by
  have hsum : ((Chunker.start p.get).feed data).2.sum +
      ((Chunker.start p.get).feed data).1.pendingLen = data.length := by
    have := Chunker.counts.sum_feed (Chunker.start p.get) data
    rwa [show (Chunker.start p.get).pendingLen = 0 from rfl, Nat.zero_add] at this
  have hle : ((Chunker.start p.get).feed data).2.sum ≤ data.length := by omega
  have hparts := congrArg List.length (flatten_cutAt ((Chunker.start p.get).feed data).2 data)
  rw [List.length_append, List.length_flatten, lengths_cutAt hle] at hparts
  omega

theorem chunk_eq (p : ValidatedPoly) (data : Bytes) : chunk p.get data = .ok (p.chunks data) := by
  have hoffsets : chunkOffsets p.get data = .ok (offsetsFrom 0 (withTail
      ((Chunker.start p.get).feed data).2 ((Chunker.start p.get).feed data).1.pendingLen)) := by
    rw [chunkOffsets, p.new_eq]
    rfl
  have htail := (p.feed_fits data).2
  unfold chunk
  rw [hoffsets]
  show Except.ok _ = _
  rw [slices_offsetsFrom, List.drop_zero, chunks]
  dsimp only
  unfold withTail
  split
  · rw [cutAt_append_lengths, cutAt, ← htail, List.take_length]
    rfl
  · rw [List.append_nil]

/-- The chunks tile the string; none is longer than 8 MiB, and only the last may be shorter than
512 KiB. -/
structure Tiles (pieces : List Bytes) (data : Bytes) : Prop where
  flatten : pieces.flatten = data
  nonempty : ∀ piece ∈ pieces, piece ≠ []
  max : ∀ piece ∈ pieces, piece.length ≤ maxSize
  min : ∀ piece ∈ pieces.dropLast, minSize ≤ piece.length

/-- The pieces are the data, cut. -/
theorem chunks_tiles (p : ValidatedPoly) (data : Bytes) : Tiles (p.chunks data) data := by
  obtain ⟨hle, htail⟩ := p.feed_fits data
  obtain ⟨hpending, hsizes⟩ := Chunker.feed_sizes p.get data
  have hpieces : ∀ piece ∈ (cutAt ((Chunker.start p.get).feed data).2 data).1,
      minSize ≤ piece.length ∧ piece.length ≤ maxSize := by
    intro piece hmem
    refine hsizes piece.length ?_
    rw [← lengths_cutAt hle]
    exact List.mem_map_of_mem hmem
  have hne : ∀ piece ∈ (cutAt ((Chunker.start p.get).feed data).2 data).1, piece ≠ [] := by
    intro piece hmem hnil
    have hmin := (hpieces piece hmem).1
    rw [hnil] at hmin
    cases hmin
  have hparts := flatten_cutAt ((Chunker.start p.get).feed data).2 data
  unfold chunks
  dsimp only
  by_cases hpos : 0 < ((Chunker.start p.get).feed data).1.pendingLen
  · rw [if_pos hpos]
    refine ⟨by simpa using hparts, fun piece hmem => ?_, fun piece hmem => ?_, fun piece hmem => ?_⟩
    · rcases List.mem_append.1 hmem with hmem | hmem
      · exact hne piece hmem
      · rw [List.mem_singleton.1 hmem]
        exact List.ne_nil_of_length_pos (by omega)
    · rcases List.mem_append.1 hmem with hmem | hmem
      · exact (hpieces piece hmem).2
      · rw [List.mem_singleton.1 hmem]
        omega
    · rw [List.dropLast_concat] at hmem
      exact (hpieces piece hmem).1
  · rw [if_neg hpos, List.append_nil]
    have hnil : (cutAt ((Chunker.start p.get).feed data).2 data).2 = [] :=
      List.eq_nil_of_length_eq_zero (by omega)
    rw [hnil, List.append_nil] at hparts
    exact ⟨hparts, hne, fun piece hmem => (hpieces piece hmem).2,
      fun piece hmem => (hpieces piece (List.dropLast_subset _ hmem)).1⟩

theorem chunks_cons (p : ValidatedPoly) {data : Bytes} (hne : data ≠ []) :
    ∃ a rest, data = a ++ rest ∧ p.chunks data = a :: p.chunks rest := by
  have htail := (p.feed_fits data).2
  unfold chunks
  dsimp only
  cases hlens : ((Chunker.start p.get).feed data).2 with
  | nil =>
    rw [hlens, cutAt] at htail
    rw [if_pos (htail ▸ List.length_pos_iff.2 hne)]
    exact ⟨data, [], (List.append_nil data).symm, rfl⟩
  | cons n ns =>
    obtain ⟨a, rest, rfl, hlen, hrest⟩ := Chunker.counts.feed_cut .reset
      (fun _ _ _ h => (Chunker.push_snd_eq_some h).2.1)
      (fun c b _ => congrArg Chunker.start (c.poly_push b)) hlens
    have hrest' : (Chunker.start p.get).feed rest = (((Chunker.start p.get).feed (a ++ rest)).1, ns) := hrest
    have ha : a.length = n := (Nat.zero_add _).symm.trans hlen
    refine ⟨a, rest, rfl, ?_⟩
    rw [hrest', cutAt, ← ha, List.take_left, List.drop_left]
    rfl

/-- What follows the end of a chunk is cut as if it stood alone. -/
theorem chunk_suffix (p : ValidatedPoly) (data : Bytes) : ∃ pieces, chunk p.get data = .ok pieces ∧
    ∀ i, chunk p.get (pieces.drop i).flatten = .ok (pieces.drop i) := by
  refine ⟨_, p.chunk_eq data, fun i => ?_⟩
  rw [p.chunk_eq]
  induction i generalizing data with
  | zero => rw [List.drop_zero, (p.chunks_tiles data).flatten]
  | succ i ih =>
    by_cases hne : data = []
    · subst hne
      rfl
    · obtain ⟨a, rest, -, hchunks⟩ := p.chunks_cons hne
      rw [hchunks, List.drop_succ_cons]
      exact ih rest

end ValidatedPoly

end Ferry
