import Mathlib.Algebra.Order.Ring.Int
import Mathlib.Data.List.Basic
import Mathlib.Order.Basic

/-! # Bytes, blob ids and the bounded reader

The on-disk vocabulary shared by manifests, tree nodes and packs: fixed-width
little-endian integers, 32-byte content ids and the cursor that every parser of
the store walks over a byte slice.
-/

namespace Ferry

abbrev Bytes := List UInt8

/-- `[u8; N]`. -/
abbrev ByteArr (n : Nat) := {b : Bytes // b.length = n}

abbrev BlobId := ByteArr 32

instance : LawfulBEq BlobId := inferInstance

/-- `[v; N]`, the Rust array literal with one repeated byte. -/
def ByteArr.fill (n : Nat) (v : UInt8) : ByteArr n := ⟨List.replicate n v, by simp⟩

/-- The all-zero id that stands for "none" in manifests and offers. -/
def zeroId : BlobId := ByteArr.fill 32 0

/-- Byte arrays compare lexicographically, as `Ord` does for `[u8; N]`. -/
def ByteArr.key {n : Nat} (a : ByteArr n) : List Nat := a.val.map UInt8.toNat

theorem ByteArr.key_injective {n : Nat} : Function.Injective (ByteArr.key (n := n)) := by
  intro a b h
  apply Subtype.ext
  exact List.map_injective_iff.2 (fun x y hxy => UInt8.toNat_inj.1 hxy) h

def hexDigit (n : Nat) : Char := Char.ofNat (if n < 10 then 48 + n else 87 + n)

/-- Two lowercase hexadecimal digits for each byte. -/
def hex (b : Bytes) : String :=
  String.ofList (b.flatMap fun x => [hexDigit (x.toNat / 16), hexDigit (x.toNat % 16)])

def hexValue (c : Char) : Option Nat :=
  if '0' ≤ c ∧ c ≤ '9' then some (c.toNat - 48)
  else if 'a' ≤ c ∧ c ≤ 'f' then some (c.toNat - 87)
  else if 'A' ≤ c ∧ c ≤ 'F' then some (c.toNat - 55)
  else none

def hexDecode : List Char → Option Bytes
  | [] => some []
  | [_] => none
  | hi :: lo :: rest => do
    let h ← hexValue hi
    let l ← hexValue lo
    let bytes ← hexDecode rest
    return UInt8.ofNat (16 * h + l) :: bytes

/-- `unhex::<N>`. -/
def unhex (n : Nat) (cs : List Char) : Option (ByteArr n) :=
  (hexDecode cs).bind fun bytes => if h : bytes.length = n then some ⟨bytes, h⟩ else none

inductive BlobKind where
  | dataChunk
  | treeNode
  | manifest
  | polynomial
  deriving DecidableEq, Repr

instance : LawfulBEq (BlobKind × BlobId) := inferInstance

inductive FormatError where
  | badMagic
  | unknownKind (kind : UInt8)
  | badVersion (found expected : Nat)
  | truncated (need have_ : Nat)
  | reservedNonzero
  deriving DecidableEq, Repr

/-! ## Little-endian integers -/

/-- The low `width` bytes of `v`, least significant first. -/
def leBytes : Nat → Nat → Bytes
  | 0, _ => []
  | width + 1, v => UInt8.ofNat (v % 256) :: leBytes width (v / 256)

def leNat : Bytes → Nat
  | [] => 0
  | b :: rest => b.toNat + 256 * leNat rest

@[simp] theorem leBytes_length (width v : Nat) : (leBytes width v).length = width := by
  induction width generalizing v with
  | zero => rfl
  | succ width ih => simp [leBytes, ih]

theorem leNat_leBytes (width v : Nat) (h : v < 256 ^ width) : leNat (leBytes width v) = v := by
  induction width generalizing v with
  | zero => simp at h; simp [leBytes, leNat, h]
  | succ width ih =>
    have hdiv : v / 256 < 256 ^ width := by
      rw [Nat.div_lt_iff_lt_mul (by omega)]
      rwa [Nat.pow_succ] at h
    have hmod : (UInt8.ofNat (v % 256)).toNat = v % 256 := by
      simp [UInt8.toNat_ofNat']
    simp only [leBytes, leNat, ih _ hdiv]
    omega

theorem leNat_lt (b : Bytes) : leNat b < 256 ^ b.length := by
  induction b with
  | nil => simp [leNat]
  | cons x =>
    have hx := x.toNat_lt
    simp only [leNat, List.length_cons]
    omega

/-- `i64::to_le_bytes` read as an unsigned word: two's complement. -/
def i64Word (v : Int) : Nat := (v % 2 ^ 64).toNat

/-- `i64::from_le_bytes` on the unsigned word. -/
def wordI64 (w : Nat) : Int := if w < 2 ^ 63 then (w : Int) else (w : Int) - 2 ^ 64

def I64Range (v : Int) : Prop := -2 ^ 63 ≤ v ∧ v < 2 ^ 63

instance (v : Int) : Decidable (I64Range v) := inferInstanceAs (Decidable (_ ∧ _))

theorem wordI64_i64Word (v : Int) (h : I64Range v) : wordI64 (i64Word v) = v := by
  unfold I64Range at h
  unfold wordI64 i64Word
  split <;> omega

theorem i64Word_lt (v : Int) : i64Word v < 256 ^ 8 := by
  unfold i64Word
  omega

def putU8 (out : Bytes) (v : UInt8) : Bytes := out ++ [v]
def putU32 (out : Bytes) (v : Nat) : Bytes := out ++ leBytes 4 v
def putU64 (out : Bytes) (v : Nat) : Bytes := out ++ leBytes 8 v
def putI64 (out : Bytes) (v : Int) : Bytes := out ++ leBytes 8 (i64Word v)
def putBytes (out v : Bytes) : Bytes := out ++ v

/-! ## The reader -/

structure Reader where
  buf : Bytes
  pos : Nat
  deriving DecidableEq, Repr

def Reader.new (buf : Bytes) : Reader := ⟨buf, 0⟩

/-- A parsing step: it moves the reader or fails. -/
abbrev Read (ε : Type) := StateT Reader (Except ε)

namespace Reader

/-- A slice is shorter than `usize::MAX`, so `checked_add` never overflows here. -/
def take (n : Nat) : Read FormatError Bytes := fun r =>
  if r.buf.length < r.pos + n then .error (.truncated (r.pos + n) r.buf.length)
  else .ok ((r.buf.drop r.pos).take n, { r with pos := r.pos + n })

def u8 : Read FormatError UInt8 := do return (← take 1).headD 0

def u32 : Read FormatError Nat := do return leNat (← take 4)

def u64 : Read FormatError Nat := do return leNat (← take 8)

def i64 : Read FormatError Int := do return wordI64 (leNat (← take 8))

/-- `take(N)` returns exactly `N` bytes, so the `try_into` cannot fail. -/
def array (n : Nat) : Read FormatError (ByteArr n) := fun r =>
  if h : r.buf.length < r.pos + n then .error (.truncated (r.pos + n) r.buf.length)
  else .ok (⟨(r.buf.drop r.pos).take n, by simp; omega⟩, { r with pos := r.pos + n })

def expectEnd : Read FormatError Unit := fun r =>
  if r.pos ≠ r.buf.length then .error (.truncated r.pos r.buf.length) else .ok ((), r)

end Reader

/-- `?` on a step whose error converts into the caller's error type. -/
def Read.mapError {ε ε' α : Type} (f : ε → ε') (m : Read ε α) : Read ε' α := fun r =>
  match m r with
  | .ok x => .ok x
  | .error e => .error (f e)

end Ferry
