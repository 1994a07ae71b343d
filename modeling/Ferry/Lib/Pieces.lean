import Mathlib.Data.List.Basic

/-! # Sequences cut into pieces

A sequence is cut into pieces of one width, the last one shorter; each piece is
replaced by something longer and the results stand one after the other. Then
the position of each of them is known from its number alone.
-/

namespace Ferry.Lib

open List

variable {B : Type}

def piece (w : Nat) (l : List B) (i : Nat) : List B := (l.drop (i * w)).take w

theorem length_piece (w : Nat) (l : List B) (i : Nat) : (piece w l i).length = min w (l.length - i * w) := by
  rw [piece, length_take, length_drop]

theorem min_piece_add (w n i count : Nat) :
    min w (n - i * w) + min (count * w) (n - (i + 1) * w) = min ((count + 1) * w) (n - i * w) := by
  rw [Nat.succ_mul, Nat.succ_mul]
  omega

theorem piece_append (w : Nat) (l : List B) (i count : Nat) :
    piece w l i ++ (l.drop ((i + 1) * w)).take (count * w) = (l.drop (i * w)).take ((count + 1) * w) := by
  rw [piece, Nat.succ_mul, Nat.succ_mul, Nat.add_comm (count * w), take_add, drop_drop]

theorem take_drop_take_drop (l : List B) {a b c n : Nat} (h : b + n ≤ c) :
    (((l.drop a).take c).drop b).take n = (l.drop (a + b)).take n := by
  rw [drop_take, take_take, drop_drop, Nat.min_eq_left (by omega)]

theorem mod_add_le_pieces {w : Nat} (hw : 0 < w) (off len : Nat) :
    off % w + len ≤ ((off + len - 1) / w + 1 - off / w) * w := by
  have hlast : off + len - 1 < ((off + len - 1) / w + 1) * w := by
    rw [Nat.mul_comm]
    exact Nat.lt_mul_div_succ _ hw
  have hfirst := Nat.div_add_mod off w
  rw [Nat.sub_mul, Nat.mul_comm (off / w)]
  omega

theorem lt_pieces_iff {w off len t : Nat} (hw : 0 < w) (hpos : 0 < off + len) (ht : off / w ≤ t) :
    t < off / w + ((off + len - 1) / w + 1 - off / w) ↔ t * w < off + len := by
  have hlast : t ≤ (off + len - 1) / w ↔ t * w ≤ off + len - 1 := Nat.le_div_iff_mul_le hw
  omega

theorem length_flatten_pieces {w t : Nat} {l : List B} {cs : List (List B)}
    (hlen : ∀ i (h : i < cs.length), (cs[i]).length = (piece w l i).length + t)
    (hall : l.length ≤ cs.length * w) : cs.flatten.length = l.length + t * cs.length := by
  induction cs generalizing l with
  | nil =>
    rw [length_nil, Nat.zero_mul] at hall
    simp [Nat.le_zero.1 hall]
  | cons c cs ih =>
    have hc := hlen 0 (Nat.succ_pos _)
    rw [getElem_cons_zero, length_piece] at hc
    rw [length_cons, Nat.succ_mul] at hall
    have hrest := @ih (l.drop w) (fun i hi => by
      have := hlen (i + 1) (Nat.succ_lt_succ hi)
      rw [getElem_cons_succ] at this
      rw [this, length_piece, length_piece, length_drop, Nat.succ_mul]
      omega) (by rw [length_drop]; omega)
    rw [length_drop] at hrest
    rw [flatten_cons, length_append, length_cons, Nat.mul_succ]
    omega

theorem take_drop_flatten {w : Nat} {cs : List (List B)} {i : Nat} (hi : i < cs.length)
    (hfull : ∀ j (h : j < cs.length), j < i → (cs[j]).length = w) (rest : List B) :
    ((cs.flatten ++ rest).drop (i * w)).take (cs[i]).length = cs[i] := by
  induction cs generalizing i with
  | nil => cases hi
  | cons c cs ih =>
    cases i with
    | zero => simp
    | succ =>
      have hc := hfull 0 (Nat.succ_pos _) (Nat.succ_pos _)
      rw [getElem_cons_zero] at hc
      have hrest := ih (Nat.lt_of_succ_lt_succ hi) fun j hj hlt =>
        hfull (j + 1) (Nat.succ_lt_succ hj) (Nat.succ_lt_succ hlt)
      rw [getElem_cons_succ, flatten_cons, append_assoc, Nat.succ_mul, Nat.add_comm,
        ← drop_drop, ← hc, drop_left, hc]
      exact hrest

end Ferry.Lib
