import Mathlib.Data.Set.Basic

/-! # Messages with ideal cryptography

Terms over public data and atoms nobody can guess, and what can be made from a
set of terms: whatever is paired can be taken apart, a MAC or a seal needs the
key, and a seal opens under the key only.
-/

namespace Ferry.Lib

inductive Term (α δ : Type) where
  | data (d : δ)
  /-- A random value. -/
  | atom (a : α)
  | pair (x y : Term α δ)
  | mac (key body : Term α δ)
  /-- A key derived from a secret. -/
  | derived (secret : Term α δ)
  | sealed (key aad body : Term α δ)

namespace Term

variable {α δ : Type}

/-- What someone can make who was sent the terms in `K`. -/
inductive Knows (K : Set (Term α δ)) : Term α δ → Prop
  | sent {t : Term α δ} : t ∈ K → Knows K t
  | data (d : δ) : Knows K (.data d)
  | pair {x y : Term α δ} : Knows K x → Knows K y → Knows K (.pair x y)
  | fst {x y : Term α δ} : Knows K (.pair x y) → Knows K x
  | snd {x y : Term α δ} : Knows K (.pair x y) → Knows K y
  | mac {key body : Term α δ} : Knows K key → Knows K body → Knows K (.mac key body)
  | derived {secret : Term α δ} : Knows K secret → Knows K (.derived secret)
  | sealed {key aad body : Term α δ} : Knows K key → Knows K aad → Knows K body →
      Knows K (.sealed key aad body)
  | opened {key aad body : Term α δ} : Knows K (.sealed key aad body) → Knows K key → Knows K body

end Term

end Ferry.Lib
