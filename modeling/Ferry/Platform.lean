import Mathlib.Data.List.DropRight
import Ferry.Store.Manifest

/-! # Platform rules

File times, link targets and names, as every platform has to agree on them. A
`SystemTime` is the number of nanoseconds since the epoch.
-/

namespace Ferry

/-! ## File times -/

/-- The instant a pair of seconds and nanoseconds means. -/
def unixNanos (sec : Int) (nsec : Nat) : Int := sec * 1000000000 + nsec

def splitUnix (t : Int) : Int × Nat :=
  if 0 ≤ t then (t / 1000000000, (t % 1000000000).toNat)
  else
    let d := -t
    if d % 1000000000 = 0 then (-(d / 1000000000), 0)
    else (-(d / 1000000000) - 1, (1000000000 - d % 1000000000).toNat)

/-- `total as u64` keeps the low 64 bits of the nanosecond count. -/
def joinUnix (sec : Int) (nsec : Nat) : Int :=
  let total := unixNanos sec nsec
  if 0 ≤ total then total % 2 ^ 64 else -((-total) % 2 ^ 64)

theorem splitUnix_eq_iff {t sec : Int} {nsec : Nat} (h : nsec ≤ 999999999) :
    splitUnix t = (sec, nsec) ↔ t = unixNanos sec nsec := by
  unfold splitUnix unixNanos
  dsimp only
  split_ifs <;> simp only [Prod.mk.injEq] <;> omega

/-- The nanosecond count fits the 64 bits that `join_unix` keeps. -/
def TimeFits (sec : Int) (nsec : Nat) : Prop :=
  -2 ^ 64 < unixNanos sec nsec ∧ unixNanos sec nsec < 2 ^ 64

instance (sec : Int) (nsec : Nat) : Decidable (TimeFits sec nsec) := inferInstanceAs (Decidable (_ ∧ _))

theorem joinUnix_eq_iff {sec : Int} {nsec : Nat} :
    joinUnix sec nsec = unixNanos sec nsec ↔ TimeFits sec nsec := by
  unfold joinUnix TimeFits
  dsimp only
  split_ifs <;> omega

/-- Times survive the conversion, and keep their order, just when the nanosecond counts fit. -/
theorem splitUnix_joinUnix_iff {sec sec' : Int} {nsec nsec' : Nat} (h : nsec ≤ 999999999)
    (h' : nsec' ≤ 999999999) :
    (splitUnix (joinUnix sec nsec) = (sec, nsec) ∧ splitUnix (joinUnix sec' nsec') = (sec', nsec') ∧
      (sec < sec' ∨ (sec = sec' ∧ nsec < nsec') → joinUnix sec nsec < joinUnix sec' nsec')) ↔
      TimeFits sec nsec ∧ TimeFits sec' nsec' := by
  rw [splitUnix_eq_iff h, splitUnix_eq_iff h', joinUnix_eq_iff, joinUnix_eq_iff, ← and_assoc,
    and_iff_left_iff_imp]
  rintro ⟨hfits, hfits'⟩ hlt
  rw [joinUnix_eq_iff.2 hfits, joinUnix_eq_iff.2 hfits', unixNanos, unixNanos]
  omega

theorem splitUnix_joinUnix_epoch : splitUnix (joinUnix (-1) 999999999) = (-1, 999999999) ∧
    splitUnix (joinUnix 0 0) = (0, 0) ∧ joinUnix (-1) 999999999 < joinUnix 0 0 := by
  have hkept := (@splitUnix_joinUnix_iff (-1) 0 999999999 0
    (by decide) (by decide)).2 (by decide)
  exact ⟨hkept.1, hkept.2.1, hkept.2.2 (by decide)⟩

/-- A second in the year 2554, where the count passes 64 bits: the time that is read back is in 1970,
and earlier than that of the second before. -/
theorem splitUnix_joinUnix_wraps : splitUnix (joinUnix 18446744074 0) = (0, 290448384) ∧
    joinUnix 18446744074 0 < joinUnix 18446744073 0 := by
  decide

/-! ## Link targets -/

inductive LinkRefusal where
  | absoluteTarget
  | escapesRoot
  deriving DecidableEq, Repr

inductive LinkDecision where
  | syncAsLink
  | refuse (reason : LinkRefusal)
  deriving DecidableEq, Repr

/-- The loop over the target's components with the depth reached so far. -/
def classifyComponents : Int → List (List Char) → LinkDecision
  | _, [] => .syncAsLink
  | cur, comp :: rest =>
    if comp = [] ∨ comp = ['.'] then classifyComponents cur rest
    else if comp = ['.', '.'] then
      if cur - 1 < 0 then .refuse .escapesRoot else classifyComponents (cur - 1) rest
    else classifyComponents (cur + 1) rest

/-- `b.len() >= 2 && b[1] == b':' && b[0].is_ascii_alphabetic()`; a first byte
that is a letter is a whole character. -/
def hasDrive : List Char → Bool
  | c :: ':' :: _ => c.isAlpha
  | _ => false

def classifyLink (depth : Nat) (target : String) : LinkDecision :=
  match target.toList with
  | '/' :: _ => .refuse .absoluteTarget
  | '\\' :: _ => .refuse .absoluteTarget
  | cs =>
    if hasDrive cs then .refuse .absoluteTarget
    else classifyComponents depth (cs.splitOnP fun c => c == '/' || c == '\\')

/-! ## Names -/

def reserved : List String :=
  ["CON", "PRN", "AUX", "NUL", "COM1", "COM2", "COM3", "COM4", "COM5", "COM6", "COM7", "COM8",
   "COM9", "LPT1", "LPT2", "LPT3", "LPT4", "LPT5", "LPT6", "LPT7", "LPT8", "LPT9"]

def isReservedDeviceName (component : String) : Bool :=
  let base := component.toList.takeWhile (· != '.')
  let base := base.rdropWhile (fun c => c == ' ' || c == '.')
  reserved.any fun r => base.map Char.toUpper == r.toList

/-- `fold_key`: normalized, lowercased, with the final sigma unified. -/
def foldKey [Env] (name : String) : String :=
  String.ofList ((Env.toLowercase (Env.nfc name)).toList.map fun c => if c = 'ς' then 'σ' else c)

end Ferry
