import Ferry.Platform

/-! # Where link targets lead

A link target is read lexically from the directory of the link: empty
components and `.` stay, `..` goes up, every other component goes down. How the
target falls into components depends on the platform, while `classify_link`
counts one way for all of them.
-/

namespace Ferry

/-! ## Lexical resolution -/

/-- The directory that `comps` lead to from `dir`, which is given by the names
below the root, innermost first; `none` once the root is left. -/
def resolveLexical : List (List Char) → List (List Char) → Option (List (List Char))
  | dir, [] => some dir
  | dir, comp :: rest =>
    if comp = [] ∨ comp = ['.'] then resolveLexical dir rest
    else if comp = ['.', '.'] then
      match dir with
      | [] => none
      | _ :: up => resolveLexical up rest
    else resolveLexical (comp :: dir) rest

def slashOnly (c : Char) : Bool := c == '/'

/-- The separators on Windows, which are those of `classify_link`. -/
def eitherSlash (c : Char) : Bool := c == '/' || c == '\\'

/-- Read with the separators `sep`, the target never leaves the root. -/
def StaysInside (sep : Char → Bool) (dir : List (List Char)) (target : String) : Prop :=
  resolveLexical dir (target.toList.splitOnP sep) ≠ none

instance (sep : Char → Bool) (dir : List (List Char)) (target : String) :
    Decidable (StaysInside sep dir target) := inferInstanceAs (Decidable (_ ≠ none))

/-- How far above their start the components climb at their highest point. -/
def climb : List (List Char) → Nat
  | [] => 0
  | comp :: rest =>
    if comp = [] ∨ comp = ['.'] then climb rest
    else if comp = ['.', '.'] then climb rest + 1
    else climb rest - 1

theorem resolveLexical_ne_none_iff {dir comps : List (List Char)} :
    resolveLexical dir comps ≠ none ↔ climb comps ≤ dir.length := by
  induction comps generalizing dir with
  | nil => simp [resolveLexical, climb]
  | cons comp rest ih =>
    simp only [resolveLexical, climb]
    split_ifs with hstay hup
    · exact ih
    · cases dir with
      | nil => simp
      | cons => simpa using ih
    · rw [ih, List.length_cons]
      omega

/-! ## What is accepted -/

theorem classifyComponents_eq_iff {d : Nat} {comps : List (List Char)} :
    classifyComponents d comps = .syncAsLink ↔ climb comps ≤ d := by
  induction comps generalizing d with
  | nil => simp [classifyComponents, climb]
  | cons comp rest ih =>
    simp only [classifyComponents, climb]
    split_ifs with hstay hup hneg
    · exact ih
    · have hzero : d = 0 := by omega
      simp [hzero]
    · obtain ⟨n, rfl⟩ : ∃ n, d = n + 1 := ⟨d - 1, by omega⟩
      have hcast : ((n + 1 : Nat) : Int) - 1 = (n : Nat) := by push_cast; omega
      rw [hcast, ih]
      omega
    · have hcast : (d : Int) + 1 = ((d + 1 : Nat) : Int) := by push_cast; rfl
      rw [hcast, ih]
      omega

/-- The targets that are refused before any component is looked at. -/
def AbsoluteTarget (target : String) : Prop :=
  target.toList.head? = some '/' ∨ target.toList.head? = some '\\' ∨ hasDrive target.toList = true

instance (target : String) : Decidable (AbsoluteTarget target) :=
  inferInstanceAs (Decidable (_ ∨ _))

/-- Accepted are the relative targets that never climb above the depth of the link. -/
theorem classifyLink_eq_iff {d : Nat} {target : String} :
    classifyLink d target = .syncAsLink ↔
      ¬ AbsoluteTarget target ∧ climb (target.toList.splitOnP eitherSlash) ≤ d := by
  unfold classifyLink AbsoluteTarget
  split
  · rename_i rest heq
    simp [heq]
  · rename_i rest heq
    simp [heq]
  · rename_i hslash hback
    have hhead : target.toList.head? ≠ some '/' ∧ target.toList.head? ≠ some '\\' := by
      cases htarget : target.toList with
      | nil => simp
      | cons c rest =>
        refine ⟨?_, ?_⟩
        · rintro ⟨⟩
          exact hslash rest htarget
        · rintro ⟨⟩
          exact hback rest htarget
    by_cases hdrive : hasDrive target.toList = true
    · simp [hdrive]
    · rw [if_neg hdrive, show (fun c : Char => c == '/' || c == '\\') = eitherSlash from rfl,
        classifyComponents_eq_iff]
      simp [hhead.1, hhead.2, hdrive]

/-! ## Two readings of one target -/

/-- Accepted targets stay inside under both readings, at every depth, exactly if
`/` alone lets the target climb no higher than both separators do. -/
theorem classifyLink_inside_iff (target : String) :
    (∀ dir : List (List Char), classifyLink dir.length target = .syncAsLink →
        StaysInside slashOnly dir target ∧ StaysInside eitherSlash dir target) ↔
      AbsoluteTarget target ∨ climb (target.toList.splitOnP slashOnly) ≤
        climb (target.toList.splitOnP eitherSlash) := by
  simp only [classifyLink_eq_iff, StaysInside, resolveLexical_ne_none_iff]
  constructor
  · intro h
    by_cases habs : AbsoluteTarget target
    · exact .inl habs
    · -- the shallowest directory from which the target is accepted
      have hshallow := h (List.replicate (climb (target.toList.splitOnP eitherSlash)) [])
        ⟨habs, by simp⟩
      exact .inr (by simpa using hshallow.1)
  · rintro (habs | hclimb) dir ⟨hrel, hdepth⟩
    · exact absurd habs hrel
    · exact ⟨hclimb.trans hdepth, hdepth⟩

/-- Two directories down and two up with both separators, but only one down with `/`. -/
theorem classifyLink_accepts_escape :
    classifyLink 0 "a\\b/../.." = .syncAsLink ∧ ¬ StaysInside slashOnly [] "a\\b/../.." := by
  decide

end Ferry
