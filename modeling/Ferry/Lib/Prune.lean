import Ferry.Lib.PathTree

/-! # Walks that skip what a decision names

A walk over a tree asks a decision at every entry and leaves out the entry and
all that lies below it when the answer is yes. The decision may keep a state,
such as a cache, as long as its answers do not depend on it. A decision that
passes from a directory to what lies below it gives the same set when it is
asked of each path alone.
-/

namespace Ferry.Prune

open Lib List

variable {κ β σ α γ : Type}

/-! ## Answers that do not depend on the state -/

/-- From every state in `I` the computation answers `a`, and the state stays in `I`. -/
def Answers (I : σ → Prop) (x : StateM σ α) (a : α) : Prop :=
  ∀ s, I s → (x.run s).1 = a ∧ I (x.run s).2

namespace Answers

variable {I : σ → Prop} {x : StateM σ α} {a : α}

theorem value (h : Answers I x a) {s : σ} (hs : I s) : (x.run s).1 = a := (h s hs).1

theorem keeps (h : Answers I x a) {s : σ} (hs : I s) : I (x.run s).2 := (h s hs).2

theorem pure (a : α) : Answers I (Pure.pure a : StateM σ α) a := fun _ hs => ⟨rfl, hs⟩

theorem bind (h : Answers I x a) {f : α → StateM σ γ} {c : γ} (hf : Answers I (f a) c) :
    Answers I (x >>= f) c := by
  intro s hs
  obtain ⟨hval, hinv⟩ := h s hs
  have hrun : (x >>= f).run s = (f a).run (x.run s).2 := by
    rw [← hval]
    rfl
  rw [hrun]
  exact hf _ hinv

theorem foldlM {f : γ → α → StateM σ γ} {g : γ → α → γ} (h : ∀ c a, Answers I (f c a) (g c a))
    (l : List α) (c : γ) : Answers I (l.foldlM f c) (l.foldl g c) := by
  induction l generalizing c with
  | nil => exact .pure c
  | cons a l ih =>
    exact (h c a).bind (ih (g c a))

end Answers

/-! ## Trees -/

mutual

/-- A directory or something else, which carries a label. -/
inductive Node (κ β : Type)
  | leaf (label : β)
  | dir (kids : Forest κ β)

/-- The entries of a directory in the order they are listed. -/
inductive Forest (κ β : Type)
  | nil
  | cons (name : κ) (node : Node κ β) (rest : Forest κ β)

end

/-- An entry with its path; a directory has no label. -/
structure Entry (κ β : Type) where
  path : List κ
  label : Option β
deriving DecidableEq

def Entry.isDir (e : Entry κ β) : Bool := e.label.isNone

mutual

def Node.entries (path : List κ) : Node κ β → List (Entry κ β)
  | .leaf label => [⟨path, some label⟩]
  | .dir kids => ⟨path, none⟩ :: kids.entries path

def Forest.entries (base : List κ) : Forest κ β → List (Entry κ β)
  | .nil => []
  | .cons name node rest => node.entries (base ++ [name]) ++ rest.entries base

end

mutual

def Node.prune (ask : List κ → Bool → StateM σ Bool) (path : List κ) :
    Node κ β → StateM σ (List (Entry κ β))
  | .leaf label => do
    if ← ask path false then return []
    return [⟨path, some label⟩]
  | .dir kids => do
    if ← ask path true then return []
    return ⟨path, none⟩ :: (← kids.prune ask path)

/-- The entries that a walk reaches below `base`. -/
def Forest.prune (ask : List κ → Bool → StateM σ Bool) (base : List κ) :
    Forest κ β → StateM σ (List (Entry κ β))
  | .nil => return []
  | .cons name node rest => do
    let first ← node.prune ask (base ++ [name])
    return first ++ (← rest.prune ask base)

end

mutual

def Node.reached (dec : List κ → Bool → Bool) (path : List κ) : Node κ β → List (Entry κ β)
  | .leaf label => if dec path false then [] else [⟨path, some label⟩]
  | .dir kids => if dec path true then [] else ⟨path, none⟩ :: kids.reached dec path

/-- `prune` for a decision without state. -/
def Forest.reached (dec : List κ → Bool → Bool) (base : List κ) : Forest κ β → List (Entry κ β)
  | .nil => []
  | .cons name node rest => node.reached dec (base ++ [name]) ++ rest.reached dec base

end

section Prune

variable {I : σ → Prop} {ask : List κ → Bool → StateM σ Bool} {dec : List κ → Bool → Bool}

mutual

theorem Node.prune_answers (h : ∀ p k, Answers I (ask p k) (dec p k)) (path : List κ) :
    (node : Node κ β) → Answers I (node.prune ask path) (node.reached dec path)
  | .leaf label => by
      rw [Node.prune, Node.reached]
      refine (h path false).bind ?_
      cases dec path false
      · exact .pure _
      · exact .pure _
  | .dir kids => by
      rw [Node.prune, Node.reached]
      refine (h path true).bind ?_
      cases dec path true
      · exact (Forest.prune_answers h path kids).bind (.pure _)
      · exact .pure _

theorem Forest.prune_answers (h : ∀ p k, Answers I (ask p k) (dec p k)) (base : List κ) :
    (forest : Forest κ β) → Answers I (forest.prune ask base) (forest.reached dec base)
  | .nil => .pure _
  | .cons name node rest => by
      rw [Forest.prune, Forest.reached]
      exact (Node.prune_answers h (base ++ [name]) node).bind
        ((Forest.prune_answers h base rest).bind (.pure _))

end

end Prune

/-! ## What lies where -/

mutual

theorem Node.path_of_mem {path : List κ} {e : Entry κ β} :
    (node : Node κ β) → e ∈ node.entries path → e.path = path ∨ Above path e.path
  | .leaf label, h => by
      rw [Node.entries, mem_singleton] at h
      exact .inl (by rw [h])
  | .dir kids, h => by
      rw [Node.entries, mem_cons] at h
      rcases h with rfl | h
      · exact .inl rfl
      · exact .inr (Forest.above_of_mem kids h)

theorem Forest.above_of_mem {base : List κ} {e : Entry κ β} :
    (forest : Forest κ β) → e ∈ forest.entries base → Above base e.path
  | .nil, h => by cases h
  | .cons name node rest, h => by
      rw [Forest.entries, mem_append] at h
      rcases h with h | h
      · have hname : Above base (base ++ [name]) := ⟨name, [], rfl⟩
        rcases Node.path_of_mem node h with heq | habove
        · rwa [heq]
        · exact hname.trans habove
      · exact Forest.above_of_mem rest h

end

theorem eq_or_above_of_child {base d p : List κ} {name : κ} (hp : p = base ++ [name] ∨ Above (base ++ [name]) p)
    (hd : Above base d) (hbelow : Above d p) : base ++ [name] = d ∨ Above (base ++ [name]) d := by
  have hbetween : ¬ Above d (base ++ [name]) := by
    intro habove
    have hlt := hd.length_lt
    have hlt' := habove.length_lt
    rw [length_append, length_singleton] at hlt'
    omega
  rcases hp with rfl | hp
  · exact absurd hbelow hbetween
  · rcases hp.linear hbelow with heq | hlt | hlt
    · exact .inl heq
    · exact .inr hlt
    · exact absurd hlt hbetween

mutual

theorem Node.dir_mem_of_above {path : List κ} {e : Entry κ β} {d : List κ} :
    (node : Node κ β) → e ∈ node.entries path → (path = d ∨ Above path d) → Above d e.path →
      ⟨d, none⟩ ∈ node.entries path
  | .leaf label, h, hd, hbelow => by
      rw [Node.entries, mem_singleton] at h
      subst h
      rcases hd with rfl | hd
      · exact absurd rfl hbelow.ne
      · exact absurd hbelow hd.asymm
  | .dir kids, h, hd, hbelow => by
      rw [Node.entries, mem_cons] at h ⊢
      rcases hd with rfl | hd
      · exact .inl rfl
      · rcases h with rfl | h
        · exact absurd hbelow hd.asymm
        · exact .inr (Forest.dir_mem_of_above kids h hd hbelow)

theorem Forest.dir_mem_of_above {base : List κ} {e : Entry κ β} {d : List κ} :
    (forest : Forest κ β) → e ∈ forest.entries base → Above base d → Above d e.path →
      ⟨d, none⟩ ∈ forest.entries base
  | .nil, h, _, _ => by cases h
  | .cons name node rest, h, hd, hbelow => by
      rw [Forest.entries, mem_append] at h ⊢
      rcases h with h | h
      · refine .inl (Node.dir_mem_of_above node h ?_ hbelow)
        exact eq_or_above_of_child (Node.path_of_mem node h) hd hbelow
      · exact .inr (Forest.dir_mem_of_above rest h hd hbelow)

end

/-! ## What a walk reaches -/

section Reached

variable {dec : List κ → Bool → Bool}

mutual

/-- A walk that skips what is decided reaches what is not decided below directories that are not. -/
theorem Node.mem_reached_iff {path : List κ} {e : Entry κ β} :
    (node : Node κ β) → (e ∈ node.reached dec path ↔ e ∈ node.entries path ∧ dec e.path e.isDir = false ∧
      ∀ d, (path = d ∨ Above path d) → Above d e.path → dec d true = false)
  | .leaf label => by
      rw [Node.reached, Node.entries, mem_singleton]
      constructor
      · intro h
        cases hdec : dec path false with
        | true => simp [hdec] at h
        | false =>
          rw [hdec, if_neg Bool.false_ne_true, mem_singleton] at h
          subst h
          refine ⟨rfl, hdec, ?_⟩
          rintro d (rfl | hd) hbelow
          · exact absurd rfl hbelow.ne
          · exact absurd hbelow hd.asymm
      · rintro ⟨rfl, hdec, -⟩
        rw [if_neg (by rw [show dec path false = false from hdec]; exact Bool.false_ne_true)]
        exact mem_singleton_self _
  | .dir kids => by
      rw [Node.reached, Node.entries]
      cases hdec : dec path true with
      | true =>
        rw [if_pos rfl]
        constructor
        · intro h
          cases h
        · rintro ⟨h, hself, habove⟩
          rcases mem_cons.1 h with rfl | h
          · exact absurd hdec (by rw [show dec path true = false from hself]; exact Bool.false_ne_true)
          · exact absurd hdec (by rw [habove path (.inl rfl) (Forest.above_of_mem kids h)]; exact Bool.false_ne_true)
      | false =>
        rw [if_neg Bool.false_ne_true, mem_cons, mem_cons, Forest.mem_reached_iff kids]
        constructor
        · rintro (rfl | ⟨h, hself, habove⟩)
          · refine ⟨.inl rfl, hdec, ?_⟩
            rintro d (rfl | hd) hbelow
            · exact absurd rfl hbelow.ne
            · exact absurd hbelow hd.asymm
          · refine ⟨.inr h, hself, ?_⟩
            rintro d (rfl | hd) hbelow
            · exact hdec
            · exact habove d hd hbelow
        · rintro ⟨rfl | h, hself, habove⟩
          · exact .inl rfl
          · exact .inr ⟨h, hself, fun d hd => habove d (.inr hd)⟩

/-- A walk reaches an entry if the decision names neither the entry nor a directory above it. -/
theorem Forest.mem_reached_iff {base : List κ} {e : Entry κ β} :
    (forest : Forest κ β) → (e ∈ forest.reached dec base ↔
      e ∈ forest.entries base ∧ dec e.path e.isDir = false ∧
        ∀ d, Above base d → Above d e.path → dec d true = false)
  | .nil => by
      simp [Forest.reached, Forest.entries]
  | .cons name node rest => by
      have hname : Above base (base ++ [name]) := ⟨name, [], rfl⟩
      rw [Forest.reached, Forest.entries, mem_append, mem_append, Node.mem_reached_iff node,
        Forest.mem_reached_iff rest]
      constructor
      · rintro (⟨h, hself, habove⟩ | ⟨h, hself, habove⟩)
        · refine ⟨.inl h, hself, fun d hd hbelow => habove d ?_ hbelow⟩
          exact eq_or_above_of_child (Node.path_of_mem node h) hd hbelow
        · exact ⟨.inr h, hself, habove⟩
      · rintro ⟨h | h, hself, habove⟩
        · refine .inl ⟨h, hself, ?_⟩
          rintro d (rfl | hd) hbelow
          · exact habove _ hname hbelow
          · exact habove d (hname.trans hd) hbelow
        · exact .inr ⟨h, hself, habove⟩

end

/-- A decision on a directory holds for what lies below it, exempt paths apart. -/
structure Inherited (dec : List κ → Bool → Bool) (exempt : List κ → Prop) : Prop where
  exempts : ∀ p k, exempt p → dec p k = false
  below : ∀ d p k, dec d true = true → Above d p → ¬ exempt p → dec p k = true

variable {exempt : List κ → Prop} {forest : Forest κ β} {e : Entry κ β}

theorem Inherited.mem_reached_iff (h : Inherited dec exempt) (he : ¬ exempt e.path) :
    e ∈ forest.reached dec [] ↔ e ∈ forest.entries [] ∧ dec e.path e.isDir = false := by
  rw [Forest.mem_reached_iff]
  constructor
  · rintro ⟨hmem, hself, -⟩
    exact ⟨hmem, hself⟩
  · rintro ⟨hmem, hself⟩
    refine ⟨hmem, hself, fun d _ hbelow => ?_⟩
    rw [← Bool.not_eq_true]
    intro hdec
    rw [h.below d e.path e.isDir hdec hbelow he] at hself
    cases hself

/-- What is exempt is reached as soon as its directory is. -/
theorem Inherited.exempt_mem_reached_iff (h : Inherited dec exempt) {dir : List κ} {name : κ}
    (hpath : e.path = dir ++ [name]) (he : exempt e.path) :
    e ∈ forest.reached dec [] ↔ e ∈ forest.entries [] ∧ (dir = [] ∨ ⟨dir, none⟩ ∈ forest.reached dec []) := by
  have hdir : Above dir e.path := ⟨name, [], hpath⟩
  rw [Forest.mem_reached_iff, Forest.mem_reached_iff]
  constructor
  · rintro ⟨hmem, -, habove⟩
    refine ⟨hmem, ?_⟩
    by_cases hroot : dir = []
    · exact .inl hroot
    · have hbase : Above [] dir := nil_above hroot
      exact .inr ⟨Forest.dir_mem_of_above forest hmem hbase hdir, habove dir hbase hdir,
        fun d hd hbelow => habove d hd (hbelow.trans hdir)⟩
  · rintro ⟨hmem, hreached⟩
    refine ⟨hmem, h.exempts _ _ he, fun d hd hbelow => ?_⟩
    -- what lies above the entry is its directory or lies above that
    rw [hpath] at hbelow
    rcases above_append_cases hbelow with hle | ⟨r, hr, rfl, habove⟩
    · rcases hreached with rfl | ⟨-, hself, hdirs⟩
      · rw [prefix_nil.1 hle] at hd
        exact absurd hd (not_above_nil [])
      · by_cases heq : d = dir
        · rw [heq]
          exact hself
        · exact hdirs d hd (above_iff_isPrefix.2 ⟨hle, heq⟩)
    · have hlt := habove.length_lt
      have hpos := length_pos_of_ne_nil hr
      rw [length_singleton] at hlt
      omega

end Reached

end Ferry.Prune
