import Ferry.Disk.Fs
import Ferry.Lib.Prune
import Ferry.Pairing.Share

/-! # Ignore rules

The rules of a folder are one chain for the root, made from the defaults, the
root's rule files, the presets and the overrides, and one layer for each
directory below it that has rule files of its own. A layer is loaded when a path
first passes its directory and kept from then on. The matcher of a layer comes
from another crate.
-/

namespace Ferry

open Lib Prune List

inductive GitMatch where
  | none
  | ignore
  | whitelist
deriving DecidableEq

/-- The gitignore matcher: a builder takes rule lines, and the layer it builds
answers for a path and whether it is a directory. -/
class IgnoreEnv extends Env where
  Builder : Type
  Gitignore : Type
  builderNew : CompPath → Builder
  addLine : Builder → String → Bool × Builder
  build : Builder → Except String Gitignore
  matched : Gitignore → String → Bool → GitMatch

inductive V where
  | ign
  | wl
  | no
deriving DecidableEq

structure IgnoreConfig where
  honorGitignore : Bool
  presets : List String
  overrides : List String

inductive IgnoreError where
  | unknownPreset (id : String)
  | readRootRule (file : String) (source : String)
  | compile (message : String)
deriving DecidableEq

/-- What reading a rule file gives; every failure but a missing file has a message. -/
inductive FileRead where
  | text (s : String)
  | notFound
  | failed (message : String)

abbrev RuleFiles := CompPath → String → FileRead

def defaultRules : List String :=
  [".DS_Store", "Thumbs.db", "desktop.ini", "*.swp", "*~", "node_modules/", ".env", ".env.*"]

structure Preset where
  includes : List String
  excludes : List String

def Preset.claude : Preset where
  includes := ["CLAUDE.md", "settings.json", "memory/**", "skills/**", "commands/**", "agents/**",
    "projects/*/memory/**"]
  excludes := ["projects/**/sessions/**", "**/*.log", "statsig/", "telemetry/", "cache/",
    "shell-snapshots/", "downloads/"]

def Preset.opencode : Preset where
  includes := ["AGENTS.md", "opencode.json", "agent/**", "agents/**", "command/**", "commands/**",
    "plugin/**", "plugins/**", "skill/**", "skills/**", "memory/**"]
  excludes := ["sessions/**", "**/*.log", "cache/", "tmp/", "node_modules/"]

def Preset.builtin (id : String) : Option Preset :=
  if id = "claude" then some .claude
  else if id = "opencode" then some .opencode
  else none

def Preset.ruleLines (p : Preset) : List String := p.excludes ++ p.includes.map ("!" ++ ·)

def ferryRuleFile : String := "ferry.ignore"

def gitRuleFile : String := ".gitignore"

/-- `name.contains(".ferry-conflict.")`. -/
def isQuarantineName (name : String) : Bool :=
  name.toList.tails.any fun t => ".ferry-conflict.".toList.isPrefixOf t

def readable : FileRead → Option String
  | .text s => some s
  | _ => none

def textLinesFrom (line : List Char) : List Char → List String
  | [] => if line = [] then [] else [String.ofList line]
  | c :: rest =>
    if c = '\n' then
      String.ofList (if line.getLast? = some '\r' then line.dropLast else line) :: textLinesFrom [] rest
    else textLinesFrom (line ++ [c]) rest

/-- `str::lines`. -/
def textLines (text : String) : List String := textLinesFrom [] text.toList

/-- `str::trim_end`. -/
def trimEnd (line : String) : String :=
  String.ofList (line.toList.reverse.dropWhile isWhitespace).reverse

section Code

variable [IgnoreEnv]

/-- A builder with the number of lines it did not take. -/
abbrev Compiling := IgnoreEnv.Builder × Nat

def compileLine (acc : Compiling) (line : String) : Bool × Compiling :=
  let trimmed := trimEnd line
  if trimmed = "" ∨ trimmed.toList.head? = some '#' then (false, acc)
  else
    match IgnoreEnv.addLine acc.1 (Env.nfc trimmed) with
    | (true, builder) => (true, builder, acc.2)
    | (false, builder) => (false, builder, acc.2 + 1)

/-- A loop over lines that remembers whether one was taken. -/
def compileLines (acc : Bool × Compiling) (lines : List String) : Bool × Compiling :=
  lines.foldl (fun acc line =>
    let (taken, next) := compileLine acc.2 line
    (acc.1 || taken, next)) acc

def compileText (acc : Bool × Compiling) : Option String → Bool × Compiling
  | none => acc
  | some text => compileLines acc (textLines text)

structure FerryIgnore where
  cfg : IgnoreConfig
  chain : IgnoreEnv.Gitignore

structure IgnoreState where
  skippedLines : Nat
  dirs : CompPath → Option (Option IgnoreEnv.Gitignore)

/-- The root's `ferry.ignore`, which may be missing but not unreadable. -/
def compileRootRule (acc : Bool × Compiling) : FileRead → Except IgnoreError (Bool × Compiling)
  | .text s => .ok (compileText acc (some s))
  | .failed message => .error (.readRootRule ferryRuleFile message)
  | .notFound => .ok acc

omit [IgnoreEnv] in
def knownPreset (id : String) : Except IgnoreError Preset :=
  match Preset.builtin id with
  | some preset => .ok preset
  | none => .error (.unknownPreset id)

def FerryIgnore.new (files : RuleFiles) (cfg : IgnoreConfig) : Except IgnoreError (FerryIgnore × IgnoreState) := do
  let presets ← cfg.presets.mapM knownPreset
  let acc := compileLines (false, IgnoreEnv.builderNew [], 0) defaultRules
  let acc := if cfg.honorGitignore then compileText acc (readable (files [] gitRuleFile)) else acc
  let acc ← compileRootRule acc (files [] ferryRuleFile)
  let acc := presets.foldl (fun acc preset => compileLines acc preset.ruleLines) acc
  let acc := compileLines acc cfg.overrides
  match IgnoreEnv.build acc.2.1 with
  | .error message => throw (.compile message)
  | .ok chain => return (⟨cfg, chain⟩, ⟨acc.2.2, fun _ => none⟩)

def matchLayer (gi : IgnoreEnv.Gitignore) (path : CompPath) (isDir : Bool) : V :=
  match IgnoreEnv.matched gi ("/".intercalate path) isDir with
  | .none => .no
  | .ignore => .ign
  | .whitelist => .wl

namespace FerryIgnore

variable (ig : FerryIgnore) (files : RuleFiles)

/-- The layer of a directory and how many of its lines were skipped. -/
def loadDirOverlay (dir : CompPath) : Option IgnoreEnv.Gitignore × Nat :=
  let acc : Bool × Compiling := (false, IgnoreEnv.builderNew dir, 0)
  let acc := if ig.cfg.honorGitignore then compileText acc (readable (files dir gitRuleFile)) else acc
  let acc := compileText acc (readable (files dir ferryRuleFile))
  (if acc.1 then (IgnoreEnv.build acc.2.1).toOption else none, acc.2.2)

def dirOverlay (dir : CompPath) : StateM IgnoreState (Option (Option IgnoreEnv.Gitignore)) := do
  match (← get).dirs dir with
  | some cached => return some cached
  | none =>
    let (loaded, skipped) := ig.loadDirOverlay files dir
    modify fun s => ⟨s.skippedLines + skipped, Function.update s.dirs dir (some loaded)⟩
    return some loaded

/-- A layer that has an opinion replaces the verdict of those before it. -/
def overrule (v : V) (gi : IgnoreEnv.Gitignore) (path : CompPath) (isDir : Bool) : V :=
  let vv := matchLayer gi path isDir
  if vv ≠ .no then vv else v

/-- One round of the loop over depths, for the part of the path down to that depth. -/
def verdict (path : CompPath) (dirHere : Bool) : StateM IgnoreState V :=
  (List.range' 1 (path.length - 1)).foldlM
    (fun v j => do
      match ← ig.dirOverlay files (path.take j) with
      | some (some gi) => return overrule v gi (path.drop j) dirHere
      | _ => return v)
    (matchLayer ig.chain path dirHere)

/-- The loop over depths, with `excluded_parent` and `final_ignored`. -/
def decidedLoop (rel : CompPath) (isDir : Bool) : StateM IgnoreState (Bool × Bool) :=
  (List.range' 1 rel.length).foldlM
    (fun acc depth => do
      let v ← ig.verdict files (rel.take depth) (depth < rel.length || isDir)
      if depth < rel.length then return (if v = .ign then (true, acc.2) else acc)
      else return (acc.1, acc.1 || v = .ign))
    (false, false)

def decided (rel : CompPath) (isDir : Bool) : StateM IgnoreState Bool := do
  if rel = [] ∨ rel.getLast?.any isQuarantineName then return false
  let rel := if rel.any (fun c => Env.nfc c ≠ c) then rel.map Env.nfc else rel
  let (_, finalIgnored) ← ig.decidedLoop files rel isDir
  return finalIgnored

/-! ## What is decided while the rule files stay -/

/-- Every layer kept is the one its rule files give. -/
def Coherent (s : IgnoreState) : Prop :=
  ∀ dir layer, s.dirs dir = some layer → layer = (ig.loadDirOverlay files dir).1

theorem new_coherent {cfg : IgnoreConfig} {s : IgnoreState} (h : FerryIgnore.new files cfg = .ok (ig, s)) :
    ig.Coherent files s := by
  obtain ⟨presets, -, h⟩ := bind_eq_ok.1 h
  obtain ⟨acc, -, h⟩ := bind_eq_ok.1 h
  dsimp only at h
  split at h
  · cases h
  · cases h
    intro dir layer hlayer
    cases hlayer

/-- The cache of overlays answers as reading the rule files does. -/
theorem dirOverlay_answers (dir : CompPath) :
    Answers (ig.Coherent files) (ig.dirOverlay files dir) (some (ig.loadDirOverlay files dir).1) := by
  intro s hs
  cases hcached : s.dirs dir with
  | some layer =>
    have hrun : (ig.dirOverlay files dir).run s = (some layer, s) := by
      simp only [dirOverlay, StateT.run_bind, StateT.run_get, pure_bind, hcached]
      rfl
    rw [hrun, hs dir layer hcached]
    exact ⟨rfl, hs⟩
  | none =>
    have hrun : (ig.dirOverlay files dir).run s = (some (ig.loadDirOverlay files dir).1,
        ⟨s.skippedLines + (ig.loadDirOverlay files dir).2,
          Function.update s.dirs dir (some (ig.loadDirOverlay files dir).1)⟩) := by
      simp only [dirOverlay, StateT.run_bind, StateT.run_get, pure_bind, hcached]
      rfl
    rw [hrun]
    refine ⟨rfl, fun other layer hlayer => ?_⟩
    by_cases heq : other = dir
    · subst heq
      simpa using hlayer.symm
    · exact hs other layer (by simpa [heq] using hlayer)

def verdictOf (path : CompPath) (dirHere : Bool) : V :=
  (List.range' 1 (path.length - 1)).foldl
    (fun v j => ((ig.loadDirOverlay files (path.take j)).1.map
      fun gi => overrule v gi (path.drop j) dirHere).getD v)
    (matchLayer ig.chain path dirHere)

theorem verdict_answers (path : CompPath) (dirHere : Bool) :
    Answers (ig.Coherent files) (ig.verdict files path dirHere) (ig.verdictOf files path dirHere) := by
  refine Answers.foldlM (fun v j => ?_) _ _
  refine (ig.dirOverlay_answers files (path.take j)).bind ?_
  cases (ig.loadDirOverlay files (path.take j)).1 with
  | none | some => exact .pure _

def hit (path : CompPath) (isDir : Bool) : Bool := ig.verdictOf files path isDir = .ign

def round (rel : CompPath) (isDir : Bool) (acc : Bool × Bool) (depth : Nat) : Bool × Bool :=
  let hit := ig.hit files (rel.take depth) (depth < rel.length || isDir)
  if depth < rel.length then (acc.1 || hit, acc.2) else (acc.1, acc.1 || hit)

theorem decidedLoop_answers (rel : CompPath) (isDir : Bool) :
    Answers (ig.Coherent files) (ig.decidedLoop files rel isDir)
      ((List.range' 1 rel.length).foldl (ig.round files rel isDir) (false, false)) := by
  refine Answers.foldlM (fun acc depth => ?_) _ _
  refine (ig.verdict_answers files _ _).bind ?_
  rw [round, hit]
  generalize ig.verdictOf files (rel.take depth) (depth < rel.length || isDir) = v
  by_cases hdepth : depth < rel.length
  · cases v <;> simpa [hdepth] using Answers.pure _
  · cases v <;> simpa [hdepth] using Answers.pure _

theorem foldl_round (rel : CompPath) (isDir : Bool) {k m : Nat} (hk : k + m = rel.length) (acc : Bool × Bool) :
    ((List.range' k (m + 1)).foldl (ig.round files rel isDir) acc).2 =
      (acc.1 || (List.range' k (m + 1)).any fun depth =>
        ig.hit files (rel.take depth) (depth < rel.length || isDir)) := by
  induction m generalizing k acc with
  | zero =>
    have hlast : ¬ k < rel.length := by omega
    simp [round, hlast]
  | succ m ih =>
    have hdepth : k < rel.length := by omega
    rw [range'_succ, foldl_cons, ih (by omega)]
    simp [round, hdepth, Bool.or_assoc]

/-- `decided` as a function of the path alone. -/
def decides (rel : CompPath) (isDir : Bool) : Bool :=
  if rel = [] ∨ rel.getLast?.any isQuarantineName then false
  else (List.range' 1 rel.length).any fun depth =>
    ig.hit files ((rel.map Env.nfc).take depth) (depth < rel.length || isDir)

omit [IgnoreEnv] in
theorem normalized_eq [Env] (rel : CompPath) :
    (if rel.any (fun c => Env.nfc c ≠ c) then rel.map Env.nfc else rel) = rel.map Env.nfc := by
  split
  · rfl
  · rename_i hnfc
    have hid : ∀ c ∈ rel, Env.nfc c = c := by simpa using hnfc
    exact ((map_congr_left hid).trans (map_id' rel)).symm

theorem decided_answers (rel : CompPath) (isDir : Bool) :
    Answers (ig.Coherent files) (ig.decided files rel isDir) (ig.decides files rel isDir) := by
  unfold decided decides
  by_cases hexempt : rel = [] ∨ rel.getLast?.any isQuarantineName
  · rw [if_pos hexempt, if_pos hexempt]
    exact .pure _
  rw [if_neg hexempt, if_neg hexempt]
  have hne : rel ≠ [] := fun hnil => hexempt (.inl hnil)
  have hlen : 1 + (rel.length - 1) = (rel.map Env.nfc).length := by
    have hpos := length_pos_of_ne_nil hne
    rw [length_map]
    omega
  have hany := ig.foldl_round files (rel.map Env.nfc) isDir hlen (false, false)
  rw [Bool.false_or, show rel.length - 1 + 1 = rel.length by rw [length_map] at hlen; omega] at hany
  simp only [normalized_eq]
  refine (ig.decidedLoop_answers files (rel.map Env.nfc) isDir).bind ?_
  simp only [length_map] at hany ⊢
  rw [← hany]
  exact .pure _

/-! ## Pruning -/

def Exempt (rel : CompPath) : Prop := rel.getLast?.any isQuarantineName = true

instance (rel : CompPath) : Decidable (Exempt rel) := inferInstanceAs (Decidable (_ = true))

omit [IgnoreEnv] in
/-- The loop over the prefixes of a path asks its ancestors as directories and then the path itself. -/
theorem any_take_iff (f : CompPath → Bool → Bool) {rel : CompPath} (hne : rel ≠ []) (isDir : Bool) :
    ((List.range' 1 rel.length).any fun depth => f (rel.take depth) (depth < rel.length || isDir)) = true ↔
      f rel isDir = true ∨ ∃ d, d ≠ [] ∧ Above d rel ∧ f d true = true := by
  rw [any_eq_true]
  constructor
  · rintro ⟨depth, hmem, hhit⟩
    rw [mem_range'_1] at hmem
    by_cases hdepth : depth < rel.length
    · refine .inr ⟨rel.take depth, ?_, ?_, by simpa [hdepth] using hhit⟩
      · intro hnil
        have hlen := congrArg List.length hnil
        rw [length_take_of_le hdepth.le, length_nil] at hlen
        omega
      · have habove := above_append (d := rel.take depth) (r := rel.drop depth) (by simpa using hdepth)
        rwa [take_append_drop] at habove
    · rw [take_of_length_le (by omega)] at hhit
      exact .inl (by simpa [hdepth] using hhit)
  · have hpos := length_pos_of_ne_nil hne
    rintro (hhit | ⟨d, hd, habove, hhit⟩)
    · refine ⟨rel.length, mem_range'_1.2 ⟨hpos, by omega⟩, ?_⟩
      simpa using hhit
    · have hlt := habove.length_lt
      refine ⟨d.length, mem_range'_1.2 ⟨length_pos_of_ne_nil hd, by omega⟩, ?_⟩
      obtain ⟨c, r, rfl⟩ := habove
      simpa [hlt] using hhit

theorem decides_iff (rel : CompPath) (isDir : Bool) :
    ig.decides files rel isDir = true ↔ rel ≠ [] ∧ ¬ Exempt rel ∧
      (ig.hit files (rel.map Env.nfc) isDir = true ∨
        ∃ d, d ≠ [] ∧ Above d (rel.map Env.nfc) ∧ ig.hit files d true = true) := by
  unfold decides Exempt
  by_cases hexempt : rel = [] ∨ rel.getLast?.any isQuarantineName
  · rw [if_pos hexempt]
    constructor
    · intro h
      cases h
    · rintro ⟨hne, hname, -⟩
      exact absurd hexempt (not_or.2 ⟨hne, hname⟩)
  · rw [if_neg hexempt]
    obtain ⟨hne, hname⟩ := not_or.1 hexempt
    have hmap : rel.map Env.nfc ≠ [] := by simpa using hne
    have hany := any_take_iff (ig.hit files) hmap isDir
    rw [length_map] at hany
    rw [hany]
    exact ⟨fun h => ⟨hne, hname, h⟩, fun h => h.2.2⟩

theorem decides_inherited : Inherited (ig.decides files) Exempt := by
  refine ⟨?_, ?_⟩
  · intro p k hexempt
    rw [decides, if_pos (.inr hexempt)]
  · intro d p k hd habove hp
    obtain ⟨hne, -, hhit⟩ := (ig.decides_iff files d true).1 hd
    have hmap : Above (d.map Env.nfc) (p.map Env.nfc) := by
      obtain ⟨c, r, rfl⟩ := habove
      exact ⟨Env.nfc c, r.map Env.nfc, by simp⟩
    refine (ig.decides_iff files p k).2 ⟨?_, hp, .inr ?_⟩
    · rintro rfl
      exact absurd habove (not_above_nil d)
    · rcases hhit with hself | ⟨e, he, hlt, hhit⟩
      · exact ⟨d.map Env.nfc, by simpa using hne, hmap, hself⟩
      · exact ⟨e, he, hlt.trans hmap, hhit⟩

def after (s : IgnoreState) (asked : List (CompPath × Bool)) : IgnoreState :=
  asked.foldl (fun s q => ((ig.decided files q.1 q.2).run s).2) s

theorem after_coherent {s : IgnoreState} (hs : ig.Coherent files s) (asked : List (CompPath × Bool)) :
    ig.Coherent files (ig.after files s asked) := by
  induction asked generalizing s with
  | nil => exact hs
  | cons q asked ih => exact ih ((ig.decided_answers files q.1 q.2).keeps hs)

def decidedAfter (s : IgnoreState) (asked : List (CompPath × Bool)) (rel : CompPath) (isDir : Bool) : Bool :=
  ((ig.decided files rel isDir).run (ig.after files s asked)).1

/-- What a walk reaches that starts after the questions `asked`. -/
def reachedAfter {β : Type} (s : IgnoreState) (asked : List (CompPath × Bool)) (tree : Forest String β) :
    List (Entry String β) :=
  ((tree.prune (ig.decided files) []).run (ig.after files s asked)).1

/-- A walk that skips what is decided reaches what is not decided, conflict copies apart, which it
reaches with their directory. -/
theorem reached_iff_not_decided {β : Type} (cfg : IgnoreConfig) {s : IgnoreState}
    (hnew : FerryIgnore.new files cfg = .ok (ig, s)) (before asked : List (CompPath × Bool))
    (tree : Forest String β) :
    (∀ e, ¬ Exempt e.path → (e ∈ ig.reachedAfter files s before tree ↔
      e ∈ tree.entries [] ∧ ig.decidedAfter files s asked e.path e.isDir = false)) ∧
    (∀ d p isDir, ig.decidedAfter files s before d true = true → Above d p → ¬ Exempt p →
      ig.decidedAfter files s asked p isDir = true) ∧
    (∀ e dir name, e.path = dir ++ [name] → Exempt e.path → (e ∈ ig.reachedAfter files s before tree ↔
        e ∈ tree.entries [] ∧ (dir = [] ∨ ⟨dir, none⟩ ∈ ig.reachedAfter files s before tree))) := by
  have hs := ig.new_coherent files hnew
  have hdec : ∀ asked p isDir, ig.decidedAfter files s asked p isDir = ig.decides files p isDir :=
    fun asked p isDir => (ig.decided_answers files p isDir).value (ig.after_coherent files hs asked)
  have hreached : ig.reachedAfter files s before tree = tree.reached (ig.decides files) [] :=
    (Forest.prune_answers (ig.decided_answers files) [] tree).value (ig.after_coherent files hs before)
  have hinherited := ig.decides_inherited files
  simp only [hdec, hreached]
  refine ⟨?_, hinherited.below, ?_⟩
  · intro e he
    exact hinherited.mem_reached_iff he
  · intro e dir name hpath he
    exact hinherited.exempt_mem_reached_iff hpath he

end FerryIgnore

end Code

namespace Sample

scoped instance sampleIgnoreEnv : IgnoreEnv where
  toEnv := sampleEnv
  Builder := List String
  Gitignore := List String
  builderNew _ := []
  addLine lines line := (true, lines ++ [line])
  build lines := .ok lines
  matched lines path isDir :=
    if "!" ++ path ∈ lines then .whitelist
    else if path ∈ lines ∨ isDir = true ∧ path ++ "/" ∈ lines then .ignore
    else .none

/-- A rule file in `d` that takes back an override and ignores a file. -/
def nestedRules : RuleFiles := fun dir name =>
  if dir = ["d"] ∧ name = ferryRuleFile then .text "!keep\nlog\n" else .notFound

def overriding : IgnoreConfig := ⟨true, [], ["d/keep"]⟩

def overridden : FerryIgnore := ⟨overriding, defaultRules ++ ["d/keep"]⟩

def sampleTree : Forest String Unit :=
  .cons "node_modules" (.dir (.cons "x" (.leaf ()) .nil))
    (.cons "d" (.dir (.cons "keep" (.leaf ()) (.cons "log" (.leaf ())
      (.cons "log.ferry-conflict.1" (.leaf ()) .nil)))) .nil)

end Sample

open Sample in
/-- The rule file of a directory overrules the root's rules, and does not concern a conflict copy. -/
theorem FerryIgnore.nested_rules_reached :
    ⟨["d", "keep"], some ()⟩ ∈ overridden.reachedAfter nestedRules ⟨0, fun _ => none⟩ [] sampleTree ∧
      ⟨["d", "log"], some ()⟩ ∉ overridden.reachedAfter nestedRules ⟨0, fun _ => none⟩ [] sampleTree ∧
      ⟨["d", "log.ferry-conflict.1"], some ()⟩ ∈
        overridden.reachedAfter nestedRules ⟨0, fun _ => none⟩ [] sampleTree ∧
      ⟨["node_modules", "x"], some ()⟩ ∉ overridden.reachedAfter nestedRules ⟨0, fun _ => none⟩ [] sampleTree := by
  obtain ⟨hplain, -, hexempt⟩ := FerryIgnore.reached_iff_not_decided overridden nestedRules overriding
    (s := ⟨0, fun _ => none⟩) rfl [] [] sampleTree
  have hdir : ⟨["d"], none⟩ ∈ overridden.reachedAfter nestedRules ⟨0, fun _ => none⟩ [] sampleTree :=
    (hplain ⟨["d"], none⟩ (by decide)).2 (by decide +kernel)
  refine ⟨(hplain _ (by decide)).2 (by decide +kernel), fun h => ?_, ?_, fun h => ?_⟩
  · exact absurd ((hplain _ (by decide)).1 h).2 (by decide +kernel)
  · exact (hexempt _ ["d"] "log.ferry-conflict.1" rfl (by decide)).2 ⟨by decide +kernel, .inr hdir⟩
  · exact absurd ((hplain _ (by decide)).1 h).2 (by decide +kernel)

end Ferry
