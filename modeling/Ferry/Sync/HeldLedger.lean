import Ferry.Pairing.Share
import Ferry.Sync.Converge
import Ferry.Sync.PinStore
import Mathlib.Data.Nat.Digits.Defs

/-!
# The held ledger on disk

A peer's ledger is a file of JSON lines.  `append` reads it, drops the entries that are
there already and writes the others behind its end; a crash leaves any number of the
bytes written.  `load_peer` passes over a last line that has no line feed and is no entry.
-/

namespace Ferry

open Lib List

namespace HeldLedger

open PinStore (PinError)

/-- `serde_json` on held entries; a line is given by its bytes. -/
structure Json where
  toString : HeldEntry → String
  fromStr : Bytes → Except String HeldEntry

/-! ## Lines -/

def stripCr (line : Bytes) : Bytes := if line.getLast? = some 13 then line.dropLast else line

def linesFrom (line : Bytes) : Bytes → List Bytes
  | [] => if line = [] then [] else [line]
  | b :: rest => if b = 10 then stripCr line :: linesFrom [] rest else linesFrom (line ++ [b]) rest

/-- `str::lines`. -/
def lines (text : Bytes) : List Bytes := linesFrom [] text

/-- `trim().is_empty()`. -/
def isBlank (line : Bytes) : Bool :=
  match fromUtf8 line with
  | some s => s.toList.all isWhitespace
  | none => false

/-! ## Loading and appending -/

section Code

variable (json : Json)

/-- The loop over the lines, from the one with the index `i` on. -/
def loadLines (tornTail : Bool) : Nat → List Bytes → Except PinError (List HeldEntry)
  | _, [] => .ok []
  | i, line :: rest =>
    if isBlank line then loadLines tornTail (i + 1) rest
    else
      match json.fromStr line with
      | .ok e => (loadLines tornTail (i + 1) rest).map (e :: ·)
      | .error reason =>
        if rest = [] ∧ tornTail then .ok [] else .error (.ledgerCorrupt (i + 1) reason)

/-- `load_peer` on the content of the peer's file, none where there is no file. -/
def loadPeer : Option Bytes → Except PinError (List HeldEntry)
  | none => .ok []
  | some bytes =>
    -- `read_to_string` refuses bytes that are not UTF-8
    if (fromUtf8 bytes).isSome then
      loadLines json (bytes ≠ [] ∧ bytes.getLast? ≠ some 10) 0 (lines bytes)
    else .error (.io .ledger)

def key (e : HeldEntry) : String × String := (e.path, e.remoteManifestId)

/-- The entries whose path and manifest are not in the set yet. -/
def unseen (seen : List (String × String)) : List HeldEntry → List HeldEntry
  | [] => []
  | e :: entries =>
    if key e ∈ seen then unseen seen entries else e :: unseen (key e :: seen) entries

/-- What `append` is going to write. -/
def toAppend (file : Option Bytes) (entries : List HeldEntry) : Except PinError (List HeldEntry) :=
  if entries = [] then .ok []
  else do
    let existing ← loadPeer json file
    return unseen (existing.map key) entries

def line (e : HeldEntry) : Bytes := strBytes (json.toString e) ++ [10]

def body (entries : List HeldEntry) : Bytes := entries.flatMap (line json)

def extend (file : Option Bytes) (bytes : Bytes) : Option Bytes := some (file.getD [] ++ bytes)

def append (file : Option Bytes) (entries : List HeldEntry) : Except PinError (Option Bytes) := do
  let new ← toAppend json file entries
  if new = [] then return file
  return extend file (body json new)

/-! ## Interrupted appends -/

/-- A call of `append` that may stop after some of its bytes. -/
structure Attempt where
  entries : List HeldEntry
  stopsAfter : Option Nat

def Attempt.reached (a : Attempt) (bytes : Bytes) : Bytes :=
  match a.stopsAfter with
  | some n => bytes.take n
  | none => bytes

/-- The entries whose line is within the first bytes of a body. -/
def fullLines : Nat → List HeldEntry → List HeldEntry
  | _, [] => []
  | n, e :: entries =>
    if (line json e).length ≤ n then e :: fullLines (n - (line json e).length) entries else []

/-- The file of a peer, and the entries whose full line was written to it. -/
structure State where
  file : Option Bytes
  written : List HeldEntry
  deriving DecidableEq

def State.attempt (s : State) (a : Attempt) : State :=
  match toAppend json s.file a.entries with
  | .error _ => s
  | .ok new =>
    if new = [] then s
    else
      let bytes := a.reached (body json new)
      ⟨extend s.file bytes, s.written ++ fullLines json bytes.length new⟩

end Code

/-! ## What is assumed of `serde_json` -/

/-- One or more non-empty beginnings of entries, one behind the other. -/
inductive Pieces (json : Json) : Bytes → Prop
  | one {p : Bytes} {e : HeldEntry} (hne : p ≠ []) (hp : p <+: strBytes (json.toString e)) : Pieces json p
  | more {t p : Bytes} {e : HeldEntry} (ht : Pieces json t) (hne : p ≠ [])
      (hp : p <+: strBytes (json.toString e)) : Pieces json (t ++ p)

/-- An entry is a JSON object on one line; text that goes on behind the beginning of an entry with
the beginning of another is none. -/
structure Json.Lawful (json : Json) : Prop where
  reads : ∀ e, json.fromStr (strBytes (json.toString e)) = .ok e
  opens : ∀ e, (strBytes (json.toString e)).head? = some 0x7B
  closes : ∀ e, (strBytes (json.toString e)).getLast? = some 0x7D
  oneLine : ∀ e, 10 ∉ strBytes (json.toString e)
  glued : ∀ t p e, Pieces json t → p ≠ [] → p <+: strBytes (json.toString e) →
    ∃ reason, json.fromStr (t ++ p) = .error reason

variable {entries written : List HeldEntry} {t l : Bytes}

section Lawful

variable {json : Json} (hjson : json.Lawful)
include hjson

theorem Json.Lawful.ne_nil (e : HeldEntry) : strBytes (json.toString e) ≠ [] := by
  intro h
  have hopens := hjson.opens e
  rw [h] at hopens
  cases hopens

theorem Json.Lawful.piece_opens {p : Bytes} {e : HeldEntry} (hne : p ≠ [])
    (hp : p <+: strBytes (json.toString e)) : p.head? = some 0x7B := by
  obtain ⟨b, p', rfl⟩ := exists_cons_of_ne_nil hne
  obtain ⟨rest, hrest⟩ := hp
  have hopens := hjson.opens e
  rw [← hrest] at hopens
  exact hopens

theorem Pieces.opens (h : Pieces json t) : t.head? = some 0x7B := by
  induction h with
  | one hne hp => exact hjson.piece_opens hne hp
  | more ht hne hp ih => rw [head?_append, ih, Option.some_or]

theorem Pieces.oneLine (h : Pieces json t) : 10 ∉ t := by
  induction h with
  | @one p e hne hp => exact fun hmem => hjson.oneLine e (hp.subset hmem)
  | @more t p e ht hne hp ih =>
    rw [mem_append, not_or]
    exact ⟨ih, fun hmem => hjson.oneLine e (hp.subset hmem)⟩

end Lawful

/-! ## Lines of a file -/

theorem linesFrom_append (h : 10 ∉ l) (acc rest : Bytes) :
    linesFrom acc (l ++ 10 :: rest) = stripCr (acc ++ l) :: lines rest := by
  induction l generalizing acc with
  | nil => simp [linesFrom, lines]
  | cons b l ih =>
    rw [mem_cons, not_or] at h
    rw [cons_append, linesFrom, if_neg (Ne.symm h.1), ih h.2]
    simp

theorem lines_append (h : 10 ∉ l) (rest : Bytes) :
    lines (l ++ 10 :: rest) = stripCr l :: lines rest :=
  linesFrom_append h [] rest

theorem lines_eq_nil {text : Bytes} : lines text = [] ↔ text = [] := by
  have hfrom : ∀ (text acc : Bytes), acc ≠ [] → linesFrom acc text ≠ [] := by
    intro text
    induction text with
    | nil => intro acc hacc; simp [linesFrom, hacc]
    | cons b text ih =>
      intro acc hacc
      rw [linesFrom]
      split
      · simp
      · exact ih _ (by simp)
  constructor
  · intro h
    cases text with
    | nil => rfl
    | cons b text =>
      rw [lines, linesFrom] at h
      split at h
      · cases h
      · exact absurd h (hfrom text _ (by simp))
  · rintro rfl
    rfl

theorem stripCr_of_closes (h : l.getLast? = some 0x7D) : stripCr l = l := by
  rw [stripCr, h]
  exact if_neg (by decide)

theorem isBlank_of_opens (h : l.head? = some 0x7B) : isBlank l = false := by
  rw [isBlank]
  cases hs : fromUtf8 l with
  | none => rfl
  | some s =>
    obtain rfl : l = strBytes s := fromUtf8_eq_some.1 hs
    obtain ⟨cs, rfl⟩ : ∃ cs, s = String.ofList cs := ⟨s.toList, by simp⟩
    rw [strBytes_ofList] at h
    cases cs with
    | nil => cases h
    | cons c =>
      have hne : String.utf8EncodeChar c ≠ [] := by
        rw [String.utf8EncodeChar]
        split_ifs <;> simp
      have hcode : c.toNat = 0x7B := by
        rw [flatMap_cons, head?_append_of_ne_nil _ hne] at h
        exact toNat_of_mem_utf8EncodeChar (by decide) (mem_of_head? h)
      simp [isWhitespace, hcode]

section Loading

variable {json : Json}

theorem body_cons (e : HeldEntry) (entries : List HeldEntry) :
    body json (e :: entries) = strBytes (json.toString e) ++ 10 :: body json entries := by
  simp [body, line]

theorem body_append (xs ys : List HeldEntry) : body json (xs ++ ys) = body json xs ++ body json ys := by
  simp [body]

theorem body_eq_nil : body json entries = [] ↔ entries = [] := by
  cases entries with
  | nil => simp [body]
  | cons => simp [body_cons]

theorem getLast?_body (h : entries ≠ []) : (body json entries).getLast? = some 10 := by
  obtain ⟨front, e, rfl⟩ := eq_nil_or_concat' entries |>.resolve_left h
  simp [body, line]

theorem strBytes_append (s t : String) : strBytes (s ++ t) = strBytes s ++ strBytes t := by
  simp [strBytes]

theorem fromUtf8_body (entries : List HeldEntry) : (fromUtf8 (body json entries)).isSome := by
  have hex : ∃ s, body json entries = strBytes s := by
    induction entries with
    | nil => exact ⟨"", rfl⟩
    | cons e entries ih =>
      obtain ⟨s, hs⟩ := ih
      refine ⟨json.toString e ++ "\n" ++ s, ?_⟩
      rw [body_cons, hs, strBytes_append, strBytes_append]
      simp [show strBytes "\n" = [10] by decide]
  obtain ⟨s, hs⟩ := hex
  rw [hs, show fromUtf8 (strBytes s) = some s from fromUtf8_eq_some.2 rfl]
  rfl

theorem lines_body (hjson : json.Lawful) (entries : List HeldEntry) (rest : Bytes) :
    lines (body json entries ++ rest) = entries.map (fun e => strBytes (json.toString e)) ++ lines rest := by
  induction entries with
  | nil => rfl
  | cons e entries ih =>
    rw [body_cons, append_assoc, cons_append, lines_append (hjson.oneLine e),
      stripCr_of_closes (hjson.closes e), ih]
    rfl

theorem loadLines_entries (hjson : json.Lawful) (torn : Bool) (entries : List HeldEntry) (i : Nat)
    (rest : List Bytes) :
    loadLines json torn i (entries.map (fun e => strBytes (json.toString e)) ++ rest) =
      (loadLines json torn (i + entries.length) rest).map (entries ++ ·) := by
  induction entries generalizing i with
  | nil =>
    cases h : loadLines json torn i rest <;> simp [h, Except.map]
  | cons e entries ih =>
    rw [map_cons, cons_append, loadLines, isBlank_of_opens (hjson.opens e), hjson.reads e, ih]
    have hindex : i + 1 + entries.length = i + (e :: entries).length := by
      rw [length_cons]
      omega
    rw [hindex]
    cases loadLines json torn (i + (e :: entries).length) rest <;> simp [Except.map]

variable {file : Option Bytes}

theorem loadPeer_body (hjson : json.Lawful)
    (h : file.getD [] = body json entries) : loadPeer json file = .ok entries := by
  cases file with
  | none =>
    obtain rfl := body_eq_nil.1 h.symm
    rfl
  | some bytes =>
    obtain rfl : bytes = body json entries := h
    have hlines := lines_body hjson entries []
    rw [append_nil] at hlines
    rw [loadPeer, if_pos (fromUtf8_body entries), hlines, loadLines_entries hjson]
    simp [lines, linesFrom, loadLines, Except.map]

theorem loadPeer_broken (hjson : json.Lawful) (entries : List HeldEntry) (rest : Bytes)
    {reason : String} (hline : 10 ∉ t) (hopens : t.head? = some 0x7B) (hcloses : t.getLast? = some 0x7D)
    (hbad : json.fromStr t = .error reason) :
    ∃ e, loadPeer json (some (body json entries ++ (t ++ 10 :: rest))) = .error e := by
  rw [loadPeer]
  generalize htorn : decide ((body json entries ++ (t ++ 10 :: rest)) ≠ [] ∧
    (body json entries ++ (t ++ 10 :: rest)).getLast? ≠ some 10) = torn
  by_cases hutf8 : (fromUtf8 (body json entries ++ (t ++ 10 :: rest))).isSome
  · rw [if_pos hutf8, lines_body hjson, lines_append hline, stripCr_of_closes hcloses,
      loadLines_entries hjson, loadLines, isBlank_of_opens hopens, hbad]
    -- the line is the last one only if the file ends with its line feed
    have hnot : ¬ (lines rest = [] ∧ torn = true) := by
      rintro ⟨hlast, htrue⟩
      obtain rfl := lines_eq_nil.1 hlast
      rw [← htorn, decide_eq_true_eq] at htrue
      refine htrue.2 ?_
      simp
    simp only [if_neg hnot]
    exact ⟨_, rfl⟩
  · rw [if_neg hutf8]
    exact ⟨_, rfl⟩

/-! ## The entries on record -/

theorem unseen_congr {seen seen' : List (String × String)} (h : ∀ k, k ∈ seen ↔ k ∈ seen')
    (entries : List HeldEntry) : unseen seen entries = unseen seen' entries := by
  induction entries generalizing seen seen' with
  | nil => rfl
  | cons e entries ih =>
    have hcons : ∀ k, k ∈ key e :: seen ↔ k ∈ key e :: seen' := by simp [h]
    rw [unseen, unseen, ih h, ih hcons]
    simp only [h]

theorem any_same_iff (written : List HeldEntry) (e : HeldEntry) :
    (written.any fun x => x.path = e.path && x.remoteManifestId = e.remoteManifestId) = true ↔
      key e ∈ written.map key := by
  simp [key]

theorem append_unseen (written entries : List HeldEntry) :
    written ++ unseen (written.map key) entries = appendHeld written entries := by
  induction entries generalizing written with
  | nil => simp [unseen, appendHeld]
  | cons e entries ih =>
    rw [unseen, appendHeld, foldl_cons]
    by_cases hmem : key e ∈ written.map key
    · rw [if_pos hmem, if_pos ((any_same_iff written e).2 hmem), ih]
      rfl
    have hkeys : ∀ k, k ∈ key e :: written.map key ↔ k ∈ (written ++ [e]).map key := by
      simp [or_comm]
    rw [if_neg hmem, if_neg (fun hany => hmem ((any_same_iff written e).1 hany)), unseen_congr hkeys]
    have hrest := ih (written ++ [e])
    rw [append_assoc] at hrest
    exact hrest

theorem nodup_appendHeld (h : (written.map key).Nodup)
    (entries : List HeldEntry) : ((appendHeld written entries).map key).Nodup := by
  induction entries generalizing written with
  | nil => exact h
  | cons e entries ih =>
    rw [appendHeld, foldl_cons]
    split
    · exact ih h
    next hnot =>
    refine ih ?_
    rw [any_same_iff] at hnot
    rw [map_append, map_singleton, ← concat_eq_append]
    exact h.concat hnot

theorem toAppend_body (hjson : json.Lawful)
    (h : file.getD [] = body json written) (entries : List HeldEntry) :
    toAppend json file entries = .ok (unseen (written.map key) entries) := by
  rw [toAppend]
  by_cases hnil : entries = []
  · subst hnil
    rfl
  · rw [if_neg hnil, loadPeer_body hjson h]
    rfl

theorem append_body (hjson : json.Lawful) (h : file.getD [] = body json written) (entries : List HeldEntry) :
    ∃ file', append json file entries = .ok file' ∧
      file'.getD [] = body json (written ++ unseen (written.map key) entries) := by
  rw [append, toAppend_body hjson h, body_append, ← h]
  by_cases hnil : unseen (written.map key) entries = []
  · refine ⟨file, if_pos hnil, ?_⟩
    rw [hnil, body_eq_nil.2 rfl, append_nil]
  · exact ⟨_, if_neg hnil, rfl⟩

end Loading

/-! ## Runs of interrupted appends -/

def AtLineEnd (bytes : Bytes) : Prop := bytes = [] ∨ bytes.getLast? = some 10

section Runs

variable {json : Json} {s : State} {a : Attempt}

/-- What reaches the file stops at the end of a line. -/
def State.WholeLines (json : Json) (s : State) (a : Attempt) : Prop :=
  ∀ new, toAppend json s.file a.entries = .ok new → AtLineEnd (a.reached (body json new))

/-- A later `append` and `load_peer` succeed, and give the entries written in full and then the new
ones, each path and manifest once. -/
def State.Survives (json : Json) (s : State) : Prop :=
  ∀ new, ∃ file, append json s.file new = .ok file ∧
    loadPeer json file = .ok (s.written ++ unseen (s.written.map key) new) ∧
    ((s.written ++ unseen (s.written.map key) new).map key).Nodup

theorem Attempt.reached_prefix (a : Attempt) (bytes : Bytes) : a.reached bytes <+: bytes := by
  rw [reached]
  cases a.stopsAfter with
  | none => exact prefix_rfl
  | some n => exact take_prefix n bytes

/-- The first bytes of a body: whole lines, and maybe the beginning of an entry. -/
theorem prefix_body {w : Bytes} (h : w <+: body json entries) :
    ∃ n t, w = body json (entries.take n) ++ t ∧ fullLines json w.length entries = entries.take n ∧
      (t = [] ∨ t ≠ [] ∧ ∃ e, t <+: strBytes (json.toString e)) := by
  induction entries generalizing w with
  | nil =>
    obtain rfl := prefix_nil.1 h
    exact ⟨0, [], rfl, rfl, .inl rfl⟩
  | cons e entries ih =>
    rw [fullLines]
    by_cases hlen : (line json e).length ≤ w.length
    · obtain ⟨w', rfl⟩ := prefix_of_prefix_length_le (prefix_append _ _) h hlen
      obtain ⟨n, t, rfl, hfull, ht⟩ := ih ((prefix_append_right_inj _).1 h)
      refine ⟨n + 1, t, ?_, ?_, ht⟩
      · simp [body]
      · rw [if_pos hlen, length_append, Nat.add_sub_cancel_left, hfull]
        rfl
    refine ⟨0, w, rfl, if_neg hlen, ?_⟩
    by_cases hnil : w = []
    · exact .inl hnil
    refine .inr ⟨hnil, e, ?_⟩
    have hline : w <+: line json e :=
      prefix_of_prefix_length_le h (prefix_append _ _) (by omega)
    refine prefix_of_prefix_length_le hline (prefix_append _ _) ?_
    rw [line, length_append] at hlen
    simp only [length_singleton] at hlen
    omega

theorem atLineEnd_iff (hjson : json.Lawful) (ht : t = [] ∨ t ≠ [] ∧ ∃ e, t <+: strBytes (json.toString e)) :
    AtLineEnd (body json entries ++ t) ↔ t = [] := by
  constructor
  · intro hend
    refine ht.resolve_right ?_
    rintro ⟨hne, e, hpre⟩
    rcases hend with hnil | hlast
    · exact hne (append_eq_nil_iff.1 hnil).2
    · rw [getLast?_append_of_ne_nil _ hne] at hlast
      exact hjson.oneLine e (hpre.subset (mem_of_getLast? hlast))
  · rintro rfl
    rw [append_nil]
    by_cases hnil : entries = []
    · exact .inl (body_eq_nil.2 hnil)
    · exact .inr (getLast?_body hnil)

/-- The file is the lines of the entries written, each path and manifest once. -/
def State.Clean (json : Json) (s : State) : Prop :=
  s.file.getD [] = body json s.written ∧ (s.written.map key).Nodup

/-- The file ends in the middle of a line, or has a line that is no entry. -/
inductive State.Spoiled (json : Json) (s : State) : Prop
  | torn (entries : List HeldEntry) (t : Bytes) (hfile : s.file = some (body json entries ++ t))
      (ht : Pieces json t)
  | broken (entries : List HeldEntry) (t rest : Bytes) (reason : String)
      (hfile : s.file = some (body json entries ++ (t ++ 10 :: rest))) (ht : Pieces json t)
      (hcloses : t.getLast? = some 0x7D) (hbad : json.fromStr t = .error reason)

theorem State.Clean.survives (hjson : json.Lawful) (h : s.Clean json) : s.Survives json := by
  intro new
  obtain ⟨file, happend, hfile⟩ := append_body hjson h.1 new
  refine ⟨file, happend, loadPeer_body hjson hfile, ?_⟩
  rw [append_unseen]
  exact nodup_appendHeld h.2 new

theorem State.attempt_of_error {e : PinError} (h : toAppend json s.file a.entries = .error e) :
    s.attempt json a = s := by
  simp only [State.attempt, h]

theorem State.attempt_of_nil (h : toAppend json s.file a.entries = .ok []) : s.attempt json a = s := by
  simp only [State.attempt, h, if_true]

theorem State.attempt_of_ok {new : List HeldEntry} (h : toAppend json s.file a.entries = .ok new)
    (hne : new ≠ []) :
    s.attempt json a = ⟨extend s.file (a.reached (body json new)),
      s.written ++ fullLines json (a.reached (body json new)).length new⟩ := by
  simp only [State.attempt, h, if_neg hne]

section
variable (hjson : json.Lawful)
include hjson

/-- The step lemma while appends stop at the end of a line. -/
theorem State.Clean.attempt (h : s.Clean json) (hwhole : s.WholeLines json a) :
    (s.attempt json a).Clean json := by
  have hnew := toAppend_body hjson h.1 a.entries
  have hend := hwhole _ hnew
  have hnodup := nodup_appendHeld h.2 a.entries
  rw [← append_unseen] at hnodup
  generalize unseen (s.written.map key) a.entries = new at hnew hend hnodup
  by_cases hnil : new = []
  · subst hnil
    rw [State.attempt_of_nil hnew]
    exact h
  rw [State.attempt_of_ok hnew hnil]
  obtain ⟨n, t, hreached, hfull, ht⟩ := prefix_body (a.reached_prefix (body json new))
  rw [hreached, atLineEnd_iff hjson ht] at hend
  subst hend
  rw [append_nil] at hreached
  constructor
  · show s.file.getD [] ++ a.reached (body json new) = body json (s.written ++ fullLines json _ new)
    rw [hfull, hreached, body_append, h.1]
  · show ((s.written ++ fullLines json _ new).map key).Nodup
    rw [hfull]
    exact hnodup.sublist (((List.Sublist.refl _).append (take_sublist n new)).map key)

theorem State.Clean.spoiled (h : s.Clean json) (hnot : ¬ s.WholeLines json a) :
    (s.attempt json a).Spoiled json := by
  have hnew := toAppend_body hjson h.1 a.entries
  have hend : ¬ AtLineEnd (a.reached (body json (unseen (s.written.map key) a.entries))) := by
    intro hend
    refine hnot fun new hnew' => ?_
    obtain rfl := Except.ok.inj (hnew.symm.trans hnew')
    exact hend
  generalize unseen (s.written.map key) a.entries = new at hnew hend
  obtain ⟨n, t, hreached, -, ht⟩ := prefix_body (a.reached_prefix (body json new))
  rw [hreached, atLineEnd_iff hjson ht] at hend
  obtain ⟨hne, e, hpre⟩ := ht.resolve_left hend
  have hnil : new ≠ [] := by
    rintro rfl
    have hempty : a.reached (body json []) = [] := prefix_nil.1 (a.reached_prefix [])
    rw [hempty] at hreached
    exact hne (append_eq_nil_iff.1 hreached.symm).2
  rw [State.attempt_of_ok hnew hnil]
  refine .torn (s.written ++ new.take n) t ?_ (.one hne hpre)
  show some (s.file.getD [] ++ a.reached (body json new)) = _
  rw [hreached, h.1, body_append, append_assoc]

theorem loadPeer_glued (entries : List HeldEntry) (ht : Pieces json t)
    (e : HeldEntry) : ∃ err, loadPeer json (some (body json entries ++ t ++ body json [e])) = .error err := by
  have hne := hjson.ne_nil e
  have hpieces : Pieces json (t ++ strBytes (json.toString e)) := .more ht hne prefix_rfl
  obtain ⟨reason, hbad⟩ := hjson.glued t _ e ht hne prefix_rfl
  have hcloses : (t ++ strBytes (json.toString e)).getLast? = some 0x7D := by
    rw [getLast?_append_of_ne_nil _ hne]
    exact hjson.closes e
  obtain ⟨err, herror⟩ := loadPeer_broken hjson entries [] (hpieces.oneLine hjson) (hpieces.opens hjson)
    hcloses hbad
  refine ⟨err, ?_⟩
  rw [← herror, body_cons]
  simp [body]

theorem State.spoiled_of_torn {new : List HeldEntry} {w : Bytes}
    (ht : Pieces json t) (hw : w <+: body json new) :
    State.Spoiled json ⟨some (body json entries ++ t ++ w), written⟩ := by
  obtain ⟨n, t', rfl, -, ht'⟩ := prefix_body hw
  cases hnew : new.take n with
  | nil =>
    rcases ht' with rfl | ⟨hne, e, hpre⟩
    · exact .torn entries t (by simp [body]) ht
    · exact .torn entries (t ++ t') (by simp [body]) (.more ht hne hpre)
  | cons e more =>
    -- the first line written completes the torn one
    have hne := hjson.ne_nil e
    obtain ⟨reason, hbad⟩ := hjson.glued t _ e ht hne prefix_rfl
    refine .broken entries (t ++ strBytes (json.toString e)) (body json more ++ t') reason ?_
      (.more ht hne prefix_rfl) ?_ hbad
    · simp [body_cons]
    · rw [getLast?_append_of_ne_nil _ hne]
      exact hjson.closes e

/-- The step lemma once one has not: the file stays spoiled. -/
theorem State.Spoiled.attempt (h : s.Spoiled json) : (s.attempt json a).Spoiled json := by
  cases hnew : toAppend json s.file a.entries with
  | error =>
    rw [State.attempt_of_error hnew]
    exact h
  | ok new =>
    by_cases hnil : new = []
    · subst hnil
      rw [State.attempt_of_nil hnew]
      exact h
    rw [State.attempt_of_ok hnew hnil]
    cases h with
    | torn entries t hfile ht =>
      rw [hfile]
      exact State.spoiled_of_torn hjson ht (a.reached_prefix _)
    | broken entries t rest reason hfile ht hcloses hbad =>
      obtain ⟨e, herror⟩ := loadPeer_broken hjson entries rest (ht.oneLine hjson) (ht.opens hjson)
        hcloses hbad
      rw [toAppend, hfile, herror] at hnew
      split at hnew
      · cases hnew
        exact absurd rfl hnil
      · cases hnew

end

theorem exists_unseen (seen : List (String × String)) : ∃ e, key e ∉ seen := by
  obtain ⟨n, hn⟩ : ∃ n, ∀ k ∈ seen, k.1.length < n := by
    induction seen with
    | nil => exact ⟨0, by simp⟩
    | cons k seen ih =>
      obtain ⟨n, hn⟩ := ih
      refine ⟨max n (k.1.length + 1), ?_⟩
      intro k' hk'
      rcases mem_cons.1 hk' with rfl | hk'
      · omega
      · have hlt := hn k' hk'
        omega
  refine ⟨⟨0, 0, String.ofList (List.replicate n 'a'), "", "", [], "", none⟩, fun hmem => ?_⟩
  have hlt := hn _ hmem
  simp [key] at hlt

/-- A spoiled ledger fails at the next append. -/
theorem State.Spoiled.not_survives (hjson : json.Lawful) (h : s.Spoiled json) : ¬ s.Survives json := by
  intro hsurvives
  cases hload : loadPeer json s.file with
  | error =>
    -- the next append fails already
    obtain ⟨e, -⟩ := exists_unseen []
    obtain ⟨file, happend, -⟩ := hsurvives [e]
    rw [append, toAppend, hload] at happend
    cases happend
  | ok existing =>
    obtain ⟨e, he⟩ := exists_unseen (existing.map key)
    obtain ⟨file, happend, hloaded, -⟩ := hsurvives [e]
    have hnew : toAppend json s.file [e] = .ok [e] := by
      rw [toAppend, hload]
      show Except.ok (unseen (existing.map key) [e]) = _
      rw [unseen, if_neg he, unseen]
    have hfile : file = extend s.file (body json [e]) := by
      rw [append, hnew] at happend
      exact (Except.ok.inj happend).symm
    cases h with
    | torn entries t hs ht =>
      obtain ⟨err, herror⟩ := loadPeer_glued hjson entries ht e
      rw [hfile, hs, extend, Option.getD_some, herror] at hloaded
      cases hloaded
    | broken entries t rest reason hs ht hcloses hbad =>
      obtain ⟨err, herror⟩ := loadPeer_broken hjson entries rest (ht.oneLine hjson) (ht.opens hjson)
        hcloses hbad
      rw [hs, herror] at hload
      cases hload

open Interleave in
/-- After any appends, whole or interrupted, the ledger survives exactly if the bytes of each of them
stop at the end of a line. -/
theorem survives_iff_wholeLines (json : Json) (hjson : json.Lawful) (attempts : List Attempt) (s : State)
    (hrun : run (fun s a => some (State.attempt json s a)) ⟨none, []⟩ attempts = some s) :
    s.Survives json ↔
      Along (fun s a => some (State.attempt json s a)) (State.WholeLines json) ⟨none, []⟩ attempts := by
  have hstart : State.Clean json ⟨none, []⟩ := ⟨rfl, nodup_nil⟩
  have hclean : ∀ s a s', State.Clean json s → s.WholeLines json a → some (s.attempt json a) = some s' →
      s'.Clean json := by
    rintro s a s' hs hwhole hstep
    cases hstep
    exact hs.attempt hjson hwhole
  constructor
  · intro hsurvives
    by_contra hnot
    obtain ⟨before, a, after, s₁, s₂, rfl, hbefore, hmet, hstep, hmiss, hafter⟩ :=
      exists_of_not_along hrun hnot
    cases hstep
    have hspoiled := (hmet.invariant hclean hstart hbefore).spoiled hjson hmiss
    have hend : s.Spoiled json := by
      refine run_invariant (I := State.Spoiled json) ?_ hspoiled hafter
      rintro s a s' hs hstep
      cases hstep
      exact hs.attempt hjson
    exact hend.not_survives hjson hsurvives
  · intro hwhole
    exact (hwhole.invariant hclean hstart hrun).survives hjson

end Runs

/-! ## A sample -/

section Sample

def textRow (s : String) : List Nat := s.toList.map Char.toNat

def rowText (row : List Nat) : String := String.ofList (row.map Char.ofNat)

theorem rowText_textRow (s : String) : rowText (textRow s) = s := by
  have hchars : (textRow s).map Char.ofNat = s.toList := by
    rw [textRow, map_map]
    exact (map_congr_left fun c _ => Char.ofNat_toNat c).trans (map_id _)
  rw [rowText, hchars, String.ofList_toList]

/-- The entry as rows of numbers: its times, its texts as code points, and a row for each chunk. -/
def toRows (e : HeldEntry) : List (List Nat) :=
  (match e.heldSec with
    | .ofNat n => [0, n, e.heldNsec]
    | .negSucc n => [1, n, e.heldNsec]) ::
  textRow e.path :: textRow e.deviceId :: textRow e.remoteManifestId :: textRow e.decision ::
  (match e.conflictWinner with
    | none => []
    | some winner => 0 :: textRow winner) ::
  e.chunks.map fun chunk => chunk.2 :: textRow chunk.1

def ofRows : List (List Nat) → Option HeldEntry
  | [sign, n, nsec] :: path :: device :: remote :: decision :: winner :: chunks => some
    { heldSec := if sign = 0 then .ofNat n else .negSucc n
      heldNsec := nsec
      path := rowText path
      deviceId := rowText device
      remoteManifestId := rowText remote
      chunks := chunks.map fun row => (rowText row.tail, row.headD 0)
      decision := rowText decision
      conflictWinner := if winner = [] then none else some (rowText winner.tail) }
  | _ => none

theorem ofRows_toRows (e : HeldEntry) : ofRows (toRows e) = some e := by
  obtain ⟨sec, nsec, path, device, remote, chunks, decision, winner⟩ := e
  have hchunks : (chunks.map fun chunk => chunk.2 :: textRow chunk.1).map
      (fun row => (rowText row.tail, row.headD 0)) = chunks := by
    rw [map_map]
    refine (map_congr_left fun chunk _ => ?_).trans (map_id _)
    exact congrArg (·, chunk.2) (rowText_textRow chunk.1)
  cases sec <;> cases winner <;> simp only [toRows, ofRows, tail_cons, rowText_textRow, hchunks] <;> rfl

def digitBytes (n : Nat) : Bytes := (Nat.digits 10 n).map fun d => UInt8.ofNat (48 + d)

/-- Every number ends with a comma, every row with a semicolon. -/
def rowsBytes (rows : List (List Nat)) : Bytes :=
  rows.flatMap fun row => row.flatMap (fun n => digitBytes n ++ [0x2C]) ++ [0x3B]

/-- Reads from inside a row, with the digits and the numbers passed so far. -/
def readRows (digits row : List Nat) : Bytes → List (List Nat)
  | [] => []
  | b :: rest =>
    if b = 0x2C then readRows [] (row ++ [Nat.ofDigits 10 digits]) rest
    else if b = 0x3B then row :: readRows [] [] rest
    else readRows (digits ++ [b.toNat - 48]) row rest

theorem readRows_digits {ds : List Nat} (h : ∀ d ∈ ds, d < 10) (digits row : List Nat) (rest : Bytes) :
    readRows digits row (ds.map (fun d => UInt8.ofNat (48 + d)) ++ rest) = readRows (digits ++ ds) row rest := by
  induction ds generalizing digits with
  | nil => rw [map_nil, nil_append, append_nil]
  | cons d ds ih =>
    have hd : (UInt8.ofNat (48 + d)).toNat = 48 + d := by
      have := h d mem_cons_self
      rw [UInt8.toNat_ofNat']
      omega
    have hcomma : UInt8.ofNat (48 + d) ≠ 0x2C := by
      intro hb
      have hn : 48 + d = 44 := hd.symm.trans (congrArg UInt8.toNat hb)
      omega
    have hsemicolon : UInt8.ofNat (48 + d) ≠ 0x3B := by
      intro hb
      have hn : 48 + d = 59 := hd.symm.trans (congrArg UInt8.toNat hb)
      have hlt := h d mem_cons_self
      omega
    rw [map_cons, cons_append, readRows, if_neg hcomma, if_neg hsemicolon, hd, Nat.add_sub_cancel_left,
      ih fun d' hd' => h d' (mem_cons_of_mem _ hd')]
    simp

theorem readRows_row (ns row : List Nat) (rest : Bytes) :
    readRows [] row (ns.flatMap (fun n => digitBytes n ++ [0x2C]) ++ rest) = readRows [] (row ++ ns) rest := by
  induction ns generalizing row with
  | nil => rw [flatMap_nil, nil_append, append_nil]
  | cons n ns ih =>
    have hlt : ∀ d ∈ Nat.digits 10 n, d < 10 := fun d hd => Nat.digits_lt_base (by decide) hd
    rw [flatMap_cons, append_assoc, append_assoc, digitBytes, readRows_digits hlt, nil_append, cons_append,
      readRows, if_pos rfl, Nat.ofDigits_digits, nil_append, ih, append_assoc]
    rfl

theorem readRows_rowsBytes (rows : List (List Nat)) : readRows [] [] (rowsBytes rows) = rows := by
  induction rows with
  | nil => rfl
  | cons row rows ih =>
    rw [rowsBytes, flatMap_cons, append_assoc, readRows_row, nil_append, cons_append, nil_append, readRows,
      if_neg (by decide), if_pos rfl]
    exact congrArg _ ih

theorem ascii_rowsBytes {rows : List (List Nat)} {b : UInt8} (h : b ∈ rowsBytes rows) :
    43 < b.toNat ∧ b.toNat < 60 := by
  simp only [rowsBytes, digitBytes, mem_flatMap, mem_append, mem_map, mem_singleton] at h
  obtain ⟨row, -, ⟨n, -, ⟨d, hd, rfl⟩ | rfl⟩ | rfl⟩ := h
  · have := Nat.digits_lt_base (b := 10) (by decide) hd
    rw [UInt8.toNat_ofNat']
    omega
  · decide
  · decide

def entryBytes (e : HeldEntry) : Bytes := 0x7B :: (rowsBytes (toRows e) ++ [0x7D])

/-- Entries as tables of decimal numbers in braces; a second opening brace is refused. -/
def sampleJson : Json where
  toString e := String.ofList ((entryBytes e).map fun b => Char.ofNat b.toNat)
  fromStr
    | 0x7B :: text =>
      if 0x7B ∉ text ∧ text.getLast? = some 0x7D then
        match ofRows (readRows [] [] text.dropLast) with
        | some e => .ok e
        | none => .error "missing field"
      else .error "expected value"
    | _ => .error "expected value"

theorem utf8_ascii : ∀ n : Fin 128, String.utf8EncodeChar (Char.ofNat n) = [UInt8.ofNat n] := by
  decide +kernel

theorem strBytes_entry (e : HeldEntry) : strBytes (sampleJson.toString e) = entryBytes e := by
  have hascii : ∀ b ∈ entryBytes e, String.utf8EncodeChar (Char.ofNat b.toNat) = [b] := by
    intro b hb
    have hlt : b.toNat < 128 := by
      rw [entryBytes, mem_cons, mem_append, mem_singleton] at hb
      obtain rfl | hb | rfl := hb
      · decide
      · exact (ascii_rowsBytes hb).2.trans (by decide)
      · decide
    have h := utf8_ascii ⟨b.toNat, hlt⟩
    simpa using h
  show strBytes (String.ofList _) = _
  rw [strBytes_ofList, flatMap_map]
  exact (flatMap_congr hascii).trans (flatMap_singleton' _)

theorem not_mem_tail (e : HeldEntry) : 0x7B ∉ rowsBytes (toRows e) ++ [0x7D] := by
  intro h
  rw [mem_append, mem_singleton] at h
  obtain h | h := h
  · exact absurd (ascii_rowsBytes h).2 (by decide)
  · exact absurd h (by decide)

theorem piece_eq_cons {p : Bytes} {e : HeldEntry} (hne : p ≠ []) (hp : p <+: strBytes (sampleJson.toString e)) :
    ∃ p', p = 0x7B :: p' := by
  obtain ⟨b, p', rfl⟩ := exists_cons_of_ne_nil hne
  obtain ⟨rest, hrest⟩ := hp
  rw [strBytes_entry] at hrest
  exact ⟨p', congrArg (· :: p') (List.cons.inj hrest).1⟩

theorem pieces_eq_cons (h : Pieces sampleJson t) : ∃ t', t = 0x7B :: t' := by
  induction h with
  | one hne hp => exact piece_eq_cons hne hp
  | more _ _ _ ih =>
    obtain ⟨t', rfl⟩ := ih
    exact ⟨_, cons_append⟩

theorem sampleJson_lawful : sampleJson.Lawful where
  reads := by
    intro e
    rw [strBytes_entry]
    show (if _ then _ else _) = _
    rw [if_pos ⟨not_mem_tail e, getLast?_concat⟩, dropLast_concat, readRows_rowsBytes, ofRows_toRows]
  opens := by
    intro e
    rw [strBytes_entry]
    rfl
  closes := by
    intro e
    rw [strBytes_entry, entryBytes, ← cons_append, getLast?_concat]
  oneLine := by
    intro e
    rw [strBytes_entry, entryBytes, mem_cons, mem_append, mem_singleton]
    rintro (h | h | h)
    · exact absurd h (by decide)
    · exact absurd (ascii_rowsBytes h).1 (by decide)
    · exact absurd h (by decide)
  glued := by
    intro t p e ht hne hp
    obtain ⟨t', rfl⟩ := pieces_eq_cons ht
    obtain ⟨p', rfl⟩ := piece_eq_cons hne hp
    have hsecond : 0x7B ∈ t' ++ 0x7B :: p' := mem_append_right _ mem_cons_self
    exact ⟨_, if_neg fun h => h.1 hsecond⟩

def sampleEntry (path : String) : HeldEntry :=
  ⟨1787574000, 5, path, "bb", "cc", [("dd", 7)], "conflict", some "local"⟩

/-- The first append stops after one byte; the second one succeeds, and the ledger is lost. -/
theorem torn_append_spoils :
    ∃ s file, Interleave.run (fun s a => some (State.attempt sampleJson s a)) ⟨none, []⟩
        [⟨[sampleEntry "a.rs"], some 1⟩] = some s ∧
      append sampleJson s.file [sampleEntry "b.rs"] = .ok file ∧
      (∃ e, loadPeer sampleJson file = .error e) ∧ ¬ s.Survives sampleJson := by
  have happend : append sampleJson (some [0x7B]) [sampleEntry "b.rs"] =
      .ok (some ([0x7B] ++ body sampleJson [sampleEntry "b.rs"])) := by decide +kernel
  have hlost : loadPeer sampleJson (some ([0x7B] ++ body sampleJson [sampleEntry "b.rs"])) =
      .error (.ledgerCorrupt 1 "expected value") := by decide +kernel
  refine ⟨⟨some [0x7B], []⟩, _, by decide +kernel, happend, ⟨_, hlost⟩, ?_⟩
  intro hsurvives
  obtain ⟨file, hfile, hload, -⟩ := hsurvives [sampleEntry "b.rs"]
  obtain rfl : file = some ([0x7B] ++ body sampleJson [sampleEntry "b.rs"]) :=
    Except.ok.inj (hfile.symm.trans happend)
  rw [hlost] at hload
  cases hload

/-- An append that goes through, and one that stops before its first byte. -/
def sampleAttempts : List Attempt := [⟨[sampleEntry "a.rs"], none⟩, ⟨[sampleEntry "b.rs"], some 0⟩]

theorem whole_lines_survive :
    ∃ s, Interleave.run (fun s a => some (State.attempt sampleJson s a)) ⟨none, []⟩ sampleAttempts = some s ∧
      s.Survives sampleJson := by
  refine ⟨_, rfl, (survives_iff_wholeLines sampleJson sampleJson_lawful sampleAttempts _ rfl).2 ?_⟩
  refine ⟨fun new _ => ?_, ?_⟩
  · by_cases hnil : new = []
    · exact .inl (body_eq_nil.2 hnil)
    · exact .inr (getLast?_body hnil)
  · intro s' _
    exact ⟨fun new _ => .inl rfl, fun _ _ => trivial⟩

end Sample

end HeldLedger

end Ferry
