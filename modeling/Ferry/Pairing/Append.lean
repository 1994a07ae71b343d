import Ferry.Lib.Interleave
import Ferry.Pairing.KeyEnvelopes
import Mathlib.Data.Fintype.Card
import Mathlib.Logic.Function.Basic

/-!
# Adding envelopes at the same time

`append_wrap_entry_for` reads `CONFIG_HEAD`, adds an entry, writes the whole file to a
temp file and renames it over the old one.  Every call uses the same temp name.  The
model has the inodes behind the two names, so that a call that has opened the temp file
goes on writing to it after another call has renamed it.
-/

namespace Ferry

open Lib List Function

namespace WrapEntries

/-- What a call of `append_wrap_entry_for` brings. -/
structure Call where
  recipient : DeviceId
  wrapped : ByteArr 80

def Call.entry (c : Call) : WrappedKeyEntry := ⟨c.recipient, c.wrapped⟩

/-- How far a call is, with its variables: the bytes it has read and those it will write. -/
inductive Stage where
  | before
  | reading (inode : Nat)
  | computed (seen updated : Bytes)
  | writing (seen updated : Bytes) (inode offset : Nat)
  /-- Returned `Ok`: the device had an entry. -/
  | present
  /-- Returned `Ok` after the rename. -/
  | renamed
  | failed (e : FolderError)
deriving DecidableEq

def Stage.returned : Stage → Option (Except FolderError Unit)
  | .present | .renamed => some (.ok ())
  | .failed e => some (.error e)
  | .before | .reading _ | .computed _ _ | .writing _ _ _ _ => none

/-- The call has the temp file open or closed again, and has not renamed it. -/
def Stage.Inside : Stage → Prop
  | .writing _ _ _ _ => True
  | .before | .reading _ | .computed _ _ | .present | .renamed | .failed _ => False

structure Folder (P : Type) where
  config : Option Nat
  tmp : Option Nat
  content : Nat → Bytes
  nextInode : Nat
  stage : P → Stage

inductive Op (P : Type) where
  | openRead (p : P)
  | read (p : P)
  | openTmp (p : P)
  /-- One `write` call, which takes at most the given number of bytes. -/
  | write (p : P) (most : Nat)
  | rename (p : P)
  /-- Whatever the call does next fails with an I/O error. -/
  | fault (p : P)

/-- Bytes written at an offset of a file; a gap before it reads as zeros. -/
def overwrite (content : Bytes) (offset : Nat) (chunk : Bytes) : Bytes :=
  content.take offset ++ List.replicate (offset - content.length) 0 ++ chunk ++
    content.drop (offset + chunk.length)

/-- The texts of the operating system are left out of the messages. -/
def cannotRead : FolderError := ⟨"config-corrupt", "", "missing key envelope"⟩

def corruptEnvelope (e : ConfigHeadError) : FolderError :=
  ⟨"config-corrupt", e.text, "restore from backup"⟩

def cannotWrite : FolderError := ⟨"io", "", "cannot write config.tmp"⟩

def cannotFinalize : FolderError := ⟨"io", "", "cannot finalize config"⟩

/-- The error of an operation that fails at the stage. -/
def Stage.fault : Stage → Option FolderError
  | .before | .reading _ => some cannotRead
  | .computed _ _ => some cannotWrite
  | .writing _ updated _ offset => some (if offset < updated.length then cannotWrite else cannotFinalize)
  | .present | .renamed | .failed _ => none

variable {updated : Bytes} {offset : Nat}

theorem overwrite_take {content : Bytes} (h : content = updated.take offset)
    (hle : offset ≤ updated.length) (most : Nat) :
    overwrite content offset ((updated.drop offset).take most) =
      updated.take (offset + ((updated.drop offset).take most).length) := by
  have hlen : content.length = offset := by
    rw [h, length_take, Nat.min_eq_left hle]
  have hchunk := prefix_iff_eq_take.1 ( take_prefix most (updated.drop offset))
  generalize (updated.drop offset).take most = chunk at hchunk
  have hend : content.drop (offset + chunk.length) = [] := drop_of_length_le (by omega)
  rw [overwrite, take_of_length_le hlen.le, hlen, take_add, ← hchunk, h]
  simp

variable {P : Type}

namespace Folder

def live (f : Folder P) : Option Bytes := f.config.map f.content

def setContent (f : Folder P) (i : Nat) (bytes : Bytes) : Folder P :=
  { f with content := update f.content i bytes }

section Steps

variable [DecidableEq P] (folderId : ByteArr 16) (calls : P → Call)

def setStage (f : Folder P) (p : P) (stage : Stage) : Folder P :=
  { f with stage := update f.stage p stage }

/-- One file operation, undefined where the call is not at that point of the code. -/
def step (f : Folder P) : Op P → Option (Folder P)
  | .openRead p =>
    match f.stage p with
    | .before =>
      match f.config with
      | none => some (f.setStage p (.failed cannotRead))
      | some i => some (f.setStage p (.reading i))
    | _ => none
  | .read p =>
    match f.stage p with
    | .reading i =>
      match parseConfigHead (f.content i) with
      | .error e => some (f.setStage p (.failed (corruptEnvelope e)))
      | .ok head =>
        if head.entries.any (·.devicePub = (calls p).recipient) then some (f.setStage p .present)
        else
          some (f.setStage p (.computed (f.content i)
            (writeConfigHead folderId (head.entries ++ [(calls p).entry]))))
    | _ => none
  | .openTmp p =>
    match f.stage p with
    | .computed seen updated =>
      match f.tmp with
      -- `fs::write` truncates the file that is there
      | some i => some ((f.setContent i []).setStage p (.writing seen updated i 0))
      | none =>
        some (({ f with tmp := some f.nextInode, nextInode := f.nextInode + 1 }.setContent
          f.nextInode []).setStage p (.writing seen updated f.nextInode 0))
    | _ => none
  | .write p most =>
    match f.stage p with
    | .writing seen updated i offset =>
      let chunk := (updated.drop offset).take most
      some ((f.setContent i (overwrite (f.content i) offset chunk)).setStage p
        (.writing seen updated i (offset + chunk.length)))
    | _ => none
  | .rename p =>
    match f.stage p with
    | .writing _ updated _ offset =>
      if offset < updated.length then none
      else
        match f.tmp with
        | none => some (f.setStage p (.failed cannotFinalize))
        -- whatever file has the temp name by now
        | some i => some ({ f with config := some i, tmp := none }.setStage p .renamed)
    | _ => none
  | .fault p =>
    match (f.stage p).fault with
    | none => none
    | some e => some (f.setStage p (.failed e))

@[simp] theorem setStage_same (f : Folder P) (p : P) (stage : Stage) :
    (f.setStage p stage).stage p = stage := update_self ..

@[simp] theorem setStage_of_ne (f : Folder P) {p q : P} (h : q ≠ p) (stage : Stage) :
    (f.setStage p stage).stage q = f.stage q := update_of_ne h ..

/-- The operations that can happen, each with the point of the code it stands at. -/
inductive Does (f : Folder P) : Op P → Folder P → Prop
  | openRead {p : P} {i : Nat} (h : f.stage p = .before) (hname : f.config = some i) :
      Does f (.openRead p) (f.setStage p (.reading i))
  | found {p : P} {i : Nat} {head : ConfigHead} (h : f.stage p = .reading i)
      (hparse : parseConfigHead (f.content i) = .ok head)
      (hany : ∃ e ∈ head.entries, e.devicePub = (calls p).recipient) :
      Does f (.read p) (f.setStage p .present)
  | computes {p : P} {i : Nat} {head : ConfigHead} (h : f.stage p = .reading i)
      (hparse : parseConfigHead (f.content i) = .ok head)
      (hnone : ∀ e ∈ head.entries, e.devicePub ≠ (calls p).recipient) :
      Does f (.read p) (f.setStage p (.computed (f.content i)
        (writeConfigHead folderId (head.entries ++ [(calls p).entry]))))
  | truncates {p : P} {seen updated : Bytes} {i : Nat} (h : f.stage p = .computed seen updated)
      (htmp : f.tmp = some i) :
      Does f (.openTmp p) ((f.setContent i []).setStage p (.writing seen updated i 0))
  | creates {p : P} {seen updated : Bytes} (h : f.stage p = .computed seen updated)
      (htmp : f.tmp = none) :
      Does f (.openTmp p) (({ f with tmp := some f.nextInode, nextInode := f.nextInode + 1 }.setContent
        f.nextInode []).setStage p (.writing seen updated f.nextInode 0))
  | writes {p : P} {seen updated : Bytes} {i offset : Nat} (h : f.stage p = .writing seen updated i offset)
      (most : Nat) :
      Does f (.write p most) ((f.setContent i (overwrite (f.content i) offset
        ((updated.drop offset).take most))).setStage p
          (.writing seen updated i (offset + ((updated.drop offset).take most).length)))
  | renames {p : P} {seen updated : Bytes} {i j offset : Nat} (h : f.stage p = .writing seen updated i offset)
      (hall : updated.length ≤ offset) (htmp : f.tmp = some j) :
      Does f (.rename p) ({ f with config := some j, tmp := none }.setStage p .renamed)
  | fails {p : P} {op : Op P} (e : FolderError) : Does f op (f.setStage p (.failed e))

/-- The cases of a step. -/
theorem does_of_step {f f' : Folder P} {op : Op P} (h : f.step folderId calls op = some f') :
    Does folderId calls f op f' := by
  cases op with
  | openRead =>
    rw [step] at h
    split at h
    · next hs =>
      split at h
      · cases h; exact .fails _
      · next hname => cases h; exact .openRead hs hname
    · cases h
  | read =>
    rw [step] at h
    split at h
    · next i hs =>
      split at h
      · cases h; exact .fails _
      next head hparse =>
      split at h
      · next hany =>
        cases h
        exact .found hs hparse (by simpa using hany)
      · next hnone =>
        cases h
        exact .computes hs hparse (by simpa using hnone)
    · cases h
  | openTmp =>
    rw [step] at h
    split at h
    · next hs =>
      split at h
      · next htmp => cases h; exact .truncates hs htmp
      · next htmp => cases h; exact .creates hs htmp
    · cases h
  | write p most =>
    rw [step] at h
    split at h
    · next hs => cases h; exact .writes hs most
    · cases h
  | rename =>
    rw [step] at h
    split at h
    · next hs =>
      split at h
      · cases h
      · next hall =>
        split at h
        · cases h; exact .fails _
        · next htmp => cases h; exact .renames hs (Nat.le_of_not_lt hall) htmp
    · cases h
  | fault =>
    rw [step] at h
    split at h
    · cases h
    · cases h; exact .fails _

end Steps

/-! ## Runs that can end well -/

/-- Two calls use the temp file, or one whose temp file has lost its name. -/
def Doomed (f : Folder P) : Prop :=
  (∃ p q, p ≠ q ∧ (f.stage p).Inside ∧ (f.stage q).Inside) ∨ f.tmp = none ∧ ∃ p, (f.stage p).Inside

def Failing (f : Folder P) : Prop :=
  f.Doomed ∨ ∃ p e, f.stage p = .failed e

variable {stage : Stage} {g : Folder P} {head : ConfigHead}

section Failing

variable [DecidableEq P] {folderId : ByteArr 16} {calls : P → Call} {f f' : Folder P} {op : Op P} {p : P}

theorem inside_of_ne {q : P} (hq : (f.stage q).Inside) (hp : ¬ (f.stage p).Inside) :
    ((f.setStage p stage).stage q).Inside := by
  have hne : q ≠ p := by
    rintro rfl
    exact hp hq
  rwa [setStage_of_ne f hne]

omit [DecidableEq P] in
theorem not_inside (h : f.stage p = stage) (hs : ¬ stage.Inside) : ¬ (f.stage p).Inside := by
  rwa [h]

theorem Doomed.move (h : f.Doomed) (hp : ¬ (f.stage p).Inside) : (f.setStage p stage).Doomed := by
  rcases h with ⟨q, r, hne, hq, hr⟩ | ⟨htmp, q, hq⟩
  · exact .inl ⟨q, r, hne, inside_of_ne hq hp, inside_of_ne hr hp⟩
  · exact .inr ⟨htmp, q, inside_of_ne hq hp⟩

theorem doomed_of_two (hg : g.stage = f.stage) {q : P} (hne : q ≠ p)
    (hq : (f.stage q).Inside) (hs : stage.Inside) : (g.setStage p stage).Doomed :=
  .inl ⟨q, p, hne, by rwa [setStage_of_ne g hne, hg], by rwa [setStage_same]⟩

/-- Once two callers work on one temporary file, one of them fails or will. -/
theorem Doomed.step (h : f.Doomed) (hstep : f.step folderId calls op = some f') : f'.Failing := by
  cases does_of_step folderId calls hstep with
  | openRead hs | found hs | computes hs =>
    exact .inl (h.move (not_inside hs id))
  | @truncates p seen updated i hs htmp =>
    have hout := not_inside hs (id : ¬ False)
    rcases h with ⟨q, r, hne, hq, hr⟩ | ⟨hnone, -⟩
    · have hqp : q ≠ p := by
        rintro rfl
        exact hout hq
      exact .inl (doomed_of_two rfl hqp hq trivial)
    · rw [htmp] at hnone
      cases hnone
  | @creates p seen updated hs htmp =>
    have hout := not_inside hs (id : ¬ False)
    obtain ⟨q, hq⟩ : ∃ q, (f.stage q).Inside := by
      rcases h with ⟨q, -, -, hq, -⟩ | ⟨-, q, hq⟩
      · exact ⟨q, hq⟩
      · exact ⟨q, hq⟩
    have hqp : q ≠ p := by
      rintro rfl
      exact hout hq
    exact .inl (doomed_of_two (g := ({ f with tmp := some f.nextInode, nextInode := f.nextInode + 1 } :
      Folder P).setContent f.nextInode []) rfl hqp hq trivial)
  | @writes p seen updated i offset hs most =>
    have hin : ∀ q, (f.stage q).Inside → (((f.setContent i (overwrite (f.content i) offset
        ((updated.drop offset).take most))).setStage p (.writing seen updated i
          (offset + ((updated.drop offset).take most).length))).stage q).Inside := by
      intro q hq
      by_cases hqp : q = p
      · subst hqp
        rw [setStage_same]
        trivial
      · rw [setStage_of_ne _ hqp]
        exact hq
    rcases h with ⟨q, r, hne, hq, hr⟩ | ⟨htmp, q, hq⟩
    · exact .inl (.inl ⟨q, r, hne, hin q hq, hin r hr⟩)
    · exact .inl (.inr ⟨htmp, q, hin q hq⟩)
  | @renames p seen updated i j offset hs hall htmp =>
    rcases h with ⟨q, r, hne, hq, hr⟩ | ⟨hnone, -⟩
    · obtain ⟨s, hsp, hin⟩ : ∃ s, s ≠ p ∧ (f.stage s).Inside := by
        by_cases hqp : q = p
        · exact ⟨r, fun hrp => hne (hqp.trans hrp.symm), hr⟩
        · exact ⟨q, hqp, hq⟩
      refine .inl (.inr ⟨rfl, s, ?_⟩)
      rw [setStage_of_ne _ hsp]
      exact hin
    · rw [htmp] at hnone
      cases hnone
  | @fails p _ e => exact .inr ⟨p, e, setStage_same ..⟩

theorem failed_step {e : FolderError} (h : f.stage p = .failed e)
    (hstep : f.step folderId calls op = some f') : f'.Failing := by
  have hkept : ∀ {g : Folder P} {q : P} {stage : Stage}, g.stage = f.stage → f.stage q ≠ .failed e →
      (g.setStage q stage).Failing := by
    intro g q stage hg hq
    refine .inr ⟨p, e, ?_⟩
    rw [setStage_of_ne g (by rintro rfl; exact hq h), hg, h]
  cases does_of_step folderId calls hstep with
  | openRead hs | found hs | computes hs | truncates hs =>
    exact hkept rfl (by simp [hs])
  | creates hs | writes hs | renames hs => exact hkept rfl (by simp [hs])
  | fails e' => exact .inr ⟨_, e', setStage_same ..⟩

theorem Failing.step (h : f.Failing) (hstep : f.step folderId calls op = some f') : f'.Failing := by
  rcases h with h | ⟨p, e, h⟩
  · exact h.step hstep
  · exact failed_step h hstep

end Failing

/-! ## What a run leaves in the file -/

/-- The bytes that the entries before and those of the listed calls make, in that order. -/
def text (folderId : ByteArr 16) (calls : P → Call) (start : Bytes) (old : ConfigHead) : List P → Bytes
  | [] => start
  | ds => writeConfigHead folderId (old.entries ++ ds.map fun p => (calls p).entry)

section Text

variable {folderId : ByteArr 16} {calls : P → Call} {start : Bytes} {old : ConfigHead}

theorem parse_text (hold : parseConfigHead start = .ok old) {ds : List P}
    (h : parseConfigHead (text folderId calls start old ds) = .ok head) :
    head.entries = old.entries ++ ds.map (fun p => (calls p).entry) ∧ head.entries.length < 2 ^ 32 := by
  cases ds with
  | nil =>
    rw [text, hold] at h
    cases h
    exact ⟨by simp, (parseConfigHead_eq_ok.1 hold).1⟩
  | cons =>
    rw [text] at h
    · obtain ⟨hcount, rfl⟩ := parseConfigHead_write.1 h
      exact ⟨rfl, hcount⟩
    · simp

theorem exists_parse_text (hold : parseConfigHead start = .ok old) {ds : List P}
    (hcount : old.entries.length + ds.length < 2 ^ 32) :
    ∃ head, parseConfigHead (text folderId calls start old ds) = .ok head ∧
      head.entries = old.entries ++ ds.map fun p => (calls p).entry := by
  cases ds with
  | nil => exact ⟨old, hold, by simp⟩
  | cons =>
    refine ⟨⟨folderId, _⟩, ?_, rfl⟩
    rw [text]
    · exact parseConfigHead_write.2 ⟨by simpa using hcount, rfl⟩
    · simp

theorem text_concat (ds : List P) (p : P) : text folderId calls start old (ds ++ [p]) =
    writeConfigHead folderId (old.entries ++ ds.map (fun p => (calls p).entry) ++ [(calls p).entry]) := by
  rw [text]
  · simp
  · simp

end Text

/-- The call's rename finds the file that the call has read. -/
def Unchanged (f : Folder P) : Op P → Prop
  | .rename p => ∀ seen updated i offset, f.stage p = .writing seen updated i offset → f.live = some seen
  | _ => True

/-- The listed calls are among those that have renamed, and are those of the file now unless a
call that has renamed is missing from them. -/
structure Past (f : Folder P) (now ds : List P) : Prop where
  nodup : ds.Nodup
  renamed : ∀ q ∈ ds, f.stage q = .renamed
  current : ds = now ∨ ∃ q, f.stage q = .renamed ∧ q ∉ ds

section Inv

variable (folderId : ByteArr 16) (calls : P → Call) (start : Bytes) (old : ConfigHead)

def Planned (f : Folder P) (now : List P) (p : P) (seen updated : Bytes) : Prop :=
  ∃ ds, f.Past now ds ∧ seen = text folderId calls start old ds ∧
    (∃ head, parseConfigHead seen = .ok head) ∧ updated = text folderId calls start old (ds ++ [p]) ∧
    ∀ e ∈ old.entries, e.devicePub ≠ (calls p).recipient

def Okay (f : Folder P) (now : List P) (p : P) : Stage → Prop
  | .before | .failed _ => True
  | .reading i => i < f.nextInode ∧ f.tmp ≠ some i ∧
      ∃ ds, f.Past now ds ∧ f.content i = text folderId calls start old ds
  | .computed seen updated => f.Planned folderId calls start old now p seen updated
  | .writing seen updated i offset => f.tmp = some i ∧ offset ≤ updated.length ∧
      f.content i = updated.take offset ∧ f.Planned folderId calls start old now p seen updated
  | .present => ∃ e ∈ old.entries, e.devicePub = (calls p).recipient
  | .renamed => ∀ e ∈ old.entries, e.devicePub ≠ (calls p).recipient

/-- What holds on a run that can end well: the file has the entries of the calls `now`. -/
structure Inv (f : Folder P) (now : List P) : Prop where
  live : ∃ i, f.config = some i ∧ i < f.nextInode ∧ f.tmp ≠ some i ∧
    f.content i = text folderId calls start old now
  tmp : ∀ i, f.tmp = some i → i < f.nextInode
  past : f.Past now now
  okay : ∀ p, f.Okay folderId calls start old now p (f.stage p)

end Inv

section Runs

variable {folderId : ByteArr 16} {calls : P → Call} {start : Bytes} {old : ConfigHead}
  {f f' : Folder P} {op : Op P} {p : P} {now ds : List P}

theorem Past.congr (h : f.Past now ds)
    (hsame : ∀ q, g.stage q = .renamed ↔ f.stage q = .renamed) : g.Past now ds where
  nodup := h.nodup
  renamed := fun q hq => (hsame q).2 (h.renamed q hq)
  current := h.current.imp id fun ⟨q, hq, hnot⟩ => ⟨q, (hsame q).2 hq, hnot⟩

theorem Planned.congr {seen : Bytes} (h : f.Planned folderId calls start old now p seen updated)
    (hsame : ∀ q, g.stage q = .renamed ↔ f.stage q = .renamed) :
    g.Planned folderId calls start old now p seen updated := by
  obtain ⟨ds, hpast, hrest⟩ := h
  exact ⟨ds, hpast.congr hsame, hrest⟩

theorem Past.rename {next : List P} (h : f.Past now ds) (hp : f.stage p ≠ .renamed)
    (hsame : ∀ q, g.stage q = .renamed ↔ f.stage q = .renamed ∨ q = p) : g.Past next ds where
  nodup := h.nodup
  renamed := fun q hq => (hsame q).2 (.inl (h.renamed q hq))
  current := by
    refine .inr ⟨p, (hsame p).2 (.inr rfl), fun hmem => hp (h.renamed p hmem)⟩

theorem Okay.frame (h : f.Okay folderId calls start old now p stage)
    (hout : ¬ stage.Inside) (hnext : f.nextInode ≤ g.nextInode)
    (hkept : ∀ i, i < f.nextInode → f.tmp ≠ some i → g.tmp ≠ some i ∧ g.content i = f.content i)
    (hsame : ∀ q, g.stage q = .renamed ↔ f.stage q = .renamed) :
    g.Okay folderId calls start old now p stage := by
  cases stage with
  | before | failed => trivial
  | reading i =>
    obtain ⟨hi, htmp, ds, hpast, hcontent⟩ := h
    obtain ⟨htmp', hcontent'⟩ := hkept i hi htmp
    exact ⟨Nat.lt_of_lt_of_le hi hnext, htmp', ds, hpast.congr hsame, hcontent'.trans hcontent⟩
  | computed => exact Planned.congr h hsame
  | writing => exact absurd trivial hout
  | present | renamed => exact h

theorem Okay.setStage [DecidableEq P] {q : P} {stage' : Stage}
    (h : f.Okay folderId calls start old now q stage)
    (hsame : ∀ r, (f.setStage p stage').stage r = .renamed ↔ f.stage r = .renamed) :
    (f.setStage p stage').Okay folderId calls start old now q stage := by
  cases stage with
  | writing =>
    obtain ⟨htmp, hle, hcontent, hplan⟩ := h
    exact ⟨htmp, hle, hcontent, hplan.congr hsame⟩
  | before | reading i | computed | present | renamed | failed =>
    exact h.frame id le_rfl (fun i _ htmp => ⟨htmp, rfl⟩) hsame

/-- The calls that have renamed are all in the file. -/
def Full (f : Folder P) (now : List P) : Prop := ∀ q, f.stage q = .renamed → q ∈ now

theorem alone_of_not_failing (h : ¬ f'.Failing) (hp : (f'.stage p).Inside) (q : P) (hqp : q ≠ p) :
    ¬ (f'.stage q).Inside :=
  fun hq => h (.inl (.inl ⟨q, p, hqp, hq, hp⟩))

theorem text_injective (hold : parseConfigHead start = .ok old)
    (hdistinct : Function.Injective fun p => (calls p).recipient) {ds ds' : List P}
    (hparse : parseConfigHead (text folderId calls start old ds) = .ok head)
    (heq : text folderId calls start old ds = text folderId calls start old ds') : ds = ds' := by
  have hentry : Function.Injective fun p => (calls p).entry := by
    intro p q hpq
    exact hdistinct (congrArg WrappedKeyEntry.devicePub hpq)
  have hds := (parse_text hold hparse).1
  rw [heq] at hparse
  have hds' := (parse_text hold hparse).1
  exact hentry.list_map (append_cancel_left (hds.symm.trans hds'))

variable [DecidableEq P]

theorem renamed_setStage (hp : f.stage p ≠ .renamed) (hs : stage ≠ .renamed) (q : P) :
    (f.setStage p stage).stage q = .renamed ↔ f.stage q = .renamed := by
  by_cases hqp : q = p
  · subst hqp
    rw [setStage_same]
    exact ⟨fun h => absurd h hs, fun h => absurd h hp⟩
  · rw [setStage_of_ne f hqp]

theorem Inv.move (h : f.Inv folderId calls start old now) (hp : f.stage p ≠ .renamed)
    (hs : stage ≠ .renamed) (hokay : f.Okay folderId calls start old now p stage) :
    (f.setStage p stage).Inv folderId calls start old now where
  live := h.live
  tmp := h.tmp
  past := h.past.congr (renamed_setStage hp hs)
  okay := by
    intro q
    by_cases hqp : q = p
    · subst hqp
      rw [setStage_same]
      exact hokay.setStage (renamed_setStage hp hs)
    · rw [setStage_of_ne f hqp]
      exact (h.okay q).setStage (renamed_setStage hp hs)

/-- A caller writes the temporary file only. -/
theorem Inv.onTmp (h : f.Inv folderId calls start old now) (hstage : g.stage = f.stage)
    (hconfig : g.config = f.config) {seen : Bytes} {j : Nat} (htmp : g.tmp = some j)
    (hj : j < g.nextInode) (hnext : f.nextInode ≤ g.nextInode)
    (hkept : ∀ i, i < f.nextInode → f.tmp ≠ some i → g.tmp ≠ some i ∧ g.content i = f.content i)
    (hle : offset ≤ updated.length) (hcontent : g.content j = updated.take offset)
    (hp : f.stage p ≠ .renamed)
    (hplan : f.Planned folderId calls start old now p seen updated)
    (halone : ∀ q, q ≠ p → ¬ (f.stage q).Inside) :
    (g.setStage p (.writing seen updated j offset)).Inv folderId calls start old now := by
  have hsame : ∀ q, (g.setStage p (.writing seen updated j offset)).stage q = .renamed ↔
      f.stage q = .renamed := by
    intro q
    rw [renamed_setStage (by rwa [hstage]) (by simp), hstage]
  constructor
  · obtain ⟨i, hi, hlt, hne, hbytes⟩ := h.live
    obtain ⟨hne', hbytes'⟩ := hkept i hlt hne
    exact ⟨i, hconfig.trans hi, Nat.lt_of_lt_of_le hlt hnext, hne', hbytes'.trans hbytes⟩
  · intro i hi
    obtain rfl : j = i := Option.some.inj (htmp.symm.trans hi)
    exact hj
  · exact h.past.congr hsame
  · intro q
    by_cases hqp : q = p
    · subst hqp
      rw [setStage_same]
      exact ⟨htmp, hle, hcontent, hplan.congr hsame⟩
    · have hq : (g.setStage p (.writing seen updated j offset)).stage q = f.stage q := by
        rw [setStage_of_ne g hqp, hstage]
      rw [hq]
      exact (h.okay q).frame (halone q hqp) hnext hkept hsame

theorem renamed_rename (hstage : g.stage = f.stage) (q : P) :
    (g.setStage p .renamed).stage q = .renamed ↔ f.stage q = .renamed ∨ q = p := by
  by_cases hqp : q = p
  · subst hqp
    simp
  · rw [setStage_of_ne g hqp, hstage]
    simp [hqp]

/-- A rename with no other call in the temp file puts the call's own text under the name. -/
theorem Inv.rename (h : f.Inv folderId calls start old now) {seen : Bytes} {i j : Nat}
    (hs : f.stage p = .writing seen updated i offset) (hall : updated.length ≤ offset)
    (htmp : f.tmp = some j) (hpast : f.Past now ds)
    (hupdated : updated = text folderId calls start old (ds ++ [p]))
    (hnew : ∀ e ∈ old.entries, e.devicePub ≠ (calls p).recipient)
    (halone : ∀ q, q ≠ p → ¬ (f.stage q).Inside) :
    (({ f with config := some j, tmp := none } : Folder P).setStage p .renamed).Inv folderId calls start
      old (ds ++ [p]) := by
  have hp : f.stage p ≠ .renamed := by simp [hs]
  have hsame := renamed_rename (f := f) (g := { f with config := some j, tmp := none }) (p := p) rfl
  have hmine := h.okay p
  rw [hs] at hmine
  obtain ⟨htmp', -, hcontent, -⟩ := hmine
  obtain rfl : j = i := Option.some.inj (htmp.symm.trans htmp')
  constructor
  · refine ⟨j, rfl, h.tmp j htmp, (fun hk => by cases hk), ?_⟩
    rw [← hupdated]
    exact hcontent.trans (take_of_length_le hall)
  · intro k hk
    cases hk
  · refine ⟨?_, ?_, .inl rfl⟩
    · rw [← concat_eq_append]
      exact hpast.nodup.concat (fun hmem => hp (hpast.renamed p hmem))
    · intro q hq
      rcases mem_append.1 hq with hq | hq
      · exact (hsame q).2 (.inl (hpast.renamed q hq))
      · exact (hsame q).2 (.inr (mem_singleton.1 hq))
  · intro q
    by_cases hqp : q = p
    · subst hqp
      rw [setStage_same]
      exact hnew
    rw [setStage_of_ne _ hqp]
    have hq := h.okay q
    have hout := halone q hqp
    cases hstage : f.stage q with
    | before | failed => trivial
    | reading =>
      rw [hstage] at hq
      obtain ⟨hk, -, ds', hpast', hbytes⟩ := hq
      exact ⟨hk, (fun hk' => by cases hk'), ds', hpast'.rename hp hsame, hbytes⟩
    | computed =>
      rw [hstage] at hq
      obtain ⟨ds', hpast', hrest⟩ := hq
      exact ⟨ds', hpast'.rename hp hsame, hrest⟩
    | writing =>
      rw [hstage] at hout
      exact absurd trivial hout
    | present | renamed =>
      rw [hstage] at hq
      exact hq

theorem alone_before (h : ¬ (g.setStage p stage).Failing)
    (hg : g.stage = f.stage) (hin : stage.Inside) (q : P) (hqp : q ≠ p) : ¬ (f.stage q).Inside := by
  have hq := alone_of_not_failing h (p := p) (by rwa [setStage_same]) q hqp
  rwa [setStage_of_ne g hqp, hg] at hq

theorem full_rename (hp : f.stage p ≠ .renamed) (hg : g.stage = f.stage) :
    (g.setStage p .renamed).Full (ds ++ [p]) ↔ f.Full ds := by
  constructor
  · intro hfull q hq
    have hmem := hfull q ((renamed_rename hg q).2 (.inl hq))
    rcases mem_append.1 hmem with hmem | hmem
    · exact hmem
    · obtain rfl := mem_singleton.1 hmem
      exact absurd hq hp
  · intro hfull q hq
    rcases (renamed_rename hg q).1 hq with hq | rfl
    · exact mem_append_left _ (hfull q hq)
    · exact mem_append_right _ (mem_singleton.2 rfl)

omit [DecidableEq P] in
theorem Inv.unchanged_iff (hold : parseConfigHead start = .ok old)
    (hdistinct : Function.Injective fun p => (calls p).recipient)
    (h : f.Inv folderId calls start old now) {i : Nat}
    (hs : f.stage p = .writing (text folderId calls start old ds) updated i offset)
    (hparse : parseConfigHead (text folderId calls start old ds) = .ok head) :
    f.Unchanged (.rename p) ↔ ds = now := by
  obtain ⟨j, hj, -, -, hbytes⟩ := h.live
  have hlive : f.live = some (text folderId calls start old now) := by
    rw [Folder.live, hj, Option.map_some, hbytes]
  constructor
  · intro hsame
    have heq := hsame _ _ _ _ hs
    rw [hlive] at heq
    exact text_injective hold hdistinct hparse (Option.some.inj heq).symm
  · rintro rfl seen updated' i' offset' hs'
    rw [hs] at hs'
    cases hs'
    exact hlive

/-- The step lemma: where no call fails, only a rename over a changed file loses an addition. -/
theorem Inv.step (hold : parseConfigHead start = .ok old)
    (hdistinct : Function.Injective fun p => (calls p).recipient)
    (h : f.Inv folderId calls start old now) (hstep : f.step folderId calls op = some f')
    (hgood : ¬ f'.Failing) :
    ∃ now', f'.Inv folderId calls start old now' ∧ (f'.Full now' ↔ f.Full now ∧ f.Unchanged op) := by
  have hstays : ∀ {g : Folder P} {p : P} {stage : Stage} {φ : Prop}, φ → g.stage = f.stage →
      f.stage p ≠ .renamed → stage ≠ .renamed → ((g.setStage p stage).Full now ↔ f.Full now ∧ φ) := by
    intro g p stage φ hφ hg hp hs
    rw [and_iff_left hφ]
    refine forall_congr' fun q => imp_congr_left ?_
    rw [renamed_setStage (by rwa [hg]) hs, hg]
  cases does_of_step folderId calls hstep with
  | @openRead p i hs hname =>
    refine ⟨now, h.move (by simp [hs]) (by simp) ?_,
      hstays trivial rfl (by simp [hs]) (by simp)⟩
    obtain ⟨j, hj, hlt, hne, hbytes⟩ := h.live
    obtain rfl : j = i := Option.some.inj (hj.symm.trans hname)
    exact ⟨hlt, hne, now, h.past, hbytes⟩
  | @found p i head hs hparse hany =>
    refine ⟨now, h.move (by simp [hs]) (by simp) ?_,
      hstays trivial rfl (by simp [hs]) (by simp)⟩
    have hmine := h.okay p
    rw [hs] at hmine
    obtain ⟨-, -, ds, hpast, hbytes⟩ := hmine
    rw [hbytes] at hparse
    obtain ⟨e, he, hdevice⟩ := hany
    rw [(parse_text hold hparse).1] at he
    rcases mem_append.1 he with he | he
    · exact ⟨e, he, hdevice⟩
    obtain ⟨q, hq, rfl⟩ := mem_map.1 he
    obtain rfl := hdistinct hdevice
    have hrenamed := hpast.renamed q hq
    rw [hs] at hrenamed
    cases hrenamed
  | @computes p i head hs hparse hnone =>
    refine ⟨now, h.move (by simp [hs]) (by simp) ?_,
      hstays trivial rfl (by simp [hs]) (by simp)⟩
    have hmine := h.okay p
    rw [hs] at hmine
    obtain ⟨-, -, ds, hpast, hbytes⟩ := hmine
    have hentries := (parse_text hold (hbytes ▸ hparse)).1
    refine ⟨ds, hpast, hbytes, ⟨head, hparse⟩, ?_, ?_⟩
    · rw [text_concat, hentries]
    · intro e he
      exact hnone e (by rw [hentries]; exact mem_append_left _ he)
  | @truncates p seen updated i hs htmp =>
    refine ⟨now, ?_, hstays trivial rfl (by simp [hs]) (by simp)⟩
    have hplan := h.okay p
    rw [hs] at hplan
    refine h.onTmp (g := f.setContent i []) rfl rfl htmp (h.tmp i htmp) le_rfl ?_ (Nat.zero_le _)
      (update_self ..) (by simp [hs]) hplan ?_
    · intro k _ hk
      refine ⟨hk, update_of_ne ?_ ..⟩
      rintro rfl
      exact hk htmp
    · exact alone_before hgood rfl trivial
  | @creates p seen updated hs htmp =>
    refine ⟨now, ?_, hstays trivial rfl (by simp [hs]) (by simp)⟩
    have hplan := h.okay p
    rw [hs] at hplan
    refine h.onTmp (g := ({ f with tmp := some f.nextInode, nextInode := f.nextInode + 1 } :
      Folder P).setContent f.nextInode []) rfl rfl rfl (Nat.lt_succ_self _) (Nat.le_succ _) ?_
      (Nat.zero_le _) (update_self ..) (by simp [hs]) hplan ?_
    · intro k hk _
      have hne : k ≠ f.nextInode := Nat.ne_of_lt hk
      exact ⟨fun heq => hne (Option.some.inj heq).symm, update_of_ne hne ..⟩
    · exact alone_before hgood rfl trivial
  | @writes p seen updated i offset hs most =>
    refine ⟨now, ?_, hstays trivial rfl (by simp [hs]) (by simp)⟩
    have hmine := h.okay p
    rw [hs] at hmine
    obtain ⟨htmp, hle, hcontent, hplan⟩ := hmine
    refine h.onTmp (g := f.setContent i (overwrite (f.content i) offset ((updated.drop offset).take most)))
      rfl rfl htmp (h.tmp i htmp) le_rfl ?_ ?_ ?_ (by simp [hs]) hplan ?_
    · intro k _ hk
      refine ⟨hk, update_of_ne ?_ ..⟩
      rintro rfl
      exact hk htmp
    · rw [length_take, length_drop]
      omega
    · exact (update_self ..).trans (overwrite_take hcontent hle most)
    · exact alone_before hgood rfl trivial
  | @renames p seen updated i j offset hs hall htmp =>
    have hmine := h.okay p
    rw [hs] at hmine
    obtain ⟨htmp', hle, hcontent, ds, hpast, rfl, ⟨head, hparse⟩, hupdated, hnew⟩ := hmine
    have halone : ∀ q, q ≠ p → ¬ (f.stage q).Inside := by
      intro q hqp hq
      refine hgood (.inl (.inr ⟨rfl, q, ?_⟩))
      rw [setStage_of_ne _ hqp]
      exact hq
    refine ⟨ds ++ [p], h.rename hs hall htmp hpast hupdated hnew halone, ?_⟩
    rw [full_rename (by simp [hs]) rfl, h.unchanged_iff hold hdistinct hs hparse]
    constructor
    · intro hfull
      obtain rfl : ds = now := by
        refine hpast.current.resolve_right ?_
        rintro ⟨q, hq, hnot⟩
        exact hnot (hfull q hq)
      exact ⟨hfull, rfl⟩
    · rintro ⟨hfull, rfl⟩
      exact hfull
  | @fails p _ e => exact absurd (.inr ⟨p, e, setStage_same ..⟩) hgood

open Interleave in
theorem inv_of_run (hold : parseConfigHead start = .ok old)
    (hdistinct : Function.Injective fun p => (calls p).recipient)
    (h : f.Inv folderId calls start old now) {ops : List (Op P)}
    (hrun : run (step folderId calls) f ops = some f') (hgood : ¬ f'.Failing) :
    ∃ now', f'.Inv folderId calls start old now' ∧
      (f'.Full now' ↔ f.Full now ∧ Along (step folderId calls) Unchanged f ops) := by
  induction ops generalizing f now with
  | nil =>
    cases hrun
    exact ⟨now, h, (and_iff_left trivial).symm⟩
  | cons op ops ih =>
    obtain ⟨f₁, hstep, hrest⟩ := run_cons_eq_some.1 hrun
    have hgood₁ : ¬ f₁.Failing := fun hbad =>
      hgood (run_invariant (fun s e s' hI hs => hI.step hs) hbad hrest)
    obtain ⟨now₁, hinv₁, hfull₁⟩ := h.step hold hdistinct hstep hgood₁
    obtain ⟨now', hinv', hfull'⟩ := ih hinv₁ hrest
    refine ⟨now', hinv', ?_⟩
    rw [hfull', hfull₁, along_cons_of_step hstep, and_assoc]

end Runs

/-! ## Calls that all return `Ok` -/

/-- The folder before the calls: a file that parses, and maybe a temp file left over. -/
structure Settled (f : Folder P) (old : ConfigHead) : Prop where
  live : ∃ i, f.config = some i ∧ i < f.nextInode ∧ f.tmp ≠ some i ∧ parseConfigHead (f.content i) = .ok old
  tmp : ∀ i, f.tmp = some i → i < f.nextInode
  before : ∀ p, f.stage p = .before

/-- The folder has no entry for the device of the call. -/
def New (calls : P → Call) (old : ConfigHead) (p : P) : Prop :=
  ∀ e ∈ old.entries, e.devicePub ≠ (calls p).recipient

instance (calls : P → Call) (old : ConfigHead) : DecidablePred (New calls old) := fun p =>
  inferInstanceAs (Decidable (∀ e ∈ old.entries, e.devicePub ≠ (calls p).recipient))

/-- The file parses, and has the entries from before and one for each device that had none. -/
def Kept (f : Folder P) (calls : P → Call) (old : ConfigHead) : Prop :=
  ∃ bytes head, f.live = some bytes ∧ parseConfigHead bytes = .ok head ∧
    ∃ news : List P, news.Nodup ∧ (∀ p, p ∈ news ↔ New calls old p) ∧
      head.entries = old.entries ++ news.map fun p => (calls p).entry

section Kept

variable {folderId : ByteArr 16} {calls : P → Call} {start : Bytes} {old : ConfigHead} {f : Folder P}
  {now : List P}

theorem Settled.exists_inv (h : f.Settled old) :
    ∃ start, parseConfigHead start = .ok old ∧ f.Inv folderId calls start old [] := by
  obtain ⟨i, hi, hlt, hne, hparse⟩ := h.live
  refine ⟨f.content i, hparse, ⟨i, hi, hlt, hne, rfl⟩, h.tmp, ⟨.nil, by simp, .inl rfl⟩, ?_⟩
  intro p
  rw [h.before p]
  trivial

theorem not_failing_of_ok (h : ∀ p, (f.stage p).returned = some (.ok ())) : ¬ f.Failing := by
  have hout : ∀ p, ¬ (f.stage p).Inside := by
    intro p hin
    have hp := h p
    cases hs : f.stage p with
    | writing =>
      rw [hs] at hp
      cases hp
    | before | reading | computed | present | renamed | failed =>
      rw [hs] at hin
      exact hin
  rintro ((⟨p, -, -, hp, -⟩ | ⟨-, p, hp⟩) | ⟨p, e, hp⟩)
  · exact hout p hp
  · exact hout p hp
  · have hok := h p
    rw [hp] at hok
    cases hok

theorem Inv.renamed_iff (h : f.Inv folderId calls start old now)
    (hok : ∀ p, (f.stage p).returned = some (.ok ())) (p : P) :
    f.stage p = .renamed ↔ New calls old p := by
  have hp := h.okay p
  have hret := hok p
  cases hs : f.stage p with
  | present =>
    rw [hs] at hp
    obtain ⟨e, he, hdevice⟩ := hp
    exact ⟨fun heq => (by cases heq), fun hnew => absurd hdevice (hnew e he)⟩
  | renamed =>
    rw [hs] at hp
    exact ⟨fun _ => hp, fun _ => rfl⟩
  | before | reading | computed | writing | failed =>
    rw [hs] at hret
    cases hret

/-- When all have returned, every entry is kept exactly if none was lost and their number fits its field. -/
theorem Inv.kept_iff [Fintype P] (hold : parseConfigHead start = .ok old)
    (hdistinct : Function.Injective fun p => (calls p).recipient)
    (h : f.Inv folderId calls start old now) (hok : ∀ p, (f.stage p).returned = some (.ok ())) :
    f.Kept calls old ↔
      f.Full now ∧ old.entries.length + (Finset.univ.filter (New calls old)).card < 2 ^ 32 := by
  have hentry : Function.Injective fun p => (calls p).entry := by
    intro p q hpq
    exact hdistinct (congrArg WrappedKeyEntry.devicePub hpq)
  obtain ⟨i, hi, -, -, hbytes⟩ := h.live
  have hlive : f.live = some (text folderId calls start old now) := by
    rw [Folder.live, hi, Option.map_some, hbytes]
  have hcard : ∀ news : List P, news.Nodup → (∀ p, p ∈ news ↔ New calls old p) →
      news.length = (Finset.univ.filter (New calls old)).card := by
    intro news hnodup hnews
    have hset : (⟨news, hnodup⟩ : Finset P) = Finset.univ.filter (New calls old) := by
      ext p
      exact (hnews p).trans (by simp)
    rw [← hset]
    rfl
  constructor
  · rintro ⟨bytes, head, hbytes', hparse, news, hnodup, hnews, hentries⟩
    obtain rfl : text folderId calls start old now = bytes := Option.some.inj (hlive.symm.trans hbytes')
    obtain ⟨hnow, hcount⟩ := parse_text hold hparse
    obtain rfl : now = news := hentry.list_map (append_cancel_left (hnow.symm.trans hentries))
    refine ⟨fun q hq => (hnews q).2 ((h.renamed_iff hok q).1 hq), ?_⟩
    rw [hnow, length_append, length_map] at hcount
    rwa [← hcard now hnodup hnews]
  · rintro ⟨hfull, hcount⟩
    have hnews : ∀ p, p ∈ now ↔ New calls old p := fun p =>
      ⟨fun hp => (h.renamed_iff hok p).1 (h.past.renamed p hp),
        fun hp => hfull p ((h.renamed_iff hok p).2 hp)⟩
    rw [← hcard now h.past.nodup hnews] at hcount
    obtain ⟨head, hparse, hentries⟩ := exists_parse_text hold hcount
    exact ⟨_, head, hlive, hparse, now, h.past.nodup, hnews, hentries⟩

end Kept

open Interleave in
/-- If all calls return `Ok`, the entries are all kept exactly if each rename finds the file its
call has read, and the entries can be counted. -/
theorem kept_iff_unchanged [Fintype P] [DecidableEq P] (folderId : ByteArr 16) (calls : P → Call)
    (hdistinct : Function.Injective fun p => (calls p).recipient) (f f' : Folder P) (old : ConfigHead)
    (hsettled : f.Settled old) (ops : List (Op P)) (hrun : run (step folderId calls) f ops = some f')
    (hok : ∀ p, (f'.stage p).returned = some (.ok ())) :
    f'.Kept calls old ↔ Along (step folderId calls) Unchanged f ops ∧
      old.entries.length + (Finset.univ.filter (New calls old)).card < 2 ^ 32 := by
  obtain ⟨start, hold, hinv⟩ :
      ∃ start, parseConfigHead start = .ok old ∧ f.Inv folderId calls start old [] := hsettled.exists_inv
  obtain ⟨now, hinv', hfull⟩ := inv_of_run hold hdistinct hinv hrun (not_failing_of_ok hok)
  have hempty : f.Full [] := by
    intro q hq
    rw [hsettled.before q] at hq
    cases hq
  rw [hinv'.kept_iff hold hdistinct hok, hfull, and_iff_right hempty]

/-! ## Two devices -/

/-- Two devices join the folder; the wrapped keys are those of the device. -/
def sampleCalls (second : Bool) : Call :=
  let mark : UInt8 := if second then 2 else 1
  ⟨⟨List.replicate 32 mark, length_replicate⟩, ⟨List.replicate 80 mark, length_replicate⟩⟩

def sampleFolderId : ByteArr 16 := ⟨List.replicate 16 7, length_replicate⟩

def sampleOld : ConfigHead :=
  ⟨sampleFolderId, [⟨⟨List.replicate 32 0, length_replicate⟩,
    ⟨List.replicate 80 0, length_replicate⟩⟩]⟩

def sampleFolder : Folder Bool where
  config := some 0
  tmp := none
  content := fun _ => writeConfigHead sampleFolderId sampleOld.entries
  nextInode := 1
  stage := fun _ => .before

theorem sampleFolder_settled : sampleFolder.Settled sampleOld where
  live := ⟨0, rfl, by decide, by decide, parseConfigHead_write.2 ⟨by decide, rfl⟩⟩
  tmp := by
    intro i hi
    cases hi
  before := fun _ => rfl

theorem sampleCalls_injective : Function.Injective fun p => (sampleCalls p).recipient := by
  intro p q h
  revert p q
  decide

/-- Both calls read before either has renamed. -/
def lostUpdate : List (Op Bool) :=
  [.openRead false, .read false, .openRead true, .read true, .openTmp false, .write false 1000, .rename false,
    .openTmp true, .write true 1000, .rename true]

def oneByOne : List (Op Bool) :=
  [.openRead false, .read false, .openTmp false, .write false 1000, .rename false,
    .openRead true, .read true, .openTmp true, .write true 1000, .rename true]

def outcome (f : Folder Bool) : Stage × Stage × Option (List WrappedKeyEntry) :=
  (f.stage false, f.stage true, f.live.bind fun bytes => (parseConfigHead bytes).toOption.map (·.entries))

theorem run_of_outcome (ops : List (Op Bool)) (entries : List WrappedKeyEntry)
    (h : (Interleave.run (step sampleFolderId sampleCalls) sampleFolder ops).map outcome =
      some (.renamed, .renamed, some entries)) :
    ∃ f' bytes head, Interleave.run (step sampleFolderId sampleCalls) sampleFolder ops = some f' ∧
      (∀ p, (f'.stage p).returned = some (.ok ())) ∧ f'.live = some bytes ∧
      parseConfigHead bytes = .ok head ∧ head.entries = entries := by
  obtain ⟨f', hrun, hout⟩ := Option.map_eq_some_iff.1 h
  rw [outcome, Prod.mk.injEq, Prod.mk.injEq] at hout
  obtain ⟨hfirst, hsecond, hentries⟩ := hout
  obtain ⟨bytes, hlive, hmap⟩ := Option.bind_eq_some_iff.1 hentries
  obtain ⟨head, hparse, rfl⟩ := Option.map_eq_some_iff.1 hmap
  refine ⟨f', bytes, head, hrun, ?_, hlive, ?_, rfl⟩
  · intro p
    cases p with
    | false => rw [hfirst]; rfl
    | true => rw [hsecond]; rfl
  · cases hbytes : parseConfigHead bytes with
    | error =>
      rw [hbytes] at hparse
      cases hparse
    | ok =>
      rw [hbytes] at hparse
      cases hparse
      rfl

theorem first_device_lost :
    ∃ f', Interleave.run (step sampleFolderId sampleCalls) sampleFolder lostUpdate = some f' ∧
      (∀ p, (f'.stage p).returned = some (.ok ())) ∧ ¬ f'.Kept sampleCalls sampleOld := by
  obtain ⟨f', bytes, head, hrun, hok, hlive, hparse, hentries⟩ := run_of_outcome lostUpdate
    (sampleOld.entries ++ [(sampleCalls true).entry]) (by decide +kernel)
  refine ⟨f', hrun, hok, ?_⟩
  rintro ⟨bytes', head', hlive', hparse', news, -, hnews, hnow⟩
  obtain rfl : bytes = bytes' := Option.some.inj (hlive.symm.trans hlive')
  obtain rfl : head = head' := Except.ok.inj (hparse.symm.trans hparse')
  have hmem : (sampleCalls false).entry ∈ head.entries := by
    rw [hnow]
    exact mem_append_right _ (mem_map.2 ⟨false, (hnews false).2 (by decide), rfl⟩)
  rw [hentries] at hmem
  revert hmem
  decide

theorem both_devices_kept :
    ∃ f', Interleave.run (step sampleFolderId sampleCalls) sampleFolder oneByOne = some f' ∧
      f'.Kept sampleCalls sampleOld ∧
      Interleave.Along (step sampleFolderId sampleCalls) Unchanged sampleFolder oneByOne := by
  obtain ⟨f', bytes, head, hrun, hok, hlive, hparse, hentries⟩ := run_of_outcome oneByOne
    (sampleOld.entries ++ [(sampleCalls false).entry, (sampleCalls true).entry]) (by decide +kernel)
  have hkept : f'.Kept sampleCalls sampleOld :=
    ⟨bytes, head, hlive, hparse, [false, true], by decide, by decide, hentries⟩
  exact ⟨f', hrun, hkept, ((kept_iff_unchanged sampleFolderId sampleCalls sampleCalls_injective sampleFolder
    f' sampleOld sampleFolder_settled oneByOne hrun hok).1 hkept).1⟩

end Folder

end WrapEntries

end Ferry
