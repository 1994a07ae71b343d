import Ferry.Links
import Ferry.Materialize.Apply
import Ferry.Store.Canonical

/-!
# What the scanner admits

`admit_name` and `admit_kind` decide which directory entries are recorded.  A recorded entry
then has to pass the rules of the manifest, of the materializer and of the link policy, which
are written apart from them.
-/

namespace Ferry

open Lib List

inductive ObservedKind where
  | file
  | dir
  | symlink
  | other
deriving DecidableEq

inductive RefusalReason where
  | unknownFileType
  | nonUtf8Name
  | nonUtf8SymlinkTarget
  | reservedName
  | absoluteSymlinkTarget
  | escapingSymlinkTarget
deriving DecidableEq

structure Refusal where
  reason : RefusalReason
  displayName : String
deriving DecidableEq

inductive AdmittedKind where
  | file
  | dir
  | symlink (target : String)
deriving DecidableEq

structure AdmittedEntry where
  component : String
  kind : AdmittedKind
deriving DecidableEq

structure EntryFacts where
  rawName : Bytes
  kind : ObservedKind
  linkTarget : Option Bytes
  parentDepth : Nat

/-- `String::from_utf8_lossy`, in addition to the rest. -/
class ScanEnv extends Env where
  utf8Lossy : Bytes → String

section Code

variable [ScanEnv]

def admitName (raw : Bytes) : Except Refusal String :=
  match fromUtf8 raw with
  | some s => .ok (Env.nfc s)
  | none => .error ⟨.nonUtf8Name, ScanEnv.utf8Lossy raw⟩

omit [ScanEnv] in
def RefusalReason.ofLink : LinkRefusal → RefusalReason
  | .absoluteTarget => .absoluteSymlinkTarget
  | .escapesRoot => .escapingSymlinkTarget

omit [ScanEnv] in
def admitLink (linkTarget : Option Bytes) (parentDepth : Nat) : Except RefusalReason AdmittedKind :=
  match linkTarget.bind fromUtf8 with
  | none => .error .nonUtf8SymlinkTarget
  | some t =>
    match classifyLink parentDepth t with
    | .syncAsLink => .ok (.symlink t)
    | .refuse reason => .error (.ofLink reason)

omit [ScanEnv] in
def admitKind (component : String) (kind : ObservedKind) (linkTarget : Option Bytes) (parentDepth : Nat) :
    Except Refusal AdmittedEntry :=
  if isReservedDeviceName component then .error ⟨.reservedName, component⟩
  else
    match kind with
    | .file => .ok ⟨component, .file⟩
    | .dir => .ok ⟨component, .dir⟩
    | .other => .error ⟨.unknownFileType, component⟩
    | .symlink =>
      match admitLink linkTarget parentDepth with
      | .ok kind => .ok ⟨component, kind⟩
      | .error reason => .error ⟨reason, component⟩

def admitEntry (facts : EntryFacts) : Except Refusal AdmittedEntry := do
  let component ← admitName facts.rawName
  admitKind component facts.kind facts.linkTarget facts.parentDepth

/-! ## Recording -/

/-- What the scanner takes from the metadata of an entry. -/
structure EntryMeta where
  exec : Bool
  mtimeSec : Int
  mtimeNsec : Nat

/-- The times are those of a `SystemTime` that was split. -/
def EntryMeta.Typed (m : EntryMeta) : Prop := I64Range m.mtimeSec ∧ m.mtimeNsec ≤ 999999999

/-- The entry that `rebuild_dir` makes; an error stands for the panic of `expect_valid`. -/
def AdmittedEntry.record (a : AdmittedEntry) (m : EntryMeta) (chunks : Chunks) (childTreeId : BlobId) :
    Except ManifestError TreeEntry :=
  match a.kind with
  | .symlink target => symlinkEntry a.component m.mtimeSec m.mtimeNsec target
  | .dir => dirEntry a.component m.mtimeSec m.mtimeNsec childTreeId
  | .file => fileEntry a.component m.exec m.mtimeSec m.mtimeNsec chunks

/-- A recorded entry that a node can hold and a peer takes over, below a directory of the given depth. -/
structure Transferable (depth : Nat) (e : TreeEntry) : Prop where
  serializes : ∀ node : TreeNode, e ∈ node.entries → (∀ x ∈ node.entries, x ≠ e → x.Built) →
    (node.entries.map fun x => Env.nfc x.name).Nodup → ∃ bytes, serializeTreeNode node = .ok bytes
  path : ∀ parent : CompPath, parent.length = depth → validateComponents parent = .ok () →
    validateComponents (parent ++ [e.name]) = .ok ()
  link : ∀ target, e.payload = .symlink target → classifyLink depth target = .syncAsLink

/-- Whatever its metadata, the entry can be recorded and applied. -/
def AdmittedEntry.Recordable (a : AdmittedEntry) (depth : Nat) : Prop :=
  ∀ m : EntryMeta, m.Typed → ∀ chunks : Chunks, (∀ c ∈ chunks, c.2 < 2 ^ 64) → ∀ childTreeId,
    ∃ e, a.record m chunks childTreeId = .ok e ∧ Transferable depth e

/-- The name has neither a colon nor a backslash, and the target of a link begins with no drive
once it is normalized. -/
structure EntryFacts.Portable (facts : EntryFacts) : Prop where
  colon : 0x3A ∉ facts.rawName
  backslash : 0x5C ∉ facts.rawName
  drive : facts.kind = .symlink → ∀ target, facts.linkTarget.bind fromUtf8 = some target →
    hasDrive (Env.nfc target).toList = false

structure IsDirent (raw : Bytes) : Prop where
  nonempty : raw ≠ []
  slash : 0x2F ∉ raw
  nul : 0 ∉ raw
  dot : raw ≠ [0x2E]
  dotDot : raw ≠ [0x2E, 0x2E]

end Code

/-! ## Normalization -/

section Nfc

variable [Env]

def nfcChars (cs : List Char) : List Char := (Env.nfc (String.ofList cs)).toList

/-- Characters that normalization leaves alone, and across which it does not reach. -/
def boundaries : List Char := ['/', '\\', '.', ':', '\x00']

/-- What is assumed of `nfc`. -/
structure NfcLaws : Prop where
  idem : ∀ s : String, Env.nfc (Env.nfc s) = Env.nfc s
  empty : ∀ cs, nfcChars cs = [] ↔ cs = []
  cut : ∀ c ∈ boundaries, ∀ a b, nfcChars (a ++ c :: b) = nfcChars a ++ c :: nfcChars b
  fresh : ∀ c ∈ boundaries, ∀ cs, c ∉ cs → c ∉ nfcChars cs

namespace NfcLaws

variable (h : NfcLaws) {c : Char} {cs : List Char}

include h

section
variable (hc : c ∈ boundaries)
include hc

theorem mem_nfc_iff : c ∈ nfcChars cs ↔ c ∈ cs := by
  constructor
  · intro hmem
    by_contra hnot
    exact h.fresh c hc cs hnot hmem
  · intro hmem
    obtain ⟨a, b, rfl⟩ := append_of_mem hmem
    rw [h.cut c hc]
    simp

theorem split_first (hmem : c ∈ nfcChars cs) :
    ∃ a b, cs = a ++ c :: b ∧ c ∉ nfcChars a ∧ nfcChars cs = nfcChars a ++ c :: nfcChars b := by
  obtain ⟨a, b, rfl, hnot⟩ := eq_append_cons_of_mem ((h.mem_nfc_iff hc).1 hmem)
  exact ⟨a, b, rfl, h.fresh c hc a hnot, h.cut c hc a b⟩

theorem head?_iff : (nfcChars cs).head? = some c ↔ cs.head? = some c := by
  constructor
  · intro hhead
    obtain ⟨a, b, rfl, hnot, heq⟩ := h.split_first hc (mem_of_head? hhead)
    rw [heq] at hhead
    have hnil : nfcChars a = [] := by
      by_contra hne
      rw [head?_append_of_ne_nil _ hne] at hhead
      exact hnot (mem_of_head? hhead)
    rw [(h.empty a).1 hnil]
    rfl
  · intro hhead
    obtain ⟨b, rfl⟩ : ∃ b, cs = c :: b := by
      cases cs with
      | nil => cases hhead
      | cons d b =>
        cases hhead
        exact ⟨b, rfl⟩
    have hcut := h.cut c hc [] b
    rw [nil_append, (h.empty []).2 rfl] at hcut
    rw [hcut]
    rfl

theorem eq_cons_iff {rest : List Char} :
    nfcChars cs = c :: rest ↔ ∃ b, cs = c :: b ∧ nfcChars b = rest := by
  have hcut : ∀ b, nfcChars (c :: b) = c :: nfcChars b := by
    intro b
    have hcut := h.cut c hc [] b
    rwa [(h.empty []).2 rfl] at hcut
  constructor
  · intro heq
    have hhead : cs.head? = some c := (h.head?_iff hc).1 (by rw [heq]; rfl)
    cases cs with
    | nil => cases hhead
    | cons d b =>
      cases hhead
      rw [hcut] at heq
      exact ⟨b, rfl, (List.cons.inj heq).2⟩
  · rintro ⟨b, rfl, rfl⟩
    exact hcut b

end

theorem dot_iff : nfcChars cs = ['.'] ↔ cs = ['.'] := by
  rw [h.eq_cons_iff (by decide)]
  simp [h.empty]

theorem dotDot_iff : nfcChars cs = ['.', '.'] ↔ cs = ['.', '.'] := by
  rw [h.eq_cons_iff (by decide)]
  simp [h.dot_iff]

theorem fresh_slashes {cs : List Char} (hcs : ∀ c ∈ cs, eitherSlash c = false) :
    ∀ c ∈ nfcChars cs, eitherSlash c = false := by
  have hslash : '/' ∉ nfcChars cs := h.fresh '/' (by decide) cs fun hmem => nomatch hcs _ hmem
  have hback : '\\' ∉ nfcChars cs := h.fresh '\\' (by decide) cs fun hmem => nomatch hcs _ hmem
  intro c hc
  have hne : c ≠ '/' := fun heq => hslash (heq ▸ hc)
  have hne' : c ≠ '\\' := fun heq => hback (heq ▸ hc)
  simp [eitherSlash, hne, hne']

/-- Normalization does not reach across a slash. -/
theorem splitOnP_nfc (cs : List Char) :
    (nfcChars cs).splitOnP eitherSlash = (cs.splitOnP eitherSlash).map nfcChars := by
  induction hn : cs.length using Nat.strong_induction_on generalizing cs with
  | _ n ih =>
    cases hfind : cs.find? eitherSlash with
    | none =>
      have hcs : ∀ c ∈ cs, eitherSlash c = false := by
        simpa using find?_eq_none.1 hfind
      rw [splitOnP_eq_singleton hcs, splitOnP_eq_singleton (h.fresh_slashes hcs)]
      rfl
    | some c =>
      obtain ⟨hsep, a, b, rfl, ha⟩ := find?_eq_some_iff_append.1 hfind
      have ha' : ∀ d ∈ a, eitherSlash d = false := by simpa using ha
      have hc : c ∈ boundaries := by
        have hcase : c = '/' ∨ c = '\\' := by simpa [eitherSlash] using hsep
        rcases hcase with rfl | rfl <;> decide
      have hlt : b.length < n := by
        rw [← hn, length_append, length_cons]
        omega
      rw [h.cut c hc, splitOnP_append_cons_of_forall_mem (h.fresh_slashes ha') c hsep,
        splitOnP_append_cons_of_forall_mem ha' c hsep, ih b.length hlt b rfl]
      rfl

theorem climb_map (comps : List (List Char)) : climb (comps.map nfcChars) = climb comps := by
  induction comps with
  | nil => rfl
  | cons comp rest ih => simp only [map_cons, climb, h.empty, h.dot_iff, h.dotDot_iff, ih]

omit h in
theorem nfcChars_toList (s : String) : nfcChars s.toList = (Env.nfc s).toList := by
  rw [nfcChars, String.ofList_toList]

theorem classifyLink_nfc_iff {depth : Nat} {target : String} (hacc : classifyLink depth target = .syncAsLink) :
    classifyLink depth (Env.nfc target) = .syncAsLink ↔ hasDrive (Env.nfc target).toList = false := by
  obtain ⟨hrel, hclimb⟩ := classifyLink_eq_iff.1 hacc
  simp only [AbsoluteTarget, not_or] at hrel
  have hslash : (Env.nfc target).toList.head? ≠ some '/' := by
    rw [← nfcChars_toList, ne_eq, h.head?_iff (by decide)]
    exact hrel.1
  have hback : (Env.nfc target).toList.head? ≠ some '\\' := by
    rw [← nfcChars_toList, ne_eq, h.head?_iff (by decide)]
    exact hrel.2.1
  have hdepth : climb ((Env.nfc target).toList.splitOnP eitherSlash) ≤ depth := by
    rw [← nfcChars_toList, h.splitOnP_nfc, h.climb_map]
    exact hclimb
  rw [classifyLink_eq_iff, AbsoluteTarget]
  simp [hslash, hback, hdepth]

end NfcLaws

end Nfc

/-! ## Names -/

/-- What is left of the rules for a name once colon and backslash are set aside. -/
structure PlainComponent (c : String) : Prop where
  nonempty : c ≠ ""
  slash : '/' ∉ c.toList
  nul : '\x00' ∉ c.toList
  dot : c ≠ "."
  dotDot : c ≠ ".."

namespace PlainComponent

variable {c : String} (h : PlainComponent c)
include h

theorem firstComponentNormal_eq : firstComponentNormal c = true := by
  have htake : c.toList.takeWhile (· != '/') = c.toList := by
    rw [takeWhile_eq_self_iff]
    intro d hd
    have hne : d ≠ '/' := fun heq => h.slash (heq ▸ hd)
    simp [hne]
  have hdot : c.toList ≠ ['.'] := fun heq => h.dot (String.toList_inj.1 heq)
  have hdotDot : c.toList ≠ ['.', '.'] := fun heq => h.dotDot (String.toList_inj.1 heq)
  unfold firstComponentNormal
  split
  · rename_i heq
    exact absurd (String.toList_inj.1 heq) h.nonempty
  · rename_i heq
    exact absurd (heq ▸ mem_cons_self) h.slash
  · simp [htake, hdot, hdotDot]

theorem validateName_iff [Env] (hnfc : Env.nfc c = c) :
    validateName c = .ok () ↔ ':' ∉ c.toList := by
  rw [validateName]
  simp [h.slash, h.nul, h.dot, h.dotDot, h.firstComponentNormal_eq, hnfc]

theorem checkComponent_iff (hreserved : isReservedDeviceName c = false) (path : CompPath) :
    checkComponent path c = .ok () ↔ '\\' ∉ c.toList := by
  rw [checkComponent]
  simp [h.nonempty, h.slash, h.nul, h.dot, h.dotDot, h.firstComponentNormal_eq, hreserved]

end PlainComponent

theorem mem_strBytes_iff {c : Char} {s : String} {b : UInt8} (hb : b ∈ String.utf8EncodeChar c)
    (hcode : c.toNat = b.toNat) (hascii : b.toNat < 128) : b ∈ strBytes s ↔ c ∈ s.toList := by
  rw [← String.ofList_toList (s := s), strBytes_ofList, mem_flatMap, String.toList_ofList]
  constructor
  · rintro ⟨d, hd, hbd⟩
    have heq : c = d := Char.toNat_inj.1 (hcode.trans (toNat_of_mem_utf8EncodeChar hascii hbd).symm)
    rwa [heq]
  · intro hc
    exact ⟨c, hc, hb⟩

theorem IsDirent.plain_nfc [Env] (hlaws : NfcLaws) {raw : Bytes} (h : IsDirent raw) {s : String}
    (hraw : fromUtf8 raw = some s) : PlainComponent (Env.nfc s) := by
  obtain rfl : raw = strBytes s := fromUtf8_eq_some.1 hraw
  refine ⟨?_, ?_, ?_, ?_, ?_⟩
  · intro heq
    have hempty : s.toList = [] := (hlaws.empty _).1 (by rw [NfcLaws.nfcChars_toList, heq]; rfl)
    obtain rfl : s = "" := String.toList_inj.1 hempty
    exact h.nonempty rfl
  · rw [← NfcLaws.nfcChars_toList]
    exact hlaws.fresh '/' (by decide) _ fun hmem => h.slash ((mem_strBytes_iff (by decide) rfl (by decide)).2 hmem)
  · rw [← NfcLaws.nfcChars_toList]
    exact hlaws.fresh '\x00' (by decide) _ fun hmem => h.nul ((mem_strBytes_iff (by decide) rfl (by decide)).2 hmem)
  · intro heq
    have hdot : s.toList = ['.'] := hlaws.dot_iff.1 (by rw [NfcLaws.nfcChars_toList, heq]; rfl)
    obtain rfl : s = "." := String.toList_inj.1 hdot
    exact h.dot (by decide)
  · intro heq
    have hdots : s.toList = ['.', '.'] := hlaws.dotDot_iff.1 (by rw [NfcLaws.nfcChars_toList, heq]; rfl)
    obtain rfl : s = ".." := String.toList_inj.1 hdots
    exact h.dotDot (by decide)

theorem checkComponent_path {path path' : CompPath} {c : String} (h : checkComponent path c = .ok ()) :
    checkComponent path' c = .ok () := by
  unfold checkComponent at h ⊢
  split at h
  · cases h
  · split at h
    · cases h
    · rename_i hbad hreserved
      rw [if_neg hbad, if_neg hreserved]

/-! ## Recording what is admitted -/

section Recording

variable [ScanEnv]

omit [ScanEnv] in
theorem admitLink_ok {linkTarget : Option Bytes} {depth : Nat} {kind : AdmittedKind}
    (h : admitLink linkTarget depth = .ok kind) :
    ∃ target, linkTarget.bind fromUtf8 = some target ∧ kind = .symlink target ∧
      classifyLink depth target = .syncAsLink := by
  unfold admitLink at h
  split at h
  · cases h
  rename_i target htarget
  split at h
  · rename_i hsync
    cases h
    exact ⟨target, htarget, rfl, hsync⟩
  · cases h

omit [ScanEnv] in
/-- What an admitted entry has passed. -/
theorem admitKind_ok {component : String} {kind : ObservedKind} {linkTarget : Option Bytes} {depth : Nat}
    {a : AdmittedEntry} (h : admitKind component kind linkTarget depth = .ok a) :
    a.component = component ∧ isReservedDeviceName component = false ∧ (∀ target, a.kind = .symlink target ↔
        kind = .symlink ∧ linkTarget.bind fromUtf8 = some target) ∧
      ∀ target, a.kind = .symlink target → classifyLink depth target = .syncAsLink := by
  unfold admitKind at h
  split at h
  · cases h
  rename_i hreserved
  rw [Bool.not_eq_true] at hreserved
  cases kind with
  | file | dir =>
    cases h
    simp [hreserved]
  | other => cases h
  | symlink =>
    cases hlink : admitLink linkTarget depth with
    | error => simp [hlink] at h
    | ok =>
      simp only [hlink] at h
      cases h
      obtain ⟨target, htarget, rfl, hsync⟩ := admitLink_ok hlink
      simp [hreserved, htarget, hsync]

variable {facts : EntryFacts}

theorem admitEntry_ok {a : AdmittedEntry} (h : admitEntry facts = .ok a) :
    ∃ s, fromUtf8 facts.rawName = some s ∧ a.component = Env.nfc s ∧
      isReservedDeviceName a.component = false ∧
      (∀ target, a.kind = .symlink target ↔
        facts.kind = .symlink ∧ facts.linkTarget.bind fromUtf8 = some target) ∧
      ∀ target, a.kind = .symlink target → classifyLink facts.parentDepth target = .syncAsLink := by
  obtain ⟨component, hname, h⟩ := bind_eq_ok.1 h
  obtain ⟨s, hs, rfl⟩ : ∃ s, fromUtf8 facts.rawName = some s ∧ Env.nfc s = component := by
    unfold admitName at hname
    split at hname
    · rename_i s hs
      exact ⟨s, hs, Except.ok.inj hname⟩
    · cases hname
  obtain ⟨hcomp, hreserved, hlink⟩ := admitKind_ok h
  exact ⟨s, hs, hcomp, hcomp ▸ hreserved, hlink⟩

def AdmittedEntry.entry (a : AdmittedEntry) (m : EntryMeta) (chunks : Chunks) (childTreeId : BlobId) : TreeEntry :=
  match a.kind with
  | .symlink target => ⟨Env.nfc a.component, false, m.mtimeSec, m.mtimeNsec, .symlink (Env.nfc target)⟩
  | .dir => ⟨Env.nfc a.component, false, m.mtimeSec, m.mtimeNsec, .dir childTreeId⟩
  | .file => ⟨Env.nfc a.component, m.exec, m.mtimeSec, m.mtimeNsec, .file (sumLens chunks) chunks⟩

namespace AdmittedEntry

variable {a : AdmittedEntry} {m : EntryMeta} {chunks : Chunks} {childTreeId : BlobId}

theorem record_eq : a.record m chunks childTreeId = expectValid (a.entry m chunks childTreeId) := by
  unfold record entry
  cases a.kind <;> rfl

@[simp] theorem entry_name : (a.entry m chunks childTreeId).name = Env.nfc a.component := by
  unfold entry
  cases a.kind <;> rfl

theorem entry_symlink_iff {target : String} : (a.entry m chunks childTreeId).payload = .symlink target ↔
      ∃ raw, a.kind = .symlink raw ∧ Env.nfc raw = target := by
  unfold entry
  cases a.kind <;> simp

theorem validateEntry_entry (hlaws : NfcLaws) (hm : m.Typed) :
    validateEntry (a.entry m chunks childTreeId) = validateName (Env.nfc a.component) := by
  have hnsec : ¬ 999999999 < m.mtimeNsec := Nat.not_lt.2 hm.2
  have hdone : ∀ x : Except ManifestError Unit, (x >>= fun _ => .ok ()) = x := by
    intro x
    cases x <;> rfl
  unfold entry validateEntry
  cases a.kind with
  | file | dir => simp [hnsec, hdone]
  | symlink => simp [hnsec, hdone, validateTarget, hlaws.idem]

theorem built (hm : m.Typed) (hchunks : ∀ c ∈ chunks, c.2 < 2 ^ 64) {e : TreeEntry}
    (h : a.record m chunks childTreeId = .ok e) : e.Built := by
  unfold record at h
  split at h
  · exact .symlink hm.1 h
  · exact .dir hm.1 h
  · exact .file hm.1 hchunks h

/-- What `admit` promises of an entry, with the laws of normalization. -/
structure Gated (a : AdmittedEntry) (depth : Nat) : Prop where
  plain : PlainComponent a.component
  nfc : Env.nfc a.component = a.component
  reserved : isReservedDeviceName a.component = false
  link : ∀ target, a.kind = .symlink target → classifyLink depth target = .syncAsLink

theorem gated_of_ok (hlaws : NfcLaws) (hname : IsDirent facts.rawName)
    (h : admitEntry facts = .ok a) : a.Gated facts.parentDepth := by
  obtain ⟨s, hs, hcomp, hreserved, -, hlink⟩ := admitEntry_ok h
  refine ⟨?_, ?_, hreserved, hlink⟩
  · rw [hcomp]
    exact hname.plain_nfc hlaws hs
  · rw [hcomp]
    exact hlaws.idem s

namespace Gated

variable {depth : Nat} (hlaws : NfcLaws) (h : a.Gated depth)

include hlaws h

theorem record_ok_iff (hm : m.Typed) {e : TreeEntry} :
    a.record m chunks childTreeId = .ok e ↔ ':' ∉ a.component.toList ∧ e = a.entry m chunks childTreeId := by
  have hvalid : validateEntry (a.entry m chunks childTreeId) = .ok () ↔ ':' ∉ a.component.toList := by
    rw [validateEntry_entry hlaws hm, h.nfc]
    exact h.plain.validateName_iff h.nfc
  rw [record_eq, ← hvalid]
  constructor
  · intro hrec
    obtain ⟨rfl, hok⟩ := expectValid_ok hrec
    exact ⟨hok, rfl⟩
  · rintro ⟨hok, rfl⟩
    rw [expectValid, hok]
    rfl

omit hlaws in
theorem path_iff : (∀ parent : CompPath, parent.length = depth → validateComponents parent = .ok () →
      validateComponents (parent ++ [(a.entry m chunks childTreeId).name]) = .ok ()) ↔
    '\\' ∉ a.component.toList := by
  rw [entry_name, h.nfc]
  constructor
  · intro hall
    have hparent : validateComponents (List.replicate depth "a") = .ok () := by
      refine forM_eq_ok.2 fun c hc => ?_
      rw [eq_of_mem_replicate hc]
      rfl
    have hlast := forM_eq_ok.1 (hall _ (length_replicate ..) hparent) a.component (by simp)
    exact (h.plain.checkComponent_iff h.reserved _).1 hlast
  · intro hback parent _ hparent
    refine forM_eq_ok.2 fun c hc => ?_
    rcases mem_append.1 hc with hc | hc
    · exact checkComponent_path (forM_eq_ok.1 hparent c hc)
    · rw [mem_singleton.1 hc]
      exact (h.plain.checkComponent_iff h.reserved _).2 hback

theorem link_iff : (∀ target, (a.entry m chunks childTreeId).payload = .symlink target →
      classifyLink depth target = .syncAsLink) ↔
    ∀ target, a.kind = .symlink target → hasDrive (Env.nfc target).toList = false := by
  constructor
  · intro hall target hkind
    have hacc := hall (Env.nfc target) (entry_symlink_iff.2 ⟨target, hkind, rfl⟩)
    exact (hlaws.classifyLink_nfc_iff (h.link target hkind)).1 hacc
  · intro hall target hpayload
    obtain ⟨raw, hkind, rfl⟩ := entry_symlink_iff.1 hpayload
    exact (hlaws.classifyLink_nfc_iff (h.link raw hkind)).2 (hall raw hkind)

end Gated

theorem portable_iff (hlaws : NfcLaws) (h : admitEntry facts = .ok a) :
    facts.Portable ↔ ':' ∉ a.component.toList ∧ '\\' ∉ a.component.toList ∧
      ∀ target, a.kind = .symlink target → hasDrive (Env.nfc target).toList = false := by
  obtain ⟨s, hs, hcomp, -, hkind, -⟩ := admitEntry_ok h
  have hraw : facts.rawName = strBytes s := fromUtf8_eq_some.1 hs
  have hmem : ∀ c ∈ boundaries, ∀ b : UInt8, b ∈ String.utf8EncodeChar c → c.toNat = b.toNat → b.toNat < 128 →
      (b ∉ facts.rawName ↔ c ∉ a.component.toList) := by
    intro c hc b hb hcode hascii
    rw [hraw, hcomp, ← NfcLaws.nfcChars_toList, hlaws.mem_nfc_iff hc, mem_strBytes_iff hb hcode hascii]
  rw [← hmem ':' (by decide) 0x3A (by decide) rfl (by decide),
    ← hmem '\\' (by decide) 0x5C (by decide) rfl (by decide)]
  constructor
  · rintro ⟨hcolon, hback, hdrive⟩
    exact ⟨hcolon, hback, fun target heq => hdrive ((hkind target).1 heq).1 target ((hkind target).1 heq).2⟩
  · rintro ⟨hcolon, hback, hdrive⟩
    exact ⟨hcolon, hback, fun hsym target htarget => hdrive target ((hkind target).2 ⟨hsym, htarget⟩)⟩

/-- An admitted entry can be recorded and applied exactly if its name has neither a colon nor a
backslash and its target does not become one with a drive. -/
theorem recordable_iff_portable (hlaws : NfcLaws) (facts : EntryFacts) (hname : IsDirent facts.rawName)
    (h : admitEntry facts = .ok a) : a.Recordable facts.parentDepth ↔ facts.Portable := by
  have hgated := gated_of_ok hlaws hname h
  rw [portable_iff hlaws h]
  constructor
  · intro hall
    obtain ⟨e, hrec, htransfer⟩ := hall ⟨false, 0, 0⟩ ⟨by decide, by decide⟩ [] (by simp)
      ⟨List.replicate 32 0, by simp⟩
    obtain ⟨hcolon, rfl⟩ := (hgated.record_ok_iff hlaws ⟨by decide, by decide⟩).1 hrec
    exact ⟨hcolon, hgated.path_iff.1 htransfer.path, (hgated.link_iff hlaws).1 htransfer.link⟩
  · rintro ⟨hcolon, hback, hdrive⟩ m hm chunks hchunks childTreeId
    have hrec := (hgated.record_ok_iff hlaws hm).2 ⟨hcolon, (rfl : _ = a.entry m chunks childTreeId)⟩
    refine ⟨_, hrec, ?_, hgated.path_iff.2 hback, (hgated.link_iff hlaws).2 hdrive⟩
    intro node _ hothers hdistinct
    have hbuilt : node.Built := by
      refine ⟨fun x hx => ?_, hdistinct⟩
      by_cases heq : x = a.entry m chunks childTreeId
      · rw [heq]
        exact built hm hchunks hrec
      · exact hothers x hx heq
    exact ⟨_, hbuilt.serialize_eq⟩

end AdmittedEntry

end Recording

namespace Sample

scoped instance sampleScanEnv : ScanEnv where
  toEnv := sampleEnv
  utf8Lossy raw := String.ofList (raw.map fun b => Char.ofNat b.toNat)

theorem sample_nfcLaws : NfcLaws := by
  have hid : ∀ cs, nfcChars cs = cs := fun cs => String.toList_ofList
  refine ⟨fun s => rfl, ?_, ?_, ?_⟩
  · intro cs
    rw [hid]
  · intro c _ a b
    rw [hid, hid, hid]
  · intro c _ cs hmem
    rwa [hid]

end Sample

open Sample

theorem plain_file_recordable : (AdmittedEntry.mk "a.txt" .file).Recordable 2 :=
  (AdmittedEntry.recordable_iff_portable sample_nfcLaws ⟨strBytes "a.txt", .file, none, 2⟩
    ⟨by decide, by decide, by decide, by decide, by decide⟩ rfl).2
    ⟨by decide, by decide, fun h => nomatch h⟩

/-- A colon panics the scanner, and a backslash is recorded and then refused by every peer. -/
theorem colon_panics_backslash_refused :
    admitEntry ⟨strBytes "a:b", .file, none, 0⟩ = .ok ⟨"a:b", .file⟩ ∧
      (AdmittedEntry.mk "a:b" .file).record ⟨false, 0, 0⟩ [] ⟨List.replicate 32 0, by simp⟩ =
        .error (.invalidName "a:b") ∧
      admitEntry ⟨strBytes "a\\b", .dir, none, 0⟩ = .ok ⟨"a\\b", .dir⟩ ∧
      (AdmittedEntry.mk "a\\b" .dir).record ⟨false, 0, 0⟩ [] ⟨List.replicate 32 0, by simp⟩ =
        .ok ⟨"a\\b", false, 0, 0, .dir ⟨List.replicate 32 0, by simp⟩⟩ ∧
      validateComponents ["a\\b"] = .error (.badComponent "a\\b") :=
  ⟨rfl, rfl, rfl, rfl, rfl⟩

end Ferry
