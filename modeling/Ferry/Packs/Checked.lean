import Ferry.Lib.Outcome
import Ferry.Packs.Roundtrip

/-! # Packs from a peer

`open_pack` and `read_blob` once more, with every operation that can panic or end
the process: the arithmetic of a build with overflow checks, the slices, the
capacity of a vector, the counter of a nonce and the debug assertion on the length
of a segment. All numbers come from a footer that a member of the folder may have
written with any contents. `maxAlloc` is the largest number of bytes that the
allocator gives at once.
-/

namespace Ferry

open Lib Outcome List

section
variable [PackEnv]

/-! ## The code -/

/-- `open_pack` up to the decrypted footer. The slice of the salt is checked; its value is `saltOf`. -/
def readFooterChecked (file : Bytes) (expected : PackId) (fmk : ByteArr 32) :
    Outcome PackError PackContext :=
  if packNameOf file ≠ expected then
    failed (.nameMismatch (hex expected.val) (hex (packNameOf file).val))
  else if file.length < headerLen + saltLen + 4 then failed .tooShort
  else do
    let kind ← ofExcept ((parseHeader file).mapError .ofHeader)
    if kind ≠ .packData ∧ kind ≠ .packMeta then failed .notAPack
    else
      let _salt ← slice file headerLen (headerLen + saltLen)
      let flenPos ← sub file.length 4
      let flen ← slice file flenPos file.length
      if flenPos < leNat flen then failed (.footerCorrupt "negative footer extent")
      else if flenPos - leNat flen < headerLen + saltLen then
        failed (.footerCorrupt "footer overlaps prologue")
      else
        let header ← slice file 0 headerLen
        let footerCt ← slice file (flenPos - leNat flen) flenPos
        let footerPt ← ofExcept ((PackEnv.cipherOpen (derivePackKey fmk (saltOf file) kind) footerNonce
          (footerAad header kind) footerCt).mapError .footerCrypto)
        let footer ← ofExcept (footerParse footerPt)
        return ⟨kind, derivePackKey fmk (saltOf file) kind, headerLen + saltLen, flenPos - leNat flen,
          footer.1, footer.2⟩

def openPackChecked (file : Bytes) (expected : PackId) (fmk : ByteArr 32) :
    Outcome PackError PackContext := do
  let ctx ← readFooterChecked file expected fmk
  let tags ← mul 64 tagLen (segmentCount ctx.bodyPlainLen)
  let wantRegion ← add 64 ctx.bodyPlainLen tags
  let gotRegion ← sub ctx.footerStart ctx.bodyStart
  if gotRegion ≠ wantRegion then failed (.bodyRegionMismatch gotRegion wantRegion)
  else return ctx

/-- One round of the loop of `read_blob_from_ctx`. -/
def readSegmentChecked (file : Bytes) (ctx : PackContext) (s : Nat) : Outcome PackError Bytes := do
  let segStart ← mul 64 s segmentPlainLen
  let left ← sub ctx.bodyPlainLen segStart
  let before ← mul 64 s (segmentPlainLen + tagLen)
  let ctOff ← add 64 ctx.bodyStart before
  let plainEnd ← add 64 ctOff (min segmentPlainLen left)
  let ctEnd ← add 64 plainEnd tagLen
  if ctx.footerStart < ctEnd then failed (.bodyRegionMismatch ctEnd ctx.footerStart)
  else
    let next ← add 64 s 1
    assert (s % 2 ^ 32 < 2 ^ 31)
    let header ← slice file 0 headerLen
    let ct ← slice file ctOff ctEnd
    let pt ← ofExcept ((PackEnv.cipherOpen ctx.key
      (bodyNonce s (next == segmentCount ctx.bodyPlainLen)) (bodyAad header ctx.kind) ct).mapError
        .footerCrypto)
    assert (pt.length = min segmentPlainLen left)
    return pt

def readSegmentsChecked (file : Bytes) (ctx : PackContext) : Nat → Nat → Outcome PackError Bytes
  | 0, _ => .returned []
  | rounds + 1, s => do
    let pt ← readSegmentChecked file ctx s
    let rest ← readSegmentsChecked file ctx rounds (s + 1)
    return pt ++ rest

/-- `Vec::with_capacity` for bytes: it panics where the capacity leaves `isize`, and the process is
aborted where the allocator does not give that much. -/
def withCapacity (maxAlloc n : Nat) : Outcome PackError Unit := assert (n < 2 ^ 63 ∧ n ≤ maxAlloc)

/-- The part of `read_blob_from_ctx` after the entry is found and agreed on. -/
def readEntryChecked (maxAlloc : Nat) (file : Bytes) (ctx : PackContext) (entry : FooterEntry) :
    Outcome PackError Bytes := do
  let sum ← add 64 entry.plainOff entry.plainLen
  let lastByte ← sub sum 1
  withCapacity maxAlloc entry.plainLen
  let assembled ← readSegmentsChecked file ctx
    (lastByte / segmentPlainLen + 1 - entry.plainOff / segmentPlainLen) (entry.plainOff / segmentPlainLen)
  let stop ← add 64 (entry.plainOff % segmentPlainLen) entry.plainLen
  let plain ← slice assembled (entry.plainOff % segmentPlainLen) stop
  ofExcept (verifyHash entry.id plain)

def readBlobChecked (maxAlloc : Nat) (file : Bytes) (expected : PackId) (fmk : ByteArr 32)
    (wantKind : BlobKind) (wantId : BlobId) (indexLoc : Option (Nat × Nat)) : Outcome PackError Bytes := do
  let ctx ← openPackChecked file expected fmk
  match ctx.entries.find? (fun e => e.kind = wantKind ∧ e.id = wantId) with
  | none => failed .notFound
  | some entry =>
    if indexLoc.all (· = (entry.plainOff, entry.plainLen)) then readEntryChecked maxAlloc file ctx entry
    else failed (.disagreement (indexLoc.getD (0, 0)) (entry.plainOff, entry.plainLen))

/-! ## Panics taken out -/

variable {maxAlloc : Nat} {file : Bytes} {expected : PackId} {fmk : ByteArr 32} {ctx : PackContext}

omit [PackEnv] in
theorem leNat_tail (file : Bytes) :
    leNat ((file.drop (file.length - 4)).take (file.length - (file.length - 4))) = footerLenOf file := by
  rw [← length_drop, take_length]
  rfl

/-- Where the checked code does not panic, it opens a pack as the wrapping code does. -/
theorem openPackChecked_refines (file : Bytes) (expected : PackId) (fmk : ByteArr 32) :
    Refines (openPackChecked file expected fmk) (openPack file expected fmk) := by
  rw [openPackChecked, openPack, readFooterChecked]
  apply Refines.guard_bind
  intro hname
  apply Refines.guard_bind
  intro hlong
  rw [bind_assoc]
  apply Refines.bind (.ofExcept _)
  intro kind hkind
  apply Refines.guard_bind
  intro hpack
  simp only [bind_assoc]
  apply Refines.slice
  intro _ hsalt
  apply Refines.sub
  intro hfour
  apply Refines.slice
  intro _ hlen
  simp only [leNat_tail]
  apply Refines.guard_bind
  intro hneg
  apply Refines.guard_bind
  intro hstart
  simp only [bind_assoc]
  apply Refines.slice
  intro _ hheader
  apply Refines.slice
  intro _ hfooter
  rw [Nat.sub_sub_self (Nat.not_lt.1 hneg)]
  apply Refines.bind (.ofExcept _)
  intro plain hplain
  apply Refines.bind (.ofExcept _)
  rintro ⟨bodyPlainLen, entries⟩ hparse
  rw [pure_bind]
  apply Refines.mul
  intro htags
  apply Refines.add
  intro hregion
  apply Refines.sub
  intro hbody
  have hword : bodyRegionLen bodyPlainLen = bodyPlainLen + tagLen * segmentCount bodyPlainLen :=
    Nat.mod_eq_of_lt hregion
  rw [hword]
  apply Refines.guard
  intro hmatch
  exact .pure _

omit [PackEnv] in
theorem sub_mod_word {n x : Nat} (hx : x ≤ n) (hn : n < 2 ^ 64) : (n + 2 ^ 64 - x % 2 ^ 64) % 2 ^ 64 = n - x := by
  omega

/-- By induction on the rounds: without a panic, the same segments are read. -/
theorem readSegmentsChecked_refines (file : Bytes) (hbody : ctx.bodyPlainLen < 2 ^ 64) (rounds : Nat) : ∀ s,
    Refines (readSegmentsChecked file ctx rounds s) (readSegments file ctx rounds s) := by
  induction rounds with
  | zero => exact fun s => .inr rfl
  | succ rounds ih =>
    intro s
    rw [readSegmentsChecked, readSegments, readSegmentChecked]
    simp only [bind_assoc]
    apply Refines.mul
    intro hstart
    apply Refines.sub
    intro hleft
    apply Refines.mul
    intro hbefore
    apply Refines.add
    intro hoff
    apply Refines.add
    intro hplain
    apply Refines.add
    intro hend
    rw [sub_mod_word hleft hbody, Nat.mod_eq_of_lt hoff, Nat.mod_eq_of_lt hend]
    apply Refines.guard_bind
    intro hinside
    simp only [bind_assoc]
    apply Refines.add
    intro hnext
    apply Refines.assert
    intro hcounter
    apply Refines.slice
    intro _ hheader
    apply Refines.slice
    intro hct _
    apply Refines.passed (not_or.2 ⟨Nat.not_le.2 hcounter, Nat.not_lt.2 hct⟩)
    apply Refines.bind (.ofExcept _)
    intro pt hpt
    apply Refines.assert
    intro hlen
    apply Refines.bind (ih _)
    intro rest hrest
    exact .pure _

theorem FooterRead.bodyPlainLen_lt (h : FooterRead file expected fmk ctx) : ctx.bodyPlainLen < 2 ^ 64 := by
  obtain ⟨plain, -, hparse⟩ := h.footer
  exact (footerParse_ok_iff.1 hparse).1

theorem readEntryChecked_refines (maxAlloc : Nat) (file : Bytes) (hbody : ctx.bodyPlainLen < 2 ^ 64) (e : FooterEntry) :
    Refines (readEntryChecked maxAlloc file ctx e) (readEntry file ctx e) := by
  rw [readEntry]
  apply Refines.add
  intro hsum
  apply Refines.sub
  intro hpos
  apply Refines.assert
  intro hcap
  apply Refines.passed (Nat.not_le.2 hcap.1)
  have hlast : lastSegment e = (e.plainOff + e.plainLen - 1) / segmentPlainLen := by
    rw [lastSegment, Nat.sub_add_comm hpos, Nat.add_mod_right, Nat.mod_eq_of_lt (by omega)]
  rw [hlast]
  apply Refines.bind (readSegmentsChecked_refines file hbody _ _)
  intro assembled hread
  apply Refines.add
  intro hstop
  apply Refines.slice
  intro _ hslice
  rw [sliceEntry, if_neg (Nat.not_lt.2 hslice), Nat.add_sub_cancel_left]
  exact .ofExcept _

/-- Where the checked code does not panic, it reads what the wrapping code reads. -/
theorem readBlobChecked_refines (maxAlloc : Nat) (file : Bytes) (expected : PackId) (fmk : ByteArr 32)
    (wantKind : BlobKind) (wantId : BlobId) (indexLoc : Option (Nat × Nat)) :
    Refines (readBlobChecked maxAlloc file expected fmk wantKind wantId indexLoc)
      (readBlob file expected fmk wantKind wantId indexLoc) := by
  apply Refines.bind (openPackChecked_refines file expected fmk)
  intro ctx hctx
  have hbody := (openPack_ok_iff.1 hctx).toFooterRead.bodyPlainLen_lt
  cases hfind : ctx.entries.find? (fun e => e.kind = wantKind ∧ e.id = wantId) with
  | none =>
    cases indexLoc with
    | none => exact .inr rfl
    | some =>
      simp only [readBlobFromCtx, hfind]
      exact .inr rfl
  | some entry =>
    cases indexLoc with
    | none => exact readEntryChecked_refines maxAlloc file hbody entry
    | some loc =>
      simp only [readBlobFromCtx, hfind, Option.all_some, decide_eq_true_eq]
      by_cases hloc : loc = (entry.plainOff, entry.plainLen)
      · rw [if_pos hloc, if_neg (not_not.2 hloc)]
        exact readEntryChecked_refines maxAlloc file hbody entry
      · rw [if_neg hloc, if_pos hloc]
        exact .inr rfl

/-! ## Opening -/

/-- The numbers of the footer do not leave the word. -/
def PackContext.RegionFits (ctx : PackContext) : Prop :=
  ctx.bodyPlainLen + tagLen * segmentCount ctx.bodyPlainLen < 2 ^ 64

omit [PackEnv] in
theorem tags_lt {n : Nat} (hn : n < 2 ^ 64) : tagLen * segmentCount n < 2 ^ 64 := by
  unfold tagLen segmentCount segmentPlainLen
  omega

theorem FooterRead.readFooterChecked_eq (h : FooterRead file expected fmk ctx) :
    readFooterChecked file expected fmk = .returned ctx := by
  obtain ⟨plain, hopen, hparse⟩ := h.footer
  have hlong := h.long
  have hextent := h.extent
  have hstart : file.length - 4 - footerLenOf file = ctx.footerStart := by omega
  have hct : file.length - 4 - ctx.footerStart = footerLenOf file := by omega
  unfold readFooterChecked
  rw [if_neg (not_not.2 h.name), if_neg (not_lt.2 hlong), h.header]
  simp only [Except.mapError, ofExcept_ok, returned_bind]
  rw [if_neg (by have := h.pack; tauto), slice_of_le (by omega) (by omega), returned_bind,
    sub_of_le (by omega), returned_bind, slice_of_le (by omega) le_rfl, returned_bind]
  simp only [leNat_tail, hstart]
  rw [if_neg (by omega), if_neg (not_lt.2 h.start), slice_of_le (by omega) (by omega), returned_bind,
    slice_of_le (by omega) (by omega), returned_bind, ← h.key, drop_zero, Nat.sub_zero, hct, hopen]
  simp only [ofExcept_ok, returned_bind, hparse, ← h.bodyStart]
  rfl

/-- A footer that cannot be read is an error, never a panic. -/
theorem readFooterChecked_failed (h : ∀ ctx, ¬ FooterRead file expected fmk ctx) :
    ∃ e, readFooterChecked file expected fmk = .failed e := by
  unfold readFooterChecked
  by_cases hname : packNameOf file ≠ expected
  · exact ⟨_, if_pos hname⟩
  by_cases hlong : file.length < headerLen + saltLen + 4
  · rw [if_neg hname]
    exact ⟨_, if_pos hlong⟩
  rw [if_neg hname, if_neg hlong]
  cases hheader : parseHeader file with
  | error => exact ⟨_, rfl⟩
  | ok kind =>
    simp only [Except.mapError, ofExcept_ok, returned_bind]
    by_cases hkind : kind ≠ .packData ∧ kind ≠ .packMeta
    · exact ⟨_, if_pos hkind⟩
    rw [if_neg hkind, slice_of_le (by omega) (by omega), returned_bind, sub_of_le (by omega),
      returned_bind, slice_of_le (by omega) le_rfl, returned_bind]
    simp only [leNat_tail]
    by_cases hneg : file.length - 4 < footerLenOf file
    · exact ⟨_, if_pos hneg⟩
    rw [if_neg hneg]
    by_cases hstart : file.length - 4 - footerLenOf file < headerLen + saltLen
    · exact ⟨_, if_pos hstart⟩
    rw [if_neg hstart, slice_of_le (by omega) (by omega), returned_bind,
      slice_of_le (by omega) (by omega), returned_bind, drop_zero,
      Nat.sub_sub_self (by omega)]
    cases hopen : PackEnv.cipherOpen (derivePackKey fmk (saltOf file) kind) footerNonce
        (footerAad (file.take headerLen) kind)
        ((file.drop (file.length - 4 - footerLenOf file)).take (footerLenOf file)) with
    | error e => exact ⟨_, rfl⟩
    | ok plain =>
      simp only [ofExcept_ok, returned_bind]
      cases hparse : footerParse plain with
      | error => exact ⟨_, rfl⟩
      | ok r =>
        refine absurd ?_ (h ⟨kind, derivePackKey fmk (saltOf file) kind, headerLen + saltLen,
          file.length - 4 - footerLenOf file, r.1, r.2⟩)
        exact {
          name := not_not.1 hname
          long := not_lt.1 hlong
          header := hheader
          pack := by tauto
          extent := Nat.sub_add_cancel (not_lt.1 hneg)
          start := not_lt.1 hstart
          key := rfl
          bodyStart := rfl
          footer := ⟨plain, hopen, hparse⟩ }

/-- The body has the length that the footer says. -/
def PackContext.RegionMatches (ctx : PackContext) : Prop :=
  ctx.footerStart - ctx.bodyStart = ctx.bodyPlainLen + tagLen * segmentCount ctx.bodyPlainLen

theorem FooterRead.openPackChecked_cases (h : FooterRead file expected fmk ctx) :
    (¬ ctx.RegionFits ∧ openPackChecked file expected fmk = .panics) ∨
      (ctx.RegionFits ∧ ¬ ctx.RegionMatches ∧ ∃ e, openPackChecked file expected fmk = .failed e) ∨
      (ctx.RegionFits ∧ ctx.RegionMatches ∧ openPackChecked file expected fmk = .returned ctx) := by
  unfold openPackChecked PackContext.RegionFits PackContext.RegionMatches
  rw [h.readFooterChecked_eq, returned_bind, mul_of_lt (tags_lt h.bodyPlainLen_lt), returned_bind]
  by_cases hfits : ctx.bodyPlainLen + tagLen * segmentCount ctx.bodyPlainLen < 2 ^ 64
  · rw [add_of_lt hfits, sub_of_le (h.bodyStart.trans_le h.start)]
    by_cases hregion : ctx.footerStart - ctx.bodyStart =
        ctx.bodyPlainLen + tagLen * segmentCount ctx.bodyPlainLen
    · exact .inr (.inr ⟨hfits, hregion, if_neg (not_not.2 hregion)⟩)
    · exact .inr (.inl ⟨hfits, hregion, _, if_pos hregion⟩)
  · exact .inl ⟨hfits, by rw [add_of_not_lt hfits, panics_bind]⟩

/-! ## Segments -/

/-- What a cipher does: it opens a text to one that is shorter by a tag. -/
def OpensShorter : Prop := ∀ key nonce aad ct plain,
  PackEnv.cipherOpen key nonce aad ct = .ok plain → plain.length + tagLen = ct.length

/-- The segment is one of the body, and its number is one of the counter of nonces. -/
def PackContext.Valid (ctx : PackContext) (s : Nat) : Prop :=
  s < segmentCount ctx.bodyPlainLen ∧ s % 2 ^ 32 < 2 ^ 31

def PackContext.openSegment (ctx : PackContext) (file : Bytes) (s : Nat) : Except CryptoError Bytes :=
  PackEnv.cipherOpen ctx.key (bodyNonce s (s + 1 == segmentCount ctx.bodyPlainLen))
    (bodyAad (file.take headerLen) ctx.kind) ((file.drop (ctx.ctOff s)).take (ctx.plainHere s + tagLen))

/-- The read ends at the segment with an error: its ciphertext does not open, or the body ends just
before it. -/
def PackContext.Refused (ctx : PackContext) (file : Bytes) (s : Nat) : Prop :=
  (ctx.Valid s ∧ ∃ e, ctx.openSegment file s = .error e) ∨ s * segmentPlainLen = ctx.bodyPlainLen

/-- A pack that opened, in a buffer of a length that the machine has. -/
structure PackContext.Inside (ctx : PackContext) (file : Bytes) : Prop where
  header : headerLen ≤ file.length
  bodyStart : ctx.bodyStart = headerLen + saltLen
  footerStart : ctx.footerStart =
    headerLen + saltLen + (ctx.bodyPlainLen + tagLen * segmentCount ctx.bodyPlainLen)
  footer : ctx.footerStart ≤ file.length
  small : file.length < 2 ^ 63

variable {s : Nat}

omit [PackEnv] in
theorem PackContext.Inside.ctEnd_le (h : ctx.Inside file) (hs : s < segmentCount ctx.bodyPlainLen) :
    ctx.ctOff s + ctx.plainHere s + tagLen ≤ ctx.footerStart := by
  have hend := segment_end_le hs
  rw [h.footerStart, PackContext.ctOff, PackContext.plainHere, h.bodyStart, Nat.add_assoc, Nat.add_assoc,
    ← Nat.add_assoc (s * _)]
  exact Nat.add_le_add_left hend _

omit [PackEnv] in
theorem PackContext.Inside.lt_of_le_ctEnd (h : ctx.Inside file)
    (hs : s < segmentCount ctx.bodyPlainLen) {n : Nat} (hn : n ≤ ctx.ctOff s + ctx.plainHere s + tagLen) :
    n < 2 ^ 64 :=
  calc n ≤ file.length := hn.trans ((h.ctEnd_le hs).trans h.footer)
    _ < 2 ^ 63 := h.small
    _ < 2 ^ 64 := by decide

theorem readSegmentChecked_beyond (h : ctx.bodyPlainLen < s * segmentPlainLen) :
    readSegmentChecked file ctx s = .panics := by
  by_cases hword : s * segmentPlainLen < 2 ^ 64
  · refine bind_of_returned (mul_of_lt hword) ?_
    exact bind_of_panics (sub_of_not_le (Nat.not_le.2 h))
  · exact bind_of_panics (mul_of_not_lt hword)

omit [PackEnv] in
theorem segmentCount_mul (s : Nat) : segmentCount (s * segmentPlainLen) = s := by
  unfold segmentCount segmentPlainLen
  omega

theorem readSegmentChecked_border (hin : ctx.Inside file)
    (h : s * segmentPlainLen = ctx.bodyPlainLen) : ∃ e, readSegmentChecked file ctx s = .failed e := by
  have hcount : segmentCount ctx.bodyPlainLen = s := by rw [← h, segmentCount_mul]
  have hoff : ctx.bodyStart + s * (segmentPlainLen + tagLen) = ctx.footerStart := by
    rw [hin.footerStart, hin.bodyStart, hcount, ← h, Nat.mul_add, Nat.mul_comm s tagLen]
  have hword : ∀ {n}, n ≤ ctx.footerStart → n < 2 ^ 64 := fun hn =>
    (hn.trans hin.footer).trans_lt (hin.small.trans (by decide))
  have hmul : s * (segmentPlainLen + tagLen) ≤ ctx.footerStart := hoff ▸ Nat.le_add_left _ _
  have hstart : s * segmentPlainLen ≤ s * (segmentPlainLen + tagLen) :=
    Nat.mul_le_mul_left s (Nat.le_add_right _ _)
  have hend : ctx.footerStart + tagLen < 2 ^ 64 :=
    (Nat.add_lt_add_right (hin.footer.trans_lt hin.small) tagLen).trans (by decide)
  rw [readSegmentChecked, mul_of_lt (hword (hstart.trans hmul)), returned_bind, sub_of_le h.le, returned_bind,
    h, Nat.sub_self, Nat.min_zero, mul_of_lt (hword hmul), returned_bind, add_of_lt (hword hoff.le),
    returned_bind, hoff, add_of_lt (hword le_rfl), returned_bind, Nat.add_zero, add_of_lt hend]
  exact ⟨_, if_pos (Nat.lt_add_of_pos_right (by decide))⟩

theorem length_openSegment (laws : OpensShorter) (hin : ctx.Inside file)
    (hs : s < segmentCount ctx.bodyPlainLen) {pt : Bytes} (hopen : ctx.openSegment file s = .ok pt) :
    pt.length = ctx.plainHere s := by
  have hctEnd := hin.ctEnd_le hs
  have hend := hin.footer
  have hlen := laws _ _ _ _ _ hopen
  rw [length_take, length_drop] at hlen
  omega

/-- A segment of the body is opened, unless its number is out of the range of the nonce. -/
theorem readSegmentChecked_valid (laws : OpensShorter) (hin : ctx.Inside file)
    (hs : s < segmentCount ctx.bodyPlainLen) :
    readSegmentChecked file ctx s =
      if s % 2 ^ 32 < 2 ^ 31 then Outcome.ofExcept ((ctx.openSegment file s).mapError PackError.footerCrypto)
      else .panics := by
  have hbefore := lt_segmentCount_iff.1 hs
  have hctEnd := hin.ctEnd_le hs
  have hword : ∀ {n}, n ≤ ctx.ctOff s + ctx.plainHere s + tagLen → n < 2 ^ 64 := hin.lt_of_le_ctEnd hs
  have hmul : s * (segmentPlainLen + tagLen) ≤ ctx.ctOff s := Nat.le_add_left _ _
  have hoff : ctx.ctOff s ≤ ctx.ctOff s + ctx.plainHere s := Nat.le_add_right _ _
  have hplain : ctx.ctOff s + ctx.plainHere s ≤ ctx.ctOff s + ctx.plainHere s + tagLen := Nat.le_add_right _ _
  have hstart : s * segmentPlainLen ≤ s * (segmentPlainLen + tagLen) :=
    Nat.mul_le_mul_left s (Nat.le_add_right _ _)
  have hnumber : s + 1 ≤ s * (segmentPlainLen + tagLen) + tagLen :=
    Nat.add_le_add (Nat.le_mul_of_pos_right s (by decide)) (by decide)
  have hctOff : ctx.bodyStart + s * (segmentPlainLen + tagLen) = ctx.ctOff s := rfl
  have hplainHere : min segmentPlainLen (ctx.bodyPlainLen - s * segmentPlainLen) = ctx.plainHere s := rfl
  have hcut : ctx.ctOff s + ctx.plainHere s + tagLen - ctx.ctOff s = ctx.plainHere s + tagLen := by
    rw [Nat.add_assoc, Nat.add_sub_cancel_left]
  rw [readSegmentChecked, mul_of_lt (hword (hstart.trans (hmul.trans (hoff.trans hplain)))),
    returned_bind, sub_of_le hbefore.le, returned_bind,
    mul_of_lt (hword (hmul.trans (hoff.trans hplain))), returned_bind,
    add_of_lt (hword (hoff.trans hplain)), returned_bind, hctOff, hplainHere, add_of_lt (hword hplain),
    returned_bind, add_of_lt (hword le_rfl), returned_bind, if_neg (Nat.not_lt.2 hctEnd),
    add_of_lt (hword (hnumber.trans (Nat.add_le_add_right (hmul.trans hoff) _))), returned_bind]
  by_cases hcounter : s % 2 ^ 32 < 2 ^ 31
  · rw [assert_of hcounter, slice_of_le (Nat.zero_le _) hin.header,
      slice_of_le (hoff.trans hplain) (hctEnd.trans hin.footer), if_pos hcounter, hcut]
    change (Outcome.ofExcept ((ctx.openSegment file s).mapError _) >>= _) = _
    cases hopen : ctx.openSegment file s with
    | error => rfl
    | ok =>
      simp only [Except.mapError, ofExcept_ok, returned_bind]
      rw [assert_of (length_openSegment laws hin hs hopen), returned_bind, pure_eq]
  · rw [assert_of_not hcounter, panics_bind, if_neg hcounter]

def PackContext.Reads (ctx : PackContext) (file : Bytes) (s : Nat) : Prop :=
  ctx.Valid s ∧ ¬ ctx.Refused file s

/-- How the loop over the segments ends, in terms of the segments it comes to. -/
theorem readSegmentsChecked_spec (laws : OpensShorter) (hin : ctx.Inside file) (rounds : Nat) : ∀ s,
    match readSegmentsChecked file ctx rounds s with
    | .returned r => (∀ t, s ≤ t → t < s + rounds → ctx.Reads file t) ∧
        r.length = min (rounds * segmentPlainLen) (ctx.bodyPlainLen - s * segmentPlainLen)
    | .failed _ => ∃ t, s ≤ t ∧ t < s + rounds ∧ ctx.Refused file t ∧ ∀ u, s ≤ u → u < t → ctx.Reads file u
    | .panics => ∃ t, s ≤ t ∧ t < s + rounds ∧ ¬ ctx.Valid t ∧ ¬ ctx.Refused file t ∧
        ∀ u, s ≤ u → u < t → ctx.Reads file u := by
  induction rounds with
  | zero =>
    intro s
    refine ⟨fun t hst ht => absurd ht (by omega), ?_⟩
    rw [Nat.zero_mul, Nat.zero_min]
    rfl
  | succ rounds ih =>
    intro s
    have hnone : ∀ u, s ≤ u → u < s → ctx.Reads file u := fun u hsu hu => absurd hu (by omega)
    rcases lt_trichotomy ctx.bodyPlainLen (s * segmentPlainLen) with hlt | heq | hgt
    · rw [readSegmentsChecked, readSegmentChecked_beyond hlt]
      have hcount : ¬ s < segmentCount ctx.bodyPlainLen := fun hs => (lt_segmentCount_iff.1 hs).asymm hlt
      refine ⟨s, le_rfl, by omega, fun hv => hcount hv.1, ?_, hnone⟩
      rintro (⟨hv, -⟩ | hborder)
      · exact hcount hv.1
      · exact hlt.ne' hborder
    · obtain ⟨e, he⟩ := readSegmentChecked_border hin heq.symm
      rw [readSegmentsChecked, he]
      exact ⟨s, le_rfl, by omega, .inr heq.symm, hnone⟩
    · have hs := lt_segmentCount_iff.2 hgt
      rw [readSegmentsChecked, readSegmentChecked_valid laws hin hs]
      by_cases hcounter : s % 2 ^ 32 < 2 ^ 31
      · rw [if_pos hcounter]
        have hvalid : ctx.Valid s := ⟨hs, hcounter⟩
        cases hopen : ctx.openSegment file s with
        | error e => exact ⟨s, le_rfl, by omega, .inl ⟨hvalid, e, hopen⟩, hnone⟩
        | ok =>
          have hreads : ctx.Reads file s := by
            refine ⟨hvalid, ?_⟩
            rintro (⟨-, e, he⟩ | hborder)
            · rw [hopen] at he
              cases he
            · exact hgt.ne hborder
          have hfirst : ∀ {t}, (∀ u, s + 1 ≤ u → u < t → ctx.Reads file u) →
              ∀ u, s ≤ u → u < t → ctx.Reads file u := by
            intro t hrest u hsu hu
            rcases hsu.eq_or_lt with rfl | hsu
            · exact hreads
            · exact hrest u hsu hu
          have hrest := ih (s + 1)
          cases hrun : readSegmentsChecked file ctx rounds (s + 1) with
          | returned =>
            rw [hrun] at hrest
            obtain ⟨hall, hlen⟩ := hrest
            refine ⟨hfirst fun u hsu hu => hall u hsu (by omega), ?_⟩
            rw [length_append, length_openSegment laws hin hs hopen, hlen, PackContext.plainHere,
              min_piece_add]
          | failed =>
            rw [hrun] at hrest
            obtain ⟨t, hst, ht, hrefused, hread⟩ := hrest
            exact ⟨t, by omega, by omega, hrefused, hfirst hread⟩
          | panics =>
            rw [hrun] at hrest
            obtain ⟨t, hst, ht, hinvalid, hrefused, hread⟩ := hrest
            exact ⟨t, by omega, by omega, hinvalid, hrefused, hfirst hread⟩
      · rw [if_neg hcounter]
        refine ⟨s, le_rfl, by omega, fun hv => hcounter hv.2, ?_, hnone⟩
        rintro (⟨hv, -⟩ | hborder)
        · exact hcounter hv.2
        · exact hgt.ne hborder

/-! ## One blob -/

/-- The segments that an entry reaches into. -/
def FooterEntry.Reaches (e : FooterEntry) (s : Nat) : Prop :=
  e.plainOff / segmentPlainLen ≤ s ∧ s * segmentPlainLen < e.plainOff + e.plainLen

/-- The numbers of an entry with which the read does not panic: the entry is a part of the body, or
the read ends before with an error, or nothing is read at all. -/
def FooterEntry.Harmless (maxAlloc : Nat) (e : FooterEntry) (file : Bytes) (ctx : PackContext) : Prop :=
  e.plainOff + e.plainLen < 2 ^ 64 ∧ 0 < e.plainOff + e.plainLen ∧ (e.plainLen < 2 ^ 63 ∧ e.plainLen ≤ maxAlloc) ∧
    ((e.plainLen = 0 ∧ segmentPlainLen ∣ e.plainOff) ∨
      (e.plainOff + e.plainLen ≤ ctx.bodyPlainLen ∧ ∀ s, e.Reaches s → s % 2 ^ 32 < 2 ^ 31) ∨
      ∃ s, e.Reaches s ∧ ctx.Refused file s ∧ ∀ u, e.Reaches u → u < s → ctx.Valid u)

/-- The loop over the segments of an entry: what it returns, and where it fails or panics. -/
theorem readSegmentsChecked_entry (laws : OpensShorter) (hin : ctx.Inside file) {e : FooterEntry}
    (hpos : 0 < e.plainOff + e.plainLen) :
    match readSegmentsChecked file ctx ((e.plainOff + e.plainLen - 1) / segmentPlainLen + 1 -
        e.plainOff / segmentPlainLen) (e.plainOff / segmentPlainLen) with
    | .returned r => (∀ t, e.Reaches t → ctx.Reads file t) ∧
        (e.plainOff % segmentPlainLen + e.plainLen ≤ r.length ↔
          e.plainOff + e.plainLen ≤ ctx.bodyPlainLen ∨ (e.plainLen = 0 ∧ segmentPlainLen ∣ e.plainOff))
    | .failed _ => ∃ t, e.Reaches t ∧ ctx.Refused file t ∧ ∀ u, e.Reaches u → u < t → ctx.Reads file u
    | .panics => ∃ t, e.Reaches t ∧ ¬ ctx.Valid t ∧ ¬ ctx.Refused file t ∧
        ∀ u, e.Reaches u → u < t → ctx.Reads file u := by
  have hspec := readSegmentsChecked_spec laws hin ((e.plainOff + e.plainLen - 1) / segmentPlainLen + 1 -
    e.plainOff / segmentPlainLen) (e.plainOff / segmentPlainLen)
  have hreach : ∀ t, e.plainOff / segmentPlainLen ≤ t → t < e.plainOff / segmentPlainLen +
      ((e.plainOff + e.plainLen - 1) / segmentPlainLen + 1 - e.plainOff / segmentPlainLen) →
      e.Reaches t := fun t ht hlt => ⟨ht, (lt_pieces_iff (by decide) hpos ht).1 hlt⟩
  cases hrun : readSegmentsChecked file ctx ((e.plainOff + e.plainLen - 1) / segmentPlainLen + 1 -
      e.plainOff / segmentPlainLen) (e.plainOff / segmentPlainLen) with
  | returned r =>
    rw [hrun] at hspec
    obtain ⟨hall, hlen⟩ := hspec
    refine ⟨fun t ht => hall t ht.1 ((lt_pieces_iff (by decide) hpos ht.1).2 ht.2), ?_⟩
    have hcover := mod_add_le_pieces (show 0 < segmentPlainLen by decide) e.plainOff e.plainLen
    have hdiv := Nat.div_add_mod e.plainOff segmentPlainLen
    rw [Nat.mul_comm] at hdiv
    omega
  | failed err =>
    rw [hrun] at hspec
    obtain ⟨t, hft, ht, hrefused, hread⟩ := hspec
    exact ⟨t, hreach t hft ht, hrefused, fun u hu hut => hread u hu.1 hut⟩
  | panics =>
    rw [hrun] at hspec
    obtain ⟨t, hft, ht, hinvalid, hrefused, hread⟩ := hspec
    exact ⟨t, hreach t hft ht, hinvalid, hrefused, fun u hu hut => hread u hu.1 hut⟩

omit [PackEnv] in
theorem FooterEntry.not_reaches {e : FooterEntry} (hlen : e.plainLen = 0)
    (hdvd : segmentPlainLen ∣ e.plainOff) (s : Nat) : ¬ e.Reaches s := by
  rintro ⟨hfirst, hlast⟩
  have hoff := Nat.div_mul_cancel hdvd
  have hle := Nat.mul_le_mul_right segmentPlainLen hfirst
  omega

/-- Reading an entry does not panic exactly if the entry is harmless. -/
theorem readEntryChecked_safe_iff (laws : OpensShorter) (hin : ctx.Inside file) (e : FooterEntry) :
    (readEntryChecked maxAlloc file ctx e).Safe ↔ e.Harmless maxAlloc file ctx := by
  unfold readEntryChecked withCapacity FooterEntry.Harmless
  by_cases hsum : e.plainOff + e.plainLen < 2 ^ 64
  swap
  · rw [add_of_not_lt hsum]
    exact iff_of_false not_safe_panics fun h => hsum h.1
  by_cases hpos : 0 < e.plainOff + e.plainLen
  swap
  · rw [add_of_lt hsum, returned_bind, sub_of_not_le hpos]
    exact iff_of_false not_safe_panics fun h => hpos h.2.1
  by_cases hcap : e.plainLen < 2 ^ 63 ∧ e.plainLen ≤ maxAlloc
  swap
  · rw [add_of_lt hsum, returned_bind, sub_of_le hpos, assert_of_not hcap]
    exact iff_of_false not_safe_panics fun h => hcap h.2.2.1
  rw [add_of_lt hsum, returned_bind, sub_of_le hpos, returned_bind, assert_of hcap, returned_bind]
  have hread := readSegmentsChecked_entry laws hin hpos
  cases hrun : readSegmentsChecked file ctx ((e.plainOff + e.plainLen - 1) / segmentPlainLen + 1 -
      e.plainOff / segmentPlainLen) (e.plainOff / segmentPlainLen) with
  | returned r =>
    rw [hrun] at hread
    obtain ⟨hall, hfits⟩ := hread
    have hstop : e.plainOff % segmentPlainLen + e.plainLen < 2 ^ 64 :=
      (Nat.add_le_add_right (Nat.mod_le _ _) _).trans_lt hsum
    rw [returned_bind, add_of_lt hstop, returned_bind]
    by_cases hslice : e.plainOff % segmentPlainLen + e.plainLen ≤ r.length
    · rw [slice_of_le (Nat.le_add_right _ _) hslice]
      refine iff_of_true (safe_ofExcept _) ⟨hsum, hpos, hcap, ?_⟩
      rcases hfits.1 hslice with hinside | hempty
      · exact .inr (.inl ⟨hinside, fun s hs => (hall s hs).1.2⟩)
      · exact .inl hempty
    · rw [slice_of_not_le hslice]
      refine iff_of_false not_safe_panics ?_
      rintro ⟨-, -, -, hempty | ⟨hinside, -⟩ | ⟨s, hs, hrefused, -⟩⟩
      · exact hslice (hfits.2 (.inr hempty))
      · exact hslice (hfits.2 (.inl hinside))
      · exact (hall s hs).2 hrefused
  | failed err =>
    rw [hrun] at hread
    obtain ⟨t, ht, hrefused, hbefore⟩ := hread
    exact iff_of_true (safe_failed _)
      ⟨hsum, hpos, hcap, .inr (.inr ⟨t, ht, hrefused, fun u hu hut => (hbefore u hu hut).1⟩)⟩
  | panics =>
    rw [hrun] at hread
    obtain ⟨t, ht, hinvalid, hrefused, hbefore⟩ := hread
    refine iff_of_false not_safe_panics ?_
    rintro ⟨-, -, -, ⟨hlen, hdvd⟩ | ⟨hinside, hcounter⟩ | ⟨s, hs, hend, hvalid⟩⟩
    · exact FooterEntry.not_reaches hlen hdvd t ht
    · exact hinvalid ⟨lt_segmentCount_iff.2 (ht.2.trans_le hinside), hcounter t ht⟩
    · -- the panic is before the refusal, at it or after it
      rcases lt_trichotomy t s with hts | rfl | hst
      · exact hinvalid (hvalid t ht hts)
      · exact hrefused hend
      · exact (hbefore s hs hst).2 hend

/-! ## Any file -/

/-- What a file must not have in its footer: a body length whose region leaves the word, or, in a body
of that length, harmful numbers in the entry that is asked for and that the index agrees with. -/
def PackHarmless (maxAlloc : Nat) (file : Bytes) (expected : PackId) (fmk : ByteArr 32) (wantKind : BlobKind)
    (wantId : BlobId) (indexLoc : Option (Nat × Nat)) : Prop :=
  ∀ ctx, FooterRead file expected fmk ctx → ctx.RegionFits ∧ (ctx.RegionMatches →
    ∀ e, ctx.entries.find? (fun e => e.kind = wantKind ∧ e.id = wantId) = some e →
      indexLoc.all (· = (e.plainOff, e.plainLen)) → e.Harmless maxAlloc file ctx)

theorem FooterRead.unique {ctx' : PackContext} (h : FooterRead file expected fmk ctx)
    (h' : FooterRead file expected fmk ctx') : ctx' = ctx :=
  Outcome.returned.inj (h'.readFooterChecked_eq.symm.trans h.readFooterChecked_eq)

theorem FooterRead.inside (h : FooterRead file expected fmk ctx) (hregion : ctx.RegionMatches)
    (hsmall : file.length < 2 ^ 63) : ctx.Inside file := by
  have hlong := h.long
  have hextent := h.extent
  have hstart := h.start
  have hregion : ctx.footerStart - ctx.bodyStart = _ := hregion
  rw [h.bodyStart] at hregion
  exact {
    header := by omega
    bodyStart := h.bodyStart
    footerStart := by omega
    footer := by omega
    small := hsmall }

/-- Reading a blob does not panic exactly if the pack is harmless. -/
theorem readBlobChecked_safe_iff (laws : OpensShorter) (hsmall : file.length < 2 ^ 63) (wantKind : BlobKind)
    (wantId : BlobId) (indexLoc : Option (Nat × Nat)) :
    (readBlobChecked maxAlloc file expected fmk wantKind wantId indexLoc).Safe ↔
      PackHarmless maxAlloc file expected fmk wantKind wantId indexLoc := by
  unfold readBlobChecked PackHarmless
  by_cases hread : ∃ ctx, FooterRead file expected fmk ctx
  · obtain ⟨ctx, hctx⟩ := hread
    rcases hctx.openPackChecked_cases with ⟨hfits, hopen⟩ | ⟨hfits, hmatch, e, hopen⟩ | ⟨hfits, hmatch, hopen⟩
    · rw [hopen]
      exact iff_of_false not_safe_panics fun h => hfits (h ctx hctx).1
    · rw [hopen]
      refine iff_of_true (safe_failed _) fun ctx' hctx' => ?_
      rw [hctx.unique hctx']
      exact ⟨hfits, fun h => absurd h hmatch⟩
    · rw [hopen, returned_bind]
      have honly : ∀ P : PackContext → Prop, (∀ ctx', FooterRead file expected fmk ctx' → P ctx') ↔ P ctx :=
        fun P => ⟨fun h => h ctx hctx, fun h ctx' hctx' => hctx.unique hctx' ▸ h⟩
      rw [honly]
      cases hfind : ctx.entries.find? (fun e => e.kind = wantKind ∧ e.id = wantId) with
      | none => exact iff_of_true (safe_failed _) ⟨hfits, fun _ e he => by cases he⟩
      | some e =>
        have hentry : (readEntryChecked maxAlloc file ctx e).Safe ↔ _ :=
          readEntryChecked_safe_iff laws (hctx.inside hmatch hsmall) e
        by_cases hloc : indexLoc.all (· = (e.plainOff, e.plainLen))
        · simp only [if_pos hloc, hentry]
          constructor
          · rintro h
            refine ⟨hfits, fun _ e' he' _ => ?_⟩
            cases he'
            exact h
          · exact fun h => h.2 hmatch e rfl hloc
        · simp only [if_neg hloc]
          refine iff_of_true (safe_failed _) ⟨hfits, fun _ e' he' hloc' => ?_⟩
          cases he'
          exact absurd hloc' hloc
  · obtain ⟨e, he⟩ := readFooterChecked_failed fun ctx hctx => hread ⟨ctx, hctx⟩
    rw [openPackChecked, he]
    exact iff_of_true (safe_failed _) fun ctx hctx => absurd ⟨ctx, hctx⟩ hread

theorem openPackChecked_safe {wantKind : BlobKind} {wantId : BlobId} {indexLoc : Option (Nat × Nat)}
    (h : (readBlobChecked maxAlloc file expected fmk wantKind wantId indexLoc).Safe) :
    (openPackChecked file expected fmk).Safe := by
  intro hopen
  rw [readBlobChecked, hopen] at h
  exact h rfl

theorem readBlobChecked_hash {wantKind : BlobKind} {wantId : BlobId} {indexLoc : Option (Nat × Nat)}
    {b : Bytes} (h : readBlobChecked maxAlloc file expected fmk wantKind wantId indexLoc = .returned b) :
    Env.blake3 b = wantId := by
  have hrefines := readBlobChecked_refines maxAlloc file expected fmk wantKind wantId indexLoc
  rw [h] at hrefines
  rcases hrefines with hpanics | hok
  · cases hpanics
  · exact readBlob_hash (ofExcept_eq_returned.1 hok.symm)

/-- A pack from a peer is read without a panic, and to bytes of the wanted id, unless its footer is
harmful. -/
theorem peer_pack_iff (laws : OpensShorter) (hsmall : file.length < 2 ^ 63) (wantKind : BlobKind)
    (wantId : BlobId) (indexLoc : Option (Nat × Nat)) :
    ((openPackChecked file expected fmk).Safe ∧
      (readBlobChecked maxAlloc file expected fmk wantKind wantId indexLoc).Safe ∧
      ∀ b, readBlobChecked maxAlloc file expected fmk wantKind wantId indexLoc = .returned b → Env.blake3 b = wantId) ↔
      PackHarmless maxAlloc file expected fmk wantKind wantId indexLoc := by
  rw [← readBlobChecked_safe_iff laws hsmall]
  constructor
  · exact fun h => h.2.1
  · exact fun h => ⟨openPackChecked_safe h, h, fun b hb => readBlobChecked_hash hb⟩

end

/-! ## Samples -/

namespace Sample

theorem opensShorter : OpensShorter := by
  intro key nonce aad ct plain h
  change (if _ then _ else if _ then _ else _) = _ at h
  split at h
  · cases h
  split at h
  · cases h
  · cases h
    rw [length_take]
    omega

/-- A pack of the folder with one entry, sealed over a body of 50 bytes. -/
def packOf (entry : FooterEntry) : Bytes :=
  match sealPackBytes .packData zeroId (ByteArr.fill 16 0) (List.replicate 50 7) [entry] with
  | .ok file => file
  | .error _ => []

def insideEntry : FooterEntry := ⟨.dataChunk, Env.blake3 (List.replicate 10 7), 40, 10⟩

def outsideEntry : FooterEntry := ⟨.dataChunk, Env.blake3 (List.replicate 10 7), 100, 10⟩

theorem packOf_insideEntry_harmless : PackHarmless (2 ^ 30) (packOf insideEntry)
    (packNameOf (packOf insideEntry)) zeroId .dataChunk insideEntry.id (some (40, 10)) := by
  have hread : readBlobChecked (2 ^ 30) (packOf insideEntry) (packNameOf (packOf insideEntry)) zeroId .dataChunk
      insideEntry.id (some (40, 10)) = .returned (List.replicate 10 7) := by decide +kernel
  have hsafe : (readBlobChecked (2 ^ 30) (packOf insideEntry) (packNameOf (packOf insideEntry)) zeroId .dataChunk
      insideEntry.id (some (40, 10))).Safe := by
    rw [hread]
    exact safe_returned _
  refine (peer_pack_iff opensShorter (by decide +kernel) .dataChunk insideEntry.id (some (40, 10))).1
    ⟨openPackChecked_safe hsafe, hsafe, fun b hb => readBlobChecked_hash hb⟩

/-- An entry beyond the end of the body: its blob is sliced out of a buffer that ends before it. -/
theorem packOf_outsideEntry_panics :
    sealPackBytes .packData zeroId (ByteArr.fill 16 0) (List.replicate 50 7) [outsideEntry] =
      .ok (packOf outsideEntry) ∧
    (openPackChecked (packOf outsideEntry) (packNameOf (packOf outsideEntry)) zeroId).Safe ∧
    readBlobChecked (2 ^ 30) (packOf outsideEntry) (packNameOf (packOf outsideEntry)) zeroId .dataChunk
      outsideEntry.id none = .panics ∧
    readBlob (packOf outsideEntry) (packNameOf (packOf outsideEntry)) zeroId .dataChunk
      outsideEntry.id none = .error .outOfRange := by
  refine ⟨?_, ?_, by decide +kernel, by decide +kernel⟩
  · decide +kernel
  · unfold Safe
    decide +kernel

end Sample

end Ferry
