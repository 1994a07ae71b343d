import Ferry.Lib.Pieces
import Ferry.Packs.Container
import Ferry.Store.Canonical

/-! # What a sealed pack gives back

The layout of footers, the shape of a sealed file, and the arithmetic of its
segments: a blob may lie inside one segment, span several of them or end at a
border.
-/

namespace Ferry

open Lib List

/-! ## Footers -/

theorem BlobKind.fromU8_eq_some {b : UInt8} {kind : BlobKind} :
    BlobKind.fromU8 b = some kind ↔ b = kind.toU8 := by
  constructor
  · intro h
    unfold BlobKind.fromU8 at h
    repeat' split at h
    all_goals cases h
    all_goals assumption
  · rintro rfl
    cases kind <;> rfl

theorem BlobKind.decodes {ε α : Type} {f : FormatError → ε} {e : ε} {k : UInt8 → BlobKind → Read ε α}
    {V : BlobKind → α → Bytes → Prop} (hk : ∀ kind, Decodes (k kind.toU8 kind) (V kind)) :
    Decodes (do
      let kb ← Reader.u8.mapError f
      match BlobKind.fromU8 kb with
      | none => throw e
      | some kind => k kb kind) fun a u => ∃ kind v, V kind a v ∧ u = kind.toU8 :: v := by
  apply Decodes.congr
  · apply Decodes.field Reader.u8_decodes
    intro kb
    apply Decodes.ofOption (BlobKind.fromU8 kb)
    · intro kind hkind
      rw [hkind]
      obtain rfl := BlobKind.fromU8_eq_some.1 hkind
      exact hk kind
    · exact fun hkind => ⟨_, by rw [hkind]⟩
  intro a u
  constructor
  · rintro ⟨kb, _, v, rfl, ⟨kind, hkind, hv⟩, rfl⟩
    obtain rfl := BlobKind.fromU8_eq_some.1 hkind
    exact ⟨kind, v, hv, rfl⟩
  · rintro ⟨kind, v, hv, rfl⟩
    exact ⟨kind.toU8, _, v, rfl, ⟨kind, BlobKind.fromU8_eq_some.2 rfl, hv⟩, rfl⟩

def FooterEntry.bytes (e : FooterEntry) : Bytes :=
  [e.kind.toU8] ++ e.id.val ++ leBytes 8 e.plainOff ++ leBytes 8 e.plainLen

def FooterEntry.Typed (e : FooterEntry) : Prop := e.plainOff < 2 ^ 64 ∧ e.plainLen < 2 ^ 64

def footerBytes (bodyPlainLen : Nat) (entries : List FooterEntry) : Bytes :=
  leBytes 8 bodyPlainLen ++ leBytes 4 entries.length ++ entries.flatMap FooterEntry.bytes ++ leBytes 4 0

theorem FooterEntry.length_bytes (e : FooterEntry) : e.bytes.length = 49 := by
  simp [FooterEntry.bytes, e.id.property]

theorem length_footerBytes (bodyPlainLen : Nat) (entries : List FooterEntry) :
    (footerBytes bodyPlainLen entries).length = 49 * entries.length + 16 := by
  have hentries : (entries.flatMap FooterEntry.bytes).length = 49 * entries.length := by
    induction entries with
    | nil => rfl
    | cons e =>
      rw [flatMap_cons, length_append, e.length_bytes, length_cons]
      omega
  simp only [footerBytes, length_append, leBytes_length]
  omega

theorem footerPlain_eq (entries : List FooterEntry) (bodyPlainLen : Nat) :
    footerPlain entries bodyPlainLen = footerBytes bodyPlainLen entries := by
  have hentries : ∀ out, entries.foldl putFooterEntry out = out ++ entries.flatMap FooterEntry.bytes := by
    induction entries with
    | nil => simp
    | cons e entries ih =>
      intro out
      rw [foldl_cons, ih]
      simp [putFooterEntry, putU64, putBytes, putU8, FooterEntry.bytes]
  simp [footerPlain, hentries, putU32, putU64, footerBytes]

theorem readFooterEntry_decodes : Decodes readFooterEntry fun e w => e.Typed ∧ w = e.bytes := by
  apply Decodes.congr
  · apply BlobKind.decodes
    intro kind
    apply Decodes.field (Reader.array_decodes 32)
    intro id
    apply Decodes.field Reader.u64_decodes
    intro plainOff
    apply Decodes.field Reader.u64_decodes
    intro plainLen
    exact .pure _
  rintro ⟨kind, id, off, len⟩ u
  simp [-Subtype.exists, FooterEntry.bytes, FooterEntry.Typed]

theorem readFooterTable_decodes : DecodesAll readFooterTable fun r w =>
    r.1 < 2 ^ 64 ∧ r.2.length < 2 ^ 32 ∧ (∀ e ∈ r.2, e.Typed) ∧ w = footerBytes r.1 r.2 := by
  apply DecodesAll.congr
  · apply DecodesAll.field Reader.u64_decodes
    intro bodyPlainLen
    apply DecodesAll.field Reader.u32_decodes
    intro count
    apply DecodesAll.bind (readN_decodes readFooterEntry_decodes count)
    intro entries
    apply DecodesAll.field Reader.u32_decodes
    intro reserved
    apply DecodesAll.guard
    exact Reader.ends_decodes _ _
  rintro ⟨bodyPlainLen, entries⟩ u
  simp [footerBytes, and_assoc]

theorem footerParse_ok_iff {b : Bytes} {bodyPlainLen : Nat} {entries : List FooterEntry} :
    footerParse b = .ok (bodyPlainLen, entries) ↔ bodyPlainLen < 2 ^ 64 ∧ entries.length < 2 ^ 32 ∧
      (∀ e ∈ entries, e.Typed) ∧ b = footerBytes bodyPlainLen entries :=
  readFooterTable_decodes.run_new

/-! ## Opening -/

def footerLenOf (file : Bytes) : Nat := leNat (file.drop (file.length - 4))

section
variable [PackEnv]

/-- The checks that a file passes until its footer is read, and what they establish. -/
structure FooterRead (file : Bytes) (expected : PackId) (fmk : ByteArr 32) (ctx : PackContext) : Prop where
  name : packNameOf file = expected
  long : headerLen + saltLen + 4 ≤ file.length
  header : parseHeader file = .ok ctx.kind
  pack : ctx.kind = .packData ∨ ctx.kind = .packMeta
  extent : ctx.footerStart + footerLenOf file = file.length - 4
  start : headerLen + saltLen ≤ ctx.footerStart
  key : ctx.key = derivePackKey fmk (saltOf file) ctx.kind
  bodyStart : ctx.bodyStart = headerLen + saltLen
  footer : ∃ plain, PackEnv.cipherOpen ctx.key footerNonce (footerAad (file.take headerLen) ctx.kind)
      ((file.drop ctx.footerStart).take (footerLenOf file)) = .ok plain ∧
    footerParse plain = .ok (ctx.bodyPlainLen, ctx.entries)

/-- A file that opens has a body of the length that the footer says. -/
structure Opened (file : Bytes) (expected : PackId) (fmk : ByteArr 32) (ctx : PackContext) : Prop extends
    FooterRead file expected fmk ctx where
  region : ctx.footerStart - (headerLen + saltLen) = bodyRegionLen ctx.bodyPlainLen

/-- A pack opens exactly if its parts are where the header and the footer say. -/
theorem openPack_ok_iff {file : Bytes} {expected : PackId} {fmk : ByteArr 32} {ctx : PackContext} :
    openPack file expected fmk = .ok ctx ↔ Opened file expected fmk ctx := by
  constructor
  · intro h
    unfold openPack at h
    obtain ⟨hname, h⟩ := guard_eq_ok.1 h
    obtain ⟨hlong, h⟩ := guard_eq_ok.1 h
    obtain ⟨kind, hheader, h⟩ := bind_eq_ok.1 h
    obtain ⟨hkind, h⟩ := guard_eq_ok.1 h
    obtain ⟨hneg, h⟩ := guard_eq_ok.1 h
    obtain ⟨hstart, h⟩ := guard_eq_ok.1 h
    obtain ⟨plain, hopen, h⟩ := bind_eq_ok.1 h
    obtain ⟨⟨bodyPlainLen, entries⟩, hparse, h⟩ := bind_eq_ok.1 h
    obtain ⟨hregion, h⟩ := guard_eq_ok.1 h
    cases h
    exact {
      name := not_not.1 hname
      long := not_lt.1 hlong
      header := mapError_eq_ok.1 hheader
      pack := by tauto
      extent := Nat.sub_add_cancel (not_lt.1 hneg)
      start := not_lt.1 hstart
      key := rfl
      bodyStart := rfl
      footer := ⟨plain, mapError_eq_ok.1 hopen, hparse⟩
      region := not_not.1 hregion }
  · intro h
    obtain ⟨plain, hopen, hparse⟩ := h.footer
    have hextent := h.extent
    have hstart : file.length - 4 - footerLenOf file = ctx.footerStart := by omega
    unfold openPack
    refine guard_eq_ok.2 ⟨not_not.2 h.name, guard_eq_ok.2 ⟨not_lt.2 h.long, ?_⟩⟩
    refine bind_eq_ok.2 ⟨ctx.kind, mapError_eq_ok.2 h.header, ?_⟩
    refine guard_eq_ok.2 ⟨?_, guard_eq_ok.2 ⟨?_, guard_eq_ok.2 ⟨?_, ?_⟩⟩⟩
    · have := h.pack
      tauto
    · change ¬ _ < footerLenOf file
      omega
    · change ¬ file.length - 4 - footerLenOf file < _
      rw [hstart]
      exact not_lt.2 h.start
    refine bind_eq_ok.2 ⟨plain, mapError_eq_ok.2 ?_, bind_eq_ok.2 ⟨_, hparse, ?_⟩⟩
    · rw [← hstart, h.key] at hopen
      exact hopen
    refine guard_eq_ok.2 ⟨not_not.2 ?_, ?_⟩
    · change file.length - 4 - footerLenOf file - _ = _
      rw [hstart]
      exact h.region
    · change Except.ok (PackContext.mk ctx.kind (derivePackKey fmk (saltOf file) ctx.kind)
        (headerLen + saltLen) (file.length - 4 - footerLenOf file) ctx.bodyPlainLen ctx.entries) = .ok ctx
      rw [hstart, ← h.key, ← h.bodyStart]

/-! ## Sealed files -/

/-- What the code asks of a cipher: opening undoes sealing, and sealing adds a tag. -/
structure CipherLaws : Prop where
  opens : ∀ key nonce aad plain ct, PackEnv.cipherSeal key nonce aad plain = .ok ct →
    PackEnv.cipherOpen key nonce aad ct = .ok plain
  length : ∀ key nonce aad plain ct, PackEnv.cipherSeal key nonce aad plain = .ok ct →
    ct.length = plain.length + tagLen

def packFile (kind : ContainerKind) (salt : ByteArr 16) (body footer : Bytes) : Bytes :=
  writeHeader kind ++ salt.val ++ body ++ footer ++ leBytes 4 footer.length

end

theorem leNat_leBytes_mod (width v : Nat) : leNat (leBytes width v) = v % 256 ^ width := by
  induction width generalizing v with
  | zero => rw [Nat.pow_zero, Nat.mod_one]; rfl
  | succ width ih =>
    have hbyte : (UInt8.ofNat (v % 256)).toNat = v % 256 := by simp [UInt8.toNat_ofNat']
    rw [leBytes, leNat, ih, hbyte, Nat.pow_succ, Nat.mul_comm _ 256, Nat.mod_mul]

section packFile

variable (kind : ContainerKind) (salt : ByteArr 16) (body footer : Bytes)

theorem length_writeHeader : (writeHeader kind).length = headerLen := by
  cases kind <;> rfl

theorem length_packFile :
    (packFile kind salt body footer).length = headerLen + saltLen + body.length + footer.length + 4 := by
  simp only [packFile, length_append, length_writeHeader, salt.property, leBytes_length, saltLen]

theorem take_packFile : (packFile kind salt body footer).take headerLen = writeHeader kind := by
  rw [← length_writeHeader kind]
  simp only [packFile, append_assoc, take_left]

theorem parseHeader_packFile : parseHeader (packFile kind salt body footer) = .ok kind := by
  cases kind <;> rfl

theorem drop_prologue : (packFile kind salt body footer).drop (headerLen + saltLen) =
    body ++ footer ++ leBytes 4 footer.length := by
  have hlen : headerLen + saltLen = (writeHeader kind ++ salt.val).length := by
    rw [length_append, salt.property]
    rfl
  simp only [packFile, hlen, append_assoc]
  rw [← append_assoc, drop_left]

theorem saltOf_packFile : saltOf (packFile kind salt body footer) = salt := by
  apply Subtype.ext
  have hlen : (writeHeader kind).length = headerLen := length_writeHeader kind
  have hsalt : salt.val.length = saltLen := salt.property
  simp only [saltOf, packFile, append_assoc]
  rw [← hlen, drop_left, ← hsalt, take_left, take_left]

theorem footerLenOf_packFile :
    footerLenOf (packFile kind salt body footer) = footer.length % 2 ^ 32 := by
  have hlen : (packFile kind salt body footer).length - 4 =
      (writeHeader kind ++ salt.val ++ body ++ footer).length := by
    rw [packFile, length_append, leBytes_length, Nat.add_sub_cancel]
  rw [footerLenOf, hlen, packFile, drop_left, leNat_leBytes_mod]
  rfl

end packFile

/-! ## Segments -/

theorem lt_segmentCount_iff {s n : Nat} : s < segmentCount n ↔ s * segmentPlainLen < n := by
  unfold segmentCount segmentPlainLen
  omega

theorem le_segmentCount_mul (n : Nat) : n ≤ segmentCount n * segmentPlainLen := by
  unfold segmentCount segmentPlainLen
  omega

theorem segment_end_le {s n : Nat} (h : s < segmentCount n) :
    s * (segmentPlainLen + tagLen) + min segmentPlainLen (n - s * segmentPlainLen) + tagLen ≤
      n + tagLen * segmentCount n := by
  have hbefore := lt_segmentCount_iff.1 h
  have htags : tagLen * (s + 1) ≤ tagLen * segmentCount n := Nat.mul_le_mul_left _ h
  rw [Nat.mul_succ] at htags
  rw [Nat.mul_add, Nat.mul_comm s tagLen]
  omega

section
variable [PackEnv]

structure SealedParts (kind : ContainerKind) (fmk : ByteArr 32) (salt : ByteArr 16) (body : Bytes)
    (entries : List FooterEntry) (segments : List Bytes) (footer : Bytes) : Prop where
  count : segments.length = segmentCount body.length
  segment : ∀ s (h : s < segments.length), PackEnv.cipherSeal (derivePackKey fmk salt kind)
    (bodyNonce s (s + 1 == segmentCount body.length)) (bodyAad (writeHeader kind) kind)
    (piece segmentPlainLen body s) = .ok segments[s]
  footer : PackEnv.cipherSeal (derivePackKey fmk salt kind) footerNonce
    (footerAad (writeHeader kind) kind) (footerBytes body.length entries) = .ok footer

def sealedContext (kind : ContainerKind) (fmk : ByteArr 32) (salt : ByteArr 16) (body : Bytes)
    (entries : List FooterEntry) (segments : List Bytes) : PackContext :=
  ⟨kind, derivePackKey fmk salt kind, headerLen + saltLen, headerLen + saltLen + segments.flatten.length,
    body.length, entries⟩

variable {kind : ContainerKind} {fmk : ByteArr 32} {salt : ByteArr 16} {body : Bytes}
  {entries : List FooterEntry} {segments : List Bytes} {footer : Bytes}

theorem sealPackBytes_parts {file : Bytes} (h : sealPackBytes kind fmk salt body entries = .ok file) :
    ∃ segments footer, SealedParts kind fmk salt body entries segments footer ∧
      file = packFile kind salt segments.flatten footer := by
  obtain ⟨segments, hsegments, h⟩ := bind_eq_ok.1 h
  obtain ⟨footer, hfooter, h⟩ := bind_eq_ok.1 h
  cases h
  rw [footerPlain_eq] at hfooter
  replace hsegments := mapM_forall₂ hsegments
  refine ⟨segments, footer, ⟨?_, fun s hs => ?_, hfooter⟩, rfl⟩
  · rw [← hsegments.length_eq, length_range]
  · have hs' : s < (List.range (segmentCount body.length)).length := by rwa [hsegments.length_eq]
    have hget := hsegments.get hs' hs
    simp only [get_eq_getElem, getElem_range] at hget
    exact hget

namespace SealedParts

variable (h : SealedParts kind fmk salt body entries segments footer) (laws : CipherLaws)
include h laws

theorem length_segment (s : Nat) (hs : s < segments.length) :
    (segments[s]).length = (piece segmentPlainLen body s).length + tagLen :=
  laws.length _ _ _ _ _ (h.segment s hs)

theorem length_flatten :
    segments.flatten.length = body.length + tagLen * segmentCount body.length := by
  rw [← h.count]
  exact length_flatten_pieces (h.length_segment laws) (by rw [h.count]; exact le_segmentCount_mul _)

theorem length_footer : footer.length = 49 * entries.length + 32 := by
  rw [laws.length _ _ _ _ _ h.footer, length_footerBytes]
  rfl

theorem take_drop_segment {s : Nat} (hs : s < segments.length) :
    ((packFile kind salt segments.flatten footer).drop
        (headerLen + saltLen + s * (segmentPlainLen + tagLen))).take (segments[s]).length =
      segments[s] := by
  have hfull : ∀ j (hj : j < segments.length), j < s → (segments[j]).length = segmentPlainLen + tagLen := by
    intro j hj hlt
    have hbefore := lt_segmentCount_iff.1 (h.count ▸ hs)
    rw [h.length_segment laws j hj, length_piece]
    unfold segmentPlainLen at hbefore ⊢
    omega
  rw [← drop_drop, drop_prologue, append_assoc]
  exact take_drop_flatten hs hfull _

end SealedParts

end

end Ferry
