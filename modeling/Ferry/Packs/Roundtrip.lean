import Ferry.Packs.History
import Ferry.Packs.Sealing

/-! # Packs give back what was sealed

A pack of blobs laid end to end is opened and read again. The footer length is
a `u32` at the end of the file, so this ends where the footer gets longer.
-/

namespace Ferry

open Lib List

section
variable [PackEnv] {kind : ContainerKind} {fmk : ByteArr 32} {salt : ByteArr 16} {body : Bytes}
  {entries : List FooterEntry} {segments : List Bytes} {footer : Bytes}

/-! ## Opening -/

omit [PackEnv] in
theorem bodyRegionLen_of_range {n : Nat} (h : segmentCount n ≤ 2 ^ 31) :
    bodyRegionLen n = n + tagLen * segmentCount n := by
  have hn := le_segmentCount_mul n
  unfold segmentPlainLen at hn
  unfold bodyRegionLen tagLen
  omega

omit [PackEnv] in
theorem bodyRegionLen_lt {n : Nat} (h : segmentCount n ≤ 2 ^ 31) :
    headerLen + saltLen + (n + tagLen * segmentCount n) < 2 ^ 63 := by
  have hn := le_segmentCount_mul n
  unfold segmentPlainLen at hn
  unfold headerLen saltLen tagLen
  omega

/-- The plaintext length of a segment of the body. -/
def PackContext.plainHere (ctx : PackContext) (s : Nat) : Nat :=
  min segmentPlainLen (ctx.bodyPlainLen - s * segmentPlainLen)

def PackContext.ctOff (ctx : PackContext) (s : Nat) : Nat := ctx.bodyStart + s * (segmentPlainLen + tagLen)

variable {ctx : PackContext} {e : FooterEntry} {blobs : List (BlobKind × Bytes)}

/-- One round of the loop over the segments. -/
theorem readSegments_succ {file : Bytes} {s : Nat}
    (hbody : ctx.bodyPlainLen < 2 ^ 64) (hbegins : s * segmentPlainLen ≤ ctx.bodyPlainLen)
    (hfits : ctx.ctOff s + ctx.plainHere s + tagLen ≤ ctx.footerStart)
    (hfooter : ctx.footerStart < 2 ^ 64) (hcounter : s < 2 ^ 31) (rounds : Nat) :
    readSegments file ctx (rounds + 1) s = (do
      let pt ← (PackEnv.cipherOpen ctx.key (bodyNonce s (s + 1 == segmentCount ctx.bodyPlainLen))
        (bodyAad (file.take headerLen) ctx.kind)
        ((file.drop (ctx.ctOff s)).take (ctx.plainHere s + tagLen))).mapError .footerCrypto
      let rest ← readSegments file ctx rounds (s + 1)
      return pt ++ rest) := by
  have hhere : min segmentPlainLen
      ((ctx.bodyPlainLen + 2 ^ 64 - s * segmentPlainLen % 2 ^ 64) % 2 ^ 64) = ctx.plainHere s := by
    unfold PackContext.plainHere
    omega
  have hoff : (ctx.bodyStart + s * (segmentPlainLen + tagLen)) % 2 ^ 64 = ctx.ctOff s :=
    Nat.mod_eq_of_lt (by unfold PackContext.ctOff at hfits; omega)
  have hend : (ctx.ctOff s + ctx.plainHere s + tagLen) % 2 ^ 64 =
      ctx.ctOff s + ctx.plainHere s + tagLen := Nat.mod_eq_of_lt (by omega)
  have hlen : ctx.ctOff s + ctx.plainHere s + tagLen - ctx.ctOff s = ctx.plainHere s + tagLen := by omega
  rw [readSegments]
  simp only [hhere, hoff, hend, hlen]
  rw [if_neg (by omega), if_neg (by omega)]

namespace SealedParts

variable (h : SealedParts kind fmk salt body entries segments footer) (laws : CipherLaws)
include h laws

/-- A sealed pack opens to the context it was sealed with. -/
theorem opened (hkind : kind = .packData ∨ kind = .packMeta) (hrange : segmentCount body.length ≤ 2 ^ 31)
    (htyped : ∀ e ∈ entries, e.Typed) (hfooter : 49 * entries.length + 32 < 2 ^ 32) :
    Opened (packFile kind salt segments.flatten footer)
      (packNameOf (packFile kind salt segments.flatten footer)) fmk
      (sealedContext kind fmk salt body entries segments) := by
  have hlen := length_packFile kind salt segments.flatten footer
  have hflen := h.length_footer laws
  have hfield : footerLenOf (packFile kind salt segments.flatten footer) = footer.length := by
    rw [footerLenOf_packFile, Nat.mod_eq_of_lt (by omega)]
  have hbody : body.length < 2 ^ 64 := by
    have := le_segmentCount_mul body.length
    unfold segmentPlainLen at this
    omega
  have hcount : entries.length < 2 ^ 32 := by omega
  exact {
    name := rfl
    long := by omega
    header := parseHeader_packFile kind salt _ _
    pack := hkind
    extent := by
      simp only [sealedContext]
      omega
    start := Nat.le_add_right _ _
    key := by
      rw [saltOf_packFile]
      rfl
    bodyStart := rfl
    footer := by
      refine ⟨footerBytes body.length entries, ?_, footerParse_ok_iff.2 ⟨hbody, hcount, htyped, rfl⟩⟩
      rw [hfield]
      have htake : ((packFile kind salt segments.flatten footer).drop
          (headerLen + saltLen + segments.flatten.length)).take footer.length = footer := by
        rw [← drop_drop, drop_prologue, append_assoc, drop_left, take_left]
      simp only [sealedContext, htake]
      exact laws.opens _ _ _ _ _ h.footer
    region := by
      change headerLen + saltLen + segments.flatten.length - _ = bodyRegionLen body.length
      rw [Nat.add_sub_cancel_left, h.length_flatten laws, bodyRegionLen_of_range hrange] }

variable (hrange : segmentCount body.length ≤ 2 ^ 31)
include hrange

theorem not_opened (hfooter : ¬ 49 * entries.length + 32 < 2 ^ 32) {expected : PackId}
    (hopen : Opened (packFile kind salt segments.flatten footer) expected fmk ctx) :
    ctx.bodyPlainLen ≠ body.length := by
  intro hsame
  have hlen := length_packFile kind salt segments.flatten footer
  have hflen := h.length_footer laws
  have hextent := hopen.extent
  have hregion := hopen.region
  have hflat := h.length_flatten laws
  rw [footerLenOf_packFile] at hextent
  rw [hsame, bodyRegionLen_of_range hrange] at hregion
  omega

/-! ## Reading -/

/-- The segments of a sealed body decrypt to the body, piece by piece. -/
theorem readSegments_eq (rounds : Nat) :
    ∀ s, s + rounds ≤ segmentCount body.length → readSegments (packFile kind salt segments.flatten footer)
        (sealedContext kind fmk salt body entries segments) rounds s =
        .ok ((body.drop (s * segmentPlainLen)).take (rounds * segmentPlainLen)) := by
  induction rounds with
  | zero =>
    intro s _
    rfl
  | succ rounds ih =>
    intro s hs
    have hlt : s < segments.length := by rw [h.count]; omega
    have hbefore := lt_segmentCount_iff.1 (h.count ▸ hlt)
    have hend := segment_end_le (h.count ▸ hlt)
    have hall := bodyRegionLen_lt hrange
    have hflat := h.length_flatten laws
    have hfits : headerLen + saltLen + s * (segmentPlainLen + tagLen) +
        min segmentPlainLen (body.length - s * segmentPlainLen) + tagLen ≤
        headerLen + saltLen + segments.flatten.length := by
      rw [hflat, Nat.add_assoc, Nat.add_assoc, ← Nat.add_assoc (s * _)]
      exact Nat.add_le_add_left hend _
    have htake := h.take_drop_segment laws hlt
    rw [h.length_segment laws s hlt, length_piece] at htake
    have hround := @readSegments_succ _ (sealedContext kind fmk salt body entries segments)
      (packFile kind salt segments.flatten footer) s
    simp only [PackContext.ctOff, PackContext.plainHere, sealedContext, take_packFile, htake,
      laws.opens _ _ _ _ _ (h.segment s hlt)] at hround
    rw [sealedContext, hround (by omega) hbefore.le hfits (by omega) (by omega) rounds]
    change (readSegments _ (sealedContext kind fmk salt body entries segments) rounds (s + 1) >>= _) = _
    rw [ih (s + 1) (by omega)]
    exact congrArg Except.ok (piece_append segmentPlainLen body s rounds)

/-! ## One blob -/

/-- An entry of a sealed pack reads back as the blob it was made for. -/
theorem readEntry_eq {b : Bytes}
    (hne : b ≠ []) (hlen : e.plainLen = b.length) (hin : e.plainOff + e.plainLen ≤ body.length)
    (hpart : (body.drop e.plainOff).take e.plainLen = b) (hid : e.id = Env.blake3 b) :
    readEntry (packFile kind salt segments.flatten footer)
      (sealedContext kind fmk salt body entries segments) e = .ok b := by
  have hpos : 0 < e.plainLen := by
    rw [hlen]
    exact length_pos_iff.2 hne
  have hall := bodyRegionLen_lt hrange
  have hlast : lastSegment e = (e.plainOff + e.plainLen - 1) / segmentPlainLen := by
    have hword : (e.plainOff + e.plainLen + 2 ^ 64 - 1) % 2 ^ 64 = e.plainOff + e.plainLen - 1 := by omega
    rw [lastSegment, hword]
  have hrounds : e.plainOff / segmentPlainLen + (lastSegment e + 1 - e.plainOff / segmentPlainLen) ≤
      segmentCount body.length := by
    have hin' : lastSegment e < segmentCount body.length := by
      rw [lt_segmentCount_iff]
      exact lt_of_le_of_lt (Nat.div_mul_le_self _ _) (by omega)
    have hle : e.plainOff / segmentPlainLen ≤ lastSegment e := by
      exact Nat.div_le_div_right (by omega)
    omega
  unfold readEntry
  rw [if_neg (by omega)]
  change (readSegments _ _ (lastSegment e + 1 - e.plainOff / segmentPlainLen)
    (e.plainOff / segmentPlainLen) >>= sliceEntry e) = _
  rw [h.readSegments_eq laws hrange _ _ hrounds, ok_bind]
  -- the segments from the first to the last cover the entry
  generalize hr : lastSegment e + 1 - e.plainOff / segmentPlainLen = rounds at hrounds
  have hcover : e.plainOff % segmentPlainLen + e.plainLen ≤ rounds * segmentPlainLen := by
    rw [← hr, hlast]
    exact mod_add_le_pieces (by decide) _ _
  unfold sliceEntry
  rw [if_neg]
  · have hoff : e.plainOff / segmentPlainLen * segmentPlainLen + e.plainOff % segmentPlainLen =
        e.plainOff := by
      rw [Nat.mul_comm]
      exact Nat.div_add_mod _ _
    rw [take_drop_take_drop body hcover, hoff, hpart, hid, verifyHash, if_pos rfl]
  · have hdiv := Nat.div_add_mod e.plainOff segmentPlainLen
    rw [length_take, length_drop, Nat.mul_comm (e.plainOff / segmentPlainLen)]
    generalize segmentPlainLen = w at hcover hdiv ⊢
    omega

end SealedParts

/-! ## Blobs laid end to end -/

def bodyOf (blobs : List (BlobKind × Bytes)) : Bytes := blobs.flatMap Prod.snd

def layOut (off : Nat) : List (BlobKind × Bytes) → List FooterEntry
  | [] => []
  | (kind, b) :: blobs => ⟨kind, Env.blake3 b, off, b.length⟩ :: layOut (off + b.length) blobs

theorem length_layOut (off : Nat) (blobs : List (BlobKind × Bytes)) :
    (layOut off blobs).length = blobs.length := by
  induction blobs generalizing off with
  | nil => rfl
  | cons kb blobs ih => rw [layOut, length_cons, ih, length_cons]

structure Lies (body : Bytes) (kb : BlobKind × Bytes) (e : FooterEntry) : Prop where
  kind : e.kind = kb.1
  id : e.id = Env.blake3 kb.2
  len : e.plainLen = kb.2.length
  inside : e.plainOff + e.plainLen ≤ body.length
  part : (body.drop e.plainOff).take e.plainLen = kb.2

theorem layOut_lies (before : Bytes) (blobs : List (BlobKind × Bytes)) :
    List.Forall₂ (Lies (before ++ bodyOf blobs)) blobs (layOut before.length blobs) := by
  induction blobs generalizing before with
  | nil => exact .nil
  | cons kb blobs ih =>
    have hrest := ih (before ++ kb.2)
    have hbody : before ++ bodyOf (kb :: blobs) = before ++ kb.2 ++ bodyOf blobs := by
      simp [bodyOf]
    rw [length_append] at hrest
    rw [hbody]
    refine .cons ⟨rfl, rfl, rfl, ?_, ?_⟩ hrest
    · simp only [length_append]
      omega
    · dsimp only
      rw [append_assoc, drop_left, take_left]

theorem find_of_distinct {entries : List FooterEntry} {body : Bytes}
    (h : List.Forall₂ (Lies body) blobs entries)
    (hdistinct : (blobs.map fun kb => (kb.1, Env.blake3 kb.2)).Nodup) {kb : BlobKind × Bytes}
    (hkb : kb ∈ blobs) :
    ∃ e, entries.find? (fun e => e.kind = kb.1 ∧ e.id = Env.blake3 kb.2) = some e ∧ Lies body kb e := by
  induction h with
  | nil => cases hkb
  | @cons kb' e blobs entries he hrest ih =>
    rw [map_cons, nodup_cons] at hdistinct
    rcases mem_cons.1 hkb with rfl | hkb
    · refine ⟨e, ?_, he⟩
      simp [he.kind, he.id]
    obtain ⟨e', hfind, hlies⟩ := ih hdistinct.2 hkb
    refine ⟨e', ?_, hlies⟩
    rw [find?_cons_of_neg, hfind]
    rw [decide_eq_true_eq]
    rintro ⟨hkind, hid⟩
    apply hdistinct.1
    rw [← he.kind, ← he.id, hkind, hid]
    exact mem_map.2 ⟨kb, hkb, rfl⟩

theorem layOut_typed (hrange : segmentCount (bodyOf blobs).length ≤ 2 ^ 31)
    (he : e ∈ layOut 0 blobs) : e.Typed := by
  obtain ⟨kb, -, hlies⟩ := forall₂_mem_right (layOut_lies [] blobs) he
  have hinside := hlies.inside
  have hall := le_segmentCount_mul (bodyOf blobs).length
  rw [nil_append] at hinside
  unfold segmentPlainLen at hall
  unfold FooterEntry.Typed
  omega

theorem readBlob_eq {file : Bytes} {expected : PackId}
    (hopen : openPack file expected fmk = .ok ctx) {wantKind : BlobKind} {wantId : BlobId}
    (hfind : ctx.entries.find? (fun e => e.kind = wantKind ∧ e.id = wantId) = some e)
    {indexLoc : Option (Nat × Nat)} (hloc : ∀ loc, indexLoc = some loc → loc = (e.plainOff, e.plainLen)) :
    readBlob file expected fmk wantKind wantId indexLoc = readEntry file ctx e := by
  unfold readBlob
  rw [hopen, ok_bind]
  cases indexLoc with
  | none =>
    rw [hfind]
  | some loc =>
    dsimp only [readBlobFromCtx]
    rw [hfind]
    dsimp only
    rw [if_neg (not_not.2 (hloc loc rfl))]

/-- Whatever is sealed comes back, as long as the footer is shorter than 4 GiB. -/
theorem sealed_pack_iff (laws : CipherLaws) (hkind : kind = .packData ∨ kind = .packMeta)
    {blobs : List (BlobKind × Bytes)} (hne : ∀ kb ∈ blobs, kb.2 ≠ [])
    (hdistinct : (blobs.map fun kb => (kb.1, Env.blake3 kb.2)).Nodup)
    (hrange : segmentCount (bodyOf blobs).length ≤ 2 ^ 31) {file : Bytes}
    (hseal : sealPackBytes kind fmk salt (bodyOf blobs) (layOut 0 blobs) = .ok file) :
    (∃ ctx, openPack file (packNameOf file) fmk = .ok ctx ∧ ctx.entries = layOut 0 blobs ∧
      ctx.bodyPlainLen = (bodyOf blobs).length ∧
      ∀ kb ∈ blobs, ∃ e ∈ ctx.entries, e.kind = kb.1 ∧ e.id = Env.blake3 kb.2 ∧
        readBlob file (packNameOf file) fmk kb.1 (Env.blake3 kb.2) none = .ok kb.2 ∧
        readBlob file (packNameOf file) fmk kb.1 (Env.blake3 kb.2) (some (e.plainOff, e.plainLen)) =
          .ok kb.2) ↔
      49 * blobs.length + 32 < 2 ^ 32 := by
  obtain ⟨segments, footer, hparts, rfl⟩ := sealPackBytes_parts hseal
  rw [← length_layOut 0 blobs]
  constructor
  · rintro ⟨ctx, hopen, -, hbody, -⟩
    by_contra hfooter
    exact hparts.not_opened laws hrange hfooter (openPack_ok_iff.1 hopen) hbody
  · intro hfooter
    have hopen := openPack_ok_iff.2
      (hparts.opened laws hkind hrange (fun e he => layOut_typed hrange he) hfooter)
    refine ⟨_, hopen, rfl, rfl, fun kb hkb => ?_⟩
    have hlay := layOut_lies [] blobs
    obtain ⟨e, hfind, hlies⟩ := find_of_distinct hlay hdistinct hkb
    have hread := hparts.readEntry_eq laws hrange (hne kb hkb) hlies.len hlies.inside hlies.part hlies.id
    refine ⟨e, mem_of_find?_eq_some hfind, hlies.kind, hlies.id, ?_, ?_⟩
    · rw [readBlob_eq hopen hfind (by simp), hread]
    · rw [readBlob_eq hopen hfind (by simp), hread]

end

/-! ## Samples -/

namespace Sample

theorem cipherLaws : CipherLaws where
  opens := by
    intro key nonce aad plain ct h
    cases h
    have hlen : (plain ++ List.replicate tagLen 0).length = plain.length + tagLen := by simp
    change (if _ then _ else if _ then _ else _) = _
    rw [if_neg (by omega), hlen, Nat.add_sub_cancel, drop_left, take_left, if_neg]
    decide
  length := by
    intro key nonce aad plain ct h
    cases h
    simp

theorem sealPackBytes_succeeds (kind : ContainerKind) (fmk : ByteArr 32) (salt : ByteArr 16) (body : Bytes)
    (entries : List FooterEntry) : ∃ file, sealPackBytes kind fmk salt body entries = .ok file := by
  obtain ⟨segments, hsegments, -⟩ := mapM_ok (R := fun _ _ => True)
    fun _ _ => ⟨_, rfl, trivial⟩
  exact ⟨_, bind_eq_ok.2 ⟨segments, hsegments, rfl⟩⟩

def oneBlob : List (BlobKind × Bytes) := [(.dataChunk, [7])]

theorem sealed_oneBlob : ∃ file, sealPackBytes .packData zeroId (ByteArr.fill 16 0) (bodyOf oneBlob)
      (layOut 0 oneBlob) = .ok file ∧
    ∃ ctx, openPack file (packNameOf file) zeroId = .ok ctx ∧ ctx.entries = layOut 0 oneBlob := by
  obtain ⟨file, hfile⟩ := sealPackBytes_succeeds .packData zeroId (ByteArr.fill 16 0) (bodyOf oneBlob)
    (layOut 0 oneBlob)
  obtain ⟨ctx, hopen, hentries, -⟩ := (sealed_pack_iff cipherLaws (.inl rfl) (by decide) (by decide)
    (by decide) hfile).2 (by decide)
  exact ⟨file, hfile, ctx, hopen, hentries⟩

def countedBlobs (n : Nat) : List (BlobKind × Bytes) :=
  (List.range n).map fun i => (.dataChunk, leBytes 4 i)

theorem length_bodyOf_countedBlobs (n : Nat) : (bodyOf (countedBlobs n)).length = 4 * n := by
  induction n with
  | zero => rfl
  | succ n =>
    have hsucc : bodyOf (countedBlobs (n + 1)) = bodyOf (countedBlobs n) ++ leBytes 4 n := by
      simp [bodyOf, countedBlobs, range_succ]
    rw [hsucc, length_append, leBytes_length]
    omega

/-- The sample hash reads a blob as a number in base 257. -/
def sampleHash (bytes : Bytes) : Nat := bytes.foldl (fun acc b => acc * 257 + b.toNat + 1) 0

theorem val_blake3 (bytes : Bytes) : (Env.blake3 bytes : BlobId).val = leBytes 32 (sampleHash bytes) := rfl

theorem sampleHash_four (a b c d : UInt8) : sampleHash [a, b, c, d] =
    (((a.toNat + 1) * 257 + b.toNat + 1) * 257 + c.toNat + 1) * 257 + d.toNat + 1 := by
  simp [sampleHash]

theorem sampleHash_four_inj {a b c d a' b' c' d' : UInt8}
    (h : sampleHash [a, b, c, d] = sampleHash [a', b', c', d']) : [a, b, c, d] = [a', b', c', d'] := by
  rw [sampleHash_four, sampleHash_four] at h
  have hb := b.toNat_lt
  have hc := c.toNat_lt
  have hd := d.toNat_lt
  have hb' := b'.toNat_lt
  have hc' := c'.toNat_lt
  have hd' := d'.toNat_lt
  rw [UInt8.toNat_inj.1 (show a.toNat = a'.toNat by omega),
    UInt8.toNat_inj.1 (show b.toNat = b'.toNat by omega),
    UInt8.toNat_inj.1 (show c.toNat = c'.toNat by omega),
    UInt8.toNat_inj.1 (show d.toNat = d'.toNat by omega)]

theorem sampleHash_four_lt (a b c d : UInt8) : sampleHash [a, b, c, d] < 256 ^ 32 := by
  have ha := a.toNat_lt
  have hb := b.toNat_lt
  have hc := c.toNat_lt
  have hd := d.toNat_lt
  have hsmall : sampleHash [a, b, c, d] < 256 ^ 5 := by
    rw [sampleHash_four]
    omega
  exact hsmall.trans (Nat.pow_lt_pow_right (by decide) (by decide))

theorem blake3_leBytes_inj {i j : Nat} (hi : i < 2 ^ 32) (hj : j < 2 ^ 32)
    (h : (Env.blake3 (leBytes 4 i) : BlobId) = Env.blake3 (leBytes 4 j)) : i = j := by
  have hval := congrArg Subtype.val h
  rw [val_blake3, val_blake3] at hval
  have hlt : ∀ k, sampleHash (leBytes 4 k) < 256 ^ 32 := fun k => sampleHash_four_lt _ _ _ _
  have hhash : sampleHash (leBytes 4 i) = sampleHash (leBytes 4 j) := by
    rw [← leNat_leBytes 32 _ (hlt i), hval, leNat_leBytes 32 _ (hlt j)]
  have hbytes : leBytes 4 i = leBytes 4 j := sampleHash_four_inj hhash
  rw [← leNat_leBytes 4 i (by omega), hbytes, leNat_leBytes 4 j (by omega)]

theorem countedBlobs_distinct {n : Nat} (hn : n ≤ 2 ^ 32) :
    ((countedBlobs n).map fun kb => (kb.1, (Env.blake3 kb.2 : BlobId))).Nodup := by
  rw [countedBlobs, map_map]
  refine List.Nodup.map_on ?_ nodup_range
  intro i hi j hj h
  rw [mem_range] at hi hj
  exact blake3_leBytes_inj (by omega) (by omega) (congrArg Prod.snd h)

/-- A pack of 87652394 small blobs has a footer of more than 4 GiB and does not open again. -/
theorem not_sealed_countedBlobs : ∃ blobs : List (BlobKind × Bytes), (∀ kb ∈ blobs, kb.2 ≠ []) ∧
    (blobs.map fun kb => (kb.1, (Env.blake3 kb.2 : BlobId))).Nodup ∧
    segmentCount (bodyOf blobs).length ≤ 2 ^ 31 ∧
    ∃ file, sealPackBytes .packData zeroId (ByteArr.fill 16 0) (bodyOf blobs) (layOut 0 blobs) = .ok file ∧
      ∀ ctx, openPack file (packNameOf file) zeroId = .ok ctx → ctx.bodyPlainLen ≠ (bodyOf blobs).length := by
  obtain ⟨n, hn⟩ : ∃ n, n = 87652394 := ⟨_, rfl⟩
  have hrange : segmentCount (bodyOf (countedBlobs n)).length ≤ 2 ^ 31 := by
    rw [length_bodyOf_countedBlobs]
    unfold segmentCount segmentPlainLen
    omega
  obtain ⟨file, hfile⟩ := sealPackBytes_succeeds .packData zeroId (ByteArr.fill 16 0)
    (bodyOf (countedBlobs n)) (layOut 0 (countedBlobs n))
  obtain ⟨segments, footer, hparts, rfl⟩ := sealPackBytes_parts hfile
  refine ⟨countedBlobs n, ?_, countedBlobs_distinct (by omega), hrange, _, hfile, fun ctx hopen => ?_⟩
  · intro kb hkb
    obtain ⟨i, -, rfl⟩ := mem_map.1 hkb
    exact ne_nil_of_length_pos (by rw [leBytes_length]; omega)
  · refine hparts.not_opened cipherLaws hrange ?_ (openPack_ok_iff.1 hopen)
    rw [length_layOut, countedBlobs, length_map, length_range]
    omega

end Sample

end Ferry
