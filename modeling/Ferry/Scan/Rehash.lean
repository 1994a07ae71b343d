import Ferry.Packs.History
import Ferry.Store.Chunker

/-! # Streaming a file into the store

A scan reads a file in blocks. It keeps the bytes of the chunk that is not complete
yet, slices each block by the lengths that the chunker reports for it, and puts
each chunk into the store as soon as it is complete.
-/

namespace Ferry

open Lib List

/-- Where chunks go: a put that returns the chunk's id, and the end of the run by an error or a
panic. -/
structure ChunkSink (m : Type → Type) where
  put : Bytes → m BlobId
  stop : {α : Type} → m α

/-- The slice `&buf[from..to]`, which panics out of range. -/
def sliceOf (buf : Bytes) (a b : Nat) : Option Bytes :=
  if a ≤ b ∧ b ≤ buf.length then some ((buf.drop a).take (b - a)) else none

section
variable {m : Type → Type} [Monad m] (sink : ChunkSink m)

/-- The loop over the lengths of one block: `eaten` is how far the block has been used, `cur` what
is kept of the chunk that is not complete yet. -/
def putCuts (buf : Bytes) : List Nat → Nat → Bytes → Chunks → m (Nat × Bytes × Chunks)
  | [], eaten, cur, chunks => pure (eaten, cur, chunks)
  | len :: lens, eaten, cur, chunks =>
    if len < cur.length then sink.stop
    else
      match sliceOf buf eaten (eaten + (len - cur.length)) with
      | none => sink.stop
      | some fresh => do
        let id ← sink.put (cur ++ fresh)
        putCuts buf lens (eaten + (len - cur.length)) [] (chunks ++ [(id, (cur ++ fresh).length)])

/-- The loop over the reads of the file; a read of no bytes is its end. -/
def streamReads : List Bytes → Chunker → Bytes → Chunks → m (Chunker × Bytes × Chunks)
  | [], c, cur, chunks => pure (c, cur, chunks)
  | buf :: reads, c, cur, chunks =>
    if buf = [] then pure (c, cur, chunks)
    else do
      let (eaten, cur, chunks) ← putCuts sink buf (c.feed buf).2 0 cur chunks
      match sliceOf buf eaten buf.length with
      | none => sink.stop
      | some tail => streamReads reads (c.feed buf).1 (cur ++ tail) chunks

/-- `stream_file_chunks` on what the reads of the file return. -/
def streamFileChunks (p : ValidatedPoly) (reads : List Bytes) : m Chunks :=
  match Chunker.new p.get with
  | .error _ => sink.stop
  | .ok c => do
    let (c, cur, chunks) ← streamReads sink reads c [] []
    if 0 < c.pendingLen then do
      let id ← sink.put cur
      return chunks ++ [(id, c.pendingLen)]
    else return chunks

def putPieces (pieces : List Bytes) : m Chunks :=
  pieces.mapM fun piece => do return (← sink.put piece, piece.length)

/-! ## One block -/

variable [LawfulMonad m]

theorem putPieces_append (pieces pieces' : List Bytes) : putPieces sink (pieces ++ pieces') = do
    let chunks ← putPieces sink pieces
    let chunks' ← putPieces sink pieces'
    return chunks ++ chunks' := by
  rw [putPieces, mapM_append]
  rfl

theorem putPieces_cons (piece : Bytes) (pieces : List Bytes) : putPieces sink (piece :: pieces) = do
    let id ← sink.put piece
    let chunks ← putPieces sink pieces
    return (id, piece.length) :: chunks := by
  simp [putPieces]

omit [Monad m] [LawfulMonad m] in
theorem sliceOf_eq {buf : Bytes} {a b : Nat} (hab : a ≤ b) (hb : b ≤ buf.length) :
    sliceOf buf a b = some ((buf.drop a).take (b - a)) := if_pos ⟨hab, hb⟩

/-- The pieces cut from one read are stored as they are cut. -/
theorem putCuts_bind {β : Type} {buf : Bytes} {lens : List Nat} {eaten : Nat} {cur : Bytes} (chunks : Chunks)
    (k : Bytes → Chunks → m β) (heaten : eaten ≤ buf.length) (hfirst : ∀ n ∈ lens.head?, cur.length ≤ n)
    (hsum : lens.sum ≤ (cur ++ buf.drop eaten).length) :
    (do let (eaten, cur, chunks) ← putCuts sink buf lens eaten cur chunks
        match sliceOf buf eaten buf.length with
        | none => sink.stop
        | some tail => k (cur ++ tail) chunks) =
      putPieces sink (cutAt lens (cur ++ buf.drop eaten)).1 >>= fun new =>
        k (cutAt lens (cur ++ buf.drop eaten)).2 (chunks ++ new) := by
  induction lens generalizing eaten cur chunks with
  | nil =>
    have hall : (buf.drop eaten).take (buf.length - eaten) = buf.drop eaten :=
      take_of_length_le (by rw [length_drop])
    simp [putCuts, putPieces, sliceOf_eq heaten (Nat.le_refl _), hall]
  | cons len lens ih =>
    have hcur : cur.length ≤ len := hfirst len (by simp)
    rw [length_append, length_drop, sum_cons] at hsum
    have hend : eaten + (len - cur.length) ≤ buf.length := by omega
    have hpiece : cur ++ (buf.drop eaten).take (eaten + (len - cur.length) - eaten) =
        (cur ++ buf.drop eaten).take len := by
      rw [Nat.add_sub_cancel_left, take_append, take_of_length_le hcur]
    have hrest : [] ++ buf.drop (eaten + (len - cur.length)) = (cur ++ buf.drop eaten).drop len := by
      rw [drop_append, drop_of_length_le hcur, drop_drop]
    have hnext := fun chunks => @ih (eaten + (len - cur.length)) [] chunks hend
      (fun n _ => Nat.zero_le n) (by rw [nil_append, length_drop]; omega)
    rw [putCuts, if_neg (Nat.not_lt.2 hcur), sliceOf_eq (by omega) hend]
    simp only [bind_assoc, hpiece, hnext]
    rw [hrest, cutAt, putPieces_cons]
    simp

def readBytes (reads : List Bytes) : Bytes := (reads.takeWhile (· ≠ [])).flatten

/-- The run lemma: however a file is read, the pieces of its bytes are stored. -/
theorem streamReads_bind {β : Type} (reads : List Bytes) {c : Chunker} {cur : Bytes} (chunks : Chunks)
    (k : Chunker × Bytes × Chunks → m β) (hcur : c.pendingLen = cur.length) :
    streamReads sink reads c cur chunks >>= k =
      putPieces sink (cutAt (c.feed (readBytes reads)).2 (cur ++ readBytes reads)).1 >>= fun new =>
      k ((c.feed (readBytes reads)).1, (cutAt (c.feed (readBytes reads)).2 (cur ++ readBytes reads)).2,
        chunks ++ new) := by
  induction reads generalizing c cur chunks with
  | nil => simp [streamReads, readBytes, Chunker.feed, Lib.feed, putPieces]
  | cons buf reads ih =>
    by_cases hbuf : buf = []
    · simp [streamReads, hbuf, readBytes, Chunker.feed, Lib.feed, putPieces]
    have hall : readBytes (buf :: reads) = buf ++ readBytes reads := by
      simp [readBytes, hbuf]
    have hsum : (c.feed buf).2.sum + (c.feed buf).1.pendingLen = cur.length + buf.length := by
      rw [← hcur]
      exact Chunker.counts.sum_feed c buf
    have hfits : (c.feed buf).2.sum ≤ (cur ++ buf).length := by
      rw [length_append]
      omega
    have hpending : (c.feed buf).1.pendingLen = (cutAt (c.feed buf).2 (cur ++ buf)).2.length := by
      have hparts := congrArg List.length (flatten_cutAt (c.feed buf).2 (cur ++ buf))
      rw [length_append, length_flatten, lengths_cutAt hfits, length_append] at hparts
      omega
    have hfirst : ∀ n ∈ (c.feed buf).2.head?, cur.length ≤ n := by
      intro n hn
      obtain ⟨ns, hns⟩ := head?_eq_some_iff.1 hn
      rw [← hcur]
      exact Chunker.counts.pending_le_head hns
    have hblock := putCuts_bind sink chunks (streamReads sink reads (c.feed buf).1) (Nat.zero_le _) hfirst
      (by rwa [drop_zero])
    rw [drop_zero] at hblock
    -- the lengths for the whole input are those for the block and those for the rest
    have hfeed : c.feed (buf ++ readBytes reads) = (((c.feed buf).1.feed (readBytes reads)).1,
          (c.feed buf).2 ++ ((c.feed buf).1.feed (readBytes reads)).2) :=
      feed_append Chunker.push c buf (readBytes reads)
    have hcut := cutAt_append hfits (readBytes reads)
    rw [streamReads, if_neg hbuf, hall, hfeed, ← append_assoc, cutAt_append_lengths, hcut, hblock,
      putPieces_append]
    simp only [bind_assoc, pure_bind, ih _ hpending, append_assoc]

/-- The file goes into the store in its chunks, one after the other. -/
theorem streamFileChunks_eq (p : ValidatedPoly) (reads : List Bytes) :
    streamFileChunks sink p reads = putPieces sink (p.chunks (readBytes reads)) := by
  have htail := (p.feed_fits (readBytes reads)).2
  rw [streamFileChunks, p.new_eq]
  dsimp only
  rw [streamReads_bind sink reads [] _ rfl, ValidatedPoly.chunks]
  by_cases hpos : 0 < ((Chunker.start p.get).feed (readBytes reads)).1.pendingLen
  · simp only [if_pos hpos, putPieces_append, putPieces_cons, htail]
    simp [putPieces]
  · simp [hpos]

end

/-! ## Into the store -/

section
variable [PackEnv]

/-- `put_data`; an error or a panic ends the pass. -/
def storeSink : ChunkSink BlobM := ⟨putBlob .dataChunk, throw (.pack .outOfRange)⟩

theorem putBlob_id {kind : BlobKind} {b : Bytes} {s s' : PackStore} {id : BlobId}
    (h : putBlob kind b s = .ok id s') : id = Env.blake3 b := by
  unfold putBlob at h
  split at h
  · cases h
  dsimp only at h
  obtain ⟨_, _, -, h⟩ := run_bind_eq_ok.1 h
  obtain ⟨there, _, -, h⟩ := run_bind_eq_ok.1 h
  split at h
  · cases h
    rfl
  obtain ⟨_, _, -, h⟩ := run_bind_eq_ok.1 h
  split at h
  · cases h
    rfl
  · obtain ⟨_, _, -, h⟩ := run_bind_eq_ok.1 h
    obtain ⟨_, _, -, h⟩ := run_bind_eq_ok.1 h
    cases h
    rfl

theorem putPieces_ok {pieces : List Bytes} {s s' : PackStore} {chunks : Chunks}
    (h : putPieces storeSink pieces s = .ok chunks s') :
    chunks = pieces.map fun piece => (Env.blake3 piece, piece.length) := by
  induction pieces generalizing s s' chunks with
  | nil =>
    cases h
    rfl
  | cons piece pieces ih =>
    rw [putPieces_cons] at h
    obtain ⟨id, s₁, hput, h⟩ := run_bind_eq_ok.1 h
    obtain ⟨rest, s₂, hrest, h⟩ := run_bind_eq_ok.1 h
    cases h
    rw [putBlob_id hput, ih hrest, map_cons]

def feedReads (c : Chunker) (reads : List Bytes) : Chunker × List Nat :=
  reads.foldl (fun r buf => ((r.1.feed buf).1, r.2 ++ (r.1.feed buf).2)) (c, [])

omit [PackEnv] in
theorem feedReads_eq (c : Chunker) (reads : List Bytes) : feedReads c reads = c.feed reads.flatten := by
  have hfold : ∀ (c : Chunker) lens, reads.foldl (fun r buf =>
      ((r.1.feed buf).1, r.2 ++ (r.1.feed buf).2)) (c, lens) =
        ((c.feed reads.flatten).1, lens ++ (c.feed reads.flatten).2) := by
    induction reads with
    | nil => simp [Chunker.feed, Lib.feed]
    | cons buf reads ih =>
      intro c lens
      have happend : c.feed (buf ++ reads.flatten) = _ := feed_append Chunker.push c buf reads.flatten
      rw [foldl_cons, ih, flatten_cons, happend, append_assoc]
      rfl
  rw [feedReads, hfold, nil_append]

end

end Ferry
