import Ferry.Session.Codec

/-! # What the codec keeps

All messages together: which of them come back as they were sent, and which
payloads are read as the message that a sender would write as these bytes. The
encoder lets three kinds of messages through that no parser accepts, and the
parser of batches accepts items that no encoder writes.
-/

namespace Ferry

open Lib List

inductive MessageKind where
  | frameBody
  | hello
  | helloAck
  | authProof
  | folderOffer
  | indexAdvert
  | requestItems
  | requestPacks
  | itemBatch
  | packItem
  | bye
  deriving DecidableEq

inductive Message where
  | frameBody (m : FrameBody)
  | hello (m : Hello)
  | helloAck (m : HelloAck)
  | authProof (m : AuthProof)
  | folderOffer (m : WireOffer)
  | indexAdvert (m : IndexAdvert)
  | requestItems (m : RequestItems)
  | requestPacks (m : RequestPacks)
  | itemBatch (m : ItemBatch)
  | packItem (m : PackItem)
  | bye (m : ByeReason)
  deriving DecidableEq

namespace Message

def kind : Message → MessageKind
  | frameBody _ => .frameBody
  | hello _ => .hello
  | helloAck _ => .helloAck
  | authProof _ => .authProof
  | folderOffer _ => .folderOffer
  | indexAdvert _ => .indexAdvert
  | requestItems _ => .requestItems
  | requestPacks _ => .requestPacks
  | itemBatch _ => .itemBatch
  | packItem _ => .packItem
  | bye _ => .bye

def encode : Message → Except ProtoError Bytes
  | frameBody m => .ok m.encode
  | hello m => .ok m.encode
  | helloAck m => .ok m.encode
  | authProof m => .ok m.encode
  | folderOffer m => .ok m.encode
  | indexAdvert m => .ok m.encode
  | requestItems m => m.encode
  | requestPacks m => m.encode
  | itemBatch m => m.encode
  | packItem m => m.encode
  | bye m => .ok m.encode

def Typed : Message → Prop
  | indexAdvert m => ∀ e ∈ m.entries, e.Typed
  | itemBatch m => ∀ item ∈ m, item.2.2.length < 2 ^ 64
  | _ => True

/-- A message as it is read back: the rows of an advert are those of its table. -/
def canonical : Message → Message
  | indexAdvert m => indexAdvert ⟨tableRows m.entries, m.more⟩
  | m => m

end Message

def MessageKind.parse (payload : Bytes) : MessageKind → Except ProtoError Message
  | .frameBody => (FrameBody.parse payload).map .frameBody
  | .hello => (Hello.parse payload).map .hello
  | .helloAck => (HelloAck.parse payload).map .helloAck
  | .authProof => (AuthProof.parse payload).map .authProof
  | .folderOffer => (WireOffer.parse payload).map .folderOffer
  | .indexAdvert => (IndexAdvert.parse payload).map .indexAdvert
  | .requestItems => (RequestItems.parse payload).map .requestItems
  | .requestPacks => (RequestPacks.parse payload).map .requestPacks
  | .itemBatch => (ItemBatch.parse payload).map .itemBatch
  | .packItem => (PackItem.parse payload).map .packItem
  | .bye => (ByeReason.parse payload).map .bye

/-! ## One statement for every parser -/

variable {m : Message} {b : Bytes} {k : MessageKind}

namespace Message

def layout : Message → Bytes
  | frameBody m => m.encode
  | hello m => m.encode
  | helloAck m => m.encode
  | authProof m => m.encode
  | folderOffer m => m.encode
  | indexAdvert m => m.encode
  | requestItems m => m.bytes
  | requestPacks m => m.bytes
  | itemBatch m => batchBytes m
  | packItem m => m.bytesOf
  | bye m => m.encode

def Accepted : Message → Prop
  | folderOffer m => m.reserved = 0
  | indexAdvert m => m.entries.length < 2 ^ 32 ∧ Increasing none m.entries ∧ ∀ e ∈ m.entries, e.Typed
  | requestItems m => m.items.length ≤ maxRequestItems
  | requestPacks m => m.packs.length ≤ maxRequestPacks
  | itemBatch m => m.length ≤ maxBatchItems ∧ ∀ item ∈ m, item.2.2.length < 2 ^ 64
  | packItem m => m.bytes ≠ [] ∧ m.bytes.length < 2 ^ 32
  | _ => True

def Encodable : Message → Prop
  | requestItems m => m.items.length ≤ maxRequestItems
  | requestPacks m => m.packs.length ≤ maxRequestPacks
  | itemBatch m => m.length ≤ maxBatchItems ∧ ∀ item ∈ m, item.2.2 ≠ []
  | _ => True

theorem encode_eq_ok : m.encode = .ok b ↔ m.Encodable ∧ b = m.layout := by
  cases m with
  | requestItems m | requestPacks m => exact m.encode_eq_ok
  | itemBatch => exact ItemBatch.encode_eq_ok.trans and_assoc.symm
  | _ => simp [encode, Encodable, layout, PackItem.encode, eq_comm]

end Message

theorem tableRows_of_increasing {rows : List IndexEntry} (h : Increasing none rows) :
    tableRows rows = rows := by
  have hlt : rows.Pairwise (·.key < ·.key) := pairwise_map.1 h
  have hle : rows.Pairwise (fun a b => a.key ≤ b.key) := hlt.imp le_of_lt
  have hsorted : sortEntries rows = rows := List.Pairwise.insertionSort_eq hle
  rw [tableRows, hsorted]
  apply destutter_of_isChain
  apply List.Pairwise.isChain
  refine hlt.imp fun hab hsame => ?_
  exact absurd (IndexEntry.key_eq_iff.2 hsame) hab.ne

theorem increasing_tableRows (entries : List IndexEntry) : Increasing none (tableRows entries) :=
  pairwise_map.2 (tableRows_pairwise entries)

theorem IndexAdvert.parse_iff_accepted {a : IndexAdvert} : IndexAdvert.parse b = .ok a ↔
    (Message.indexAdvert a).Accepted ∧ b = a.encode := by
  rw [IndexAdvert.parse_eq_ok]
  constructor
  · rintro ⟨table, htable, rfl⟩
    obtain ⟨hlen, hinc, htyped, rfl⟩ := tableParse_ok_iff.1 htable
    exact ⟨⟨hlen, hinc, htyped⟩, by rw [IndexAdvert.encode, tablePlain_eq, tableRows_of_increasing hinc]⟩
  · rintro ⟨⟨hlen, hinc, htyped⟩, rfl⟩
    refine ⟨tablePlain a.entries, tableParse_ok_iff.2 ⟨hlen, hinc, htyped, ?_⟩, rfl⟩
    rw [tablePlain_eq, tableRows_of_increasing hinc]

theorem map_eq_ok_iff {α : Type} {x : Except ProtoError α} {c : α → Message}
    (hx : ∀ a, x = .ok a ↔ (c a).Accepted ∧ b = (c a).layout) (hc : ∀ m, k = m.kind ↔ ∃ a, c a = m)
    (m : Message) : x.map c = .ok m ↔ k = m.kind ∧ m.Accepted ∧ b = m.layout := by
  rw [hc m]
  constructor
  · intro h
    cases x with
    | error => cases h
    | ok a =>
      cases h
      exact ⟨⟨a, rfl⟩, (hx a).1 rfl⟩
  · rintro ⟨⟨a, rfl⟩, h⟩
    rw [(hx a).2 h]
    rfl

/-- A parser accepts the layout of the messages that pass its checks, and nothing else. -/
theorem MessageKind.parse_eq_ok :
    k.parse b = .ok m ↔ k = m.kind ∧ m.Accepted ∧ b = m.layout := by
  cases k <;> refine map_eq_ok_iff ?_ (fun m => by cases m <;> simp [Message.kind]) m <;> intro a
  case frameBody => exact FrameBody.parse_eq_ok.trans (iff_of_eq (true_and _)).symm
  case hello => exact Hello.parse_eq_ok.trans (iff_of_eq (true_and _)).symm
  case helloAck => exact HelloAck.parse_eq_ok.trans (iff_of_eq (true_and _)).symm
  case authProof => exact AuthProof.parse_eq_ok.trans (iff_of_eq (true_and _)).symm
  case folderOffer => exact WireOffer.parse_eq_ok
  case indexAdvert => exact IndexAdvert.parse_iff_accepted
  case requestItems => exact RequestItems.parse_eq_ok
  case requestPacks => exact RequestPacks.parse_eq_ok
  case itemBatch => exact ItemBatch.parse_eq_ok.trans and_assoc.symm
  case packItem => exact PackItem.parse_eq_ok.trans and_assoc.symm
  case bye => exact ByeReason.parse_eq_ok.trans (iff_of_eq (true_and _)).symm

/-! ## Messages come back -/

namespace Message

/-- The parser gives back what the encoder was given. -/
def Survives (m : Message) : Prop := ∀ b, m.encode = .ok b → m.kind.parse b = .ok m.canonical

/-- An offer with nothing in its reserved field, an advert whose row count fits its field, a pack with
content whose length fits its field. -/
def Sendable : Message → Prop
  | folderOffer m => m.reserved = 0
  | indexAdvert m => (tableRows m.entries).length < 2 ^ 32
  | packItem m => m.bytes ≠ [] ∧ m.bytes.length < 2 ^ 32
  | _ => True

theorem kind_canonical (m : Message) : m.canonical.kind = m.kind := by
  cases m <;> rfl

theorem layout_canonical (m : Message) : m.canonical.layout = m.layout := by
  cases m with
  | indexAdvert m =>
    simp only [canonical, layout, IndexAdvert.encode]
    rw [tablePlain_eq, tablePlain_eq, tableRows_of_increasing (increasing_tableRows m.entries)]
  | _ => rfl

theorem accepted_canonical (h : m.Typed) (henc : m.Encodable) :
    m.canonical.Accepted ↔ m.Sendable := by
  cases m with
  | indexAdvert =>
    refine ⟨fun hacc => hacc.1, fun hlen => ⟨hlen, increasing_tableRows _, fun e he => ?_⟩⟩
    exact h e (tableRows_subset _ he)
  | requestItems | requestPacks => exact iff_of_true henc trivial
  | itemBatch => exact iff_of_true ⟨henc.1, h⟩ trivial
  | _ => exact Iff.rfl

theorem not_encodable_sendable (h : ¬ m.Encodable) : m.Sendable := by
  cases m with
  | requestItems | requestPacks | itemBatch => trivial
  | _ => exact absurd trivial h

/-- A message comes back as it was sent exactly if it is one that the parser takes. -/
theorem survives_iff_sendable (m : Message) (h : m.Typed) : m.Survives ↔ m.Sendable := by
  by_cases henc : m.Encodable
  · have hparse : m.Survives ↔ m.kind.parse m.layout = .ok m.canonical := by
      constructor
      · exact fun hall => hall _ (encode_eq_ok.2 ⟨henc, rfl⟩)
      · intro hone b hb
        obtain ⟨-, rfl⟩ := encode_eq_ok.1 hb
        exact hone
    rw [hparse, MessageKind.parse_eq_ok, kind_canonical, layout_canonical, ← accepted_canonical h henc]
    simp
  · refine iff_of_true ?_ (not_encodable_sendable henc)
    intro b hb
    exact absurd (encode_eq_ok.1 hb).1 henc

end Message

namespace Sample

def advertRow (id : UInt8) : IndexEntry := ⟨.dataChunk, ByteArr.fill 32 id, ByteArr.fill 32 9, 0, 7⟩

def advertOf : Message := .indexAdvert ⟨[advertRow 2, advertRow 1, advertRow 2], true⟩

end Sample

/-- An advert comes back with its rows in order. -/
theorem advert_survives : Sample.advertOf.Survives ∧
    Sample.advertOf.canonical = .indexAdvert ⟨[Sample.advertRow 1, Sample.advertRow 2], true⟩ := by
  have hrow : ∀ id, (Sample.advertRow id).Typed := fun _ =>
    ⟨show 0 < 2 ^ 64 by decide, show 7 < 2 ^ 64 by decide⟩
  have htyped : Sample.advertOf.Typed :=
    forall_mem_cons.2 ⟨hrow 2, forall_mem_cons.2 ⟨hrow 1, forall_mem_singleton.2 (hrow 2)⟩⟩
  have hrows : tableRows [Sample.advertRow 2, Sample.advertRow 1, Sample.advertRow 2] =
      [Sample.advertRow 1, Sample.advertRow 2] := by decide +kernel
  have hsendable : Sample.advertOf.Sendable := by
    change (tableRows _).length < 2 ^ 32
    decide
  refine ⟨(Message.survives_iff_sendable _ htyped).2 hsendable, ?_⟩
  rw [Sample.advertOf, Message.canonical, hrows]

/-- A pack without content is encoded, and its encoding is refused. -/
theorem emptyPack_lost : ∃ b, (Message.packItem ⟨zeroId, []⟩).encode = .ok b ∧
    MessageKind.packItem.parse b = .error (bad "empty pack") :=
  ⟨_, rfl, by decide +kernel⟩

/-! ## Payloads are strict -/

namespace Message

/-- The limits that senders keep to. -/
def WithinLimits : Message → Prop
  | folderOffer m => m.reserved = 0
  | indexAdvert m => m.entries.length ≤ maxRows
  | requestItems m => m.items.length ≤ maxRequestItems
  | requestPacks m => m.packs.length ≤ maxRequestPacks
  | itemBatch m => m.length ≤ maxBatchItems ∧ ∀ item ∈ m, item.2.2 ≠ []
  | packItem m => m.bytes ≠ []
  | _ => True

end Message

namespace MessageKind

/-- The payload, if it is read at all, is what its message is written as, no other payload is read as the
same message, and the message is one that a sender may send. -/
def Strict (k : MessageKind) (payload : Bytes) : Prop :=
  ∀ m, k.parse payload = .ok m → m.encode = .ok payload ∧
    (∀ other, k.parse other = .ok m → other = payload) ∧ m.WithinLimits

/-- A payload laid out as a batch has no item of length zero, and one laid out as an advert has no more
rows than a sender puts into one. -/
def Disciplined : MessageKind → Bytes → Prop
  | .itemBatch, payload => ∀ batch, (Message.itemBatch batch).Accepted → payload = batchBytes batch →
      ∀ item ∈ batch, item.2.2 ≠ []
  | .indexAdvert, payload => ∀ a : IndexAdvert, (Message.indexAdvert a).Accepted → payload = a.encode →
      a.entries.length ≤ maxRows
  | _, _ => True

theorem encodable_of_withinLimits (h : m.WithinLimits) : m.Encodable := by
  cases m with
  | _ => trivial

theorem strict_iff_limits {payload : Bytes} :
    k.Strict payload ↔ ∀ m, k.parse payload = .ok m → m.WithinLimits := by
  constructor
  · exact fun h m hm => (h m hm).2.2
  · intro h m hm
    have hlimits := h m hm
    obtain ⟨-, -, rfl⟩ := parse_eq_ok.1 hm
    refine ⟨Message.encode_eq_ok.2 ⟨encodable_of_withinLimits hlimits, rfl⟩, ?_, hlimits⟩
    intro other hother
    exact (parse_eq_ok.1 hother).2.2

/-- A payload is strict exactly if it has no empty items and no surplus of rows. -/
theorem strict_iff_disciplined (k : MessageKind) (payload : Bytes) :
    k.Strict payload ↔ k.Disciplined payload := by
  rw [strict_iff_limits]
  simp only [parse_eq_ok]
  constructor
  · intro h
    cases k with
    | itemBatch => exact fun batch hacc hb => (h (.itemBatch batch) ⟨rfl, hacc, hb⟩).2
    | indexAdvert => exact fun a hacc hb => h (.indexAdvert a) ⟨rfl, hacc, hb⟩
    | _ => trivial
  · rintro h m ⟨rfl, hacc, hb⟩
    cases m with
    | indexAdvert m => exact h m hacc hb
    | itemBatch m => exact ⟨hacc.1, h m hacc hb⟩
    | packItem => exact hacc.1
    | _ => trivial

end MessageKind

namespace Sample

def emptyItem : ItemBatch := [(.dataChunk, zeroId, [])]

end Sample

/-- A batch with an empty item is read, and can not be written. -/
theorem emptyItem_accepted : MessageKind.itemBatch.parse (batchBytes Sample.emptyItem) =
    .ok (.itemBatch Sample.emptyItem) ∧
      (Message.itemBatch Sample.emptyItem).encode = .error (bad "empty blob cannot exist") :=
  ⟨by decide +kernel, rfl⟩

end Ferry
