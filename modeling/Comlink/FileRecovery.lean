import Comlink.FileLog

/-!
# Opening a file log

What a scan recovers from the bytes on disk. A directory stores a log of frames when its
data file is the header and the frames one after the other and its sidecar has the first
offset; lengths must fit their fields. Opening it, also with the beginning of a further
frame at its end, rebuilds the cache of that log and cuts the file after its last frame.
-/
namespace Comlink
open ByteStreams

namespace File

variable {C : LogCodec} {conv : ConversationID} {dir : LogDir} {l l' : MessageLog}
variable {payload rest torn : List UInt8} {senderSeq first pos : ℕ}

theorem length_frameHeader : (frameHeader payload senderSeq).length = 16 := by
  simp [frameHeader]

theorem readFull_frame (tail : List UInt8) :
    readFull 16 (frameHeader payload senderSeq ++ tail) =
      some (frameHeader payload senderSeq, tail) := readFull_append length_frameHeader

theorem take_frameHeader : (frameHeader payload senderSeq).take 4 = putLE 4 payload.length := by
  simp [frameHeader]

theorem drop_frameHeader_four :
    ((frameHeader payload senderSeq).drop 4).take 8 = putLE 8 senderSeq := by
  simp [frameHeader]

theorem drop_frameHeader_twelve :
    (frameHeader payload senderSeq).drop 12 = putLE 4 (checksum payload).toNat := by
  rw [frameHeader, List.drop_left' (by simp)]

/-- A payload is read back if its length fits the field, and so is all that follows it. -/
theorem readFrame_frame (hlen : payload.length < 2 ^ 32) (hseq : senderSeq < 2 ^ 64) :
    readFrame (frame payload senderSeq ++ rest) =
      some (payload, UInt64.ofNat senderSeq, (checksum payload).toNat, rest) := by
  have hcrc : (checksum payload).toNat < 256 ^ 4 := (checksum payload).toNat_lt
  rw [readFrame, frame, List.append_assoc, readFull_frame]
  simp only [take_frameHeader, drop_frameHeader_four, drop_frameHeader_twelve]
  rw [getLE_putLE_of_lt hlen, getLE_putLE_of_lt hseq, getLE_putLE_of_lt hcrc,
    readFull_append rfl]

/-- The beginning of a frame is no frame, wherever it ends. -/
theorem readFrame_torn (hlen : payload.length < 2 ^ 32)
    (htorn : torn <+: frame payload senderSeq) (hne : torn ≠ frame payload senderSeq) :
    readFrame torn = none := by
  obtain ⟨missing, hmissing⟩ := htorn
  have hpos : 0 < missing.length := by
    rw [List.length_pos_iff]
    rintro rfl
    exact hne (by simpa using hmissing)
  rw [readFrame]
  rcases Nat.lt_or_ge torn.length 16 with hshort | hlong
  · rw [readFull_of_lt hshort]
  · have hheader : (frameHeader payload senderSeq).length ≤ torn.length := by
      rw [length_frameHeader]
      exact hlong
    obtain ⟨part, rfl, hpart⟩ := exists_append_of_le hmissing hheader
    have hcut : part.length < payload.length := by
      rw [← hpart, List.length_append]
      omega
    rw [readFull_frame]
    simp only [take_frameHeader]
    rw [getLE_putLE_of_lt hlen, readFull_of_lt hcut]

theorem readFrame_nil : readFrame [] = none := rfl

/-- The lengths in a frame fit their fields. -/
def Storable (C : LogCodec) (f : LogFrame) : Prop :=
  (C.marshal f.envelope).length < 2 ^ 32 ∧ f.senderSeq < 2 ^ 64

def frameOf (C : LogCodec) (f : LogFrame) : List UInt8 := frame (C.marshal f.envelope) f.senderSeq

theorem length_frameOf (f : LogFrame) :
    (frameOf C f).length = 16 + (C.marshal f.envelope).length := by
  rw [frameOf, frame, List.length_append, length_frameHeader]

/-- One round of the scan takes in the next frame. -/
theorem scanFrame_frameOf {f : LogFrame} (hf : Storable C f) (frames : List LogFrame) :
    scanFrame C ⟨frameOf C f ++ rest, pos, frames.length, .ofFrames first frames⟩ =
      .ok (some ⟨rest, pos + (frameOf C f).length, (frames ++ [f]).length,
        .ofFrames first (frames ++ [f])⟩) := by
  have hseq : (UInt64.ofNat f.senderSeq).toNat = f.senderSeq := by
    rw [UInt64.toNat_ofNat']
    exact Nat.mod_eq_of_lt hf.2
  have hfirst : (LogCache.ofFrames first frames).firstOffset = first := rfl
  rw [scanFrame, frameOf, readFrame_frame hf.1 hf.2, ← frameOf, length_frameOf]
  simp only [ne_eq, not_true_eq_false, if_false, hfirst, List.length_append, List.length_singleton,
    Nat.add_assoc]
  split
  · rename_i hlt
    rw [LogCache.ofFrames_concat_of_lt hlt]
  · rename_i hle
    rw [C.unmarshal_marshal, LogCache.ofFrames_concat_of_le (Nat.le_of_not_lt hle)]
    simp only [hseq]
    rfl

/-- The scan takes in frame after frame and stops at what is no frame. -/
theorem scanIntoCache_frames {fs : List LogFrame} (hfs : ∀ f ∈ fs, Storable C f)
    (htorn : readFrame torn = none) (frames : List LogFrame) {rounds : ℕ}
    (hrounds : fs.length ≤ rounds) :
    scanIntoCache C rounds
        ⟨fs.flatMap (frameOf C) ++ torn, pos, frames.length, .ofFrames first frames⟩ =
      .ok ⟨torn, pos + (fs.flatMap (frameOf C)).length, (frames ++ fs).length,
        .ofFrames first (frames ++ fs)⟩ := by
  induction fs generalizing frames pos rounds with
  | nil =>
    cases rounds with
    | zero => simp [scanIntoCache]
    | succ rounds => simp [scanIntoCache, scanFrame, htorn]
  | cons f fs ih =>
    obtain ⟨hf, hfs⟩ := List.forall_mem_cons.mp hfs
    obtain ⟨n, rfl⟩ : ∃ n, rounds = n + 1 := ⟨rounds - 1, by
      rw [List.length_cons] at hrounds
      omega⟩
    rw [List.flatMap_cons, List.append_assoc, scanIntoCache, scanFrame_frameOf hf frames]
    dsimp only
    rw [ih hfs (frames ++ [f]) (by simpa using hrounds)]
    simp [Nat.add_assoc]

theorem readHeader_header (hconv : (C.marshalConv conv).length < 2 ^ 32) (rest : List UInt8) :
    readHeader C conv (header C conv ++ rest) = .ok rest := by
  have hmagic : magicBytes.length = 8 := rfl
  rw [readHeader, header, List.append_assoc, List.append_assoc, readFull_append hmagic]
  dsimp only
  rw [if_neg (by simp), readFull_append (length_putLE _ _)]
  dsimp only
  rw [getLE_putLE_of_lt hconv, readFull_append rfl]
  dsimp only
  rw [C.unmarshalConv_marshalConv]
  simp

/-- The directory holds the frames of the log and its first offset. -/
structure Stores (C : LogCodec) (conv : ConversationID) (dir : LogDir) (l : MessageLog) :
    Prop where
  data : dir.data = header C conv ++ l.frames.flatMap (frameOf C)
  sidecar : dir.sidecar = none ∧ l.firstOffset = 0 ∨ dir.sidecar = some (putLE 8 l.firstOffset)
  conv : (C.marshalConv conv).length < 2 ^ 32
  storable : ∀ f ∈ l.frames, Storable C f
  count : l.frames.length < 2 ^ 64

theorem Stores.readSidecar (h : Stores C conv dir l) :
    readSidecar dir.sidecar = .ok l.firstOffset := by
  rcases h.sidecar with ⟨hnone, hzero⟩ | hsome
  · rw [hnone, hzero]
    rfl
  · rw [hsome, File.readSidecar, if_neg (by simp),
      getLE_putLE_of_lt (l.firstOffset_le.trans_lt h.count)]

theorem length_le_flatMap_frameOf (fs : List LogFrame) :
    fs.length ≤ (fs.flatMap (frameOf C)).length := by
  induction fs with
  | nil => simp
  | cons f fs ih =>
    rw [List.flatMap_cons, List.length_append, List.length_cons, length_frameOf]
    omega

/-- Opening a data file of frames enters them into the cache, and drops from the end of the
file what is no frame. -/
theorem openFile_frames {fs : List LogFrame} {sidecar : Option (List UInt8)}
    (hside : File.readSidecar sidecar = .ok first)
    (hconv : (C.marshalConv conv).length < 2 ^ 32) (hfs : ∀ f ∈ fs, Storable C f)
    (htorn : readFrame torn = none) :
    openFile C ⟨header C conv ++ (fs.flatMap (frameOf C) ++ torn), sidecar⟩ conv =
      .ok ⟨conv, ⟨header C conv ++ fs.flatMap (frameOf C), sidecar⟩, .ofFrames first fs⟩ := by
  have hne : header C conv ++ (fs.flatMap (frameOf C) ++ torn) ≠ [] := by
    simp [header, magicBytes]
  have hpos : (header C conv ++ (fs.flatMap (frameOf C) ++ torn)).length -
      (fs.flatMap (frameOf C) ++ torn).length = (header C conv).length := by
    rw [List.length_append, Nat.add_sub_cancel]
  have hrounds : fs.length ≤ (fs.flatMap (frameOf C) ++ torn).length := by
    rw [List.length_append]
    exact (length_le_flatMap_frameOf fs).trans (Nat.le_add_right _ _)
  have hscan : scanIntoCache C (fs.flatMap (frameOf C) ++ torn).length
      ⟨fs.flatMap (frameOf C) ++ torn, (header C conv).length, 0, .fresh first⟩ =
        .ok ⟨torn, (header C conv).length + (fs.flatMap (frameOf C)).length, fs.length,
          .ofFrames first fs⟩ := by
    rw [← LogCache.ofFrames_nil]
    exact scanIntoCache_frames hfs htorn [] hrounds
  have htake : (header C conv ++ (fs.flatMap (frameOf C) ++ torn)).take
      ((header C conv).length + (fs.flatMap (frameOf C)).length) =
        header C conv ++ fs.flatMap (frameOf C) := by
    rw [← List.length_append, ← List.append_assoc]
    exact List.take_left
  rw [File.openFile]
  dsimp only
  rw [hside]
  dsimp only
  rw [if_neg hne, readHeader_header hconv]
  dsimp only
  rw [hpos, hscan]
  dsimp only
  rw [htake]

/-- Opening a directory rebuilds the cache of its log. -/
theorem Stores.openFile (h : Stores C conv dir l) (htorn : readFrame torn = none) :
    openFile C { dir with data := dir.data ++ torn } conv = .ok ⟨conv, dir, l.toCache⟩ := by
  obtain ⟨data, sidecar⟩ := dir
  have hdata : data = header C conv ++ l.frames.flatMap (frameOf C) := h.data
  rw [hdata, List.append_assoc]
  exact openFile_frames h.readSidecar h.conv h.storable htorn

/-- A payload whose length is a multiple of the field's range is read as the empty one. -/
theorem readFrame_overflow (hlen : payload.length % 2 ^ 32 = 0) (rest : List UInt8) :
    readFrame (frameHeader payload senderSeq ++ rest) =
      some ([], UInt64.ofNat (getLE (putLE 8 senderSeq)),
        getLE (putLE 4 (checksum payload).toNat), rest) := by
  have hzero : getLE (putLE 4 payload.length) = 0 := (getLE_putLE 4 payload.length).trans hlen
  rw [readFrame, readFull_frame]
  simp only [take_frameHeader, drop_frameHeader_four, drop_frameHeader_twelve, hzero]
  rfl

/-- Whatever the checksums are, a log that begins with such a frame cannot be opened when
the empty payload is no envelope. -/
theorem openFile_overflow (hconv : (C.marshalConv conv).length < 2 ^ 32)
    (hlen : payload.length % 2 ^ 32 = 0) (hnil : C.unmarshal [] = none) (rest : List UInt8) :
    ∃ detail, openFile C ⟨header C conv ++ (frameHeader payload senderSeq ++ rest), none⟩ conv =
      .error (.corrupt detail) := by
  have hne : header C conv ++ (frameHeader payload senderSeq ++ rest) ≠ [] := by
    simp [header, magicBytes]
  obtain ⟨rounds, hrounds⟩ : ∃ n, (frameHeader payload senderSeq ++ rest).length = n + 1 := by
    rw [List.length_append, length_frameHeader]
    exact ⟨15 + rest.length, by omega⟩
  have hscan : ∀ pos, ∃ detail, scanIntoCache C (rounds + 1)
      ⟨frameHeader payload senderSeq ++ rest, pos, 0, .fresh 0⟩ = .error (.corrupt detail) := by
    intro pos
    rw [scanIntoCache, scanFrame, readFrame_overflow hlen]
    by_cases hcrc : (checksum []).toNat = getLE (putLE 4 (checksum payload).toNat)
    · exact ⟨.parseEnvelope 0, by simp [hcrc, hnil, LogCache.fresh]⟩
    · exact ⟨.crcMismatch 0, by simp [hcrc]⟩
  obtain ⟨detail, hdetail⟩ := hscan
    ((header C conv ++ (frameHeader payload senderSeq ++ rest)).length -
      (frameHeader payload senderSeq ++ rest).length)
  refine ⟨detail, ?_⟩
  rw [File.openFile, readSidecar]
  dsimp only
  rw [if_neg hne, readHeader_header hconv]
  dsimp only
  rw [hrounds] at hdetail ⊢
  rw [hdetail]

end File
end Comlink
