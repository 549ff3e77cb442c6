import Mathlib.Algebra.Order.Ring.Int
import Mathlib.Data.List.Basic
import Mathlib.Tactic.SplitIfs

/-!
# Snapshots in chunks

`streamSnapshotChunks` of `cluster_snapshot.go` cuts a snapshot into chunks, and the loop of
`PullSnapshot` stages what it receives. The two agree on four things that the joiner checks or
relies on: the number of a chunk is its place, the first one has the header, exactly the last
one is marked, and the data in this order is the snapshot. Whatever happens to the stream, a
chunk with the right number can only be the one that belongs there.
-/
namespace Comlink

structure SnapshotHeader where
  throughOffset : ℕ
  totalSizeBytes : ℕ
  deriving DecidableEq, Repr

structure SnapshotChunk where
  header : Option SnapshotHeader
  chunkIndex : ℕ
  data : List UInt8
  last : Bool
  deriving DecidableEq, Repr

inductive PullError where
  | endedWithoutLast (chunks bytes : ℕ)
  | recv
  | outOfOrder (chunk expected : ℕ)
  | missingHeader
  | writeStage
  | fsync
  | rewind
  deriving DecidableEq, Repr

/-- What fails while a snapshot is pulled: the stream, instead of ending; the write of the
chunk with a number; the operations on the staged file at the end. -/
structure PullFaults where
  recv : Bool
  write : ℕ → Bool
  sync : Bool
  seek : Bool

def PullFaults.none : PullFaults := ⟨false, fun _ => false, false, false⟩

/-- The variables of the receive loop, with the contents of the staged file. -/
structure Staging where
  throughOff : ℕ
  expectedIdx : ℕ
  staged : List UInt8
  deriving DecidableEq, Repr

structure PulledSnapshot where
  bytes : List UInt8
  throughOffset : ℕ
  deriving DecidableEq, Repr

namespace SnapshotChunk

def defaultSnapshotChunkBytes : ℕ := 2 ^ 20

/-- The loop of `streamSnapshotChunks` from an offset on, for at most so many rounds. -/
def sendLoop (snapBytes : List UInt8) (header : SnapshotHeader) (chunkSize : ℕ) :
    ℕ → ℕ → ℕ → List SnapshotChunk
  | 0, _, _ => []
  | rounds + 1, off, idx =>
    if off < snapBytes.length then
      let stop := min (off + chunkSize) snapBytes.length
      { header := if idx = 0 then some header else none
        chunkIndex := idx
        data := (snapBytes.drop off).take (stop - off)
        last := stop == snapBytes.length } ::
          sendLoop snapBytes header chunkSize rounds (off + chunkSize) (idx + 1)
    else []

def streamSnapshotChunks (snapBytes : List UInt8) (throughOff : ℕ) (chunkSize : ℤ) :
    List SnapshotChunk :=
  let chunkSize := if chunkSize ≤ 0 then defaultSnapshotChunkBytes else chunkSize.toNat
  let header : SnapshotHeader := ⟨throughOff, snapBytes.length⟩
  if snapBytes.length = 0 then [⟨some header, 0, [], true⟩]
  else sendLoop snapBytes header chunkSize snapBytes.length 0 0

/-- The loop of `PullSnapshot` over the chunks that the stream delivers. -/
def receiveLoop (F : PullFaults) : List SnapshotChunk → Staging → Except PullError Staging
  | [], s =>
    .error (if F.recv then .recv else .endedWithoutLast s.expectedIdx s.staged.length)
  | chunk :: stream, s =>
    if chunk.chunkIndex ≠ s.expectedIdx then
      .error (.outOfOrder chunk.chunkIndex s.expectedIdx)
    else
      match if s.expectedIdx = 0 then chunk.header.map SnapshotHeader.throughOffset
        else some s.throughOff with
      | none => .error .missingHeader
      | some throughOff =>
        if chunk.data ≠ [] ∧ F.write s.expectedIdx = true then .error .writeStage
        else
          let s := ⟨throughOff, s.expectedIdx + 1, s.staged ++ chunk.data⟩
          if chunk.last then .ok s else receiveLoop F stream s

def pullSnapshot (F : PullFaults) (stream : List SnapshotChunk) :
    Except PullError PulledSnapshot :=
  match receiveLoop F stream ⟨0, 0, []⟩ with
  | .error e => .error e
  | .ok s =>
    if F.sync then .error .fsync
    else if F.seek then .error .rewind
    else .ok ⟨s.staged, s.throughOff⟩

/-- Chunks that make up a snapshot, in their order. -/
structure Chunking (snapBytes : List UInt8) (throughOff : ℕ) (chunks : List SnapshotChunk) :
    Prop where
  nonempty : chunks ≠ []
  index : ∀ (i : ℕ) (chunk : SnapshotChunk), chunks[i]? = some chunk → chunk.chunkIndex = i
  header : ∀ chunk : SnapshotChunk, chunks[0]? = some chunk →
    chunk.header.map SnapshotHeader.throughOffset = some throughOff
  last : ∀ (i : ℕ) (chunk : SnapshotChunk), chunks[i]? = some chunk →
    (chunk.last = true ↔ i + 1 = chunks.length)
  data : chunks.flatMap SnapshotChunk.data = snapBytes

variable {snapBytes : List UInt8} {throughOff chunkSize rounds off idx : ℕ}
variable {header : SnapshotHeader} {chunks stream : List SnapshotChunk} {F : PullFaults}
variable {s t : Staging}

section Sending

theorem sendLoop_of_le (h : snapBytes.length ≤ off) :
    sendLoop snapBytes header chunkSize rounds off idx = [] := by
  cases rounds with
  | zero => rfl
  | succ rounds => rw [sendLoop, if_neg (by omega)]

/-- The bytes of one chunk and of those behind it. -/
theorem take_append_drop_min (snapBytes : List UInt8) (off chunkSize : ℕ) :
    (snapBytes.drop off).take (min (off + chunkSize) snapBytes.length - off) ++
      snapBytes.drop (off + chunkSize) = snapBytes.drop off := by
  have htake : (snapBytes.drop off).take (min (off + chunkSize) snapBytes.length - off) =
      (snapBytes.drop off).take chunkSize := by
    rw [List.take_eq_take_iff, List.length_drop]
    omega
  rw [htake, ← List.drop_drop, List.take_append_drop]

theorem flatMap_data_sendLoop (hsize : 0 < chunkSize) (hrounds : snapBytes.length ≤ off + rounds) :
    (sendLoop snapBytes header chunkSize rounds off idx).flatMap data = snapBytes.drop off := by
  induction rounds generalizing off idx with
  | zero =>
    rw [List.drop_eq_nil_of_le (by omega)]
    rfl
  | succ rounds ih =>
    by_cases hoff : off < snapBytes.length
    · rw [sendLoop, if_pos hoff, List.flatMap_cons, ih (by omega)]
      exact take_append_drop_min snapBytes off chunkSize
    · rw [sendLoop, if_neg hoff, List.drop_eq_nil_of_le (by omega)]
      rfl

theorem chunkIndex_sendLoop {i : ℕ} {chunk : SnapshotChunk}
    (h : (sendLoop snapBytes header chunkSize rounds off idx)[i]? = some chunk) :
    chunk.chunkIndex = idx + i := by
  induction rounds generalizing off idx i with
  | zero => simp [sendLoop] at h
  | succ rounds ih =>
    by_cases hoff : off < snapBytes.length
    · rw [sendLoop, if_pos hoff] at h
      cases i with
      | zero =>
        cases h
        rfl
      | succ i =>
        rw [ih (by simpa using h)]
        omega
    · simp [sendLoop, hoff] at h

/-- The mark of the last chunk is where the loop ends. -/
theorem last_sendLoop (hsize : 0 < chunkSize) (hrounds : snapBytes.length ≤ off + rounds)
    {i : ℕ} {chunk : SnapshotChunk}
    (h : (sendLoop snapBytes header chunkSize rounds off idx)[i]? = some chunk) :
    chunk.last = true ↔
      i + 1 = (sendLoop snapBytes header chunkSize rounds off idx).length := by
  induction rounds generalizing off idx i with
  | zero => simp [sendLoop] at h
  | succ rounds ih =>
    by_cases hoff : off < snapBytes.length
    · rw [sendLoop, if_pos hoff] at h ⊢
      cases i with
      | zero =>
        cases h
        by_cases hend : off + chunkSize < snapBytes.length
        · have hpos : 0 < rounds := by omega
          obtain ⟨rounds, rfl⟩ := Nat.exists_eq_add_one.mpr hpos
          rw [sendLoop, if_pos hend]
          simp
          omega
        · rw [sendLoop_of_le (by omega)]
          simp
          omega
      | succ i =>
        rw [List.getElem?_cons_succ] at h
        have hi := ih (by omega) h
        rw [hi, List.length_cons]
        omega
    · simp [sendLoop, hoff] at h

/-- An empty snapshot is one chunk without data. -/
theorem chunking_empty (throughOff : ℕ) :
    Chunking [] throughOff [⟨some ⟨throughOff, 0⟩, 0, [], true⟩] := by
  refine ⟨by simp, ?_, ?_, ?_, rfl⟩
  · intro i chunk h
    cases i with
    | zero =>
      cases h
      rfl
    | succ i => simp at h
  · intro chunk h
    cases h
    rfl
  · intro i chunk h
    cases i with
    | zero =>
      cases h
      simp
    | succ i => simp at h

theorem chunking_sendLoop (hpos : 0 < chunkSize) (hne : snapBytes.length ≠ 0)
    (throughOff : ℕ) : Chunking snapBytes throughOff
      (sendLoop snapBytes ⟨throughOff, snapBytes.length⟩ chunkSize snapBytes.length 0 0) := by
  obtain ⟨n, hn⟩ := Nat.exists_eq_add_one.mpr (Nat.pos_of_ne_zero hne)
  refine ⟨?_, ?_, ?_, ?_, ?_⟩
  · rw [hn, sendLoop, if_pos (by omega)]
    simp
  · intro i chunk h
    rw [chunkIndex_sendLoop h, Nat.zero_add]
  · intro chunk h
    rw [hn, sendLoop, if_pos (by omega)] at h
    cases h
    rfl
  · intro i chunk h
    exact last_sendLoop hpos (by omega) h
  · rw [flatMap_data_sendLoop hpos (by omega), List.drop_zero]

theorem chunking_stream (snapBytes : List UInt8) (throughOff : ℕ) (chunkSize : ℤ) :
    Chunking snapBytes throughOff (streamSnapshotChunks snapBytes throughOff chunkSize) := by
  unfold streamSnapshotChunks
  dsimp only
  by_cases hempty : snapBytes.length = 0
  · rw [if_pos hempty, List.length_eq_zero_iff.mp hempty]
    exact chunking_empty throughOff
  · rw [if_neg hempty]
    refine chunking_sendLoop ?_ hempty throughOff
    rw [defaultSnapshotChunkBytes]
    split_ifs <;> omega

end Sending

section Receiving

/-- What the loop has staged when it expects a number: the chunks before it. -/
structure Staged (throughOff : ℕ) (chunks : List SnapshotChunk) (s : Staging) : Prop where
  bytes : s.staged = (chunks.take s.expectedIdx).flatMap data
  offset : s.expectedIdx ≠ 0 → s.throughOff = throughOff

theorem staged_start : Staged throughOff chunks ⟨0, 0, []⟩ := ⟨rfl, by simp⟩

/-- A chunk with the expected number is the one that belongs there. -/
theorem Chunking.getElem?_of_mem (h : Chunking snapBytes throughOff chunks)
    {chunk : SnapshotChunk} (hmem : chunk ∈ chunks) :
    chunks[chunk.chunkIndex]? = some chunk := by
  obtain ⟨i, hi⟩ := List.mem_iff_getElem?.mp hmem
  rw [h.index i chunk hi]
  exact hi

theorem Staged.next (hs : Staged throughOff chunks s) {chunk : SnapshotChunk}
    (hget : chunks[s.expectedIdx]? = some chunk) :
    Staged throughOff chunks ⟨throughOff, s.expectedIdx + 1, s.staged ++ chunk.data⟩ := by
  refine ⟨?_, fun _ => rfl⟩
  obtain ⟨hlt, hchunk⟩ := List.getElem?_eq_some_iff.mp hget
  dsimp only
  rw [hs.bytes, List.take_add_one, hget, List.flatMap_append]
  simp

/-- The header is read from the first chunk, and kept. -/
theorem Chunking.readOffset (h : Chunking snapBytes throughOff chunks)
    (hs : Staged throughOff chunks s) {chunk : SnapshotChunk}
    (hget : chunks[s.expectedIdx]? = some chunk) :
    (if s.expectedIdx = 0 then chunk.header.map SnapshotHeader.throughOffset
      else some s.throughOff) = some throughOff := by
  by_cases hzero : s.expectedIdx = 0
  · rw [if_pos hzero]
    rw [hzero] at hget
    exact h.header chunk hget
  · rw [if_neg hzero, hs.offset hzero]

/-- A stream of chunks of the snapshot, whichever and in whatever order, is staged as the
snapshot if it is staged at all. -/
theorem Chunking.eq_of_receiveLoop (h : Chunking snapBytes throughOff chunks)
    (hmem : ∀ chunk ∈ stream, chunk ∈ chunks) (hs : Staged throughOff chunks s)
    (hok : receiveLoop F stream s = .ok t) :
    t.staged = snapBytes ∧ t.throughOff = throughOff := by
  induction stream generalizing s with
  | nil => cases hok
  | cons chunk stream ih =>
    rw [receiveLoop] at hok
    split at hok
    · cases hok
    · rename_i hidx
      have hget := h.getElem?_of_mem (hmem chunk List.mem_cons_self)
      rw [not_not.mp hidx] at hget
      rw [h.readOffset hs hget] at hok
      dsimp only at hok
      split_ifs at hok with hwrite hlast
      · cases hok
        have hlen := (h.last _ chunk hget).mp hlast
        refine ⟨?_, rfl⟩
        rw [(hs.next hget).bytes, hlen, List.take_length, h.data]
      · exact ih (fun c hc => hmem c (List.mem_cons_of_mem chunk hc)) (hs.next hget) hok

/-- The rest of the chunks is accepted after those before it. -/
theorem Chunking.exists_receiveLoop (h : Chunking snapBytes throughOff chunks)
    (pre : List SnapshotChunk) (hsplit : chunks = pre ++ stream) (hne : stream ≠ [])
    (hidx : s.expectedIdx = pre.length) (hs : Staged throughOff chunks s) :
    ∃ t, receiveLoop .none stream s = .ok t := by
  induction stream generalizing s pre with
  | nil => exact absurd rfl hne
  | cons chunk stream ih =>
    have hget : chunks[s.expectedIdx]? = some chunk := by
      rw [hsplit, hidx]
      simp
    rw [receiveLoop, if_neg (by simp [h.index _ chunk hget]), h.readOffset hs hget]
    dsimp only
    rw [if_neg (by simp [PullFaults.none])]
    by_cases hlast : chunk.last = true
    · exact ⟨_, by rw [if_pos hlast]⟩
    · rw [if_neg hlast]
      have hlen := mt (h.last _ chunk hget).mpr hlast
      refine ih (pre ++ [chunk]) (by simp [hsplit]) ?_ (by simp [hidx]) (hs.next hget)
      rintro rfl
      rw [hsplit, hidx] at hlen
      simp at hlen

end Receiving

/-- The chunks of a snapshot, in order, are pulled as the snapshot with its offset. If chunks
are lost, repeated or out of order, if the stream ends early or a write fails, the pull fails
or yields the same. -/
theorem snapshot_stream_round_trip (snapBytes : List UInt8) (throughOff : ℕ) (chunkSize : ℤ) :
    pullSnapshot .none (streamSnapshotChunks snapBytes throughOff chunkSize) =
        .ok ⟨snapBytes, throughOff⟩ ∧
      ∀ (F : PullFaults) (stream : List SnapshotChunk),
        (∀ chunk ∈ stream, chunk ∈ streamSnapshotChunks snapBytes throughOff chunkSize) →
        (∃ e, pullSnapshot F stream = .error e) ∨
          pullSnapshot F stream = .ok ⟨snapBytes, throughOff⟩ := by
  have hchunks := chunking_stream snapBytes throughOff chunkSize
  generalize streamSnapshotChunks snapBytes throughOff chunkSize = chunks at hchunks ⊢
  constructor
  · obtain ⟨t, ht⟩ := hchunks.exists_receiveLoop [] rfl hchunks.nonempty rfl staged_start
    obtain ⟨hbytes, hoff⟩ := hchunks.eq_of_receiveLoop (fun _ h => h) staged_start ht
    rw [pullSnapshot, ht]
    simp [PullFaults.none, hbytes, hoff]
  · intro F stream hmem
    cases hr : receiveLoop F stream ⟨0, 0, []⟩ with
    | error e => exact Or.inl ⟨e, by rw [pullSnapshot, hr]⟩
    | ok t =>
      obtain ⟨hbytes, hoff⟩ := hchunks.eq_of_receiveLoop hmem staged_start hr
      rw [pullSnapshot, hr]
      dsimp only
      split_ifs
      · exact Or.inl ⟨_, rfl⟩
      · exact Or.inl ⟨_, rfl⟩
      · rw [hbytes, hoff]
        exact Or.inr rfl

example : (streamSnapshotChunks [1, 2, 3, 4, 5] 9 2).map data = [[1, 2], [3, 4], [5]] := by
  decide

end SnapshotChunk
end Comlink
