import Comlink.FileRefinement

/-!
# Opening a log on a disk that fails

`OpenFile` once more, with reads that may return an error other than the end of the file.
Such an error at the sidecar or in the header of the data file is returned. In the frames
it is taken for a frame that is cut off, so that the file is cut there: all frames from
this one on are lost. Without read errors the function is the one of the file log.

The header itself is written in place, and only a file of size zero is given one. What a
crash leaves of it is refused from then on.
-/
namespace Comlink
open ByteStreams

/-- An error of the log, or one of the file system. -/
inductive FileError where
  | log (e : LogError)
  | io
  deriving DecidableEq, Repr

/-- The outcomes of `io.ReadFull`. -/
inductive ReadResult where
  | full (bytes rest : List UInt8)
  | eof
  | unexpectedEOF
  | failed
  deriving DecidableEq, Repr

/-- The reads that fail: that of the sidecar, and those of the data file by their number.
The header takes the reads 0, 1 and 2, and the frame at offset `i` the reads `3 + 2 * i` and
`4 + 2 * i`. -/
structure ReadFaults where
  sidecar : Bool
  data : ℕ → Bool

def ReadFaults.none : ReadFaults := ⟨false, fun _ => false⟩

namespace File

/-- `io.ReadFull`; nothing is read into an empty buffer. -/
def readFullFrom (fails : Bool) (n : ℕ) (data : List UInt8) : ReadResult :=
  if n = 0 then .full [] data
  else if fails then .failed
  else if data = [] then .eof
  else if data.length < n then .unexpectedEOF
  else .full (data.take n) (data.drop n)

def readAndValidateHeader (C : LogCodec) (fails : ℕ → Bool) (conv : ConversationID)
    (data : List UInt8) : Except LogError (List UInt8) :=
  match readFullFrom (fails 0) 8 data with
  | .full magic rest =>
    if magic ≠ magicBytes then .error (.corrupt .badMagic)
    else match readFullFrom (fails 1) 4 rest with
      | .full len rest => match readFullFrom (fails 2) (getLE len) rest with
        | .full convBytes rest => match C.unmarshalConv convBytes with
          | none => .error (.corrupt .parseConvID)
          | some stored => if stored = conv then .ok rest else .error .conversationMismatch
        | _ => .error (.corrupt .readConvID)
      | _ => .error (.corrupt .readConvIDLength)
  | _ => .error (.corrupt .readMagic)

/-- How the loop of `scanIntoCache` ends: at the end of the file, where the file is cut, or
with an error. -/
inductive ScanEnd where
  | clean (s : Scan)
  | cut (s : Scan)
  | error (e : LogError)

/-- A frame that was read in full, at its offset. -/
def takeFrame (C : LogCodec) (s : Scan) (payload : List UInt8) (senderSeq : UInt64)
    (wantCRC : ℕ) (rest : List UInt8) : Except LogError Scan :=
  if (checksum payload).toNat ≠ wantCRC then .error (.corrupt (.crcMismatch s.off))
  else
    let next := { s with rest := rest, pos := s.pos + 16 + payload.length, off := s.off + 1 }
    if s.off < s.cache.firstOffset then .ok next
    else match C.unmarshal payload with
      | none => .error (.corrupt (.parseEnvelope s.off))
      | some env => .ok { next with
          cache := { s.cache with
            entries := s.cache.entries ++ [⟨s.off, env⟩]
            index := Function.update s.cache.index ⟨env.sender, senderSeq.toNat⟩ (some s.off) } }

/-- The loop with the number of its next read. -/
def scanFrom (C : LogCodec) (fails : ℕ → Bool) : ℕ → ℕ → Scan → ScanEnd
  | 0, _, s => .clean s
  | rounds + 1, k, s => match readFullFrom (fails k) 16 s.rest with
    | .eof => .clean s
    | .unexpectedEOF | .failed => .cut s
    | .full hdr rest => match readFullFrom (fails (k + 1)) (getLE (hdr.take 4)) rest with
      | .full payload rest =>
        match takeFrame C s payload (UInt64.ofNat (getLE ((hdr.drop 4).take 8)))
          (getLE (hdr.drop 12)) rest with
        | .error e => .error e
        | .ok next => scanFrom C fails rounds (k + 2) next
      | _ => .cut s

/-- `OpenFile` with the directory that it leaves. -/
def openFileOn (C : LogCodec) (F : ReadFaults) (dir : LogDir) (conv : ConversationID) :
    LogDir × Except FileError File :=
  if F.sidecar then (dir, .error .io)
  else match readSidecar dir.sidecar with
    | .error e => (dir, .error (.log e))
    | .ok first =>
      if dir.data = [] then
        let dir := { dir with data := header C conv }
        (dir, .ok ⟨conv, dir, .fresh first⟩)
      else match readAndValidateHeader C F.data conv dir.data with
        | .error e => (dir, .error (.log e))
        | .ok rest =>
          let start := ⟨rest, dir.data.length - rest.length, 0, .fresh first⟩
          match scanFrom C F.data (rest.length + 1) 3 start with
          | .error e => (dir, .error (.log e))
          | .clean s => (dir, .ok ⟨conv, dir, s.cache⟩)
          | .cut s =>
            let dir := { dir with data := dir.data.take s.pos }
            (dir, .ok ⟨conv, dir, s.cache⟩)

variable {C : LogCodec} {conv stored : ConversationID} {fails : ℕ → Bool} {F : ReadFaults}
variable {dir : LogDir} {data rest torn : List UInt8} {n k pos i rounds : ℕ} {b : Bool} {s : Scan}

theorem readFullFrom_append {xs ys : List UInt8} (hn : xs.length = n)
    (hb : n = 0 ∨ b = false) : readFullFrom b n (xs ++ ys) = .full xs ys := by
  unfold readFullFrom
  by_cases hzero : n = 0
  · have hnil : xs = [] := List.length_eq_zero_iff.mp (hn.trans hzero)
    rw [if_pos hzero, hnil, List.nil_append]
  · have hne : xs ++ ys ≠ [] := by
      intro h
      rw [(List.append_eq_nil_iff.mp h).1] at hn
      exact hzero hn.symm
    subst hn
    rw [if_neg hzero, hb.resolve_left hzero, if_neg Bool.false_ne_true, if_neg hne,
      if_neg (by simp), List.take_left, List.drop_left]

theorem readFullFrom_failed (hn : n ≠ 0) (data : List UInt8) :
    readFullFrom true n data = .failed := by
  rw [readFullFrom, if_neg hn, if_pos rfl]

/-- What is read in full is what a read without errors returns. -/
theorem readFull_of_full {bytes : List UInt8} (h : readFullFrom b n data = .full bytes rest) :
    readFull n data = some (bytes, rest) := by
  unfold readFullFrom at h
  split_ifs at h with hn hb hnil hlt
  · cases h
    simp [readFull, hn]
  · cases h
    exact if_neg hlt

/-- A read without errors is full exactly if there is enough to read. -/
theorem readFullFrom_false_cases (n : ℕ) (data : List UInt8) :
    (∃ bytes rest, readFull n data = some (bytes, rest) ∧
      readFullFrom false n data = .full bytes rest) ∨
    readFull n data = none ∧
      (readFullFrom false n data = .eof ∨ readFullFrom false n data = .unexpectedEOF) := by
  by_cases hzero : n = 0
  · exact Or.inl ⟨[], data, by simp [readFull, hzero], by simp [readFullFrom, hzero]⟩
  · by_cases hlt : data.length < n
    · refine Or.inr ⟨if_pos hlt, ?_⟩
      by_cases hnil : data = []
      · exact Or.inl (by simp [readFullFrom, hzero, hnil])
      · exact Or.inr (by simp [readFullFrom, hzero, hnil, hlt])
    · have hne : data ≠ [] := by
        rintro rfl
        exact hlt (Nat.pos_of_ne_zero hzero)
      exact Or.inl ⟨_, _, if_neg hlt, by simp [readFullFrom, hzero, hne, hlt]⟩

section NoFaults

/-- Without read errors a round of the loop takes a frame, and ends where there is none. -/
theorem scanFrom_succ_false (k : ℕ) : scanFrom C (fun _ => false) (rounds + 1) k s =
    match readFrame s.rest with
    | none => if s.rest = [] then .clean s else .cut s
    | some (payload, senderSeq, wantCRC, rest) =>
      match takeFrame C s payload senderSeq wantCRC rest with
      | .error e => .error e
      | .ok next => scanFrom C (fun _ => false) rounds (k + 2) next := by
  rw [scanFrom, readFrame]
  rcases readFullFrom_false_cases 16 s.rest with ⟨hdr, rest, hr, hf⟩ | ⟨hr, hf⟩
  · have hne : s.rest ≠ [] := by
      intro hnil
      rw [hnil] at hr
      cases hr
    rw [hr, hf]
    dsimp only
    rcases readFullFrom_false_cases (getLE (hdr.take 4)) rest with
      ⟨payload, rest, hr, hf⟩ | ⟨hr, hf | hf⟩
    · rw [hr, hf]
    · rw [hr, hf]
      dsimp only
      rw [if_neg hne]
    · rw [hr, hf]
      dsimp only
      rw [if_neg hne]
  · rw [hr]
    by_cases hnil : s.rest = []
    · simp [readFullFrom, hnil]
    · have hlt : s.rest.length < 16 := by
        by_contra hge
        rw [readFull, if_neg hge] at hr
        cases hr
      simp [readFullFrom, hnil, hlt]

theorem scanFrame_eq (C : LogCodec) (s : Scan) : scanFrame C s =
    match readFrame s.rest with
    | none => .ok none
    | some (payload, senderSeq, wantCRC, rest) =>
      (takeFrame C s payload senderSeq wantCRC rest).map some := by
  unfold scanFrame takeFrame
  cases readFrame s.rest with
  | none => rfl
  | some fields =>
    dsimp only
    split
    · rfl
    · split
      · rfl
      · cases C.unmarshal fields.1 <;> rfl

/-- The state in which the loop ends. -/
def ScanEnd.result : ScanEnd → Except LogError Scan
  | .clean s | .cut s => .ok s
  | .error e => .error e

theorem takeFrame_ok {payload : List UInt8} {senderSeq : UInt64} {wantCRC : ℕ} {t : Scan}
    (h : takeFrame C s payload senderSeq wantCRC rest = .ok t) :
    t.rest = rest ∧ t.pos = s.pos + 16 + payload.length ∧ t.off = s.off + 1 ∧
      t.cache.firstOffset = s.cache.firstOffset := by
  unfold takeFrame at h
  split_ifs at h
  · cases h
    exact ⟨rfl, rfl, rfl, rfl⟩
  · split at h
    · cases h
    · cases h
      exact ⟨rfl, rfl, rfl, rfl⟩

theorem length_readFrame {payload : List UInt8} {senderSeq : UInt64} {wantCRC : ℕ}
    (h : readFrame data = some (payload, senderSeq, wantCRC, rest)) :
    data.length = 16 + payload.length + rest.length := by
  unfold readFrame readFull at h
  split at h
  · cases h
  · rename_i hhdr
    split at h
    · cases h
    · rename_i hpay
      split_ifs at hhdr hpay with hlt hshort
      cases hhdr
      cases hpay
      cases h
      simp only [List.length_take, List.length_drop] at hlt hshort ⊢
      omega

/-- The scan of the file log, with what it reads and whether it cuts the file. -/
theorem scanFrom_false (hrounds : s.rest.length ≤ rounds) :
    (scanFrom C (fun _ => false) (rounds + 1) k s).result = scanIntoCache C rounds s ∧
      ∀ t, scanFrom C (fun _ => false) (rounds + 1) k s = .clean t →
        t.pos = s.pos + s.rest.length := by
  induction rounds generalizing s k with
  | zero =>
    have hnil : s.rest = [] := List.length_eq_zero_iff.mp (Nat.le_zero.mp hrounds)
    rw [scanFrom_succ_false, hnil, readFrame_nil]
    refine ⟨rfl, ?_⟩
    rintro t ⟨⟩
    simp
  | succ rounds ih =>
    rw [scanFrom_succ_false, scanIntoCache, scanFrame_eq]
    cases hread : readFrame s.rest with
    | none =>
      dsimp only
      split_ifs with hnil
      · refine ⟨rfl, ?_⟩
        rintro t ⟨⟩
        simp [hnil]
      · refine ⟨rfl, ?_⟩
        rintro t ⟨⟩
    | some fields =>
      obtain ⟨payload, senderSeq, wantCRC, rest⟩ := fields
      dsimp only
      cases htake : takeFrame C s payload senderSeq wantCRC rest with
      | error e =>
        refine ⟨rfl, ?_⟩
        rintro t ⟨⟩
      | ok next =>
        obtain ⟨hrest, hpos, -, -⟩ := takeFrame_ok htake
        have hlen := length_readFrame hread
        obtain ⟨hres, hclean⟩ := ih (s := next) (k := k + 2) (by rw [hrest]; omega)
        refine ⟨hres, fun t ht => ?_⟩
        rw [hclean t ht, hrest, hpos]
        omega

theorem readAndValidateHeader_false (C : LogCodec) (conv : ConversationID) (data : List UInt8) :
    readAndValidateHeader C (fun _ => false) conv data = readHeader C conv data := by
  unfold readAndValidateHeader readHeader
  rcases readFullFrom_false_cases 8 data with ⟨magic, rest, hr, hf⟩ | ⟨hr, hf | hf⟩
  · rw [hr, hf]
    dsimp only
    split_ifs
    · rfl
    · rcases readFullFrom_false_cases 4 rest with ⟨len, rest, hr, hf⟩ | ⟨hr, hf | hf⟩
      · rw [hr, hf]
        dsimp only
        rcases readFullFrom_false_cases (getLE len) rest with ⟨bytes, rest, hr, hf⟩ | ⟨hr, hf | hf⟩
        · rewrite [hr, hf]
          rfl
        · rw [hr, hf]
        · rw [hr, hf]
      · rw [hr, hf]
      · rw [hr, hf]
  · rw [hr, hf]
  · rw [hr, hf]

/-- On a disk without read errors this is the `OpenFile` of the file log. -/
theorem openFileOn_none (C : LogCodec) (dir : LogDir) (conv : ConversationID) :
    openFileOn C .none dir conv = match openFile C dir conv with
      | .error e => (dir, .error (.log e))
      | .ok f => (f.dir, .ok f) := by
  rw [openFileOn, openFile, ReadFaults.none, if_neg Bool.false_ne_true]
  cases readSidecar dir.sidecar with
  | error e => rfl
  | ok first =>
    dsimp only
    split_ifs with hnil
    · rfl
    · rw [readAndValidateHeader_false]
      cases hheader : readHeader C conv dir.data with
      | error e => rfl
      | ok rest =>
        dsimp only
        obtain ⟨hres, hclean⟩ := scanFrom_false (C := C) (k := 3)
          (s := ⟨rest, dir.data.length - rest.length, 0, .fresh first⟩) (Nat.le_refl rest.length)
        rw [← hres]
        cases hscan : scanFrom C (fun _ => false) (rest.length + 1) 3
          ⟨rest, dir.data.length - rest.length, 0, .fresh first⟩ with
        | error e => rfl
        | cut s => rfl
        | clean s =>
          have hpos := hclean s hscan
          dsimp only at hpos
          have htake : dir.data.take s.pos = dir.data :=
            List.take_of_length_le (by omega)
          simp only [ScanEnd.result, htake]

end NoFaults

section Frames

/-- A frame with any payload. -/
structure RawFrame where
  payload : List UInt8
  senderSeq : ℕ
  deriving DecidableEq, Repr

def RawFrame.bytes (f : RawFrame) : List UInt8 := frame f.payload f.senderSeq

/-- The length of the payload is the one that the frame states. -/
def RawFrame.Complete (f : RawFrame) : Prop := f.payload.length < 2 ^ 32

instance (f : RawFrame) : Decidable f.Complete := inferInstanceAs (Decidable (_ < _))

theorem RawFrame.length_bytes (f : RawFrame) : f.bytes.length = 16 + f.payload.length := by
  rw [bytes, frame, List.length_append, length_frameHeader]

/-- No read of the frames from offset `i` on fails, as far as the scan comes: a payload
that has to be an envelope and is none ends it. -/
def ReadsFrames (C : LogCodec) (fails : ℕ → Bool) (first : ℕ) : ℕ → List RawFrame → Prop
  | _, [] => True
  | i, f :: fs =>
      fails (3 + 2 * i) = false ∧ (f.payload = [] ∨ fails (3 + 2 * i + 1) = false) ∧
        (i < first ∨ (C.unmarshal f.payload).isSome → ReadsFrames C fails first (i + 1) fs)

/-- The file is not cut before this position. -/
def ScanEnd.Keeps (pos : ℕ) : ScanEnd → Prop
  | .cut s => pos ≤ s.pos
  | .clean _ | .error _ => True

/-- What is no frame ends the scan where it is. -/
theorem keeps_of_readFrame_eq_none (h : readFrame s.rest = none) :
    (scanFrom C fails rounds k s).Keeps s.pos := by
  cases rounds with
  | zero => exact trivial
  | succ rounds =>
    rw [scanFrom]
    split
    · exact trivial
    · exact Nat.le_refl _
    · exact Nat.le_refl _
    · rename_i hdr rest hhdr
      split
      · rename_i payload rest' hpay
        rw [readFrame, readFull_of_full hhdr] at h
        dsimp only at h
        rw [readFull_of_full hpay] at h
        cases h
      · exact Nat.le_refl _

variable {f : RawFrame} {cache : LogCache}

/-- A complete frame whose reads succeed is taken. -/
theorem scanFrom_bytes (hf : f.Complete) (hhdr : fails k = false)
    (hpay : f.payload = [] ∨ fails (k + 1) = false) :
    scanFrom C fails (rounds + 1) k ⟨f.bytes ++ rest, pos, i, cache⟩ =
      match takeFrame C ⟨f.bytes ++ rest, pos, i, cache⟩ f.payload
        (UInt64.ofNat (getLE (putLE 8 f.senderSeq))) (checksum f.payload).toNat rest with
      | .error e => .error e
      | .ok next => scanFrom C fails rounds (k + 2) next := by
  have hcrc : (checksum f.payload).toNat < 256 ^ 4 := (checksum f.payload).toNat_lt
  have hempty : f.payload.length = 0 ∨ fails (k + 1) = false :=
    hpay.imp_left List.length_eq_zero_iff.mpr
  rw [scanFrom]
  dsimp only
  rw [RawFrame.bytes, frame, List.append_assoc,
    readFullFrom_append length_frameHeader (Or.inr hhdr)]
  dsimp only
  rw [take_frameHeader, drop_frameHeader_four, drop_frameHeader_twelve, getLE_putLE_of_lt hf,
    getLE_putLE_of_lt hcrc, readFullFrom_append rfl hempty]

/-- A frame with a read that fails ends the scan, and the file is cut before it. -/
theorem scanFrom_bytes_failed (hf : f.Complete)
    (hfail : ¬(fails k = false ∧ (f.payload = [] ∨ fails (k + 1) = false))) :
    scanFrom C fails (rounds + 1) k ⟨f.bytes ++ rest, pos, i, cache⟩ =
      .cut ⟨f.bytes ++ rest, pos, i, cache⟩ := by
  rw [scanFrom]
  dsimp only
  by_cases hhdr : fails k = false
  · have hpay : f.payload.length ≠ 0 ∧ fails (k + 1) = true := by
      rw [not_and, not_or] at hfail
      obtain ⟨hne, htrue⟩ := hfail hhdr
      exact ⟨fun hzero => hne (List.length_eq_zero_iff.mp hzero), by simpa using htrue⟩
    rw [RawFrame.bytes, frame, List.append_assoc,
      readFullFrom_append length_frameHeader (Or.inr hhdr)]
    dsimp only
    rw [take_frameHeader, getLE_putLE_of_lt hf, hpay.2, readFullFrom_failed hpay.1]
  · rw [Bool.not_eq_false] at hhdr
    rw [hhdr, readFullFrom_failed (by decide)]

/-- The scan leaves the frames in the file exactly if it does not fail to read one. -/
theorem keeps_frames_iff {fs : List RawFrame} (hfs : ∀ f ∈ fs, f.Complete)
    (htorn : readFrame torn = none) (hrounds : fs.length < rounds) :
    (scanFrom C fails rounds (3 + 2 * i)
        ⟨fs.flatMap RawFrame.bytes ++ torn, pos, i, cache⟩).Keeps
          (pos + (fs.flatMap RawFrame.bytes).length) ↔
      ReadsFrames C fails cache.firstOffset i fs := by
  induction fs generalizing rounds pos i cache with
  | nil => exact iff_of_true (keeps_of_readFrame_eq_none htorn) trivial
  | cons f fs ih =>
    obtain ⟨hf, hfs⟩ := List.forall_mem_cons.mp hfs
    obtain ⟨n, rfl⟩ : ∃ n, rounds = n + 1 := ⟨rounds - 1, by omega⟩
    rw [List.length_cons] at hrounds
    have hpos : pos + (f.bytes.length + (fs.flatMap RawFrame.bytes).length) =
        pos + 16 + f.payload.length + (fs.flatMap RawFrame.bytes).length := by
      rw [RawFrame.length_bytes]
      omega
    have hnext : 3 + 2 * i + 2 = 3 + 2 * (i + 1) := by omega
    rw [List.flatMap_cons, List.append_assoc, List.length_append, ReadsFrames, ← and_assoc]
    by_cases hread : fails (3 + 2 * i) = false ∧ (f.payload = [] ∨ fails (3 + 2 * i + 1) = false)
    · rw [and_iff_right hread, scanFrom_bytes hf hread.1 hread.2, takeFrame, if_neg (by simp), hpos,
        hnext]
      dsimp only
      split_ifs with hlt
      · rw [ih hfs (by omega), imp_iff_right (Or.inl hlt)]
      · cases henv : C.unmarshal f.payload with
        | none =>
          refine iff_of_true trivial fun h => ?_
          simp [hlt] at h
        | some env =>
          dsimp only
          rw [ih hfs (by omega), imp_iff_right (Or.inr (Option.isSome_some))]
    · rw [scanFrom_bytes_failed hf hread]
      refine iff_of_false ?_ fun h => hread h.1
      rw [ScanEnd.Keeps, RawFrame.length_bytes]
      dsimp only
      omega

/-- The reads of the header succeed. -/
def ReadsHeader (C : LogCodec) (fails : ℕ → Bool) (stored : ConversationID) : Prop :=
  fails 0 = false ∧ fails 1 = false ∧ (C.marshalConv stored = [] ∨ fails 2 = false)

theorem length_magicBytes : magicBytes.length = 8 := rfl

theorem readAndValidateHeader_header (hconv : (C.marshalConv stored).length < 2 ^ 32)
    (h : ReadsHeader C fails stored) (rest : List UInt8) :
    readAndValidateHeader C fails conv (header C stored ++ rest) =
      if stored = conv then .ok rest else .error .conversationMismatch := by
  obtain ⟨hmagic, hlen, hbytes⟩ := h
  rw [readAndValidateHeader, header, List.append_assoc, List.append_assoc,
    readFullFrom_append length_magicBytes (Or.inr hmagic)]
  dsimp only
  rw [if_neg (by simp), readFullFrom_append (length_putLE _ _) (Or.inr hlen)]
  dsimp only
  rw [getLE_putLE_of_lt hconv,
    readFullFrom_append rfl (hbytes.imp_left List.length_eq_zero_iff.mpr)]
  dsimp only
  rw [C.unmarshalConv_marshalConv]

theorem readAndValidateHeader_failed (hconv : (C.marshalConv stored).length < 2 ^ 32)
    (h : ¬ReadsHeader C fails stored) (conv : ConversationID) (rest : List UInt8) :
    ∃ e, readAndValidateHeader C fails conv (header C stored ++ rest) = .error e := by
  rw [readAndValidateHeader, header, List.append_assoc, List.append_assoc]
  by_cases hmagic : fails 0 = false
  · rw [readFullFrom_append length_magicBytes (Or.inr hmagic)]
    dsimp only
    rw [if_neg (by simp)]
    by_cases hlen : fails 1 = false
    · have hbytes : (C.marshalConv stored).length ≠ 0 ∧ fails 2 = true := by
        rw [ReadsHeader, and_iff_right hmagic, and_iff_right hlen, not_or] at h
        exact ⟨fun hzero => h.1 (List.length_eq_zero_iff.mp hzero), by simpa using h.2⟩
      rw [readFullFrom_append (length_putLE _ _) (Or.inr hlen)]
      dsimp only
      rw [getLE_putLE_of_lt hconv, hbytes.2, readFullFrom_failed hbytes.1]
      exact ⟨_, rfl⟩
    · rw [Bool.not_eq_false] at hlen
      rw [hlen, readFullFrom_failed (by decide)]
      exact ⟨_, rfl⟩
  · rw [Bool.not_eq_false] at hmagic
    rw [hmagic, readFullFrom_failed (by decide)]
    exact ⟨_, rfl⟩

/-- `OpenFile` comes to scan the frames, from the given first offset on. -/
structure Scans (C : LogCodec) (F : ReadFaults) (sidecar : Option (List UInt8))
    (stored conv : ConversationID) (first : ℕ) : Prop where
  unfailing : F.sidecar = false
  readable : readSidecar sidecar = .ok first
  readsHeader : ReadsHeader C F.data stored
  bound : stored = conv

theorem openFileOn_of_not_scans (hconv : (C.marshalConv stored).length < 2 ^ 32)
    {sidecar : Option (List UInt8)} (h : ∀ first, ¬Scans C F sidecar stored conv first) :
    (openFileOn C F ⟨header C stored ++ rest, sidecar⟩ conv).1 =
      ⟨header C stored ++ rest, sidecar⟩ := by
  have hne : header C stored ++ rest ≠ [] := by simp [header, magicBytes]
  rw [openFileOn]
  dsimp only
  split_ifs with hside
  · rfl
  · cases hread : readSidecar sidecar with
    | error e => rfl
    | ok first =>
      dsimp only
      by_cases hheader : ReadsHeader C F.data stored
      · have hmismatch : stored ≠ conv := fun heq =>
          h first ⟨by simpa using hside, hread, hheader, heq⟩
        rw [readAndValidateHeader_header hconv hheader, if_neg hmismatch]
      · obtain ⟨e, he⟩ := readAndValidateHeader_failed hconv hheader conv rest
        rw [he]

/-- What the directory still holds of its data file. -/
theorem Scans.prefix_iff {sidecar : Option (List UInt8)} {first : ℕ}
    (h : Scans C F sidecar stored conv first) (hconv : (C.marshalConv stored).length < 2 ^ 32)
    {part : List UInt8} (hpart : part <+: header C stored ++ rest) :
    part <+: (openFileOn C F ⟨header C stored ++ rest, sidecar⟩ conv).1.data ↔
      (scanFrom C F.data (rest.length + 1) 3
        ⟨rest, (header C stored).length, 0, .fresh first⟩).Keeps part.length := by
  have hne : header C stored ++ rest ≠ [] := by simp [header, magicBytes]
  have hpos : (header C stored ++ rest).length - rest.length = (header C stored).length := by
    rw [List.length_append, Nat.add_sub_cancel]
  rw [openFileOn, h.unfailing, if_neg Bool.false_ne_true]
  dsimp only
  rw [h.readable]
  dsimp only
  rw [if_neg hne, readAndValidateHeader_header hconv h.readsHeader, if_pos h.bound]
  dsimp only
  rw [hpos]
  cases scanFrom C F.data (rest.length + 1) 3
    ⟨rest, (header C stored).length, 0, .fresh first⟩ with
  | clean s => exact iff_of_true hpart trivial
  | cut s =>
    dsimp only
    rw [List.prefix_take_iff, and_iff_right hpart]
    rfl
  | error e => exact iff_of_true hpart trivial

theorem length_le_flatMap_bytes (fs : List RawFrame) :
    fs.length ≤ (fs.flatMap RawFrame.bytes).length := by
  induction fs with
  | nil => simp
  | cons f fs ih =>
    rw [List.flatMap_cons, List.length_append, List.length_cons, RawFrame.length_bytes]
    omega

/-- Opening a log with any frames and the beginning of one more leaves all complete frames
in the file if and only if no read of a frame that the scan reaches fails. -/
theorem openFileOn_keeps_iff {frames : List RawFrame} {sidecar : Option (List UInt8)}
    (hconv : (C.marshalConv stored).length < 2 ^ 32) (hframes : ∀ f ∈ frames, f.Complete)
    (htorn : readFrame torn = none) :
    header C stored ++ frames.flatMap RawFrame.bytes <+: (openFileOn C F
        ⟨header C stored ++ (frames.flatMap RawFrame.bytes ++ torn), sidecar⟩ conv).1.data ↔
      ∀ first, Scans C F sidecar stored conv first → ReadsFrames C F.data first 0 frames := by
  have hpart : header C stored ++ frames.flatMap RawFrame.bytes <+:
      header C stored ++ (frames.flatMap RawFrame.bytes ++ torn) := by
    rw [← List.append_assoc]
    exact List.prefix_append _ _
  have hrounds : frames.length < (frames.flatMap RawFrame.bytes ++ torn).length + 1 := by
    have hle := length_le_flatMap_bytes frames
    rw [List.length_append]
    omega
  by_cases hscan : ∃ first, Scans C F sidecar stored conv first
  · obtain ⟨first, hscan⟩ := hscan
    have honly : (∀ first, Scans C F sidecar stored conv first →
        ReadsFrames C F.data first 0 frames) ↔ ReadsFrames C F.data first 0 frames := by
      refine ⟨fun h => h first hscan, fun h first' hscan' => ?_⟩
      have heq := hscan.readable.symm.trans hscan'.readable
      cases heq
      exact h
    rw [honly, hscan.prefix_iff hconv hpart, List.length_append]
    exact keeps_frames_iff hframes htorn hrounds
  · rw [not_exists] at hscan
    rw [openFileOn_of_not_scans hconv hscan]
    exact iff_of_true hpart fun first h => absurd h (hscan first)

/-- The frames of two envelopes. -/
def twoFrames : List RawFrame :=
  [⟨LogCodec.unary.marshal (envelopeOf [1] [7]), 1⟩,
   ⟨LogCodec.unary.marshal (envelopeOf [2] [8]), 1⟩]

theorem complete_twoFrames : ∀ f ∈ twoFrames, f.Complete := by decide

theorem openFileOn_keeps_iff_tail :
    header .unary [9] ++ twoFrames.flatMap RawFrame.bytes <+: (openFileOn .unary
      ⟨false, fun k => k = 7⟩
      ⟨header .unary [9] ++ (twoFrames.flatMap RawFrame.bytes ++ [5]), none⟩ [9]).1.data := by
  rw [openFileOn_keeps_iff length_marshalConv_unary complete_twoFrames (by decide)]
  intro first _
  simp [twoFrames, ReadsFrames]

/-- An error while the payload of the second frame is read: the file is opened, and this
frame is gone. -/
theorem frame_lost_on_read_error : (∀ f ∈ twoFrames, f.Complete) ∧
    (openFileOn .unary ⟨false, fun k => k = 6⟩
      ⟨header .unary [9] ++ twoFrames.flatMap RawFrame.bytes, none⟩ [9]).1.data =
        header .unary [9] ++ (twoFrames.take 1).flatMap RawFrame.bytes ∧
    (openFileOn .unary ⟨false, fun k => k = 6⟩
      ⟨header .unary [9] ++ twoFrames.flatMap RawFrame.bytes, none⟩ [9]).2.toBool = true ∧
    ¬header .unary [9] ++ twoFrames.flatMap RawFrame.bytes <+:
      (openFileOn .unary ⟨false, fun k => k = 6⟩
        ⟨header .unary [9] ++ twoFrames.flatMap RawFrame.bytes, none⟩ [9]).1.data :=
  ⟨complete_twoFrames, by decide +kernel, by decide +kernel, by decide +kernel⟩

end Frames

section Creation

/-- What `writeHeader` has written when it is cut short is no header. -/
theorem readHeader_torn (hconv : (C.marshalConv conv).length < 2 ^ 32)
    (hpre : data <+: header C conv) (hne : data ≠ header C conv) :
    ∃ e, readHeader C conv data = .error e := by
  obtain ⟨missing, hmissing⟩ := hpre
  have hpos : 0 < missing.length := by
    rw [List.length_pos_iff]
    rintro rfl
    exact hne (by simpa using hmissing)
  rw [header, List.append_assoc] at hmissing
  rw [readHeader]
  rcases Nat.lt_or_ge data.length 8 with hshort | hlong
  · rw [readFull_of_lt hshort]
    exact ⟨_, rfl⟩
  · obtain ⟨data, rfl, hdata⟩ := exists_append_of_le hmissing hlong
    rw [readFull_append length_magicBytes]
    dsimp only
    rw [if_neg (by simp)]
    rcases Nat.lt_or_ge data.length 4 with hshort | hlong
    · rw [readFull_of_lt hshort]
      exact ⟨_, rfl⟩
    · rw [← length_putLE 4 (C.marshalConv conv).length] at hlong
      obtain ⟨part, rfl, hpart⟩ := exists_append_of_le hdata hlong
      have hshort : part.length < (C.marshalConv conv).length := by
        rw [← hpart, List.length_append]
        omega
      rw [readFull_append (length_putLE _ _)]
      dsimp only
      rw [getLE_putLE_of_lt hconv, readFull_of_lt hshort]
      exact ⟨_, rfl⟩

/-- A log whose creation was cut short can be opened, and is empty, if and only if nothing
or the whole header has been written. -/
theorem creation_crash_safe_iff (hconv : (C.marshalConv conv).length < 2 ^ 32)
    (hpre : data <+: header C conv) :
    (∃ f, openFile C ⟨data, none⟩ conv = .ok f ∧ f.cache.entries = [] ∧ f.nextOffset = 0) ↔
      data = [] ∨ data = header C conv := by
  constructor
  · rintro ⟨f, hopen, -⟩
    by_contra hcut
    obtain ⟨hne, hwhole⟩ := not_or.mp hcut
    obtain ⟨e, he⟩ := readHeader_torn hconv hpre hwhole
    rw [openFile, readSidecar] at hopen
    dsimp only at hopen
    rw [if_neg hne, he] at hopen
    cases hopen
  · rintro (rfl | rfl)
    · exact ⟨_, openFile_empty C conv, rfl, rfl⟩
    · exact ⟨_, (records_create hconv).openFile_whole, rfl, rfl⟩

theorem creation_crash_safe_iff_whole :
    ∃ f, openFile .unary ⟨header .unary [9], none⟩ [9] = .ok f ∧ f.cache.entries = [] ∧
      f.nextOffset = 0 :=
  (creation_crash_safe_iff length_marshalConv_unary (List.prefix_refl _)).mpr (Or.inr rfl)

/-- A crash after the first byte of the header: the log is taken for a corrupt one. -/
theorem creation_crash_unrecoverable : [99] <+: header .unary [9] ∧
    ¬∃ f, openFile .unary ⟨[99], none⟩ [9] = .ok f ∧ f.cache.entries = [] ∧ f.nextOffset = 0 := by
  refine ⟨by decide, ?_⟩
  rintro ⟨f, hopen, -⟩
  cases hopen

end Creation

end File
end Comlink
