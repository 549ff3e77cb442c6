import Comlink.FileRecovery

/-!
# The file log against the memory log

Both logs act as the log of frames that a conversation is given: the memory log by its
cache, the file log by its cache and by what its directory stores. Hence they return the
same results, however often the file is closed and reopened, and what a crash leaves of an
unfinished `Append` changes nothing. Both facts need that the envelopes fit the length
field of a frame: the length is cut to 32 bits without a check.
-/
namespace Comlink
open ByteStreams

/-- What is appended fits the length field of a frame. -/
def LogOp.Fits (C : LogCodec) : LogOp → Prop
  | .append env _ => (C.marshal env).length < 2 ^ 32
  | _ => True

theorem LogOp.length_appends_le (ops : List LogOp) : (appends ops).length ≤ ops.length := by
  induction ops with
  | nil => simp [appends]
  | cons op ops ih =>
    cases op with
    | append env seq =>
      simp only [appends, List.length_cons]
      split
      · exact Nat.succ_le_succ ih
      · exact Nat.le_succ_of_le ih
    | _ => exact Nat.le_succ_of_le ih

theorem LogOp.appends_cons (op : LogOp) (ops : List LogOp) :
    appends (op :: ops) = appends [op] ++ appends ops := by
  cases op with
  | append env seq =>
    simp only [appends]
    split <;> rfl
  | _ => rfl

namespace MessageLog

theorem frames_run (l : MessageLog) (ops : List LogOp) :
    (LogOp.run perform l ops).1.frames.map LogFrame.envelope =
      l.frames.map LogFrame.envelope ++ LogOp.appends ops := by
  induction ops generalizing l with
  | nil => simp [LogOp.run, LogOp.appends]
  | cons op ops ih =>
    rw [LogOp.appends_cons, LogOp.run, ih, frames_perform, List.append_assoc]

/-- No operation panics, and the entries that it returns stand at the offsets at which they
were appended. -/
theorem entries_run (l : MessageLog) (ops : List LogOp) {r : LogResult}
    (hr : r ∈ (LogOp.run perform l ops).2) : ∃ es, r.entries = some es ∧ ∀ e ∈ es,
      (l.frames.map LogFrame.envelope ++ LogOp.appends ops)[e.offset]? = some e.envelope := by
  induction ops generalizing l with
  | nil => cases hr
  | cons op ops ih =>
    rw [LogOp.run] at hr
    rcases List.mem_cons.mp hr with rfl | hr
    · obtain ⟨es, hes, hentry⟩ := entries_perform l op
      refine ⟨es, hes, fun e he => ?_⟩
      have hget := hentry e he
      rw [← List.getElem?_map] at hget
      obtain ⟨hlt, -⟩ := List.getElem?_eq_some_iff.mp hget
      rw [List.getElem?_append_left hlt, hget]
    · obtain ⟨es, hes, hentry⟩ := ih _ hr
      refine ⟨es, hes, fun e he => ?_⟩
      have hget := hentry e he
      rwa [frames_perform, List.append_assoc, ← LogOp.appends_cons] at hget

end MessageLog

theorem Memory.run_toCache (l : MessageLog) (ops : List LogOp) :
    LogOp.run Memory.perform ⟨l.toCache⟩ ops =
      (⟨(LogOp.run MessageLog.perform l ops).1.toCache⟩,
        (LogOp.run MessageLog.perform l ops).2) := by
  induction ops generalizing l with
  | nil => rfl
  | cons op ops ih => simp only [LogOp.run, Memory.perform_toCache, ih]

namespace File

variable {C : LogCodec} {conv : ConversationID} {dir : LogDir} {f : File} {l l' : MessageLog}
variable {env : Envelope} {seq : UInt64}

theorem Stores.append (h : Stores C conv dir l) (hl : l.append env seq.toNat = some l')
    (hfits : (C.marshal env).length < 2 ^ 32) (hcount : l.frames.length + 1 < 2 ^ 64) :
    Stores C conv { dir with data := dir.data ++ frame (C.marshal env) seq.toNat } l' := by
  obtain ⟨hframes, hfirst⟩ := MessageLog.frames_append hl
  refine ⟨?_, ?_, h.conv, ?_, ?_⟩
  · simp [h.data, hframes, frameOf]
  · rw [hfirst]
    exact h.sidecar
  · rw [hframes]
    intro f hf
    rcases List.mem_append.mp hf with hf | hf
    · exact h.storable f hf
    · rw [List.mem_singleton.mp hf]
      exact ⟨hfits, seq.toNat_lt⟩
  · rw [hframes, List.length_append]
    exact hcount

theorem Stores.truncate (h : Stores C conv dir l) {below : ℕ} (hb : l.firstOffset < below) :
    Stores C conv { dir with
      sidecar := some (putLE 8 (if l.nextOffset < below then l.nextOffset else below)) }
        (l.truncate below) := by
  have hfirst : (l.truncate below).firstOffset =
      if l.nextOffset < below then l.nextOffset else below := by
    rw [MessageLog.truncate, if_neg (Nat.not_le.mpr hb), MessageLog.nextOffset]
    dsimp only
    split <;> omega
  refine ⟨?_, Or.inr (by rw [hfirst]), h.conv, ?_, ?_⟩
  · rw [MessageLog.frames_truncate]
    exact h.data
  · rw [MessageLog.frames_truncate]
    exact h.storable
  · rw [MessageLog.frames_truncate]
    exact h.count

/-- The file serves and stores the log of frames. -/
structure Records (C : LogCodec) (conv : ConversationID) (f : File) (l : MessageLog) : Prop where
  convID : f.convID = conv
  cache : f.cache = l.toCache
  stores : Stores C conv f.dir l

theorem Records.eq (h : Records C conv f l) : f = ⟨conv, f.dir, l.toCache⟩ := by
  obtain ⟨convID, dir, cache⟩ := f
  obtain ⟨rfl, rfl, -⟩ := h
  rfl

/-- What a crash leaves of an unfinished frame is cut off when the file is opened. -/
theorem Records.openFile (h : Records C conv f l) {torn : List UInt8}
    (htorn : readFrame torn = none) :
    openFile C { f.dir with data := f.dir.data ++ torn } conv = .ok f := by
  rw [h.stores.openFile htorn, ← h.eq]

theorem Records.openFile_whole (h : Records C conv f l) : File.openFile C f.dir conv = .ok f := by
  have hopen := h.openFile readFrame_nil
  rwa [List.append_nil] at hopen

theorem Records.append (h : Records C conv f l) (hfits : (C.marshal env).length < 2 ^ 32)
    (hcount : l.frames.length + 1 < 2 ^ 64) (hl : l.append env seq.toNat = some l') :
    (f.append C env seq).2 = .ok l.nextOffset ∧ Records C conv (f.append C env seq).1 l' := by
  have hopen : f.cache.closed = false := by rw [h.cache]; rfl
  have hsender : ∃ r, env.id.sender = some r := by
    rw [← Option.ne_none_iff_exists']
    exact fun hs => by simp [MessageLog.append, hs] at hl
  obtain ⟨r, hr⟩ := hsender
  simp only [File.append, hr, hopen, Bool.false_eq_true, if_false]
  refine ⟨by rw [h.cache, MessageLog.nextOffset_toCache], h.convID, ?_,
    h.stores.append hl hfits hcount⟩
  rw [h.cache]
  exact MessageLog.toCache_append hl

theorem Records.truncate (h : Records C conv f l) (below : ℕ) :
    (f.truncate below).2 = .ok () ∧ Records C conv (f.truncate below).1 (l.truncate below) := by
  have hopen : f.cache.closed = false := by rw [h.cache]; rfl
  have hfirst : f.cache.firstOffset = l.firstOffset := by rw [h.cache]; rfl
  have hnext : f.cache.nextOffset = l.nextOffset := by
    rw [h.cache, MessageLog.nextOffset_toCache]
  simp only [File.truncate, hopen, Bool.false_eq_true, if_false, hfirst, hnext]
  by_cases hb : below ≤ l.firstOffset
  · rw [if_pos hb, MessageLog.truncate, if_pos hb]
    exact ⟨rfl, h⟩
  · have hlt := Nat.lt_of_not_le hb
    rw [if_neg hb]
    refine ⟨rfl, h.convID, ?_, h.stores.truncate hlt⟩
    rw [h.cache]
    exact MessageLog.toCache_truncate hlt

/-- Each operation acts on the file as on the log that it records. -/
theorem Records.perform (h : Records C conv f l) {op : LogOp} (hfits : op.Fits C)
    (hcount : l.frames.length + 1 < 2 ^ 64) : (f.perform C op).2 = (l.perform op).2 ∧
      Records C conv (f.perform C op).1 (l.perform op).1 := by
  cases op with
  | append env seq =>
    cases hs : env.id.sender with
    | none =>
      have hnone := MessageLog.append_eq_none_iff (l := l) (q := seq.toNat).mpr hs
      simp only [File.perform, File.append, MessageLog.perform, hs, hnone, true_and]
      exact h
    | some r =>
      obtain ⟨l', hl'⟩ := MessageLog.append_of_sender hs l seq.toNat
      obtain ⟨hres, hrec⟩ := h.append hfits hcount hl'
      simp only [File.perform, MessageLog.perform, hl', hres, true_and]
      exact hrec
  | lookupBySender sender seq =>
    refine ⟨?_, h⟩
    rw [File.perform, File.lookupBySender, h.cache, MessageLog.lookupBySender_toCache]
    rfl
  | range lo hi =>
    refine ⟨?_, h⟩
    rw [File.perform, File.range, h.cache, MessageLog.range_toCache]
    rfl
  | firstOffset =>
    refine ⟨?_, h⟩
    rw [File.perform, File.firstOffset, h.cache]
    rfl
  | nextOffset =>
    refine ⟨?_, h⟩
    rw [File.perform, File.nextOffset, h.cache, MessageLog.nextOffset_toCache]
    rfl
  | truncate below =>
    obtain ⟨hres, hrec⟩ := h.truncate below
    simp only [File.perform, MessageLog.perform, hres, true_and]
    exact hrec
  | reopen =>
    have hopen : File.openFile C f.close.dir f.convID = .ok f := by
      rw [h.convID]
      exact h.openFile_whole
    simp only [File.perform, File.reopen, MessageLog.perform, hopen, true_and]
    exact h

theorem Records.run (h : Records C conv f l) {ops : List LogOp} (hfits : ∀ op ∈ ops, op.Fits C)
    (hcount : l.frames.length + ops.length < 2 ^ 64) :
    (LogOp.run (File.perform C) f ops).2 = (LogOp.run MessageLog.perform l ops).2 ∧
      Records C conv (LogOp.run (File.perform C) f ops).1
        (LogOp.run MessageLog.perform l ops).1 := by
  induction ops generalizing f l with
  | nil => exact ⟨rfl, h⟩
  | cons op ops ih =>
    obtain ⟨hop, hops⟩ := List.forall_mem_cons.mp hfits
    rw [List.length_cons] at hcount
    obtain ⟨hres, hrec⟩ := h.perform hop (by omega)
    have hlen : (l.perform op).1.frames.length ≤ l.frames.length + 1 := by
      have hframes := congrArg List.length (MessageLog.frames_perform l op)
      have hone := LogOp.length_appends_le [op]
      rw [List.length_append, List.length_map, List.length_map] at hframes
      rw [List.length_singleton] at hone
      omega
    obtain ⟨hrest, hlast⟩ := ih hrec hops (by omega)
    rw [LogOp.run, LogOp.run]
    exact ⟨by rw [hres, hrest], hlast⟩

theorem records_create (hconv : (C.marshalConv conv).length < 2 ^ 32) :
    Records C conv (create C conv) .empty := by
  refine ⟨rfl, LogCache.ofFrames_nil.symm, ?_, Or.inl ⟨rfl, rfl⟩, hconv, ?_, ?_⟩
  · simp [MessageLog.empty, create]
  · simp [MessageLog.empty]
  · exact Nat.pow_pos (by decide)

/-- A file log that is closed and reopened at will returns the results of a memory log, as
long as every envelope and the conversation fit the length field; no read panics, and an
entry at offset `K` is the envelope that was appended as number `K`. -/
theorem file_refines_memory {ops : List LogOp}
    (hconv : (C.marshalConv conv).length < 2 ^ 32) (hfits : ∀ op ∈ ops, op.Fits C)
    (hcount : ops.length < 2 ^ 64) : ∃ f, File.openFile C ⟨[], none⟩ conv = .ok f ∧
      (LogOp.run (File.perform C) f ops).2 = (LogOp.run Memory.perform .new ops).2 ∧
      ∀ r ∈ (LogOp.run (File.perform C) f ops).2, ∃ es, r.entries = some es ∧
        ∀ e ∈ es, (LogOp.appends ops)[e.offset]? = some e.envelope := by
  obtain ⟨hres, -⟩ := (records_create hconv).run hfits (by simpa [MessageLog.empty] using hcount)
  refine ⟨_, openFile_empty C conv, ?_, ?_⟩
  · have hnew : Memory.new = ⟨MessageLog.empty.toCache⟩ :=
      congrArg Memory.mk LogCache.ofFrames_nil.symm
    rw [hres, hnew, Memory.run_toCache]
  · rw [hres]
    intro r hr
    exact MessageLog.entries_run .empty ops hr

/-- An envelope of sender `r` with no clock. -/
def envelopeOf (r : ReplicaID) (payload : List UInt8) : Envelope := ⟨⟨none, some r, []⟩, payload⟩

/-- A key that is appended twice, a truncation beyond its first entry and one beyond the
end, with the file reopened in between. -/
def truncatedTwice : List LogOp :=
  [.append (envelopeOf [1] [7]) 1, .append (envelopeOf [1] [8]) 1, .reopen, .truncate 1,
    .lookupBySender [1] 1, .reopen, .range 0 9, .truncate 5, .reopen, .lookupBySender [1] 1,
    .append (envelopeOf [2] []) 1, .reopen, .lookupBySender [2] 1, .firstOffset, .nextOffset]

theorem fits_truncatedTwice : ∀ op ∈ truncatedTwice, op.Fits .unary := by
  simp [truncatedTwice, LogOp.Fits, LogCodec.unary, envelopeOf, UnaryBytes.putOption,
    UnaryBytes.putNat]

theorem length_marshalConv_unary : (LogCodec.unary.marshalConv [9]).length < 2 ^ 32 := by decide

theorem file_refines_memory_truncated : ∃ f,
    File.openFile .unary ⟨[], none⟩ [9] = .ok f ∧
    (LogOp.run Memory.perform .new truncatedTwice).2.drop 4 =
      [.found (.ok ⟨1, envelopeOf [1] [8]⟩), .done (.ok ()),
        .listed (.ok [⟨1, envelopeOf [1] [8]⟩]), .done (.ok ()), .done (.ok ()),
        .found (.error .notFound), .appended (.ok 2), .done (.ok ()),
        .found (.ok ⟨2, envelopeOf [2] []⟩), .offset 2, .offset 3] ∧
    (LogOp.run (File.perform .unary) f truncatedTwice).2 =
      (LogOp.run Memory.perform .new truncatedTwice).2 ∧
    ∀ r ∈ (LogOp.run (File.perform .unary) f truncatedTwice).2, ∃ es, r.entries = some es ∧
      ∀ e ∈ es, (LogOp.appends truncatedTwice)[e.offset]? = some e.envelope := by
  obtain ⟨f, hopen, hsame, hentries⟩ :=
    file_refines_memory length_marshalConv_unary fits_truncatedTwice (by simp [truncatedTwice])
  exact ⟨f, hopen, by decide, hsame, hentries⟩

theorem length_marshal_envelopeOf (n : ℕ) :
    (LogCodec.unary.marshal (envelopeOf [1] (List.replicate n 0))).length = 6 + n := by
  simp only [LogCodec.unary, envelopeOf, UnaryBytes.putOption, UnaryBytes.putNat,
    List.flatMap_nil, List.length_append, List.length_replicate, List.length_singleton,
    List.length_nil]
  omega

/-- An envelope of 4 GiB. -/
theorem length_marshal_oversized : (LogCodec.unary.marshal
    (envelopeOf [1] (List.replicate (2 ^ 32 - 6) 0))).length % 2 ^ 32 = 0 := by
  rw [length_marshal_envelopeOf]
  rfl

/-- An envelope of 4 GiB is appended without an error, and then the file cannot be opened:
the length field of its frame is zero. -/
theorem oversized_append_lost : ∃ f detail,
    File.openFile .unary ⟨[], none⟩ [9] = .ok f ∧
    (LogOp.run (File.perform .unary) f
      [.append (envelopeOf [1] (List.replicate (2 ^ 32 - 6) 0)) 1, .reopen]).2 =
        [.appended (.ok 0), .done (.error (.corrupt detail))] ∧
    (LogOp.run Memory.perform .new
      [.append (envelopeOf [1] (List.replicate (2 ^ 32 - 6) 0)) 1, .reopen]).2 =
        [.appended (.ok 0), .done (.ok ())] := by
  have hlen := length_marshal_oversized
  generalize List.replicate (2 ^ 32 - 6) (0 : UInt8) = big at hlen ⊢
  obtain ⟨detail, hdetail⟩ : ∃ detail, File.openFile .unary
      ⟨header .unary [9] ++ (frameHeader (LogCodec.unary.marshal (envelopeOf [1] big)) 1 ++
        LogCodec.unary.marshal (envelopeOf [1] big)), none⟩ [9] = .error (.corrupt detail) :=
    openFile_overflow length_marshalConv_unary hlen rfl _
  refine ⟨create .unary [9], detail, rfl, ?_, rfl⟩
  have hreopen : ((create .unary [9]).append .unary (envelopeOf [1] big) 1).1.reopen .unary =
      (((create .unary [9]).append .unary (envelopeOf [1] big) 1).1.close,
        .error (.corrupt detail)) := by
    rw [reopen]
    have hdir : ((create .unary [9]).append .unary (envelopeOf [1] big) 1).1.close.dir =
        ⟨header .unary [9] ++ (frameHeader (LogCodec.unary.marshal (envelopeOf [1] big)) 1 ++
          LogCodec.unary.marshal (envelopeOf [1] big)), none⟩ := rfl
    have hconv : ((create .unary [9]).append .unary (envelopeOf [1] big) 1).1.convID = [9] := rfl
    rw [hdir, hconv, hdetail]
  simp only [LogOp.run, File.perform, hreopen]
  rfl

/-- The file after some operations on a new log. -/
def after (C : LogCodec) (conv : ConversationID) (ops : List LogOp) : File :=
  (LogOp.run (File.perform C) (create C conv) ops).1

/-- The entries of a log that was given the operations, from the first offset on. -/
theorem entries_toCache_run (ops : List LogOp) :
    (LogOp.run MessageLog.perform .empty ops).1.toCache.entries =
      ((LogOp.appends ops).zipIdx.map fun x => ⟨x.2, x.1⟩).drop
        (LogOp.run MessageLog.perform .empty ops).1.firstOffset := by
  have hframes := MessageLog.frames_run .empty ops
  rw [MessageLog.empty, List.map_nil, List.nil_append] at hframes
  rw [← hframes, List.zipIdx_map, List.map_map]
  rfl

/-- An `Append` that a crash cuts short at any byte leaves the file as it was: opening it
succeeds, removes the bytes of the unfinished frame, and exposes the appended envelopes
from the first offset on, each at its number. The next `Append` gets the next number and is
recovered in turn. -/
theorem crash_safe_append {ops : List LogOp}
    (hconv : (C.marshalConv conv).length < 2 ^ 32) (hfits : ∀ op ∈ ops, op.Fits C)
    (hcount : ops.length + 1 < 2 ^ 64) (hsize : (C.marshal env).length < 2 ^ 32)
    {torn : List UInt8} (htorn : torn <+: frame (C.marshal env) seq.toNat)
    (hne : torn ≠ frame (C.marshal env) seq.toNat) :
    openFile C { (after C conv ops).dir with data := (after C conv ops).dir.data ++ torn } conv =
      .ok (after C conv ops) ∧
    (after C conv ops).cache.entries =
      ((LogOp.appends ops).zipIdx.map fun x => ⟨x.2, x.1⟩).drop (after C conv ops).firstOffset ∧
    ∀ (env' : Envelope) (seq' : UInt64), env'.id.sender.isSome →
      (C.marshal env').length < 2 ^ 32 →
      ((after C conv ops).append C env' seq').2 = .ok (LogOp.appends ops).length ∧
      openFile C ((after C conv ops).append C env' seq').1.dir conv =
        .ok ((after C conv ops).append C env' seq').1 ∧
      ((after C conv ops).append C env' seq').1.cache.entries =
        (after C conv ops).cache.entries ++ [⟨(LogOp.appends ops).length, env'⟩] := by
  have hrec : Records C conv (after C conv ops) (LogOp.run MessageLog.perform .empty ops).1 := by
    refine ((records_create hconv).run hfits ?_).2
    simpa [MessageLog.empty] using Nat.lt_of_succ_lt hcount
  have hlen : (LogOp.run MessageLog.perform .empty ops).1.frames.length =
      (LogOp.appends ops).length := by
    have hframes := congrArg List.length (MessageLog.frames_run .empty ops)
    simpa [MessageLog.empty] using hframes
  refine ⟨hrec.openFile (readFrame_torn hsize htorn hne), ?_, ?_⟩
  · rw [firstOffset, hrec.cache]
    exact entries_toCache_run ops
  · intro env' seq' hsender hsize'
    obtain ⟨r, hr⟩ := Option.isSome_iff_exists.mp hsender
    obtain ⟨l', hl'⟩ := MessageLog.append_of_sender hr
      (LogOp.run MessageLog.perform .empty ops).1 seq'.toNat
    have hle := LogOp.length_appends_le ops
    obtain ⟨hres, hrec'⟩ := hrec.append hsize' (by rw [hlen]; omega) hl'
    refine ⟨by rw [hres, MessageLog.nextOffset, hlen], hrec'.openFile_whole, ?_⟩
    rw [hrec'.cache, ← MessageLog.toCache_append hl', LogCache.push,
      MessageLog.nextOffset_toCache, MessageLog.nextOffset, hlen, hrec.cache]

theorem crash_safe_append_header :
    (after .unary [9] truncatedTwice).firstOffset = 2 ∧
    openFile .unary { (after .unary [9] truncatedTwice).dir with
      data := (after .unary [9] truncatedTwice).dir.data ++
        frameHeader (LogCodec.unary.marshal (envelopeOf [1] [3])) 2 } [9] =
      .ok (after .unary [9] truncatedTwice) ∧
    (after .unary [9] truncatedTwice).cache.entries = [⟨2, envelopeOf [2] []⟩] := by
  have hfirst : (after .unary [9] truncatedTwice).firstOffset = 2 := by decide +kernel
  have htorn : frameHeader (LogCodec.unary.marshal (envelopeOf [1] [3])) 2 ≠
      frame (LogCodec.unary.marshal (envelopeOf [1] [3])) 2 := by
    rw [frame, ne_eq, List.self_eq_append_right]
    decide
  obtain ⟨hopen, hentries, -⟩ := crash_safe_append
    length_marshalConv_unary fits_truncatedTwice (by simp [truncatedTwice])
    (by decide : (LogCodec.unary.marshal (envelopeOf [1] [3])).length < 2 ^ 32)
    (List.prefix_append _ _ : _ <+: frame _ (2 : UInt64).toNat) htorn
  refine ⟨hfirst, hopen, ?_⟩
  rw [hentries, hfirst]
  rfl

/-- The header of the frame of such an envelope is taken for a frame without a payload, so
that the crash makes the log unreadable. -/
theorem oversized_append_torn : ∃ detail,
    frameHeader (LogCodec.unary.marshal (envelopeOf [1] (List.replicate (2 ^ 32 - 6) 0))) 1 <+:
      frame (LogCodec.unary.marshal (envelopeOf [1] (List.replicate (2 ^ 32 - 6) 0))) 1 ∧
    frameHeader (LogCodec.unary.marshal (envelopeOf [1] (List.replicate (2 ^ 32 - 6) 0))) 1 ≠
      frame (LogCodec.unary.marshal (envelopeOf [1] (List.replicate (2 ^ 32 - 6) 0))) 1 ∧
    openFile .unary { (after .unary [9] []).dir with
      data := (after .unary [9] []).dir.data ++ frameHeader
        (LogCodec.unary.marshal (envelopeOf [1] (List.replicate (2 ^ 32 - 6) 0))) 1 } [9] =
      .error (.corrupt detail) := by
  have hlen := length_marshal_oversized
  generalize List.replicate (2 ^ 32 - 6) (0 : UInt8) = big at hlen ⊢
  obtain ⟨detail, hdetail⟩ : ∃ detail, File.openFile .unary
      ⟨header .unary [9] ++
        (frameHeader (LogCodec.unary.marshal (envelopeOf [1] big)) 1 ++ []), none⟩ [9] =
        .error (.corrupt detail) :=
    openFile_overflow length_marshalConv_unary hlen rfl _
  rw [List.append_nil] at hdetail
  refine ⟨detail, List.prefix_append _ _, ?_, hdetail⟩
  rw [frame, ne_eq, List.self_eq_append_right]
  simp [LogCodec.unary, UnaryBytes.putNat, UnaryBytes.putOption, envelopeOf]

end File
end Comlink
