import Comlink.FaultyOpening
import Comlink.GuardedRuns

/-!
# Appends that fail

`Append` on a disk whose writes fail. A failed write may have written any part of its
buffer, after which the file is cut to its old length; whether that succeeds is not looked
at, and the next `Append` writes behind whatever is there. The offsets count the `Append`
calls that have succeeded. So what was acknowledged is found again as long as nothing is
written behind the rest of a failed frame, and no failed frame stays in the file in full.
-/
namespace Comlink
open ByteStreams GuardedRuns

/-- What fails in an `Append`; a failed write has written some bytes of its buffer. -/
inductive AppendFault where
  | seek
  | writeHeader (written : ℕ)
  | writePayload (written : ℕ)
  | sync
  deriving DecidableEq, Repr

/-- A call of `Append` with what fails in it, and whether the file can be cut back. -/
structure AppendCall where
  env : Envelope
  senderSeq : UInt64
  fault : Option AppendFault
  truncates : Bool
  deriving DecidableEq, Repr

/-- What is written of a frame before the failure. -/
def AppendFault.written (payload : List UInt8) (senderSeq : ℕ) : AppendFault → List UInt8
  | .seek => []
  | .writeHeader n => (File.frameHeader payload senderSeq).take n
  | .writePayload n => File.frameHeader payload senderSeq ++ payload.take n
  | .sync => File.frame payload senderSeq

/-- The history of a file: the length of its data file after the last `Append` that
returned no error, and the entries of all these calls with the offsets that they returned. -/
structure AppendRun where
  file : File
  settled : ℕ
  acked : List LogEntry

namespace File

/-- `Append`, whose failures leave what cannot be cut off. -/
def appendOn (C : LogCodec) (f : File) (call : AppendCall) : File × Except FileError ℕ :=
  match call.env.id.sender with
  | none => (f, .error (.log (.corrupt .noSender)))
  | some _ =>
    if f.cache.closed then (f, .error (.log .closed))
    else
      let payload := C.marshal call.env
      match call.fault with
      | none =>
        ({ f with
            dir := { f.dir with data := f.dir.data ++ frame payload call.senderSeq.toNat }
            cache := f.cache.push call.env call.senderSeq },
          .ok f.cache.nextOffset)
      | some fault =>
        let written := f.dir.data ++ fault.written payload call.senderSeq.toNat
        let data := if call.truncates then written.take f.dir.data.length else written
        ({ f with dir := { f.dir with data := data } }, .error .io)

variable {C : LogCodec} {conv : ConversationID} {f : File} {l : MessageLog} {call : AppendCall}

/-- An `Append` in which nothing fails is the one of the file log. -/
theorem appendOn_of_no_fault (h : call.fault = none) :
    (f.appendOn C call).1 = (f.append C call.env call.senderSeq).1 := by
  unfold appendOn append
  cases call.env.id.sender with
  | none => rfl
  | some r =>
    dsimp only
    rw [h]
    split_ifs <;> rfl

end File

namespace AppendRun
open File

variable {C : LogCodec} {conv : ConversationID} {s t : AppendRun} {l : MessageLog}
variable {call : AppendCall} {torn : List UInt8} {before : List LogEntry}

def start (f : File) : AppendRun := ⟨f, f.dir.data.length, []⟩

def step (C : LogCodec) (s : AppendRun) (call : AppendCall) : Option AppendRun :=
  match s.file.appendOn C call with
  | (f, .ok off) => some ⟨f, f.dir.data.length, s.acked ++ [⟨off, call.env⟩]⟩
  | (f, .error _) => some { s with file := f }

/-- The bytes by which a call changes the data file in the end. -/
def adds (C : LogCodec) (f : File) (call : AppendCall) : List UInt8 :=
  if call.env.id.sender = none ∨ f.cache.closed then []
  else match call.fault with
    | none => frame (C.marshal call.env) call.senderSeq.toNat
    | some fault =>
      if call.truncates then [] else fault.written (C.marshal call.env) call.senderSeq.toNat

/-- The call leaves the file as it is. Or the file ends with the last frame that was
acknowledged, the new frame fits its length field, and it is not left behind in full by a
call that fails. -/
def Recoverable (C : LogCodec) (s : AppendRun) (call : AppendCall) : Prop :=
  adds C s.file call = [] ∨
    s.file.dir.data.length = s.settled ∧ (C.marshal call.env).length < 2 ^ 32 ∧
      (call.fault = none ∨
        adds C s.file call ≠ frame (C.marshal call.env) call.senderSeq.toNat)

instance (C : LogCodec) (s : AppendRun) (call : AppendCall) : Decidable (Recoverable C s call) :=
  inferInstanceAs (Decidable (_ ∨ _ ∧ _ ∧ (_ ∨ _)))

/-- What a call does to the file and which result it has. -/
theorem appendOn_cases (C : LogCodec) (f : File) (call : AppendCall) :
    (∃ e, f.appendOn C call =
      ({ f with dir := { f.dir with data := f.dir.data ++ adds C f call } }, .error e)) ∧
      (call.fault = none → adds C f call = []) ∨
    (f.cache.closed = false ∧ call.fault = none ∧ (∃ r, call.env.id.sender = some r) ∧
      adds C f call = frame (C.marshal call.env) call.senderSeq.toNat ∧
      f.appendOn C call =
        ({ f with
            dir := { f.dir with data := f.dir.data ++ adds C f call }
            cache := f.cache.push call.env call.senderSeq },
          .ok f.cache.nextOffset)) := by
  unfold appendOn adds
  cases hsender : call.env.id.sender with
  | none => exact Or.inl ⟨⟨.log (.corrupt .noSender), by simp⟩, by simp⟩
  | some r =>
    cases hclosed : f.cache.closed with
    | true => exact Or.inl ⟨⟨.log .closed, by simp⟩, by simp⟩
    | false =>
      cases hfault : call.fault with
      | none => exact Or.inr ⟨rfl, rfl, ⟨r, rfl⟩, by simp, by simp⟩
      | some fault =>
        refine Or.inl ⟨⟨.io, ?_⟩, nofun⟩
        cases htrunc : call.truncates <;> simp

/-- The file holds the frames of a log and then some bytes that are no frame; its entries
are those of the start and the acknowledged ones. -/
structure Durable (C : LogCodec) (conv : ConversationID) (before : List LogEntry)
    (s : AppendRun) (l : MessageLog) (torn : List UInt8) : Prop where
  convID : s.file.convID = conv
  cache : s.file.cache = l.toCache
  sidecar : readSidecar s.file.dir.sidecar = .ok l.firstOffset
  data : s.file.dir.data = header C conv ++ l.frames.flatMap (frameOf C) ++ torn
  settled : s.settled = (header C conv ++ l.frames.flatMap (frameOf C)).length
  torn : readFrame torn = none
  storable : ∀ f ∈ l.frames, Storable C f
  entries : l.toCache.entries = before ++ s.acked

theorem durable_start {f : File} (h : Records C conv f l) :
    Durable C conv f.cache.entries (start f) l [] := by
  refine ⟨h.convID, h.cache, h.stores.readSidecar, ?_, ?_, readFrame_nil, h.stores.storable, ?_⟩
  · rw [List.append_nil]
    exact h.stores.data
  · rw [start, h.stores.data]
  · rw [h.cache, start, List.append_nil]

/-- The torn end is gone once the file is reopened. -/
theorem Durable.reopen (h : Durable C conv before s l torn)
    (hconv : (C.marshalConv conv).length < 2 ^ 32) :
    ∃ g, s.file.reopen C = (g, .ok ()) ∧ g.cache.entries = before ++ s.acked := by
  have hopen : openFile C s.file.close.dir s.file.convID = .ok
      ⟨conv, ⟨header C conv ++ l.frames.flatMap (frameOf C), s.file.dir.sidecar⟩, l.toCache⟩ := by
    have hdir : s.file.close.dir = ⟨header C conv ++ (l.frames.flatMap (frameOf C) ++ torn),
        s.file.dir.sidecar⟩ := by
      rw [← List.append_assoc, ← h.data]
      rfl
    rw [hdir, h.convID]
    exact openFile_frames h.sidecar hconv h.storable h.torn
  refine ⟨⟨conv, ⟨header C conv ++ l.frames.flatMap (frameOf C), s.file.dir.sidecar⟩, l.toCache⟩,
    ?_, h.entries⟩
  rw [File.reopen, hopen]

theorem Durable.torn_eq_nil (h : Durable C conv before s l torn)
    (hclean : s.file.dir.data.length = s.settled) : torn = [] := by
  rw [h.data, h.settled, List.length_append, Nat.add_eq_left] at hclean
  exact List.length_eq_zero_iff.mp hclean

theorem written_prefix (payload : List UInt8) (senderSeq : ℕ) (fault : AppendFault) :
    fault.written payload senderSeq <+: frame payload senderSeq := by
  cases fault with
  | seek => exact List.nil_prefix
  | writeHeader n => exact (List.take_prefix n _).trans (List.prefix_append _ _)
  | writePayload n => exact (List.prefix_append_right_inj _).mpr (List.take_prefix n _)
  | sync => exact List.prefix_refl _

theorem adds_isPrefix (C : LogCodec) (f : File) (call : AppendCall) :
    adds C f call <+: frame (C.marshal call.env) call.senderSeq.toNat := by
  unfold adds
  split
  · exact List.nil_prefix
  · split
    · exact List.prefix_refl _
    · split
      · exact List.nil_prefix
      · exact written_prefix _ _ _

/-- A call that fails leaves the entries, and at most the beginning of a frame. -/
theorem Durable.failed (h : Durable C conv before s l torn) (hok : Recoverable C s call)
    (hfault : call.fault = none → adds C s.file call = []) {f : File}
    (hf : f = { s.file with dir :=
      { s.file.dir with data := s.file.dir.data ++ adds C s.file call } }) :
    ∃ torn', Durable C conv before { s with file := f } l torn' := by
  subst hf
  rcases hok with hnone | ⟨hclean, hsize, hleft⟩
  · refine ⟨torn, h.convID, h.cache, h.sidecar, ?_, h.settled, h.torn, h.storable, h.entries⟩
    simp only [hnone, List.append_nil]
    exact h.data
  · refine ⟨adds C s.file call, h.convID, h.cache, h.sidecar, ?_, h.settled, ?_, h.storable,
      h.entries⟩
    · rw [h.data, h.torn_eq_nil hclean, List.append_nil]
    · have hcut : adds C s.file call ≠ frame (C.marshal call.env) call.senderSeq.toNat := by
        refine hleft.elim (fun hnone heq => ?_) id
        have hlen := congrArg List.length ((hfault hnone).symm.trans heq)
        rw [frame, List.length_append, length_frameHeader, List.length_nil] at hlen
        omega
      exact readFrame_torn hsize (adds_isPrefix C s.file call) hcut

/-- A call that succeeds enters one more frame at its offset. -/
theorem Durable.succeeded (h : Durable C conv before s l torn) (hok : Recoverable C s call)
    {r : ReplicaID} (hsender : call.env.id.sender = some r)
    (hadds : adds C s.file call = frame (C.marshal call.env) call.senderSeq.toNat) {f : File}
    (hf : f = { s.file with
      dir := { s.file.dir with data := s.file.dir.data ++ adds C s.file call }
      cache := s.file.cache.push call.env call.senderSeq }) :
    ∃ l', Durable C conv before
      ⟨f, f.dir.data.length, s.acked ++ [⟨s.file.cache.nextOffset, call.env⟩]⟩ l' [] := by
  subst hf
  obtain ⟨l', hl'⟩ := MessageLog.append_of_sender hsender l call.senderSeq.toNat
  obtain ⟨hframes, hfirst⟩ := MessageLog.frames_append hl'
  have hcache := MessageLog.toCache_append hl'
  have hne : adds C s.file call ≠ [] := by
    rw [hadds, ← List.length_pos_iff, frame, List.length_append, length_frameHeader]
    omega
  obtain ⟨hclean, hsize, -⟩ := hok.resolve_left hne
  have hdata : s.file.dir.data ++ adds C s.file call =
      header C conv ++ l'.frames.flatMap (frameOf C) := by
    rw [h.data, h.torn_eq_nil hclean, hadds, hframes]
    simp [frameOf]
  refine ⟨l', h.convID, ?_, ?_, ?_, ?_, readFrame_nil, ?_, ?_⟩
  · dsimp only
    rw [h.cache, hcache]
  · rw [hfirst]
    exact h.sidecar
  · rw [List.append_nil]
    exact hdata
  · dsimp only
    rw [hdata]
  · rw [hframes]
    intro x hx
    rcases List.mem_append.mp hx with hx | hx
    · exact h.storable x hx
    · rw [List.mem_singleton.mp hx]
      exact ⟨hsize, call.senderSeq.toNat_lt⟩
  · dsimp only
    rw [← hcache, LogCache.push, h.cache, ← List.append_assoc, ← h.entries]

theorem Durable.step (h : Durable C conv before s l torn) (hok : Recoverable C s call)
    (hs : step C s call = some t) : ∃ l' torn', Durable C conv before t l' torn' := by
  rcases appendOn_cases C s.file call with ⟨⟨e, he⟩, hfault⟩ | ⟨-, -, ⟨r, hr⟩, hadds, he⟩
  · rw [AppendRun.step, he] at hs
    cases hs
    exact ⟨l, h.failed hok hfault rfl⟩
  · rw [AppendRun.step, he] at hs
    cases hs
    obtain ⟨l', hl'⟩ := h.succeeded hok hr hadds rfl
    exact ⟨l', [], hl'⟩

/-- After any operations on a log and then any calls of `Append` of which some fail: if the
calls are recoverable, closing and reopening the log succeeds, and its entries are those
that it had before and those of the calls that returned no error, at the offsets that were
returned. -/
theorem acked_appends_survive {ops : List LogOp}
    (hconv : (C.marshalConv conv).length < 2 ^ 32) (hfits : ∀ op ∈ ops, op.Fits C)
    (hcount : ops.length < 2 ^ 64)
    (hr : Reach (AppendRun.step C) (Recoverable C) (start (after C conv ops)) s) :
    ∃ g, s.file.reopen C = (g, .ok ()) ∧
      g.cache.entries = (after C conv ops).cache.entries ++ s.acked := by
  have hrec : Records C conv (after C conv ops) (LogOp.run MessageLog.perform .empty ops).1 := by
    refine ((records_create hconv).run hfits ?_).2
    simpa [MessageLog.empty] using hcount
  have hdurable : ∃ l torn, Durable C conv (after C conv ops).cache.entries s l torn := by
    refine hr.invariant (P := fun s => ∃ l torn, Durable C conv _ s l torn)
      ⟨_, [], durable_start hrec⟩ ?_
    rintro s call t ⟨l, torn, h⟩ hok hstep
    exact h.step hok hstep
  obtain ⟨l, torn, h⟩ := hdurable
  exact h.reopen hconv

/-- A log with one entry. -/
def oneAppend : List LogOp := [.append (envelopeOf [1] [7]) 1]

theorem fits_oneAppend : ∀ op ∈ oneAppend, op.Fits .unary := by
  simp [oneAppend, LogOp.Fits, LogCodec.unary, envelopeOf, UnaryBytes.putOption,
    UnaryBytes.putNat]

/-- A failure that is cut off, a success, and a failure that is not cut off. -/
theorem acked_appends_survive_rollback : ∃ (s : AppendRun) (g : File),
    s.acked = [⟨1, envelopeOf [2] [8]⟩] ∧
    s.file.dir.data.length ≠ s.settled ∧
    s.file.reopen .unary = (g, .ok ()) ∧
    g.cache.entries = [⟨0, envelopeOf [1] [7]⟩, ⟨1, envelopeOf [2] [8]⟩] := by
  have hrun : (execute (AppendRun.step .unary) (Recoverable .unary)
      (start (after .unary [9] oneAppend))
      [⟨envelopeOf [3] [], 1, some (.writePayload 1), true⟩, ⟨envelopeOf [2] [8], 1, none, true⟩,
        ⟨envelopeOf [3] [], 1, some (.writeHeader 3), false⟩]).map
      (fun s => decide (s.acked = [⟨1, envelopeOf [2] [8]⟩] ∧
        s.file.dir.data.length ≠ s.settled)) = some true := by decide +kernel
  obtain ⟨s, -, hr, hs⟩ := reach_of_execute hrun
  obtain ⟨hacked, hleft⟩ := of_decide_eq_true hs
  obtain ⟨g, hopen, hentries⟩ :=
    acked_appends_survive length_marshalConv_unary fits_oneAppend (by decide) hr
  refine ⟨s, g, hacked, hleft, hopen, ?_⟩
  rw [hentries, hacked]
  rfl

/-- After a failed write whose rest stays in the file, the next `Append` is acknowledged
with offset 0, and the log cannot be opened again. -/
theorem acked_append_lost : ∃ s, Reach (AppendRun.step .unary) (fun _ _ => True)
    (start (create .unary [9])) s ∧ s.acked = [⟨0, envelopeOf [2] [8]⟩] ∧
      (s.file.reopen .unary).2 = .error (.corrupt (.crcMismatch 0)) := by
  have hrun : (execute (AppendRun.step .unary) (fun _ _ => True) (start (create .unary [9]))
      [⟨envelopeOf [1] [7], 1, some (.writePayload 1), false⟩,
        ⟨envelopeOf [2] [8], 1, none, true⟩]).map
      (fun s => decide (s.acked = [⟨0, envelopeOf [2] [8]⟩] ∧
        (s.file.reopen .unary).2 = .error (.corrupt (.crcMismatch 0)))) = some true := by
    decide +kernel
  obtain ⟨s, -, hr, hs⟩ := reach_of_execute hrun
  exact ⟨s, hr, of_decide_eq_true hs⟩

end AppendRun
end Comlink
