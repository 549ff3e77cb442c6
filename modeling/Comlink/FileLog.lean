import Comlink.ByteStreams
import Comlink.LogCache

/-!
# The file log

`log/file.go` down to the bytes of its two files. The data file is a header, which names
the conversation, and then one frame for each `Append`: length of the payload, sequence
number and checksum in little-endian order, and the payload. The sidecar holds the first
readable offset. A file is scanned when it is opened; a frame that is not complete ends the
scan and is cut off. The write calls never fail here, and the encoding of messages is a
parameter of which only the round trip is known.
-/
namespace Comlink
open ByteStreams

/-- The wire form of the messages in a log. -/
structure LogCodec where
  marshal : Envelope → List UInt8
  unmarshal : List UInt8 → Option Envelope
  marshalConv : ConversationID → List UInt8
  unmarshalConv : List UInt8 → Option ConversationID
  unmarshal_marshal : ∀ env, unmarshal (marshal env) = some env
  unmarshalConv_marshalConv : ∀ conv, unmarshalConv (marshalConv conv) = some conv

namespace UnaryBytes

/-- A number in unary with a terminator. -/
def putNat (n : ℕ) : List UInt8 := List.replicate n 1 ++ [0]

def getNat : List UInt8 → Option (ℕ × List UInt8)
  | [] => none
  | b :: bs => if b = 0 then some (0, bs) else (getNat bs).map fun r => (r.1 + 1, r.2)

def putOption : Option (List UInt8) → List UInt8
  | none => putNat 0
  | some bytes => putNat (bytes.length + 1) ++ bytes

def getOption (bs : List UInt8) : Option (Option (List UInt8) × List UInt8) :=
  (getNat bs).map fun r => match r.1 with
    | 0 => (none, r.2)
    | n + 1 => (some (r.2.take n), r.2.drop n)

def getNats : ℕ → List UInt8 → Option (List ℕ × List UInt8)
  | 0, bs => some ([], bs)
  | n + 1, bs => (getNat bs).bind fun r => (getNats n r.2).map fun rs => (r.1 :: rs.1, rs.2)

@[simp] theorem getNat_putNat (n : ℕ) (rest : List UInt8) :
    getNat (putNat n ++ rest) = some (n, rest) := by
  induction n with
  | zero => rfl
  | succ n ih =>
    rw [putNat, List.replicate_succ, List.cons_append, List.cons_append, getNat, if_neg (by decide),
      ← putNat, ih]
    rfl

@[simp] theorem getOption_putOption (o : Option (List UInt8)) (rest : List UInt8) :
    getOption (putOption o ++ rest) = some (o, rest) := by
  cases o with
  | none => simp [getOption, putOption]
  | some bytes => simp [getOption, putOption]

@[simp] theorem getNats_flatMap (ns : List ℕ) (rest : List UInt8) :
    getNats ns.length (ns.flatMap putNat ++ rest) = some (ns, rest) := by
  induction ns with
  | nil => rfl
  | cons n ns ih => simp [getNats, ih]

end UnaryBytes

open UnaryBytes in
/-- A small codec with the payload at the end. -/
def LogCodec.unary : LogCodec where
  marshal env := putOption env.id.conversationId ++ (putOption env.id.sender ++
    (putNat env.id.vectorClock.length ++ (env.id.vectorClock.flatMap putNat ++ env.payload)))
  unmarshal bs := (getOption bs).bind fun conv => (getOption conv.2).bind fun sender =>
    (getNat sender.2).bind fun n => (getNats n.1 n.2).map fun clock =>
      ⟨⟨conv.1, sender.1, clock.1⟩, clock.2⟩
  marshalConv conv := conv
  unmarshalConv bs := some bs
  unmarshal_marshal env := by simp
  unmarshalConv_marshalConv conv := rfl

/-- The content of a log directory. -/
structure LogDir where
  data : List UInt8
  sidecar : Option (List UInt8)
  deriving DecidableEq, Repr

structure File where
  convID : ConversationID
  dir : LogDir
  cache : LogCache

namespace File

def magicBytes : List UInt8 := [99, 111, 109, 108, 105, 110, 107, 1]

/-- One bit of the checksum with the reversed Castagnoli polynomial. -/
def crcShift (crc : UInt32) : UInt32 :=
  if crc &&& 1 = 1 then (crc >>> 1) ^^^ 0x82f63b78 else crc >>> 1

def crcByte (crc : UInt32) (b : UInt8) : UInt32 :=
  (List.range 8).foldl (fun crc _ => crcShift crc) (crc ^^^ b.toUInt32)

def checksum (payload : List UInt8) : UInt32 := ~~~ (payload.foldl crcByte 0xffffffff)

def header (C : LogCodec) (conv : ConversationID) : List UInt8 :=
  magicBytes ++ putLE 4 (C.marshalConv conv).length ++ C.marshalConv conv

def frameHeader (payload : List UInt8) (senderSeq : ℕ) : List UInt8 :=
  putLE 4 payload.length ++ putLE 8 senderSeq ++ putLE 4 (checksum payload).toNat

/-- What `Append` writes; the conversion to `uint32` drops the upper bits of the length. -/
def frame (payload : List UInt8) (senderSeq : ℕ) : List UInt8 :=
  frameHeader payload senderSeq ++ payload

/-- `readAndValidateHeader`, with what follows the header. -/
def readHeader (C : LogCodec) (conv : ConversationID) (data : List UInt8) :
    Except LogError (List UInt8) :=
  match readFull 8 data with
  | none => .error (.corrupt .readMagic)
  | some (magic, rest) =>
    if magic ≠ magicBytes then .error (.corrupt .badMagic)
    else match readFull 4 rest with
      | none => .error (.corrupt .readConvIDLength)
      | some (len, rest) => match readFull (getLE len) rest with
        | none => .error (.corrupt .readConvID)
        | some (convBytes, rest) => match C.unmarshalConv convBytes with
          | none => .error (.corrupt .parseConvID)
          | some stored => if stored = conv then .ok rest else .error .conversationMismatch

/-- The loop variables of `scanIntoCache`: the unread bytes, the position after the last
complete frame, its successor's offset, and the cache. -/
structure Scan where
  rest : List UInt8
  pos : ℕ
  off : ℕ
  cache : LogCache

/-- The fields of the next frame and what follows it; nothing at the end of the file, and
nothing for a frame that is cut off. -/
def readFrame (data : List UInt8) : Option (List UInt8 × UInt64 × ℕ × List UInt8) :=
  match readFull 16 data with
  | none => none
  | some (hdr, rest) =>
    match readFull (getLE (hdr.take 4)) rest with
    | none => none
    | some (payload, rest) =>
      some (payload, UInt64.ofNat (getLE ((hdr.drop 4).take 8)), getLE (hdr.drop 12), rest)

/-- One round of the loop, which ends it with `none`. -/
def scanFrame (C : LogCodec) (s : Scan) : Except LogError (Option Scan) :=
  match readFrame s.rest with
  | none => .ok none
  | some (payload, senderSeq, wantCRC, rest) =>
    if (checksum payload).toNat ≠ wantCRC then .error (.corrupt (.crcMismatch s.off))
    else
      let next := { s with rest := rest, pos := s.pos + 16 + payload.length, off := s.off + 1 }
      if s.off < s.cache.firstOffset then .ok (some next)
      else match C.unmarshal payload with
        | none => .error (.corrupt (.parseEnvelope s.off))
        | some env => .ok (some { next with
            cache := { s.cache with
              entries := s.cache.entries ++ [⟨s.off, env⟩]
              index := Function.update s.cache.index ⟨env.sender, senderSeq.toNat⟩ (some s.off) } })

/-- `scanIntoCache`. Every round reads at least a frame header, so that the number of
bytes bounds the rounds. -/
def scanIntoCache (C : LogCodec) : ℕ → Scan → Except LogError Scan
  | 0, s => .ok s
  | rounds + 1, s => match scanFrame C s with
    | .error e => .error e
    | .ok none => .ok s
    | .ok (some next) => scanIntoCache C rounds next

/-- The first offset that the sidecar holds. -/
def readSidecar : Option (List UInt8) → Except LogError ℕ
  | none => .ok 0
  | some bytes =>
    if bytes.length ≠ 8 then .error (.corrupt (.metaLength bytes.length)) else .ok (getLE bytes)

def openFile (C : LogCodec) (dir : LogDir) (conv : ConversationID) : Except LogError File :=
  match readSidecar dir.sidecar with
  | .error e => .error e
  | .ok first =>
    if dir.data = [] then .ok ⟨conv, { dir with data := header C conv }, .fresh first⟩
    else match readHeader C conv dir.data with
      | .error e => .error e
      | .ok rest =>
        let start := ⟨rest, dir.data.length - rest.length, 0, .fresh first⟩
        match scanIntoCache C rest.length start with
        | .error e => .error e
        | .ok s => .ok ⟨conv, { dir with data := dir.data.take s.pos }, s.cache⟩

/-- What `OpenFile` makes of an empty directory. -/
def create (C : LogCodec) (conv : ConversationID) : File :=
  ⟨conv, ⟨header C conv, none⟩, .fresh 0⟩

def append (C : LogCodec) (f : File) (env : Envelope) (senderSeq : UInt64) : File × Outcome ℕ :=
  match env.id.sender with
  | none => (f, .error (.corrupt .noSender))
  | some _ =>
    if f.cache.closed then (f, .error .closed)
    else
      ({ f with
          dir := { f.dir with data := f.dir.data ++ frame (C.marshal env) senderSeq.toNat }
          cache := f.cache.push env senderSeq },
        .ok f.cache.nextOffset)

def lookupBySender (f : File) (sender : ReplicaID) (senderSeq : UInt64) : Outcome LogEntry :=
  f.cache.lookupBySender sender senderSeq

def range (f : File) (lo hi : ℕ) : Outcome (List LogEntry) := f.cache.range lo hi

def firstOffset (f : File) : ℕ := f.cache.firstOffset

def nextOffset (f : File) : ℕ := f.cache.nextOffset

/-- The new first offset reaches the sidecar before the cache drops what is below it. -/
def truncate (f : File) (below : ℕ) : File × Outcome Unit :=
  if f.cache.closed then (f, .error .closed)
  else if below ≤ f.cache.firstOffset then (f, .ok ())
  else
    let below := if f.cache.nextOffset < below then f.cache.nextOffset else below
    ({ f with
        dir := { f.dir with sidecar := some (putLE 8 below) }
        cache := f.cache.dropBelow below },
      .ok ())

def close (f : File) : File := { f with cache := f.cache.close }

/-- Close the log and open it again in the same directory for the same conversation. -/
def reopen (C : LogCodec) (f : File) : File × Outcome Unit :=
  match openFile C f.close.dir f.convID with
  | .error e => (f.close, .error e)
  | .ok g => (g, .ok ())

def perform (C : LogCodec) (f : File) : LogOp → File × LogResult
  | .append env seq => ((f.append C env seq).1, .appended (f.append C env seq).2)
  | .lookupBySender sender seq => (f, .found (f.lookupBySender sender seq))
  | .range lo hi => (f, .listed (f.range lo hi))
  | .firstOffset => (f, .offset f.firstOffset)
  | .nextOffset => (f, .offset f.nextOffset)
  | .truncate below => ((f.truncate below).1, .done (f.truncate below).2)
  | .reopen => ((f.reopen C).1, .done (f.reopen C).2)

theorem openFile_empty (C : LogCodec) (conv : ConversationID) :
    openFile C ⟨[], none⟩ conv = .ok (create C conv) := rfl

end File
end Comlink
