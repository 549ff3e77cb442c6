import Comlink.MessageLog
import Mathlib.Data.List.Range

/-!
# The memory log

`log/memory.go`, whose shape the cache of `log/file.go` shares: the readable entries with
their offsets, the first of these offsets, and an index from a key to the offset of its
last entry. Both log types are driven by the same operations; a read outside the slice of
entries would panic.

The cache of a `MessageLog` is what both types hold after the same operations, so that the
log seen by a conversation is the specification of either.
-/
namespace Comlink
open ListScans

/-- What a wrapped `ErrCorrupt` reports. -/
inductive Corruption where
  | noSender
  | metaLength (n : ℕ)
  | readMagic
  | badMagic
  | readConvIDLength
  | readConvID
  | parseConvID
  | crcMismatch (offset : ℕ)
  | parseEnvelope (offset : ℕ)
  deriving DecidableEq, Repr

inductive LogError where
  | notFound
  | conversationMismatch
  | closed
  | corrupt (detail : Corruption)
  deriving DecidableEq, Repr

inductive Outcome (α : Type) where
  | ok (a : α)
  | error (e : LogError)
  | panic
  deriving DecidableEq, Repr

structure LogEntry where
  offset : ℕ
  envelope : Envelope
  deriving DecidableEq, Repr

structure LogCache where
  entries : List LogEntry
  firstOffset : ℕ
  index : Key → Option ℕ
  closed : Bool

namespace LogCache

def fresh (firstOffset : ℕ) : LogCache := ⟨[], firstOffset, fun _ => none, false⟩

def nextOffset (c : LogCache) : ℕ := c.firstOffset + c.entries.length

/-- The last lines of `Append`, which enter the envelope at the next offset. -/
def push (c : LogCache) (env : Envelope) (senderSeq : UInt64) : LogCache :=
  { c with
    entries := c.entries ++ [⟨c.nextOffset, env⟩]
    index := Function.update c.index ⟨env.sender, senderSeq.toNat⟩ (some c.nextOffset) }

def lookupBySender (c : LogCache) (sender : ReplicaID) (senderSeq : UInt64) :
    Outcome LogEntry :=
  if c.closed then .error .closed
  else match c.index ⟨sender, senderSeq.toNat⟩ with
    | none => .error .notFound
    | some off =>
      if off < c.firstOffset then .error .notFound
      else match c.entries[off - c.firstOffset]? with
        | none => .panic
        | some e => .ok e

/-- The snapshot that `Range` takes of `[lo, hi)`, cut to the readable offsets. -/
def range (c : LogCache) (lo hi : ℕ) : Outcome (List LogEntry) :=
  if c.closed then .error .closed
  else
    let lo := if lo < c.firstOffset then c.firstOffset else lo
    let hi := if c.nextOffset < hi then c.nextOffset else hi
    match (List.range' lo (hi - lo)).mapM fun i => c.entries[i - c.firstOffset]? with
    | none => .panic
    | some snapshot => .ok snapshot

/-- The last lines of `Truncate`, with the bound already cut to the next offset. -/
def dropBelow (c : LogCache) (below : ℕ) : LogCache :=
  { c with
    entries := c.entries.drop (below - c.firstOffset)
    index := fun k => (c.index k).filter fun off => below ≤ off
    firstOffset := below }

def close (c : LogCache) : LogCache :=
  { c with entries := [], index := fun _ => none, closed := true }

end LogCache

structure Memory where
  cache : LogCache

/-- An operation of a `MessageLog`, or the close and reopen of a durable one. -/
inductive LogOp where
  | append (env : Envelope) (senderSeq : UInt64)
  | lookupBySender (sender : ReplicaID) (senderSeq : UInt64)
  | range (lo hi : ℕ)
  | firstOffset
  | nextOffset
  | truncate (below : ℕ)
  | reopen
  deriving DecidableEq, Repr

inductive LogResult where
  | appended (r : Outcome ℕ)
  | found (r : Outcome LogEntry)
  | listed (r : Outcome (List LogEntry))
  | offset (n : ℕ)
  | done (r : Outcome Unit)
  deriving DecidableEq, Repr

/-- The entries that a result holds, or nothing after a panic. -/
def LogResult.entries : LogResult → Option (List LogEntry)
  | .appended .panic | .found .panic | .listed .panic | .done .panic => none
  | .found (.ok e) => some [e]
  | .listed (.ok es) => some es
  | _ => some []

/-- Perform operations one after the other and collect their results. -/
def LogOp.run {σ : Type} (perform : σ → LogOp → σ × LogResult) :
    σ → List LogOp → σ × List LogResult
  | s, [] => (s, [])
  | s, op :: ops =>
    let r := perform s op
    let rest := run perform r.1 ops
    (rest.1, r.2 :: rest.2)

/-- The envelopes that the operations append, in order. -/
def LogOp.appends : List LogOp → List Envelope
  | [] => []
  | .append env _ :: ops =>
    if env.id.sender.isSome then env :: appends ops else appends ops
  | _ :: ops => appends ops

namespace Memory

def new : Memory := ⟨.fresh 0⟩

def append (m : Memory) (env : Envelope) (senderSeq : UInt64) : Memory × Outcome ℕ :=
  match env.id.sender with
  | none => (m, .error (.corrupt .noSender))
  | some _ =>
    if m.cache.closed then (m, .error .closed)
    else (⟨m.cache.push env senderSeq⟩, .ok m.cache.nextOffset)

def lookupBySender (m : Memory) (sender : ReplicaID) (senderSeq : UInt64) : Outcome LogEntry :=
  m.cache.lookupBySender sender senderSeq

def range (m : Memory) (lo hi : ℕ) : Outcome (List LogEntry) := m.cache.range lo hi

def firstOffset (m : Memory) : ℕ := m.cache.firstOffset

def nextOffset (m : Memory) : ℕ := m.cache.nextOffset

def truncate (m : Memory) (below : ℕ) : Memory × Outcome Unit :=
  if m.cache.closed then (m, .error .closed)
  else if below ≤ m.cache.firstOffset then (m, .ok ())
  else
    let below := if m.cache.nextOffset < below then m.cache.nextOffset else below
    (⟨m.cache.dropBelow below⟩, .ok ())

/-- A memory log is not durable, hence stays open where a file is reopened. -/
def perform (m : Memory) : LogOp → Memory × LogResult
  | .append env seq => ((m.append env seq).1, .appended (m.append env seq).2)
  | .lookupBySender sender seq => (m, .found (m.lookupBySender sender seq))
  | .range lo hi => (m, .listed (m.range lo hi))
  | .firstOffset => (m, .offset m.firstOffset)
  | .nextOffset => (m, .offset m.nextOffset)
  | .truncate below => ((m.truncate below).1, .done (m.truncate below).2)
  | .reopen => (m, .done (.ok ()))

end Memory

namespace LogCache

/-- The frames from the beginning of a log as entries at their offsets. -/
def numbered (frames : List LogFrame) : List LogEntry :=
  frames.zipIdx.map fun x => ⟨x.2, x.1.envelope⟩

/-- The cache of these frames: the readable entries, and for every key the offset of its
last frame if that is readable. -/
def ofFrames (firstOffset : ℕ) (frames : List LogFrame) : LogCache where
  entries := (numbered frames).drop firstOffset
  firstOffset := firstOffset
  index k := (lastIdxOf k (frames.map LogFrame.key)).filter fun off => firstOffset ≤ off
  closed := false

variable {first : ℕ} {frames : List LogFrame}

@[simp] theorem length_numbered : (numbered frames).length = frames.length := by simp [numbered]

theorem getElem?_numbered (i : ℕ) :
    (numbered frames)[i]? = frames[i]?.map fun f => ⟨i, f.envelope⟩ := by
  simp [numbered, List.getElem?_zipIdx, Function.comp_def]

theorem numbered_concat (f : LogFrame) :
    numbered (frames ++ [f]) = numbered frames ++ [⟨frames.length, f.envelope⟩] := by
  simp [numbered, List.zipIdx_append]

theorem ofFrames_nil : ofFrames first [] = fresh first := by
  simp [ofFrames, fresh, numbered, lastIdxOf]

/-- A frame below the first offset is not cached. -/
theorem ofFrames_concat_of_lt (h : frames.length < first) (f : LogFrame) :
    ofFrames first (frames ++ [f]) = ofFrames first frames := by
  simp only [ofFrames, mk.injEq, and_true, true_and]
  constructor
  · have hlen : (numbered (frames ++ [f])).length ≤ first := by
      rw [length_numbered, List.length_append]
      exact h
    rw [List.drop_eq_nil_of_le hlen, List.drop_eq_nil_of_le (by simpa using h.le)]
  · funext k
    rw [List.map_append, List.map_singleton]
    by_cases hk : f.key = k
    · rw [hk, lastIdxOf_concat_self, List.length_map,
        Option.filter_some_neg (by simpa using h)]
      cases hlast : lastIdxOf k (frames.map LogFrame.key) with
      | none => rfl
      | some i =>
        have hi := (List.getElem?_eq_some_iff.mp (lastIdxOf_getElem? hlast)).1
        rw [List.length_map] at hi
        rw [Option.filter_some_neg (by simpa using hi.trans h)]
    · rw [lastIdxOf_concat_ne hk]

/-- Any other frame is entered at its offset. -/
theorem ofFrames_concat_of_le (h : first ≤ frames.length) (f : LogFrame) :
    ofFrames first (frames ++ [f]) = { ofFrames first frames with
      entries := (ofFrames first frames).entries ++ [⟨frames.length, f.envelope⟩]
      index := Function.update (ofFrames first frames).index f.key (some frames.length) } := by
  simp only [ofFrames, numbered_concat, mk.injEq, and_true, true_and]
  constructor
  · rw [List.drop_append_of_le_length (by simpa using h)]
  · funext k
    rw [List.map_append, List.map_singleton]
    by_cases hk : k = f.key
    · rw [hk, Function.update_self, lastIdxOf_concat_self, List.length_map,
        Option.filter_some_pos (by simpa using h)]
    · rw [Function.update_of_ne hk, lastIdxOf_concat_ne (Ne.symm hk)]

end LogCache

namespace MessageLog
open LogCache

variable {l l' : MessageLog} {env : Envelope} {seq : UInt64}

def toCache (l : MessageLog) : LogCache := .ofFrames l.firstOffset l.frames

@[simp] theorem nextOffset_toCache (l : MessageLog) : l.toCache.nextOffset = l.nextOffset := by
  have hle := l.firstOffset_le
  simp only [LogCache.nextOffset, toCache, ofFrames, List.length_drop, length_numbered, nextOffset]
  omega

theorem toCache_append (h : l.append env seq.toNat = some l') :
    l.toCache.push env seq = l'.toCache := by
  obtain ⟨hframes, hfirst⟩ := frames_append h
  rw [LogCache.push, nextOffset_toCache, toCache, toCache, hframes, hfirst,
    ofFrames_concat_of_le l.firstOffset_le]
  rfl

/-- Cutting the bound to the next offset is what the cut of `truncate` does. -/
theorem toCache_truncate {below : ℕ} (h : l.firstOffset < below) :
    l.toCache.dropBelow (if l.nextOffset < below then l.nextOffset else below) =
      (l.truncate below).toCache := by
  have hcut : (if l.nextOffset < below then l.nextOffset else below) =
      min below l.frames.length := by
    rw [nextOffset]
    split <;> omega
  have hle := l.firstOffset_le
  rw [hcut, truncate, if_neg (by omega)]
  simp only [LogCache.dropBelow, toCache, ofFrames, List.drop_drop, LogCache.mk.injEq, true_and,
    and_true]
  constructor
  · congr 1
    omega
  · funext k
    rw [Option.filter_filter]
    congr 1
    funext off
    rw [← Bool.decide_and]
    refine decide_eq_decide.mpr ⟨fun h => h.2, fun h' => ⟨?_, h'⟩⟩
    omega

/-- What a lookup reports of a frame that was found or not. -/
def lookupResult : Option (ℕ × Envelope) → Outcome LogEntry
  | none => .error .notFound
  | some found => .ok ⟨found.1, found.2⟩

/-- An offset of the index is one of the readable entries. -/
theorem lookupBySender_toCache (l : MessageLog) (sender : ReplicaID) (seq : UInt64) :
    l.toCache.lookupBySender sender seq = lookupResult (l.lookupBySender ⟨sender, seq.toNat⟩) := by
  rw [LogCache.lookupBySender, if_neg (by simp [toCache, ofFrames]), MessageLog.lookupBySender]
  cases hlast : lastIdxOf ⟨sender, seq.toNat⟩ (l.frames.map LogFrame.key) with
  | none => simp [toCache, ofFrames, hlast, lookupResult]
  | some off =>
    by_cases hoff : off < l.firstOffset
    · have hindex : l.toCache.index ⟨sender, seq.toNat⟩ = none := by
        simp [toCache, ofFrames, hlast, hoff]
      rw [hindex]
      simp [hoff, lookupResult]
    · have hindex : l.toCache.index ⟨sender, seq.toNat⟩ = some off := by
        simp [toCache, ofFrames, hlast, Nat.le_of_not_lt hoff]
      have hframe := lastIdxOf_getElem? hlast
      rw [List.getElem?_map] at hframe
      obtain ⟨f, hf, -⟩ := Option.map_eq_some_iff.mp hframe
      have hentry : l.toCache.entries[off - l.firstOffset]? = some ⟨off, f.envelope⟩ := by
        rw [toCache, ofFrames, List.getElem?_drop, Nat.add_sub_cancel' (Nat.le_of_not_lt hoff),
          getElem?_numbered, hf]
        rfl
      have hfirst : l.toCache.firstOffset = l.firstOffset := rfl
      rw [hindex]
      simp only [hfirst, if_neg hoff, hentry, hf, Option.map_some, lookupResult]

/-- The readable entries at the offsets in `[lo, hi)`. -/
def listing (l : MessageLog) (lo hi : ℕ) : List LogEntry :=
  ((numbered l.frames).take hi).drop (max lo l.firstOffset)

/-- The loop of `Range` over offsets within the slice copies a part of it. -/
theorem mapM_range'_getElem? {α : Type} {xs : List α} {first lo n : ℕ} (hlo : first ≤ lo)
    (hn : n = 0 ∨ lo + n ≤ first + xs.length) :
    (List.range' lo n).mapM (fun i => xs[i - first]?) =
      some ((xs.drop (lo - first)).take n) := by
  induction n generalizing lo with
  | zero => simp
  | succ n ih =>
    have hlt : lo - first < xs.length := by omega
    have hrest := @ih (lo + 1) (by omega) (by omega)
    rw [List.range'_succ, List.mapM_cons, hrest, List.getElem?_eq_getElem hlt,
      List.drop_eq_getElem_cons hlt, List.take_succ_cons, Nat.sub_add_comm hlo]
    rfl

theorem range_toCache (l : MessageLog) (lo hi : ℕ) :
    l.toCache.range lo hi = .ok (l.listing lo hi) := by
  have hle := l.firstOffset_le
  have hlo : (if lo < l.firstOffset then l.firstOffset else lo) = max lo l.firstOffset := by
    split <;> omega
  have hhi : (if l.nextOffset < hi then l.nextOffset else hi) = min hi l.frames.length := by
    rw [nextOffset]
    split <;> omega
  have hfirst : l.toCache.firstOffset = l.firstOffset := rfl
  have hlen : l.toCache.entries.length = l.frames.length - l.firstOffset := by
    simp [toCache, ofFrames]
  have hloop : (List.range' (max lo l.firstOffset)
      (min hi l.frames.length - max lo l.firstOffset)).mapM
        (fun i => l.toCache.entries[i - l.firstOffset]?) = some ((l.toCache.entries.drop
          (max lo l.firstOffset - l.firstOffset)).take
            (min hi l.frames.length - max lo l.firstOffset)) :=
    mapM_range'_getElem? (Nat.le_max_right _ _) (by omega)
  have hpart : (l.toCache.entries.drop (max lo l.firstOffset - l.firstOffset)).take
      (min hi l.frames.length - max lo l.firstOffset) = l.listing lo hi := by
    rw [toCache, ofFrames, List.drop_drop, Nat.add_sub_cancel' (Nat.le_max_right _ _),
      ← List.drop_take, listing, ← @length_numbered l.frames, ← List.take_eq_take_min]
  rw [LogCache.range, if_neg (by simp [toCache, ofFrames])]
  simp only [nextOffset_toCache, hfirst, hlo, hhi, hloop, hpart]

/-- The operations on a log of frames. -/
def perform (l : MessageLog) : LogOp → MessageLog × LogResult
  | .append env seq => match l.append env seq.toNat with
    | none => (l, .appended (.error (.corrupt .noSender)))
    | some l' => (l', .appended (.ok l.nextOffset))
  | .lookupBySender sender seq =>
    (l, .found (lookupResult (l.lookupBySender ⟨sender, seq.toNat⟩)))
  | .range lo hi => (l, .listed (.ok (l.listing lo hi)))
  | .firstOffset => (l, .offset l.firstOffset)
  | .nextOffset => (l, .offset l.nextOffset)
  | .truncate below => (l.truncate below, .done (.ok ()))
  | .reopen => (l, .done (.ok ()))

theorem append_eq_none_iff {q : ℕ} : l.append env q = none ↔ env.id.sender = none := by
  rw [append]
  cases env.id.sender <;> simp

theorem append_of_sender {r : ReplicaID} (h : env.id.sender = some r) (l : MessageLog) (q : ℕ) :
    ∃ l', l.append env q = some l' := by
  rw [append, h]
  exact ⟨_, rfl⟩

theorem frames_perform (l : MessageLog) (op : LogOp) :
    (l.perform op).1.frames.map LogFrame.envelope =
      l.frames.map LogFrame.envelope ++ LogOp.appends [op] := by
  cases op with
  | append env seq =>
    cases hs : env.id.sender with
    | none =>
      have hnone := append_eq_none_iff (l := l) (q := seq.toNat).mpr hs
      simp [perform, hnone, LogOp.appends, hs]
    | some sender =>
      obtain ⟨l', hl'⟩ := append_of_sender hs l seq.toNat
      simp [perform, hl', LogOp.appends, hs, (frames_append hl').1]
  | truncate below => simp [perform, LogOp.appends]
  | _ => simp [perform, LogOp.appends]

/-- An entry that a log returns is the frame at its offset. -/
theorem entries_perform (l : MessageLog) (op : LogOp) : ∃ es, (l.perform op).2.entries = some es ∧
    ∀ e ∈ es, l.frames[e.offset]?.map LogFrame.envelope = some e.envelope := by
  cases op with
  | append env seq =>
    rw [perform]
    split <;> exact ⟨[], rfl, nofun⟩
  | lookupBySender sender seq =>
    cases hl : l.lookupBySender ⟨sender, seq.toNat⟩ with
    | none => exact ⟨[], by simp [perform, hl, lookupResult, LogResult.entries], nofun⟩
    | some found =>
      refine ⟨[⟨found.1, found.2⟩], by simp [perform, hl, lookupResult, LogResult.entries], ?_⟩
      obtain ⟨f, hf, he, -, -⟩ := mem_of_lookupBySender hl
      simp [hf, he]
  | range lo hi =>
    refine ⟨l.listing lo hi, rfl, ?_⟩
    intro e he
    have hmem : e ∈ numbered l.frames := List.mem_of_mem_take (List.mem_of_mem_drop he)
    obtain ⟨i, hi⟩ := List.mem_iff_getElem?.mp hmem
    rw [getElem?_numbered] at hi
    obtain ⟨f, hf, rfl⟩ := Option.map_eq_some_iff.mp hi
    simp [hf]
  | firstOffset => exact ⟨[], rfl, nofun⟩
  | nextOffset => exact ⟨[], rfl, nofun⟩
  | truncate below => exact ⟨[], rfl, nofun⟩
  | reopen => exact ⟨[], rfl, nofun⟩

end MessageLog

/-- A memory log over the cache of a log of frames acts as that log. -/
theorem Memory.perform_toCache (l : MessageLog) (op : LogOp) :
    Memory.perform ⟨l.toCache⟩ op = (⟨(l.perform op).1.toCache⟩, (l.perform op).2) := by
  have hopen : l.toCache.closed = false := rfl
  cases op with
  | append env seq =>
    cases hs : env.id.sender with
    | none =>
      have hnone := MessageLog.append_eq_none_iff (l := l) (q := seq.toNat).mpr hs
      simp [Memory.perform, Memory.append, MessageLog.perform, hs, hnone]
    | some sender =>
      obtain ⟨l', hl'⟩ := MessageLog.append_of_sender hs l seq.toNat
      simp [Memory.perform, Memory.append, MessageLog.perform, hs, hl', hopen,
        MessageLog.toCache_append hl']
  | lookupBySender sender seq =>
    simp [Memory.perform, Memory.lookupBySender, MessageLog.perform,
      MessageLog.lookupBySender_toCache]
  | range lo hi => simp [Memory.perform, Memory.range, MessageLog.perform, MessageLog.range_toCache]
  | firstOffset => rfl
  | nextOffset => simp [Memory.perform, Memory.nextOffset, MessageLog.perform]
  | truncate below =>
    have hfirst : l.toCache.firstOffset = l.firstOffset := rfl
    by_cases hb : below ≤ l.firstOffset
    · simp [Memory.perform, Memory.truncate, MessageLog.perform, hopen, hfirst, hb,
        MessageLog.truncate]
    · simp only [Memory.perform, Memory.truncate, MessageLog.perform, hopen, hfirst, hb, if_false,
        MessageLog.nextOffset_toCache, Bool.false_eq_true,
        MessageLog.toCache_truncate (Nat.lt_of_not_le hb)]
  | reopen => rfl

end Comlink
