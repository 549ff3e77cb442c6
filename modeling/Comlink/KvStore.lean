import Comlink.GreatestTag
import Comlink.Substrate
import Comlink.Watchers
import Mathlib.Data.List.Lex
import Mathlib.Data.Prod.Lex

/-!
# The key-value store

The state machine of `examples/kvstore`. A message carries a batch of commands, and every
command that sets or deletes a key tags its entry with the wave and the sender of the
message. An entry is replaced unless its own tag is greater, and a deleted key leaves a
tombstone behind, which `gcTombstones` drops once every member has been heard of at a
greater wave. `notified` is the history of the events for the watchers.
-/
namespace Comlink

instance byteOrder : LinearOrder UInt8 where
  le_refl := UInt8.le_refl
  le_trans _ _ _ := UInt8.le_trans
  le_antisymm _ _ := UInt8.le_antisymm
  le_total := UInt8.le_total
  lt_iff_le_not_ge a b := by
    simp only [UInt8.le_iff_toNat_le, UInt8.lt_iff_toNat_lt]
    omega
  toDecidableLE := inferInstance
  toDecidableEq := inferInstance
  toDecidableLT := inferInstance

/-- The operation of a command; `other` is every number that the store does not know. -/
inductive Op where
  | set
  | delete
  | ack
  | other
  deriving DecidableEq, Repr

structure Command where
  op : Op
  key : String
  value : String
  deriving DecidableEq, Repr

/-- `proto.Unmarshal` of a `CommandBatch`. -/
abbrev BatchDecoder := List UInt8 → Option (List Command)

structure Entry where
  value : String
  wave : ℕ
  originRep : List UInt8
  deleted : Bool
  deriving DecidableEq, Repr

/-- The sender in an array of sixteen bytes, as `copy` fills it. -/
def senderArr (sender : ReplicaID) : List UInt8 := (sender ++ List.replicate 16 0).take 16

def lww (inc cur : Entry) : Bool :=
  if inc.wave ≠ cur.wave then decide (cur.wave < inc.wave)
  else decide (cur.originRep < inc.originRep)

/-- What `Apply` remembers of a command for the watchers. -/
structure Evt where
  op : Op
  key : String
  val : String
  hadLive : Bool
  applied : Bool
  deriving DecidableEq, Repr

def Evt.event (e : Evt) : Option StoreEvent :=
  if ¬ e.applied then none
  else match e.op with
    | .set => some ⟨.set, e.key, e.val, e.hadLive⟩
    | .delete => if e.hadLive then some ⟨.delete, e.key, "", true⟩ else none
    | _ => none

structure Store where
  self : ReplicaID
  data : String → Option Entry
  peerWaveSeen : ReplicaID → ℕ
  ackPending : Option Bool
  maxOff : ℕ
  notified : List StoreEvent

namespace Store

/-- The entries of the store and the events of the batch so far. -/
abbrev Scratch := (String → Option Entry) × List Evt

/-- `New` without a snapshot; `ack` says whether the proactive acknowledgements are on. -/
def new (self : ReplicaID) (ack : Bool) : Store where
  self := self
  data _ := none
  peerWaveSeen _ := 0
  ackPending := if ack then some false else none
  maxOff := 0
  notified := []

/-- There is an entry, and it is not a tombstone. -/
def hadLive (cur : Option Entry) : Bool := cur.any fun e => ¬ e.deleted

/-- The incoming entry is the first, or has the tag of the present one, or a greater one. -/
def win (cur : Option Entry) (inc : Entry) : Bool :=
  let same := cur.any fun e => e.wave = inc.wave ∧ e.originRep = inc.originRep
  cur.isNone || same || cur.any (lww inc)

/-- The body that `OP_SET` and `OP_DELETE` share. -/
def install (st : Scratch) (op : Op) (key val : String) (inc : Entry) : Scratch :=
  let cur := st.1 key
  if win cur inc then
    (Function.update st.1 key (some inc), st.2 ++ [⟨op, key, val, hadLive cur, true⟩])
  else (st.1, st.2 ++ [⟨op, key, val, hadLive cur, false⟩])

def applyCommand (envWave : ℕ) (origin : List UInt8) (st : Scratch) (c : Command) : Scratch :=
  match c.op with
  | .set => install st .set c.key c.value ⟨c.value, envWave, origin, false⟩
  | .delete => install st .delete c.key "" ⟨"", envWave, origin, true⟩
  | .ack => st
  | .other => st

/-- `Apply` in its first critical section. -/
def noteWave (s : Store) (msg : Message) : Store :=
  if s.peerWaveSeen msg.sender < msg.wave then
    { s with peerWaveSeen := Function.update s.peerWaveSeen msg.sender msg.wave }
  else s

/-- `Apply` from the check for acknowledgements on, with the second critical section. -/
def applyBatch (s : Store) (msg : Message) (cmds : List Command) : Store :=
  if cmds.all fun c => c.op = .ack then s
  else
    let st := cmds.foldl (applyCommand msg.wave (senderArr msg.sender)) (s.data, [])
    { s with
      data := st.1
      ackPending := if msg.sender ≠ s.self then s.ackPending.map fun _ => true else s.ackPending
      maxOff := if msg.offset ≤ s.maxOff then s.maxOff else msg.offset
      notified := s.notified ++ st.2.filterMap Evt.event }

def apply (U : BatchDecoder) (s : Store) (msg : Message) : Store :=
  match U msg.payload with
  | none => s
  | some cmds => if cmds.isEmpty then s else (s.noteWave msg).applyBatch msg cmds

/-- The least wave seen of the members, or nothing if one of them is silent. -/
def safeWave (seen : ReplicaID → ℕ) (least : ℕ) : List ReplicaID → Option ℕ
  | [] => some least
  | m :: ms =>
    if seen m = 0 then none else safeWave seen (if seen m < least then seen m else least) ms

def gcTombstones (s : Store) (members : List ReplicaID) : Store :=
  if members.isEmpty then s
  else match safeWave s.peerWaveSeen (2 ^ 64 - 1) members with
    | none => s
    | some safe =>
      if safe = 0 then s
      else { s with data := fun k => (s.data k).filter fun e => ¬ (e.deleted ∧ e.wave < safe) }

def get (s : Store) (key : String) : Option String :=
  (s.data key).bind fun e => if e.deleted then none else some e.value

end Store

/-- What decides between two entries. -/
def Entry.tag (e : Entry) : ℕ ×ₗ List UInt8 := toLex (e.wave, e.originRep)

theorem lww_iff {inc cur : Entry} : lww inc cur = true ↔ cur.tag < inc.tag := by
  rw [lww, Entry.tag, Entry.tag, Prod.Lex.toLex_lt_toLex]
  by_cases h : inc.wave = cur.wave
  · simp [h]
  · simp [h, Ne.symm h]

theorem tag_eq_iff {a b : Entry} : a.tag = b.tag ↔ a.wave = b.wave ∧ a.originRep = b.originRep := by
  rw [Entry.tag, Entry.tag, toLex_inj, Prod.mk.injEq]

theorem senderArr_eq {sender : ReplicaID} (h : sender.length = 16) : senderArr sender = sender := by
  rw [senderArr, ← h, List.take_left]

/-- The entry that a command writes under the tag of its message. -/
def Command.entry (c : Command) (envWave : ℕ) (origin : List UInt8) : Entry :=
  match c.op with
  | .delete => ⟨"", envWave, origin, true⟩
  | _ => ⟨c.value, envWave, origin, false⟩

/-- The command sets or deletes its key. -/
def Command.Writes (c : Command) : Prop := c.op = .set ∨ c.op = .delete

instance (c : Command) : Decidable c.Writes := inferInstanceAs (Decidable (_ ∨ _))

@[simp] theorem Command.tag_entry (c : Command) (envWave : ℕ) (origin : List UInt8) :
    (c.entry envWave origin).tag = toLex (envWave, origin) := by
  unfold entry
  split <;> rfl

/-- The value that a reader sees of an entry. -/
def Entry.live (e : Entry) : Option String := if e.deleted then none else some e.value

namespace Store

open GreatestTag

theorem get_eq (s : Store) (key : String) : s.get key = (s.data key).bind Entry.live := rfl

theorem win_some {cur inc : Entry} : win (some cur) inc = true ↔ ¬ inc.tag < cur.tag := by
  rw [not_lt, le_iff_eq_or_lt, tag_eq_iff, ← lww_iff]
  simp [win]

/-- An entry is installed unless the present one has a greater tag. -/
theorem install_eq (st : Scratch) (op : Op) (key val : String) (inc : Entry) :
    install st op key val inc = (put Entry.tag st.1 key inc,
      st.2 ++ [⟨op, key, val, hadLive (st.1 key), win (st.1 key) inc⟩]) := by
  have hkeep : put Entry.tag st.1 key inc =
      if win (st.1 key) inc then Function.update st.1 key (some inc) else st.1 := by
    unfold put
    cases hcur : st.1 key with
    | none => rfl
    | some cur =>
      have hself : Function.update st.1 key (some cur) = st.1 := by
        rw [← hcur, Function.update_eq_self]
      by_cases h : inc.tag < cur.tag
      · simp [keep, h, win_some, hself]
      · simp [keep, h, win_some]
  unfold install
  cases h : win (st.1 key) inc <;> simp [hkeep, h]

theorem data_applyCommand (envWave : ℕ) (origin : List UInt8) (st : Scratch) (c : Command) :
    (applyCommand envWave origin st c).1 =
      if c.Writes then put Entry.tag st.1 c.key (c.entry envWave origin) else st.1 := by
  unfold applyCommand
  cases h : c.op with
  | set => simp [install_eq, Command.Writes, Command.entry, h]
  | delete => simp [install_eq, Command.Writes, Command.entry, h]
  | ack => simp [Command.Writes, h]
  | other => simp [Command.Writes, h]

end Store

end Comlink
