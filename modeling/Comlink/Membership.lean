import Comlink.VectorClock

/-!
# Replica identities and the slot order of a conversation

The participant list of `psync/membership.go`, together with the message
identities of the wire format. Slots are given out in insertion order and never
move; freezing a slot keeps it in place. `SlotOf` reads an index that later
occurrences of the same replica overwrite, hence the last matching slot.
-/
namespace Comlink

/-- Raw bytes of a replica identity; comparison is bytewise lexicographic. -/
abbrev ReplicaID := List UInt8
abbrev ConversationID := List UInt8

-- found without it too, but then each definition that looks a replica up in a list carries a
-- proof of its own, under a name that depends on what else is imported
instance ReplicaID.lawfulBEq : LawfulBEq ReplicaID := inferInstance

/-- A wire message identity. A missing submessage is `none`; getters read a
missing sender as the empty byte string. -/
structure MessageID where
  conversationId : Option ConversationID
  sender : Option ReplicaID
  vectorClock : VectorClock
  deriving DecidableEq, Repr

structure Envelope where
  id : MessageID
  payload : List UInt8
  deriving DecidableEq, Repr

namespace Envelope

/-- `GetId().GetSender().GetValue()`. -/
def sender (e : Envelope) : ReplicaID := e.id.sender.getD []

/-- The wave number `max(vector_clock)`. -/
def wave (e : Envelope) : ℕ := VectorClock.waveOf e.id.vectorClock

end Envelope

/-- The index key `(sender, seq)` by which messages are stored and requested. -/
@[ext] structure Key where
  sender : ReplicaID
  seq : ℕ
  deriving DecidableEq, Repr

structure Slot where
  replica : ReplicaID
  frozen : Bool
  deriving DecidableEq, Repr

structure Membership where
  slots : List Slot
  deriving DecidableEq, Repr

namespace Membership
open ListScans

/-- `NewMembership`: slots in input order, none frozen. -/
def ofReplicas (replicas : List ReplicaID) : Membership := ⟨replicas.map (⟨·, false⟩)⟩

/-- `AllReplicas`: every slot's replica, frozen or not. -/
def allReplicas (m : Membership) : List ReplicaID := m.slots.map Slot.replica

/-- `Replicas`: the active replicas in slot order. -/
def replicas (m : Membership) : List ReplicaID :=
  (m.slots.filter (fun s => !s.frozen)).map Slot.replica

def len (m : Membership) : ℕ := m.allReplicas.length

/-- `SlotOf`, with `none` for the `-1` of an unknown replica. -/
def slotOf (m : Membership) (r : ReplicaID) : Option ℕ := lastIdxOf r m.allReplicas

def isFrozen (m : Membership) (i : ℕ) : Bool := (m.slots[i]?.map Slot.frozen).getD false

/-- `Add`: append a new slot; `none` when the replica is already present. -/
def add (m : Membership) (r : ReplicaID) : Option Membership :=
  match m.slotOf r with
  | some _ => none
  | none => some ⟨m.slots ++ [⟨r, false⟩]⟩

/-- `Freeze`: mark the slot of `r`; `none` when it is unknown or already frozen. -/
def freeze (m : Membership) (r : ReplicaID) : Option Membership :=
  match m.slotOf r with
  | none => none
  | some i => if m.isFrozen i then none else some ⟨m.slots.modify i ({ · with frozen := true })⟩

/-- `SenderSeq`: the sender's own entry of a message identity's clock. -/
def senderSeq (m : Membership) (id : MessageID) : Option ℕ :=
  match m.slotOf (id.sender.getD []) with
  | none => none
  | some slot => if slot < id.vectorClock.length then some (id.vectorClock.atSlot slot) else none

@[simp] theorem allReplicas_ofReplicas (rs : List ReplicaID) :
    (ofReplicas rs).allReplicas = rs := by
  simp [ofReplicas, allReplicas, Function.comp_def]

@[simp] theorem replicas_ofReplicas (rs : List ReplicaID) : (ofReplicas rs).replicas = rs := by
  simp [ofReplicas, replicas, List.filter_map, Function.comp_def]

theorem slotOf_getElem? {m : Membership} {r : ReplicaID} {i : ℕ} (h : m.slotOf r = some i) :
    m.allReplicas[i]? = some r := lastIdxOf_getElem? h

theorem slotOf_isSome_iff {m : Membership} {r : ReplicaID} :
    (∃ i, m.slotOf r = some i) ↔ r ∈ m.allReplicas := lastIdxOf_isSome_iff

theorem allReplicas_freeze {m m' : Membership} {r : ReplicaID} (h : m.freeze r = some m') :
    m'.allReplicas = m.allReplicas := by
  unfold freeze at h
  split at h
  · cases h
  · split at h
    · cases h
    · cases h
      simp only [allReplicas]
      apply List.ext_getElem?
      intro j
      simp only [List.getElem?_map, List.getElem?_modify]
      cases m.slots[j]? with
      | none => rfl
      | some s => split <;> rfl

/-- An active slot was active before the freeze, at the same place. -/
theorem freeze_active {m m' : Membership} {r : ReplicaID} (h : m.freeze r = some m') {i : ℕ}
    {s : Slot} (hs : m'.slots[i]? = some s) (hf : s.frozen = false) : m.slots[i]? = some s := by
  unfold freeze at h
  split at h
  · cases h
  · split at h
    · cases h
    · cases h
      simp only [List.getElem?_modify, Option.map_eq_map, Option.map_eq_some_iff] at hs
      obtain ⟨a, ha, rfl⟩ := hs
      split at hf
      · cases hf
      · rw [if_neg (by assumption)]
        exact ha

theorem freeze_frozen_mono {m m' : Membership} {r : ReplicaID} (h : m.freeze r = some m')
    {s : Slot} (hs : s ∈ m'.slots) (hf : s.frozen = false) : s ∈ m.slots := by
  obtain ⟨i, hi⟩ := List.mem_iff_getElem?.mp hs
  exact List.mem_of_getElem? (freeze_active h hi hf)

theorem add_eq_some {m m' : Membership} {r : ReplicaID} (h : m.add r = some m') :
    m.slotOf r = none ∧ m' = ⟨m.slots ++ [⟨r, false⟩]⟩ := by
  unfold add at h
  split at h
  · cases h
  · rename_i hr
    cases h
    exact ⟨hr, rfl⟩

theorem allReplicas_add {m m' : Membership} {r : ReplicaID} (h : m.add r = some m') :
    m'.allReplicas = m.allReplicas ++ [r] := by
  rw [(add_eq_some h).2]
  simp [allReplicas]

theorem not_mem_of_add {m m' : Membership} {r : ReplicaID} (h : m.add r = some m') :
    r ∉ m.allReplicas := by
  intro hin
  obtain ⟨i, hi⟩ := slotOf_isSome_iff.mpr hin
  rw [(add_eq_some h).1] at hi
  cases hi

theorem nodup_allReplicas_add {m m' : Membership} {r : ReplicaID} (h : m.add r = some m')
    (hn : m.allReplicas.Nodup) : m'.allReplicas.Nodup := by
  rw [allReplicas_add h, List.nodup_append]
  refine ⟨hn, List.nodup_singleton _, ?_⟩
  rintro s hs _ hr rfl
  rw [List.mem_singleton.mp hr] at hs
  exact not_mem_of_add h hs

/-- A failed `Freeze` is only logged, and changes nothing. -/
theorem allReplicas_freeze_getD (m : Membership) (r : ReplicaID) :
    ((m.freeze r).getD m).allReplicas = m.allReplicas := by
  cases hf : m.freeze r with
  | none => rfl
  | some m' => exact allReplicas_freeze hf

/-- A failed `Add` is only logged: the replica keeps the slot that it has. -/
theorem allReplicas_add_getD (m : Membership) (r : ReplicaID) :
    ((m.add r).getD m).allReplicas =
      if r ∈ m.allReplicas then m.allReplicas else m.allReplicas ++ [r] := by
  cases ha : m.add r with
  | none =>
    have hin : r ∈ m.allReplicas := by
      rw [← slotOf_isSome_iff]
      cases hs : m.slotOf r with
      | none => simp [add, hs] at ha
      | some i => exact ⟨i, rfl⟩
    rw [if_pos hin]
    rfl
  | some m' =>
    rw [if_neg (not_mem_of_add ha), Option.getD_some, allReplicas_add ha]

/-- A replica that joins later takes a slot behind all others. -/
theorem slotOf_add {m m' : Membership} {r s : ReplicaID} {i : ℕ} (h : m.add r = some m')
    (hs : m.slotOf s = some i) : m'.slotOf s = some i := by
  have hne : r ≠ s := by
    rintro rfl
    rw [(add_eq_some h).1] at hs
    cases hs
  rw [slotOf, allReplicas_add h, lastIdxOf_concat_ne hne]
  exact hs

/-- The slots of `m` are the first slots of `m'`. -/
structure Grown (m m' : Membership) : Prop where
  slots : m.allReplicas <+: m'.allReplicas
  keeps : ∀ r i, m.slotOf r = some i → m'.slotOf r = some i

theorem Grown.of_eq {m m' : Membership} (h : m'.allReplicas = m.allReplicas) : m.Grown m' := by
  refine ⟨by rw [h], fun r i hr => ?_⟩
  rw [slotOf, h]
  exact hr

theorem grown_add {m m' : Membership} {r : ReplicaID} (h : m.add r = some m') : m.Grown m' := by
  refine ⟨?_, fun s i hs => slotOf_add h hs⟩
  rw [allReplicas_add h]
  exact List.prefix_append _ _

theorem slotOf_add_getD_of_ne (m : Membership) {r s : ReplicaID} (h : s ≠ r) :
    ((m.add r).getD m).slotOf s = m.slotOf s := by
  rw [slotOf, allReplicas_add_getD]
  split
  · rfl
  · exact lastIdxOf_concat_ne h.symm _

/-- Whoever has no slot yet gets the next free one. -/
theorem slotOf_add_getD_self (m : Membership) (r : ReplicaID) :
    ((m.add r).getD m).slotOf r = some ((m.slotOf r).getD m.len) := by
  rw [slotOf, allReplicas_add_getD]
  split
  · rename_i hin
    obtain ⟨i, hi⟩ := slotOf_isSome_iff.mpr hin
    rw [hi]
    exact hi
  · rename_i hout
    have hnone : m.slotOf r = none := by
      rw [← Option.not_isSome_iff_eq_none, Option.isSome_iff_exists]
      exact fun h => hout (slotOf_isSome_iff.mp h)
    rw [lastIdxOf_concat_self, hnone]
    rfl

/-- The key under which a conversation with these slots stores an envelope. -/
def keyOf (m : Membership) (env : Envelope) : Option Key :=
  (m.senderSeq env.id).map fun seq => ⟨env.sender, seq⟩

theorem keyOf_eq_some_iff {m : Membership} {env : Envelope} {k : Key} :
    m.keyOf env = some k ↔ ∃ slot, m.slotOf env.sender = some slot ∧
      slot < env.id.vectorClock.length ∧ ⟨env.sender, env.id.vectorClock.atSlot slot⟩ = k := by
  have hs : env.id.sender.getD [] = env.sender := rfl
  rw [keyOf, senderSeq, hs]
  cases m.slotOf env.sender with
  | none => simp
  | some slot =>
    by_cases hlt : slot < env.id.vectorClock.length
    · simp [hlt]
    · simp [hlt]

end Membership
end Comlink
