import Comlink.ClusterMembers
import Comlink.FileLog

/-!
# The member store on a storage that fails

`cluster_members.go` with the storage below it. The store changes the list in memory first
and then writes it out, and takes nothing back when the write fails. So the list in memory
and the one that the next process reads agree as long as no write fails that changes the
list. A failed `Put` leaves the stored value as it was.
-/
namespace Comlink

/-- The wire form of `PersistedMembership`. -/
structure MemberCodec where
  marshal : List ClusterMember → List UInt8
  unmarshal : List UInt8 → Option (List ClusterMember)
  unmarshal_marshal : ∀ members, unmarshal (marshal members) = some members

namespace UnaryBytes

def putMember (m : ClusterMember) : List UInt8 :=
  putOption (some m.id) ++
    (putNat m.addr.toList.length ++ (m.addr.toList.map Char.toNat).flatMap putNat)

def getMember (bs : List UInt8) : Option (ClusterMember × List UInt8) :=
  (getOption bs).bind fun id => (getNat id.2).bind fun n => (getNats n.1 n.2).map fun chars =>
    (⟨id.1.getD [], String.ofList (chars.1.map Char.ofNat)⟩, chars.2)

def getMembers : ℕ → List UInt8 → Option (List ClusterMember × List UInt8)
  | 0, bs => some ([], bs)
  | n + 1, bs => (getMember bs).bind fun m => (getMembers n m.2).map fun ms => (m.1 :: ms.1, ms.2)

@[simp] theorem getMember_putMember (m : ClusterMember) (rest : List UInt8) :
    getMember (putMember m ++ rest) = some (m, rest) := by
  have hchars := getNats_flatMap (m.addr.toList.map Char.toNat) rest
  rw [List.length_map] at hchars
  simp [getMember, putMember, hchars, Function.comp_def]

theorem getMembers_flatMap (members : List ClusterMember) (rest : List UInt8) :
    getMembers members.length (members.flatMap putMember ++ rest) = some (members, rest) := by
  induction members with
  | nil => rfl
  | cons m members ih => simp [getMembers, ih]

end UnaryBytes

open UnaryBytes in
/-- A small codec with all numbers in unary. -/
def MemberCodec.unary : MemberCodec where
  marshal members := putNat members.length ++ members.flatMap putMember
  unmarshal bs := (getNat bs).bind fun n => (getMembers n.1 n.2).map Prod.fst
  unmarshal_marshal members := by
    have hmembers := getMembers_flatMap members []
    rw [List.append_nil] at hmembers
    simp [hmembers]

/-- A `memberStore`: the value under its key, and the list in memory. -/
structure StoredMembers where
  storage : Option (List UInt8)
  members : List ClusterMember
  deriving DecidableEq, Repr

inductive MemberCall where
  | setAll (members : List ClusterMember)
  | add (replica : ReplicaID) (addr : String)
  | remove (replica : ReplicaID)
  deriving DecidableEq, Repr

/-- A call, and whether the `Put` that it may make fails. -/
structure MemberOp where
  call : MemberCall
  putFails : Bool
  deriving DecidableEq, Repr

/-- The list that a call writes out; nothing is written for an address that is known and
for a replica that is absent. -/
def MemberCall.written (members : List ClusterMember) : MemberCall → Option (List ClusterMember)
  | .setAll list => some list
  | .add r addr =>
    if (members.find? fun m => m.id = r).map ClusterMember.addr = some addr then none
    else some (MemberStore.add members r addr)
  | .remove r =>
    if members.any fun m => m.id = r then some (MemberStore.remove members r) else none

namespace StoredMembers

variable {C : MemberCodec} {s : StoredMembers} {op : MemberOp}

/-- `loadMemberStore`: without a record the list is empty. -/
def load (C : MemberCodec) : Option (List UInt8) → Option (List ClusterMember)
  | none => some []
  | some bytes => C.unmarshal bytes

/-- `persistLocked`, after the list in memory has been replaced. -/
def persistLocked (C : MemberCodec) (s : StoredMembers) (putFails : Bool) :
    StoredMembers × Bool :=
  if putFails then (s, false) else ({ s with storage := some (C.marshal s.members) }, true)

/-- A call with whether it returns without an error. -/
def perform (C : MemberCodec) (s : StoredMembers) (op : MemberOp) : StoredMembers × Bool :=
  match op.call.written s.members with
  | none => (s, true)
  | some list => persistLocked C { s with members := list } op.putFails

/-- The list in memory is the one that would be read back. -/
def Consistent (C : MemberCodec) (s : StoredMembers) : Prop := load C s.storage = some s.members

/-- After the call the two lists agree, and if it has returned an error nothing has
changed. -/
def Atomic (C : MemberCodec) (s : StoredMembers) (op : MemberOp) : Prop :=
  (s.perform C op).1.Consistent C ∧ ((s.perform C op).2 = false → (s.perform C op).1 = s)

/-- The `Put` succeeds, or the list stays the same. -/
def Persists (s : StoredMembers) (op : MemberOp) : Prop :=
  op.putFails = false ∨ (op.call.written s.members).getD s.members = s.members

/-- Something holds of every call of a sequence, in the state in which it is made. -/
def Throughout (C : MemberCodec) (P : StoredMembers → MemberOp → Prop) :
    StoredMembers → List MemberOp → Prop
  | _, [] => True
  | s, op :: ops => P s op ∧ Throughout C P (s.perform C op).1 ops

instance (C : MemberCodec) (s : StoredMembers) : Decidable (s.Consistent C) :=
  inferInstanceAs (Decidable (_ = _))

instance (C : MemberCodec) (s : StoredMembers) (op : MemberOp) : Decidable (s.Atomic C op) :=
  inferInstanceAs (Decidable (_ ∧ (_ → _)))

/-- From a consistent state a call is atomic exactly if its write succeeds or is none. -/
theorem atomic_iff (h : s.Consistent C) : s.Atomic C op ↔ s.Persists op := by
  unfold Atomic Persists perform persistLocked
  cases hw : op.call.written s.members with
  | none => exact iff_of_true ⟨h, nofun⟩ (Or.inr rfl)
  | some list =>
    dsimp only
    cases op.putFails with
    | false => exact iff_of_true ⟨C.unmarshal_marshal list, nofun⟩ (Or.inl rfl)
    | true =>
      simp only [if_true, Option.getD_some, reduceCtorEq, false_or]
      constructor
      · rintro ⟨-, hsame⟩
        exact congrArg members (hsame trivial)
      · rintro rfl
        exact ⟨h, fun _ => rfl⟩

end StoredMembers
end Comlink
