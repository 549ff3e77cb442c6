import Comlink.Membership
import Mathlib.Data.List.Dedup
import Mathlib.Data.List.Sort

/-!
# The context graph of a conversation

The directed acyclic graph of `psync/graph.go`. The source keeps the nodes in two
maps, by `(sender, seq)` and by wave; both are views of the one list of nodes in
insertion order kept here. A parent pointer is the key of the parent, which the
graph holds at most once. `Insert` derives the parents of an envelope from its
vector clock and refuses the envelope while one of them is missing.
-/
namespace Comlink

structure Node where
  envelope : Envelope
  senderSeq : ℕ
  senderSlot : ℕ
  wave : ℕ
  parents : List Key
  deriving DecidableEq, Repr

def Node.key (n : Node) : Key := ⟨n.envelope.sender, n.senderSeq⟩

structure Graph where
  nodes : List Node
  deriving DecidableEq, Repr

inductive MalformedVector where
  | nilSender
  | slotNotInVector (slot length : ℕ)
  | ownSlotZero
  | futureEraWithoutPredecessor
  deriving DecidableEq, Repr

inductive InsertError where
  | malformedVector (why : MalformedVector)
  | unknownSender (sender : ReplicaID)
  | alreadyPresent (existing : Node)
  | missingParents (missing : List Key)
  deriving DecidableEq, Repr

namespace Graph
open ListScans VectorClock

def empty : Graph := ⟨[]⟩

def lookup (g : Graph) (k : Key) : Option Node := g.nodes.find? (fun n => n.key = k)

def has (g : Graph) (k : Key) : Bool := (g.lookup k).isSome

def messagesInWave (g : Graph) (w : ℕ) : List Node := g.nodes.filter (fun n => n.wave = w)

/-- `Waves`: the wave numbers present, in ascending order. -/
def waves (g : Graph) : List ℕ := ((g.nodes.map Node.wave).dedup).insertionSort (· ≤ ·)

/-- The nodes that no later message cites as a parent. -/
def leaves (g : Graph) : List Node :=
  g.nodes.filter (fun n => g.nodes.all (fun child => n.key ∉ child.parents))

def latestSeq (g : Graph) (sender : ReplicaID) : ℕ :=
  runningMax ((g.nodes.filter (fun n => n.envelope.sender = sender)).map Node.senderSeq)

/-- The sequence number that a message of slot `senderSlot` requires of slot `i`. -/
def requiredSeq (senderSlot senderSeq : ℕ) (vc : VectorClock) (i : ℕ) : Option ℕ :=
  if i = senderSlot then
    if senderSeq ≤ 1 then none else some (senderSeq - 1)
  else
    if vc.atSlot i = 0 then none else some (vc.atSlot i)

def requiredParents (m : Membership) (senderSlot senderSeq : ℕ) (vc : VectorClock) : List Key :=
  m.allReplicas.zipIdx.filterMap fun p =>
    (requiredSeq senderSlot senderSeq vc p.2).map fun q => ⟨p.1, q⟩

/-- The parents that an envelope's clock names in a conversation with these slots. -/
def derivedParents (m : Membership) (env : Envelope) : List Key :=
  match m.slotOf env.sender with
  | none => []
  | some slot => requiredParents m slot (env.id.vectorClock.atSlot slot) env.id.vectorClock

def insert (g : Graph) (m : Membership) (env : Envelope) : Except InsertError (Graph × Node) :=
  match env.id.sender with
  | none => .error (.malformedVector .nilSender)
  | some sender =>
    match m.slotOf sender with
    | none => .error (.unknownSender sender)
    | some slot =>
      let vc := env.id.vectorClock
      if vc.length ≤ slot then
        .error (.malformedVector (.slotNotInVector slot vc.length))
      else if vc.atSlot slot = 0 then
        .error (.malformedVector .ownSlotZero)
      else
        let seq := vc.atSlot slot
        match g.lookup ⟨sender, seq⟩ with
        | some existing => .error (.alreadyPresent existing)
        | none =>
          if m.len < vc.length then
            if seq ≤ 1 then .error (.malformedVector .futureEraWithoutPredecessor)
            else .error (.missingParents [⟨sender, seq - 1⟩])
          else
            let required := requiredParents m slot seq vc
            match required.filter (fun k => !g.has k) with
            | [] => .ok (⟨g.nodes ++ [⟨env, seq, slot, waveOf vc, required⟩]⟩,
                ⟨env, seq, slot, waveOf vc, required⟩)
            | missing => .error (.missingParents missing)

/-- The newest message of `r` in the graph, if it has sent any. -/
def latestNode (g : Graph) (r : ReplicaID) : Option Node :=
  if g.latestSeq r = 0 then none else g.lookup ⟨r, g.latestSeq r⟩

/-- `currentView`: the componentwise maximum over the latest message of each slot. -/
def currentView (g : Graph) (m : Membership) : VectorClock :=
  m.allReplicas.foldl (fun out r =>
      match g.latestNode r with
      | none => out
      | some n => out.max n.envelope.id.vectorClock)
    (List.replicate m.len 0)

theorem mem_of_lookup {g : Graph} {k : Key} {n : Node} (h : g.lookup k = some n) :
    n ∈ g.nodes ∧ n.key = k :=
  ⟨List.mem_of_find?_eq_some h, by simpa using List.find?_some h⟩

theorem has_iff {g : Graph} {k : Key} : g.has k = true ↔ ∃ n ∈ g.nodes, n.key = k := by
  simp [has, lookup, List.find?_isSome]

theorem lookup_eq_none_iff {g : Graph} {k : Key} :
    g.lookup k = none ↔ ∀ n ∈ g.nodes, n.key ≠ k := by
  simp [lookup]

theorem mem_messagesInWave {g : Graph} {w : ℕ} {n : Node} :
    n ∈ g.messagesInWave w ↔ n ∈ g.nodes ∧ n.wave = w := by simp [messagesInWave]

theorem mem_waves {g : Graph} {w : ℕ} : w ∈ g.waves ↔ ∃ n ∈ g.nodes, n.wave = w := by
  simp [waves]

theorem le_latestSeq {g : Graph} {n : Node} (h : n ∈ g.nodes) :
    n.senderSeq ≤ g.latestSeq n.envelope.sender :=
  le_runningMax (List.mem_map_of_mem (List.mem_filter.mpr ⟨h, by simp⟩))

theorem latestNode_eq_some {g : Graph} {r : ReplicaID} {n : Node}
    (h : g.latestNode r = some n) :
    n ∈ g.nodes ∧ n.envelope.sender = r ∧ n.senderSeq = g.latestSeq r := by
  unfold latestNode at h
  split at h
  · cases h
  · obtain ⟨hm, hk⟩ := mem_of_lookup h
    exact ⟨hm, congrArg Key.sender hk, congrArg Key.seq hk⟩

theorem exists_latestNode {g : Graph} {r : ReplicaID} (h : g.latestSeq r ≠ 0) :
    ∃ n, g.latestNode r = some n := by
  obtain ⟨n, hn, he⟩ := List.mem_map.mp (runningMax_mem h)
  obtain ⟨hmem, hs⟩ := List.mem_filter.mp hn
  have hk : n.key = ⟨r, g.latestSeq r⟩ := Key.ext (by simpa [Node.key] using hs) he
  have hh : g.has ⟨r, g.latestSeq r⟩ = true := has_iff.mpr ⟨n, hmem, hk⟩
  rw [latestNode, if_neg h]
  exact Option.isSome_iff_exists.mp hh

theorem mem_requiredParents {m : Membership} {slot seq : ℕ} {vc : VectorClock} {k : Key} :
    k ∈ requiredParents m slot seq vc ↔
      ∃ i, m.allReplicas[i]? = some k.sender ∧ requiredSeq slot seq vc i = some k.seq := by
  simp only [requiredParents, List.mem_filterMap, Prod.exists, Option.map_eq_some_iff,
    List.mem_zipIdx_iff_getElem?]
  constructor
  · rintro ⟨r, i, hr, q, hq, rfl⟩
    exact ⟨i, hr, hq⟩
  · rintro ⟨i, hr, hq⟩
    exact ⟨k.sender, i, hr, k.seq, hq, rfl⟩

/-- What `Insert` records about an envelope it accepts. -/
structure WellDerived (m : Membership) (n : Node) : Prop where
  sender : n.envelope.id.sender = some n.envelope.sender
  slot : m.slotOf n.envelope.sender = some n.senderSlot
  slot_lt : n.senderSlot < n.envelope.id.vectorClock.length
  seq : n.envelope.id.vectorClock.atSlot n.senderSlot = n.senderSeq
  seq_pos : 0 < n.senderSeq
  length_le : n.envelope.id.vectorClock.length ≤ m.len
  wave : n.wave = n.envelope.wave
  parents : n.parents = requiredParents m n.senderSlot n.senderSeq n.envelope.id.vectorClock

theorem WellDerived.senderSeq {m : Membership} {n : Node} (h : WellDerived m n) :
    m.senderSeq n.envelope.id = some n.senderSeq := by
  have hs : n.envelope.id.sender.getD [] = n.envelope.sender := rfl
  rw [Membership.senderSeq, hs, h.slot]
  exact (if_pos h.slot_lt).trans (congrArg some h.seq)

theorem WellDerived.keyOf {m : Membership} {n : Node} (h : WellDerived m n) :
    m.keyOf n.envelope = some n.key := by
  rw [Membership.keyOf, h.senderSeq]
  rfl

theorem WellDerived.derivedParents {m : Membership} {n : Node} (h : WellDerived m n) :
    derivedParents m n.envelope = n.parents := by
  rw [Graph.derivedParents, h.slot, h.parents]
  dsimp only
  rw [h.seq]

/-- A node is determined by its envelope. -/
theorem WellDerived.eq {m : Membership} {a b : Node} (ha : WellDerived m a)
    (hb : WellDerived m b) (he : a.envelope = b.envelope) : a = b := by
  have hslot : a.senderSlot = b.senderSlot := by
    have hs := ha.slot
    rw [he, hb.slot] at hs
    exact (Option.some.inj hs).symm
  have hseq : a.senderSeq = b.senderSeq := by rw [← ha.seq, ← hb.seq, he, hslot]
  have hwave : a.wave = b.wave := by rw [ha.wave, hb.wave, he]
  have hparents : a.parents = b.parents := by rw [ha.parents, hb.parents, he, hslot, hseq]
  cases a
  cases b
  simp_all

/-- What `Insert` returns: a refusal for good, the parents that are missing (for a clock of
a later era the sender's preceding message, whether or not it is absent), or the new node. -/
inductive Inserted (g : Graph) (m : Membership) (env : Envelope) :
    Except InsertError (Graph × Node) → Prop
  | refused {err : InsertError} (hne : ∀ missing, err ≠ .missingParents missing) :
      Inserted g m env (.error err)
  | laterEra {slot : ℕ} (hsender : env.id.sender = some env.sender)
      (hslot : m.slotOf env.sender = some slot) (hlt : slot < env.id.vectorClock.length)
      (hera : m.len < env.id.vectorClock.length) (hseq : 1 < env.id.vectorClock.atSlot slot) :
      Inserted g m env
        (.error (.missingParents [⟨env.sender, env.id.vectorClock.atSlot slot - 1⟩]))
  | missing {slot : ℕ} {missing : List Key} (hsender : env.id.sender = some env.sender)
      (hslot : m.slotOf env.sender = some slot) (hlt : slot < env.id.vectorClock.length)
      (hlen : env.id.vectorClock.length ≤ m.len) (hne : missing ≠ [])
      (hm : missing = (derivedParents m env).filter fun k => !g.has k) :
      Inserted g m env (.error (.missingParents missing))
  | ok {n : Node} (henv : n.envelope = env) (hd : WellDerived m n) (hnew : g.lookup n.key = none)
      (hparents : n.parents.filter (fun k => !g.has k) = []) :
      Inserted g m env (.ok (⟨g.nodes ++ [n]⟩, n))

theorem inserted (g : Graph) (m : Membership) (env : Envelope) :
    Inserted g m env (g.insert m env) := by
  unfold insert
  split
  · exact .refused (by simp)
  · rename_i sender hsender
    obtain rfl : env.sender = sender := by simp [Envelope.sender, hsender]
    split
    · exact .refused (by simp)
    · rename_i slot hslot
      dsimp only
      by_cases hlen : env.id.vectorClock.length ≤ slot
      · rw [if_pos hlen]
        exact .refused (by simp)
      by_cases hzero : env.id.vectorClock.atSlot slot = 0
      · rw [if_neg hlen, if_pos hzero]
        exact .refused (by simp)
      have hlt : slot < env.id.vectorClock.length := Nat.lt_of_not_le hlen
      rw [if_neg hlen, if_neg hzero]
      split
      · exact .refused (by simp)
      · rename_i hnew
        by_cases hera : m.len < env.id.vectorClock.length
        · rw [if_pos hera]
          split
          · exact .refused (by simp)
          · exact .laterEra hsender hslot hlt hera (by omega)
        · rw [if_neg hera]
          have hle : env.id.vectorClock.length ≤ m.len := Nat.le_of_not_lt hera
          split
          · rename_i hmissing
            exact .ok rfl ⟨hsender, hslot, hlt, rfl, Nat.pos_of_ne_zero hzero, hle, rfl, rfl⟩ hnew
              hmissing
          · rename_i hne
            refine .missing hsender hslot hlt hle hne ?_
            rw [derivedParents, hslot]

theorem insert_ok {g g' : Graph} {m : Membership} {env : Envelope} {n : Node}
    (h : g.insert m env = .ok (g', n)) :
    g' = ⟨g.nodes ++ [n]⟩ ∧ n.envelope = env ∧ WellDerived m n ∧
      g.lookup n.key = none ∧ ∀ k ∈ n.parents, g.has k = true := by
  have hi := inserted g m env
  rw [h] at hi
  cases hi with
  | ok henv hd hnew hparents =>
    exact ⟨rfl, henv, hd, hnew, by simpa [List.filter_eq_nil_iff] using hparents⟩

theorem insert_missing {g : Graph} {m : Membership} {env : Envelope} {missing : List Key}
    (h : g.insert m env = .error (.missingParents missing)) :
    ∃ slot, env.id.sender = some env.sender ∧ m.slotOf env.sender = some slot ∧
      slot < env.id.vectorClock.length ∧
      (m.len < env.id.vectorClock.length ∧ 1 < env.id.vectorClock.atSlot slot ∧
          missing = [⟨env.sender, env.id.vectorClock.atSlot slot - 1⟩] ∨
        env.id.vectorClock.length ≤ m.len ∧ missing ≠ [] ∧
          missing = (derivedParents m env).filter (fun k => !g.has k)) := by
  have hi := inserted g m env
  rw [h] at hi
  cases hi with
  | refused hne => exact absurd rfl (hne missing)
  | laterEra hsender hslot hlt hera hseq =>
    exact ⟨_, hsender, hslot, hlt, Or.inl ⟨hera, hseq, rfl⟩⟩
  | missing hsender hslot hlt hlen hne hm =>
    exact ⟨_, hsender, hslot, hlt, Or.inr ⟨hlen, hne, hm⟩⟩

theorem missing_ne_nil {g : Graph} {m : Membership} {env : Envelope} {missing : List Key}
    (h : g.insert m env = .error (.missingParents missing)) : missing ≠ [] := by
  obtain ⟨_, _, _, _, ⟨_, _, rfl⟩ | ⟨_, hne, _⟩⟩ := insert_missing h
  · exact List.cons_ne_nil _ _
  · exact hne

/-- An envelope of a known sender whose parents are present is accepted. -/
theorem insert_eq_ok {g : Graph} {m : Membership} {env : Envelope} {sender : ReplicaID}
    {slot : ℕ} (hsender : env.id.sender = some sender) (hslot : m.slotOf sender = some slot)
    (hlt : slot < env.id.vectorClock.length) (hpos : env.id.vectorClock.atSlot slot ≠ 0)
    (hlen : env.id.vectorClock.length ≤ m.len)
    (hnew : g.lookup ⟨sender, env.id.vectorClock.atSlot slot⟩ = none)
    (hparents : ∀ k ∈ requiredParents m slot (env.id.vectorClock.atSlot slot)
      env.id.vectorClock, g.has k = true) :
    ∃ g' n, g.insert m env = .ok (g', n) := by
  have hmissing : (requiredParents m slot (env.id.vectorClock.atSlot slot)
      env.id.vectorClock).filter (fun k => !g.has k) = [] := by
    rw [List.filter_eq_nil_iff]
    intro k hk
    simp [hparents k hk]
  simp only [insert, hsender, hslot, if_neg (Nat.not_le.mpr hlt), if_neg hpos, hnew,
    if_neg (Nat.not_lt.mpr hlen), hmissing]
  exact ⟨_, _, rfl⟩

end Graph
end Comlink
