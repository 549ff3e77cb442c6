import Comlink.KvStore
import Comlink.PeerAddresses

/-!
# Convergence of the key-value store

What a list of messages leaves in a store is decided key by key, by the last of the commands
with the greatest tag. Commands with one tag come from one sender, in the order of its
sequence numbers and of the positions in a batch. So two replicas that apply the messages of
each sender in sequence hold the same entries, in whatever order the senders alternate.
-/
namespace Comlink

/-- The message without the offset, which every replica gives it on its own. -/
def Message.unplaced (msg : Message) : Message := { msg with offset := 0 }

namespace Store
open GreatestTag
open Cluster (replicaOf)

variable {U : BatchDecoder} {seq : MessageID → ℕ} {ms ms' : List Message}

/-- A command that sets or deletes its key, with its place in a batch. -/
structure Write where
  id : MessageID
  wave : ℕ
  sender : ReplicaID
  pos : ℕ
  cmd : Command
  deriving DecidableEq

namespace Write

def entry (w : Write) : Entry := w.cmd.entry w.wave (senderArr w.sender)

def tag (w : Write) : ℕ ×ₗ ReplicaID := toLex (w.wave, w.sender)

/-- The place among the writes of one sender. -/
def rank (seq : MessageID → ℕ) (w : Write) : ℕ ×ₗ ℕ := toLex (seq w.id, w.pos)

theorem tag_entry {w : Write} (h : w.sender.length = Cluster.idLen) : w.entry.tag = w.tag := by
  rw [entry, Command.tag_entry, senderArr_eq h, tag]

end Write

def commands (U : BatchDecoder) (msg : Message) : List Command := (U msg.payload).getD []

/-- The writes of a message whose commands from the position `n` on are the given ones. -/
def writesFrom (msg : Message) (n : ℕ) (cmds : List Command) : List Write :=
  ((cmds.zipIdx n).filter fun p => p.1.Writes).map fun p => ⟨msg.id, msg.wave, msg.sender, p.2, p.1⟩

def writesOf (U : BatchDecoder) (msg : Message) : List Write := writesFrom msg 0 (commands U msg)

/-- All writes to a key, in the order in which a store meets them. -/
def writesTo (U : BatchDecoder) (ms : List Message) (key : String) : List Write :=
  (ms.flatMap (writesOf U)).filter fun w => w.cmd.key = key

/-- The messages of each sender come in the order of their sequence numbers. -/
def Fifo (seq : MessageID → ℕ) (ms : List Message) : Prop :=
  ms.Pairwise fun a b => a.sender = b.sender → seq a.id < seq b.id

instance (seq : MessageID → ℕ) (ms : List Message) : Decidable (Fifo seq ms) :=
  inferInstanceAs (Decidable (List.Pairwise _ _))

section Data

theorem writesFrom_cons (msg : Message) (n : ℕ) (c : Command) (cmds : List Command) :
    writesFrom msg n (c :: cmds) = (if c.Writes then
      [⟨msg.id, msg.wave, msg.sender, n, c⟩] else []) ++ writesFrom msg (n + 1) cmds := by
  by_cases h : c.Writes <;> simp [writesFrom, List.zipIdx_cons, h]

theorem mem_writesFrom {msg : Message} {n : ℕ} {cmds : List Command} {w : Write}
    (h : w ∈ writesFrom msg n cmds) : w.id = msg.id ∧ w.wave = msg.wave ∧
      w.sender = msg.sender ∧ n ≤ w.pos ∧ w.cmd ∈ cmds ∧ w.cmd.Writes := by
  induction cmds generalizing n with
  | nil => cases h
  | cons c cmds ih =>
    rw [writesFrom_cons, List.mem_append] at h
    rcases h with h | h
    · by_cases hw : c.Writes
      · rw [if_pos hw, List.mem_singleton] at h
        subst h
        simp [hw]
      · rw [if_neg hw] at h
        cases h
    · obtain ⟨hid, hwave, hsender, hpos, hmem, hw⟩ := ih h
      exact ⟨hid, hwave, hsender, by omega, List.mem_cons_of_mem _ hmem, hw⟩

theorem data_foldl_applyCommand (msg : Message) (cmds : List Command) (st : Scratch) (n : ℕ) :
    (cmds.foldl (applyCommand msg.wave (senderArr msg.sender)) st).1 =
      (writesFrom msg n cmds).foldl (fun m w => put Entry.tag m w.cmd.key w.entry) st.1 := by
  induction cmds generalizing st n with
  | nil => rfl
  | cons c cmds ih =>
    rw [List.foldl_cons, ih _ (n + 1), writesFrom_cons, List.foldl_append, data_applyCommand]
    by_cases h : c.Writes <;> simp [h, Write.entry]

theorem writesFrom_of_all_ack (msg : Message) (n : ℕ) {cmds : List Command}
    (h : (cmds.all fun c => c.op = .ack) = true) : writesFrom msg n cmds = [] := by
  rw [List.all_eq_true] at h
  refine List.eq_nil_iff_forall_not_mem.mpr fun w hw => ?_
  obtain ⟨-, -, -, -, hmem, hset | hdel⟩ := mem_writesFrom hw
  · simpa [hset] using h w.cmd hmem
  · simpa [hdel] using h w.cmd hmem

@[simp] theorem data_noteWave (s : Store) (msg : Message) : (s.noteWave msg).data = s.data := by
  unfold noteWave
  split <;> rfl

theorem data_applyBatch (s : Store) (msg : Message) (cmds : List Command) :
    (s.applyBatch msg cmds).data =
      (writesFrom msg 0 cmds).foldl (fun m w => put Entry.tag m w.cmd.key w.entry) s.data := by
  unfold applyBatch
  by_cases h : (cmds.all fun c => c.op = .ack) = true
  · rw [if_pos h, writesFrom_of_all_ack msg 0 h]
    rfl
  · rw [if_neg h]
    exact data_foldl_applyCommand msg cmds (s.data, []) 0

theorem data_apply (U : BatchDecoder) (s : Store) (msg : Message) : (s.apply U msg).data =
    (writesOf U msg).foldl (fun m w => put Entry.tag m w.cmd.key w.entry) s.data := by
  unfold apply writesOf commands
  cases U msg.payload with
  | none => rfl
  | some cmds =>
    cases cmds with
    | nil => rfl
    | cons c cmds => exact (data_applyBatch _ msg (c :: cmds)).trans (by rw [data_noteWave]; rfl)

theorem data_run (U : BatchDecoder) (ms : List Message) (s : Store) :
    (ms.foldl (apply U) s).data =
      (ms.flatMap (writesOf U)).foldl (fun m w => put Entry.tag m w.cmd.key w.entry) s.data := by
  induction ms generalizing s with
  | nil => rfl
  | cons msg ms ih => rw [List.foldl_cons, ih, data_apply, List.flatMap_cons, List.foldl_append]

/-- A store holds at every key the last of the writes with the greatest tag. -/
theorem data_new (U : BatchDecoder) (ms : List Message) (self : ReplicaID) (ack : Bool)
    (key : String) : (ms.foldl (apply U) (new self ack)).data key =
      (survivor (fun w => w.entry.tag) (writesTo U ms key)).map Write.entry := by
  rw [data_run]
  exact foldl_put_empty (fun w : Write => w.cmd.key) Write.entry _ key

end Data

section Order

theorem pos_writesFrom (msg : Message) (n : ℕ) (cmds : List Command) :
    (writesFrom msg n cmds).Pairwise fun a b => a.pos < b.pos := by
  induction cmds generalizing n with
  | nil => exact List.Pairwise.nil
  | cons c cmds ih =>
    rw [writesFrom_cons, List.pairwise_append]
    refine ⟨?_, ih (n + 1), ?_⟩
    · by_cases h : c.Writes <;> simp [h]
    · intro a ha b hb
      have hpos := (mem_writesFrom hb).2.2.2.1
      by_cases h : c.Writes
      · rw [if_pos h, List.mem_singleton] at ha
        subst ha
        exact hpos
      · rw [if_neg h] at ha
        cases ha

theorem exists_message {key : String} {w : Write} (h : w ∈ writesTo U ms key) :
    ∃ msg ∈ ms, w.id = msg.id ∧ w.wave = msg.wave ∧ w.sender = msg.sender ∧ w.cmd.key = key := by
  obtain ⟨hmem, hkey⟩ := List.mem_filter.mp h
  obtain ⟨msg, hmsg, hw⟩ := List.mem_flatMap.mp hmem
  obtain ⟨hid, hwave, hsender, -⟩ := mem_writesFrom hw
  exact ⟨msg, hmsg, hid, hwave, hsender, by simpa using hkey⟩

/-- Writes with one tag come from one sender, whose messages are in sequence. -/
theorem Fifo.inRankOrder (h : Fifo seq ms) (hlen : ∀ m ∈ ms, m.sender.length = Cluster.idLen)
    (key : String) :
    InRankOrder (fun w : Write => w.entry.tag) (Write.rank seq) (writesTo U ms key) := by
  refine List.Pairwise.filter _ (List.pairwise_flatMap.mpr ⟨?_, ?_⟩)
  · intro msg _
    refine (pos_writesFrom msg 0 _).imp_of_mem fun {a b} ha hb hpos _ => ?_
    rw [Write.rank, Write.rank, (mem_writesFrom ha).1, (mem_writesFrom hb).1,
      Prod.Lex.toLex_lt_toLex]
    exact Or.inr ⟨rfl, hpos⟩
  · refine List.Pairwise.imp_of_mem (fun {m m'} hm hm' hseq a ha b hb htag => ?_) h
    obtain ⟨hid, -, hsender, -⟩ := mem_writesFrom ha
    obtain ⟨hid', -, hsender', -⟩ := mem_writesFrom hb
    have htag' : a.tag = b.tag := calc
      a.tag = a.entry.tag := (Write.tag_entry (hsender ▸ hlen m hm)).symm
      _ = b.entry.tag := htag
      _ = b.tag := Write.tag_entry (hsender' ▸ hlen m' hm')
    have heq : a.sender = b.sender := congrArg (fun t => (ofLex t).2) htag'
    rw [Write.rank, Write.rank, Prod.Lex.toLex_lt_toLex, hid, hid']
    exact Or.inl (hseq (by rw [← hsender, ← hsender', heq]))

theorem writesTo_unplaced (U : BatchDecoder) (ms : List Message) (key : String) :
    writesTo U (ms.map Message.unplaced) key = writesTo U ms key := by
  rw [writesTo, List.flatMap_map]
  rfl

end Order

/-- Two replicas that have applied the same messages, those of each sender in sequence, hold
the same entries. The entry of a key is that of the last command on it, by sequence number
and position, among those with the greatest wave and sender. -/
theorem stores_converge (hsame : (ms.map Message.unplaced).Perm (ms'.map Message.unplaced))
    (hfifo : Fifo seq ms) (hfifo' : Fifo seq ms')
    (hlen : ∀ m ∈ ms, m.sender.length = Cluster.idLen) (self self' : ReplicaID)
    (ack ack' : Bool) :
    (ms.foldl (apply U) (new self ack)).data = (ms'.foldl (apply U) (new self' ack')).data ∧
      ∀ key e, (ms.foldl (apply U) (new self ack)).data key = some e ↔
        ∃ w ∈ writesTo U ms key, w.entry = e ∧ ∀ w' ∈ writesTo U ms key, w' ≠ w →
          w'.tag < w.tag ∨ (w'.tag = w.tag ∧ w'.rank seq < w.rank seq) := by
  have hlen' : ∀ m ∈ ms', m.sender.length = Cluster.idLen := by
    intro m hm
    obtain ⟨m₀, hm₀, he⟩ := List.mem_map.mp (hsame.mem_iff.mpr (List.mem_map_of_mem hm))
    have hsender : m₀.unplaced.sender = m.unplaced.sender := congrArg Message.sender he
    exact (congrArg List.length hsender).symm.trans (hlen m₀ hm₀)
  constructor
  · funext key
    have hperm : (writesTo U ms key).Perm (writesTo U ms' key) := by
      rw [← writesTo_unplaced U ms, ← writesTo_unplaced U ms']
      exact (hsame.flatMap_right (writesOf U)).filter _
    rw [data_new, data_new,
      survivor_perm hperm (hfifo.inRankOrder hlen key) (hfifo'.inRankOrder hlen' key)]
  · intro key e
    rw [data_new, Option.map_eq_some_iff]
    have htag : ∀ w ∈ writesTo U ms key, w.entry.tag = w.tag := by
      intro w hw
      obtain ⟨msg, hmsg, -, -, hsender, -⟩ := exists_message hw
      exact Write.tag_entry (hsender ▸ hlen msg hmsg)
    refine exists_congr fun w => ?_
    rw [survivor_eq_some_iff_greatest (hfifo.inRankOrder hlen key), Greatest, and_assoc,
      and_comm (b := w.entry = e)]
    refine and_congr_right fun hw => and_congr_right fun _ => forall₃_congr fun w' hw' _ => ?_
    rw [htag w hw, htag w' hw']

/-- One command for each byte, all on one key. -/
def byteCommands : BatchDecoder := fun bytes => some (bytes.map fun b =>
  if b = 0 then ⟨.delete, "k", ""⟩ else if b = 1 then ⟨.set, "k", "old"⟩
  else if b = 2 then ⟨.set, "k", "new"⟩ else ⟨.ack, "", ""⟩)

/-- A message of a replica of two, with the wave five whatever its own sequence number. -/
def waveFive (sender : UInt8) (seq : ℕ) (payload : List UInt8) (offset : ℕ) : Message :=
  ⟨⟨none, some (replicaOf sender), [5, seq]⟩, payload, replicaOf sender, offset, 5⟩

/-- Two messages of one replica share a tag, and one of another arrives in between. -/
theorem stores_converge_sharedTag :
    ([waveFive 2 1 [1, 0] 1, waveFive 1 3 [1] 2, waveFive 2 2 [0, 2] 3].foldl
        (apply byteCommands) (new (replicaOf 1) true)).data =
      ([waveFive 1 3 [1] 1, waveFive 2 1 [1, 0] 2, waveFive 2 2 [0, 2] 3].foldl
        (apply byteCommands) (new (replicaOf 2) false)).data ∧
      ([waveFive 2 1 [1, 0] 1, waveFive 1 3 [1] 2, waveFive 2 2 [0, 2] 3].foldl
        (apply byteCommands) (new (replicaOf 1) true)).data "k" =
          some ⟨"new", 5, replicaOf 2, false⟩ :=
  ⟨(@stores_converge byteCommands (fun id => id.vectorClock.atSlot 1)
      [waveFive 2 1 [1, 0] 1, waveFive 1 3 [1] 2, waveFive 2 2 [0, 2] 3]
      [waveFive 1 3 [1] 1, waveFive 2 1 [1, 0] 2, waveFive 2 2 [0, 2] 3]
      (List.Perm.swap _ _ _) (by decide +kernel) (by decide +kernel) (by decide +kernel)
      (replicaOf 1) (replicaOf 2) true false).1,
    by decide +kernel⟩

end Store

end Comlink
