import Comlink.TombstoneSweeps

/-!
# Snapshots and restarts of the key-value store

`Apply` notes the wave of its message and changes the entries in two critical sections, and
raises `maxOff` after both. A snapshot may be taken between any two of these, and then holds a
message that its offset does not cover. After a restart the substrate replays the log from its
start and passes over what the restored snapshot covers. So the store meets two kinds of message
a second time: the one that a snapshot caught halfway, and the one at offset zero, which counts
as covered by nothing. Neither changes what the store answers, unless tombstones have been swept
that the message at offset zero is below.
-/
namespace Comlink

/-! ### Registers that meet a write again -/

namespace GreatestTag

variable {β T : Type} [LinearOrder T] {tag : β → T} {t : T} {bs post : List β}
  {cur : Option β}

theorem foldl_keep_of_lt (h : ∀ b ∈ bs, tag b = t) {a : β} (ha : t < tag a) :
    bs.foldl (keep tag) (some a) = some a := by
  induction bs with
  | nil => rfl
  | cons b bs ih =>
    obtain ⟨hb, hbs⟩ := List.forall_mem_cons.mp h
    rw [List.foldl_cons, keep, hb, if_pos ha]
    exact ih hbs

theorem foldl_keep_of_not_lt (h : ∀ b ∈ bs, tag b = t) (hne : bs ≠ [])
    (hcur : ∀ a, cur = some a → ¬ t < tag a) : bs.foldl (keep tag) cur = bs.getLast? := by
  induction bs generalizing cur with
  | nil => exact absurd rfl hne
  | cons b bs ih =>
    obtain ⟨hb, hbs⟩ := List.forall_mem_cons.mp h
    have hkeep : keep tag cur b = some b := by
      cases cur with
      | none => rfl
      | some a => rw [keep, hb, if_neg (hcur a rfl)]
    rw [List.foldl_cons, hkeep]
    cases bs with
    | nil => rfl
    | cons c cs =>
      rw [List.getLast?_cons_cons]
      apply ih hbs (List.cons_ne_nil c cs)
      intro a ha
      cases ha
      rw [hb]
      exact lt_irrefl t

/-- The register holds the last of the writes, or a value above all of them. -/
def Settled (tag : β → T) (t : T) (bs : List β) (cur : Option β) : Prop :=
  cur = bs.getLast? ∨ ∃ a, cur = some a ∧ t < tag a

theorem settled_foldl (h : ∀ b ∈ bs, tag b = t) (hne : bs ≠ []) (cur : Option β) :
    Settled tag t bs (bs.foldl (keep tag) cur) := by
  by_cases hcur : ∃ a, cur = some a ∧ t < tag a
  · obtain ⟨a, rfl, ha⟩ := hcur
    exact Or.inr ⟨a, foldl_keep_of_lt h ha, ha⟩
  · exact Or.inl (foldl_keep_of_not_lt h hne fun a ha hlt => hcur ⟨a, ha, hlt⟩)

theorem Settled.keep (hs : Settled tag t bs cur) (h : ∀ b ∈ bs, tag b = t) (hne : bs ≠ [])
    {c : β} (hc : tag c ≠ t) : Settled tag t bs (keep tag cur c) := by
  obtain ⟨a, rfl, ha⟩ : ∃ a, cur = some a ∧ t ≤ tag a := by
    rcases hs with rfl | ⟨a, rfl, ha⟩
    · refine ⟨bs.getLast hne, List.getLast?_eq_some_getLast hne, ?_⟩
      rw [h _ (List.getLast_mem hne)]
    · exact ⟨a, rfl, ha.le⟩
  rw [GreatestTag.keep]
  split
  · exact hs
  · rename_i hlt
    exact Or.inr ⟨c, rfl, lt_of_le_of_ne (ha.trans (not_lt.mp hlt)) (Ne.symm hc)⟩

theorem Settled.foldl (hs : Settled tag t bs cur) (h : ∀ b ∈ bs, tag b = t) (hne : bs ≠ [])
    (hpost : ∀ c ∈ post, tag c ≠ t) : Settled tag t bs (post.foldl (GreatestTag.keep tag) cur) := by
  induction post generalizing cur with
  | nil => exact hs
  | cons c post ih =>
    obtain ⟨hc, hpost⟩ := List.forall_mem_cons.mp hpost
    exact ih (hs.keep h hne hc) hpost

theorem Settled.again (hs : Settled tag t bs cur) (h : ∀ b ∈ bs, tag b = t) (hne : bs ≠ []) :
    bs.foldl (GreatestTag.keep tag) cur = cur := by
  rcases hs with rfl | ⟨a, rfl, ha⟩
  · apply foldl_keep_of_not_lt h hne
    intro a ha
    rw [h a (List.mem_of_getLast? ha)]
    exact lt_irrefl t
  · exact foldl_keep_of_lt h ha

/-- Writes with a tag of their own change nothing when they come again. -/
theorem foldl_keep_again (h : ∀ b ∈ bs, tag b = t) (hpost : ∀ c ∈ post, tag c ≠ t)
    (cur : Option β) :
    bs.foldl (keep tag) (post.foldl (keep tag) (bs.foldl (keep tag) cur)) =
      post.foldl (keep tag) (bs.foldl (keep tag) cur) := by
  by_cases hne : bs = []
  · subst hne
    rfl
  · exact ((settled_foldl h hne cur).foldl h hne hpost).again h hne

end GreatestTag

open GuardedRuns GreatestTag

/-- What decides between the writes of two messages. -/
def Message.tag (msg : Message) : ℕ ×ₗ List UInt8 := toLex (msg.wave, senderArr msg.sender)

structure KvSnapshot where
  data : String → Option Entry
  throughOffset : ℕ

namespace Store

variable {U : BatchDecoder} {s : Store} {msg : Message} {own : ReplicaID} {ack : Bool}

def snapshot (s : Store) : KvSnapshot := ⟨s.data, s.maxOff⟩

/-- `Restore` in a new store. -/
def restore (own : ReplicaID) (ack : Bool) (p : KvSnapshot) : Store :=
  { new own ack with
    data := fun key => (p.data key).map fun e => { e with originRep := senderArr e.originRep }
    maxOff := p.throughOffset }

/-- The message does more than to acknowledge, so that `Apply` gets to the entries. -/
def counts (U : BatchDecoder) (msg : Message) : Bool :=
  !(commands U msg).all fun c => c.op = .ack

theorem tag_of_writesTo {ms : List Message} {key : String} {w : Write}
    (h : w ∈ writesTo U ms key) : ∃ m ∈ ms, w.entry.tag = m.tag := by
  obtain ⟨m, hm, -, hwave, hsender, -⟩ := exists_message h
  refine ⟨m, hm, ?_⟩
  rw [Write.entry, Command.tag_entry, hwave, hsender]
  rfl

theorem data_run_at (U : BatchDecoder) (ms : List Message) (s : Store) (key : String) :
    (ms.foldl (apply U) s).data key =
      ((writesTo U ms key).map Write.entry).foldl (keep Entry.tag) (s.data key) := by
  rw [data_run, foldl_put]
  rfl

theorem writesTo_append (U : BatchDecoder) (ms ms' : List Message) (key : String) :
    writesTo U (ms ++ ms') key = writesTo U ms key ++ writesTo U ms' key := by
  simp [writesTo]

/-- A message that is met again changes nothing while no other message since had its tag. -/
theorem data_apply_again (pre : List Message) {post : List Message}
    (h : ∀ m ∈ post, m.tag ≠ msg.tag) (s : Store) :
    (((pre ++ msg :: post).foldl (apply U) s).apply U msg).data =
      ((pre ++ msg :: post).foldl (apply U) s).data := by
  have hone : ∀ (u : Store), u.apply U msg = [msg].foldl (apply U) u := fun _ => rfl
  funext key
  rw [hone, data_run_at, data_run_at, ← List.singleton_append, writesTo_append, writesTo_append,
    List.map_append, List.map_append, List.foldl_append, List.foldl_append]
  apply foldl_keep_again (t := msg.tag)
  · intro e he
    obtain ⟨w, hw, rfl⟩ := List.mem_map.mp he
    obtain ⟨m, hm, htag⟩ := tag_of_writesTo hw
    rw [htag, List.mem_singleton.mp hm]
  · intro e he
    obtain ⟨w, hw, rfl⟩ := List.mem_map.mp he
    obtain ⟨m, hm, htag⟩ := tag_of_writesTo hw
    rw [htag]
    exact h m hm

/-- Every entry carries sixteen bytes of its sender. -/
theorem length_originRep {ms : List Message} {key : String} {e : Entry}
    (h : (ms.foldl (apply U) (new own ack)).data key = some e) :
    e.originRep.length = Cluster.idLen := by
  rw [data_new] at h
  obtain ⟨w, -, rfl⟩ := Option.map_eq_some_iff.mp h
  have hlen : (senderArr w.sender).length = Cluster.idLen := by simp [senderArr, Cluster.idLen]
  unfold Write.entry Command.entry
  split <;> exact hlen

theorem lacks_applyBatch {old : Entry → Prop} {d : String → Option Entry}
    (h : Lacks old s.data d) (hold : ∀ e, old e → e.wave < msg.wave) (cmds : List Command) :
    Lacks old (s.applyBatch msg cmds).data ({ s with data := d }.applyBatch msg cmds).data := by
  obtain ⟨d', heq, hd⟩ := Lags.applyBatch (t := { s with data := d }) ⟨s.data, rfl, h⟩ hold cmds
  rw [heq]
  exact hd

/-- The change of the entries alone is what the whole of `Apply` leaves of them. -/
theorem data_applyBatch_eq {cmds : List Command} (hU : U msg.payload = some cmds)
    (t : Store) (hd : s.data = t.data) : (s.applyBatch msg cmds).data = (t.apply U msg).data := by
  rw [data_applyBatch, data_apply, hd, writesOf, commands, hU]
  rfl

end Store

/-! ### Runs -/

/-- How far `Apply` is with the message at hand. -/
inductive ApplyPhase where
  | idle
  | changing (msg : Message) (cmds : List Command)
  | raising (offset : ℕ)

/-- A store under a log, with the last snapshot that was written. -/
structure KvRun where
  store : Store
  /-- How many messages of the log are behind it since the last restart. -/
  pos : ℕ
  phase : ApplyPhase
  /-- What the snapshot of the last restart covers. -/
  through : ℕ
  saved : KvSnapshot

inductive KvRunAction where
  | receive
  | change
  | raise
  | snapshot
  | sweep (members : List ReplicaID)
  | restart

namespace KvRun

def start (own : ReplicaID) (ack : Bool) : KvRun :=
  ⟨.new own ack, 0, .idle, 0, ⟨fun _ => none, 0⟩⟩

/-- The substrate passes over a message; zero is no offset. -/
def Covers (through offset : ℕ) : Prop := offset ≠ 0 ∧ offset ≤ through

instance (through offset : ℕ) : Decidable (Covers through offset) :=
  inferInstanceAs (Decidable (_ ∧ _))

/-- The next message up to the end of the first critical section of `Apply`. -/
def receive (U : BatchDecoder) (r : KvRun) (msg : Message) : KvRun :=
  if Covers r.through msg.offset then { r with pos := r.pos + 1 }
  else match U msg.payload with
    | none => { r with pos := r.pos + 1 }
    | some cmds =>
      if cmds.isEmpty then { r with pos := r.pos + 1 }
      else if cmds.all fun c => c.op = .ack then
        { r with store := r.store.noteWave msg, pos := r.pos + 1 }
      else { r with store := r.store.noteWave msg, phase := .changing msg cmds }

def step (U : BatchDecoder) (ms : List Message) (own : ReplicaID) (ack : Bool)
    (r : KvRun) : KvRunAction → Option KvRun
  | .receive => match r.phase with
    | .idle => ms[r.pos]?.map (r.receive U)
    | _ => none
  | .change => match r.phase with
    | .changing msg cmds => some
      { r with
        store := { r.store.applyBatch msg cmds with maxOff := r.store.maxOff }
        pos := r.pos + 1
        phase := .raising msg.offset }
    | _ => none
  | .raise => match r.phase with
    | .raising offset => some
      { r with
        store := { r.store with
          maxOff := if offset ≤ r.store.maxOff then r.store.maxOff else offset }
        phase := .idle }
    | _ => none
  | .snapshot => some { r with saved := r.store.snapshot }
  | .sweep members => some { r with store := r.store.gcTombstones members }
  | .restart => some
    { r with
      store := .restore own ack r.saved
      pos := 0
      phase := .idle
      through := r.saved.throughOffset }

section Effects

variable {U : BatchDecoder} {ms : List Message} {own : ReplicaID} {ack : Bool}
  {r r' : KvRun} {msg : Message}

inductive Stepped (U : BatchDecoder) (ms : List Message) (own : ReplicaID) (ack : Bool)
    (r : KvRun) : KvRunAction → KvRun → Prop
  | skip {msg : Message} (hp : r.phase = .idle) (hm : ms[r.pos]? = some msg)
      (hc : Covers r.through msg.offset ∨ Store.counts U msg = false) :
      Stepped U ms own ack r .receive { r with pos := r.pos + 1 }
  | note {msg : Message} (hp : r.phase = .idle) (hm : ms[r.pos]? = some msg)
      (hc : Store.counts U msg = false) :
      Stepped U ms own ack r .receive
        { r with store := r.store.noteWave msg, pos := r.pos + 1 }
  | begin {msg : Message} {cmds : List Command} (hp : r.phase = .idle)
      (hm : ms[r.pos]? = some msg) (hU : U msg.payload = some cmds)
      (hc : Store.counts U msg = true) (hn : ¬ Covers r.through msg.offset) :
      Stepped U ms own ack r .receive
        { r with store := r.store.noteWave msg, phase := .changing msg cmds }
  | change {msg : Message} {cmds : List Command} (hp : r.phase = .changing msg cmds) :
      Stepped U ms own ack r .change
        { r with
          store := { r.store.applyBatch msg cmds with maxOff := r.store.maxOff }
          pos := r.pos + 1
          phase := .raising msg.offset }
  | raise {offset : ℕ} (hp : r.phase = .raising offset) :
      Stepped U ms own ack r .raise
        { r with store := { r.store with maxOff := max r.store.maxOff offset }, phase := .idle }
  | snapshot : Stepped U ms own ack r .snapshot { r with saved := r.store.snapshot }
  | sweep (members : List ReplicaID) :
      Stepped U ms own ack r (.sweep members) { r with store := r.store.gcTombstones members }
  | restart :
      Stepped U ms own ack r .restart
        { r with
          store := .restore own ack r.saved
          pos := 0
          phase := .idle
          through := r.saved.throughOffset }

theorem stepped_receive (hp : r.phase = .idle) (hm : ms[r.pos]? = some msg) :
    Stepped U ms own ack r .receive (r.receive U msg) := by
  unfold receive
  split
  · rename_i hc
    exact .skip hp hm (Or.inl hc)
  · rename_i hn
    cases hU : U msg.payload with
    | none => exact .skip hp hm (Or.inr (by simp [Store.counts, Store.commands, hU]))
    | some cmds =>
      have hcounts : Store.counts U msg = !cmds.all fun c => c.op = .ack := by
        simp [Store.counts, Store.commands, hU]
      dsimp only
      split
      · rename_i he
        rw [List.isEmpty_iff] at he
        subst he
        exact .skip hp hm (Or.inr hcounts)
      · split
        · rename_i hall
          exact .note hp hm (by rw [hcounts, hall]; rfl)
        · rename_i hall
          exact .begin hp hm hU (by rw [hcounts]; simpa using hall) hn

theorem stepped_of_step {a : KvRunAction} (h : step U ms own ack r a = some r') :
    Stepped U ms own ack r a r' := by
  cases a with
  | receive =>
    cases hp : r.phase with
    | idle =>
      simp only [step, hp] at h
      obtain ⟨msg, hm, rfl⟩ := Option.map_eq_some_iff.mp h
      exact stepped_receive hp hm
    | changing msg cmds => simp [step, hp] at h
    | raising offset => simp [step, hp] at h
  | change =>
    cases hp : r.phase with
    | idle => simp [step, hp] at h
    | changing msg cmds =>
      simp only [step, hp, Option.some.injEq] at h
      subst h
      exact .change hp
    | raising offset => simp [step, hp] at h
  | raise =>
    cases hp : r.phase with
    | idle => simp [step, hp] at h
    | changing msg cmds => simp [step, hp] at h
    | raising offset =>
      simp only [step, hp, Option.some.injEq] at h
      subst h
      have hmax : (if offset ≤ r.store.maxOff then r.store.maxOff else offset) =
          max r.store.maxOff offset := by
        split <;> omega
      rw [hmax]
      exact .raise hp
  | snapshot =>
    cases h
    exact .snapshot
  | sweep members =>
    cases h
    exact .sweep members
  | restart =>
    cases h
    exact .restart

end Effects

/-! ### What the store holds -/

/-- A log as a conversation writes it. The first message of all has the wave one, and the next
one of its sender a greater one. -/
structure Logged (ms : List Message) : Prop where
  offsets : ms.Pairwise fun a b => a.offset < b.offset
  waves : ms.Pairwise fun a b => a.sender = b.sender → a.wave ≤ b.wave
  first : ∀ a ∈ ms, a.offset = 0 → ∀ b ∈ ms, b.sender = a.sender → b = a ∨ a.wave < b.wave
  senders : ∀ m ∈ ms, m.sender.length = Cluster.idLen

/-- A sweep knows every sender, and no write stands at offset zero. -/
def Allowed (U : BatchDecoder) (ms : List Message) (_ : KvRun) : KvRunAction → Prop
  | .sweep members => (∀ m ∈ ms, m.sender ∈ members) ∧
      ∀ m ∈ ms, m.offset = 0 → Store.counts U m = false
  | _ => True

instance (U : BatchDecoder) (ms : List Message) (r : KvRun) (a : KvRunAction) :
    Decidable (Allowed U ms r a) :=
  match a with
  | .sweep _ => inferInstanceAs (Decidable (_ ∧ _))
  | .receive => isTrue trivial
  | .change => isTrue trivial
  | .raise => isTrue trivial
  | .snapshot => isTrue trivial
  | .restart => isTrue trivial

section Contents

variable {U : BatchDecoder} {ms : List Message} {own : ReplicaID} {ack : Bool}
  {r r' : KvRun} {k : ℕ} {msg : Message} {p : KvSnapshot}

/-- The store after the first messages of the log, one after the other. -/
def reference (U : BatchDecoder) (ms : List Message) (own : ReplicaID) (ack : Bool) (k : ℕ) :
    Store :=
  (ms.take k).foldl (Store.apply U) (.new own ack)

/-- The entry is below all that may yet be applied, now or after a restart. -/
def Old (U : BatchDecoder) (ms : List Message) (through : ℕ) (e : Entry) : Prop :=
  ∀ m ∈ ms, Store.counts U m = true → ¬ Covers through m.offset → e.wave < m.wave

/-- The message is passed over, or does nothing. -/
def Passed (U : BatchDecoder) (through : ℕ) (m : Message) : Prop :=
  Store.counts U m = false ∨ Covers through m.offset

/-- Entries and an offset as a snapshot may hold them. The entries are those of the first `k`
messages without old tombstones. Of these messages only the last and the one at offset zero may
be applied again. -/
structure Holds (U : BatchDecoder) (ms : List Message) (own : ReplicaID) (ack : Bool) (k : ℕ)
    (p : KvSnapshot) : Prop where
  lacks : Store.Lacks (Old U ms p.throughOffset) p.data (reference U ms own ack k).data
  le_length : k ≤ ms.length
  inside : ∀ i m, ms[i]? = some m → Covers p.throughOffset m.offset → i < k
  covered : ∀ i m, ms[i]? = some m → i + 1 < k → Passed U p.throughOffset m ∨ m.offset = 0

theorem reference_succ (h : ms[k]? = some msg) :
    reference U ms own ack (k + 1) = (reference U ms own ack k).apply U msg := by
  rw [reference, List.take_add_one, h, Option.toList_some, List.foldl_append]
  rfl

theorem Logged.offset_lt (h : Logged ms) {i j : ℕ} {a b : Message} (ha : ms[i]? = some a)
    (hb : ms[j]? = some b) (hij : i < j) : a.offset < b.offset := by
  obtain ⟨hi, rfl⟩ := List.getElem?_eq_some_iff.mp ha
  obtain ⟨hj, rfl⟩ := List.getElem?_eq_some_iff.mp hb
  exact List.pairwise_iff_getElem.mp h.offsets i j hi hj hij

theorem Logged.wave_le (h : Logged ms) {i j : ℕ} {a b : Message} (ha : ms[i]? = some a)
    (hb : ms[j]? = some b) (hij : i ≤ j) (hs : a.sender = b.sender) : a.wave ≤ b.wave := by
  obtain ⟨hi, rfl⟩ := List.getElem?_eq_some_iff.mp ha
  obtain ⟨hj, rfl⟩ := List.getElem?_eq_some_iff.mp hb
  rcases hij.eq_or_lt with rfl | hlt
  · exact le_rfl
  · exact List.pairwise_iff_getElem.mp h.waves i j hi hj hlt hs

/-- The last message, and one at offset zero, may be applied again. -/
theorem data_reapply (h : Logged ms) {i : ℕ} (hm : ms[i]? = some msg) (hi : i < k)
    (hlast : i + 1 = k ∨ msg.offset = 0) :
    ((reference U ms own ack k).apply U msg).data = (reference U ms own ack k).data := by
  rcases hlast with rfl | hzero
  · have htake : ms.take (i + 1) = ms.take i ++ [msg] := by
      rw [List.take_add_one, hm, Option.toList_some]
    rw [reference, htake]
    exact Store.data_apply_again _ (by simp) _
  · have hmem : msg ∈ ms.take k := by
      apply List.mem_of_getElem? (i := i)
      rw [List.getElem?_take_of_lt hi, hm]
    obtain ⟨pre, post, htake⟩ := List.append_of_mem hmem
    rw [reference, htake]
    apply Store.data_apply_again
    intro m hpost htag
    have hoffsets := h.offsets.sublist (List.take_sublist k ms)
    rw [htake, List.pairwise_append, List.pairwise_cons] at hoffsets
    have hlt := hoffsets.2.1.1 m hpost
    have hmms : m ∈ ms := by
      apply List.mem_of_mem_take (i := k)
      rw [htake]
      simp [hpost]
    have hmsg : msg ∈ ms := List.mem_of_getElem? hm
    obtain ⟨hwave, hsender⟩ := Prod.mk.inj (toLex.injective htag)
    rw [senderArr_eq (h.senders m hmms), senderArr_eq (h.senders msg hmsg)] at hsender
    rcases h.first msg hmsg hzero m hmms hsender with rfl | hw
    · omega
    · omega

/-! ### What a run keeps -/

theorem Passed.mono {through through' : ℕ} {m : Message} (h : Passed U through m)
    (hle : through ≤ through') : Passed U through' m := by
  rcases h with hc | ⟨hz, ho⟩
  · exact Or.inl hc
  · exact Or.inr ⟨hz, ho.trans hle⟩

theorem Old.mono {through through' : ℕ} {e : Entry} (h : Old U ms through e)
    (hle : through ≤ through') : Old U ms through' e := by
  intro m hm hc hn
  exact h m hm hc fun hcov => hn ⟨hcov.1, hcov.2.trans hle⟩

/-- The waves are those of messages up to here. -/
def Noted (ms : List Message) (pos : ℕ) (w : ReplicaID → ℕ) : Prop :=
  ∀ q, w q = 0 ∨ ∃ i m, ms[i]? = some m ∧ i ≤ pos ∧ m.sender = q ∧ m.wave = w q

theorem Noted.succ {pos : ℕ} {w : ReplicaID → ℕ} (h : Noted ms pos w) : Noted ms (pos + 1) w := by
  intro q
  rcases h q with hz | ⟨i, m, hi, hle, hq⟩
  · exact Or.inl hz
  · exact Or.inr ⟨i, m, hi, Nat.le_succ_of_le hle, hq⟩

structure Tracks (U : BatchDecoder) (ms : List Message) (own : ReplicaID) (ack : Bool)
    (r : KvRun) (k : ℕ) : Prop where
  holds : Holds U ms own ack k r.store.snapshot
  pos_le : r.pos ≤ k
  through_le : r.through ≤ r.store.maxOff
  top : r.store.maxOff = r.through ∨
    ∃ i m, ms[i]? = some m ∧ i < r.pos ∧ m.offset = r.store.maxOff
  /-- What is still to be replayed before the last message inside. -/
  replayed : ∀ i m, ms[i]? = some m → r.pos ≤ i → i + 1 < k →
    Passed U r.through m ∨ m.offset = 0
  /-- A store that has caught up has covered its last message, unless it is about to. -/
  settled : r.pos = k → (∀ offset, r.phase ≠ .raising offset) → ∀ i m, ms[i]? = some m →
    i + 1 = k → Passed U r.store.maxOff m ∨ m.offset = 0
  seen : Noted ms r.pos r.store.peerWaveSeen
  changing : ∀ m cmds, r.phase = .changing m cmds → ms[r.pos]? = some m ∧
    U m.payload = some cmds ∧ Store.counts U m = true ∧ ¬ Covers r.through m.offset
  raising : ∀ offset, r.phase = .raising offset → ∃ i m, ms[i]? = some m ∧ i + 1 = r.pos ∧
    m.offset = offset ∧ r.store.peerWaveSeen m.sender ≤ m.wave

/-- A run at whatever message, with a snapshot that may be restored. -/
structure Invariant (U : BatchDecoder) (ms : List Message) (own : ReplicaID) (ack : Bool)
    (r : KvRun) : Prop where
  live : ∃ k, Tracks U ms own ack r k
  saved : ∃ k, Holds U ms own ack k r.saved

theorem holds_empty : Holds U ms own ack 0 ⟨fun _ => none, 0⟩ where
  lacks _ := Or.inl rfl
  le_length := Nat.zero_le _
  inside i m _ hc := by
    obtain ⟨hz, hle⟩ := hc
    exact absurd (Nat.le_zero.mp hle) hz
  covered i m _ hi := by omega

theorem data_restore (h : Holds U ms own ack k p) :
    (Store.restore own ack p).data = p.data := by
  funext key
  have hentry : ∀ e, p.data key = some e → senderArr e.originRep = e.originRep := by
    intro e he
    apply senderArr_eq
    rcases h.lacks key with heq | ⟨hnone, -⟩
    · exact Store.length_originRep (heq ▸ he)
    · rw [hnone] at he
      cases he
  simp only [Store.restore]
  cases hk : p.data key with
  | none => rfl
  | some e => rw [Option.map_some, hentry e hk]

/-- A process that has just been restored. -/
theorem tracks_restore (h : Holds U ms own ack k p) (saved : KvSnapshot) :
    Tracks U ms own ack ⟨.restore own ack p, 0, .idle, p.throughOffset, saved⟩ k where
  holds := by
    have hsnap : (Store.restore own ack p).snapshot = p := by
      rw [Store.snapshot, data_restore h]
      rfl
    exact hsnap.symm ▸ h
  pos_le := Nat.zero_le k
  through_le := le_rfl
  top := Or.inl rfl
  replayed i m hm _ hi := h.covered i m hm hi
  settled hk _ i m _ hi := by
    have : 0 = k := hk
    omega
  seen _ := Or.inl rfl
  changing _ _ hp := by cases hp
  raising _ hp := by cases hp

theorem Tracks.seen_le (h : Tracks U ms own ack r k) (hl : Logged ms) {i : ℕ} {m : Message}
    (hm : ms[i]? = some m) (hi : r.pos ≤ i) : r.store.peerWaveSeen m.sender ≤ m.wave := by
  rcases h.seen m.sender with hz | ⟨j, m', hm', hj, hsender, hwave⟩
  · omega
  · rw [← hwave]
    exact hl.wave_le hm' hm (hj.trans hi) hsender

/-- What the restored snapshot does not cover is above `maxOff` until it has been applied. -/
theorem Tracks.not_covers (h : Tracks U ms own ack r k) (hl : Logged ms) {i : ℕ} {m : Message}
    (hm : ms[i]? = some m) (hi : r.pos ≤ i) (hn : ¬ Covers r.through m.offset) :
    ¬ Covers r.store.maxOff m.offset := by
  rintro ⟨hz, hle⟩
  rcases h.top with heq | ⟨j, m', hm', hj, hoff⟩
  · exact hn ⟨hz, heq ▸ hle⟩
  · have hlt := hl.offset_lt hm' hm (by omega)
    omega

theorem data_apply_of_not_counts (h : Store.counts U msg = false) (s : Store) :
    (s.apply U msg).data = s.data := by
  have hall : ((Store.commands U msg).all fun c => c.op = .ack) = true := by
    simpa [Store.counts] using h
  rw [Store.data_apply, Store.writesOf, Store.writesFrom_of_all_ack msg 0 hall]
  rfl

theorem Tracks.covered_succ (h : Tracks U ms own ack r k) (hk : r.pos = k)
    (hp : ∀ offset, r.phase ≠ .raising offset) {i : ℕ} {m : Message} (hm : ms[i]? = some m)
    (hi : i < k) : Passed U r.store.maxOff m ∨ m.offset = 0 := by
  rcases (Nat.succ_le_of_lt hi).lt_or_eq with hlt | heq
  · exact h.holds.covered i m hm hlt
  · exact h.settled hk hp i m hm heq

theorem Tracks.top_succ (h : Tracks U ms own ack r k) : r.store.maxOff = r.through ∨
    ∃ i m, ms[i]? = some m ∧ i < r.pos + 1 ∧ m.offset = r.store.maxOff := by
  rcases h.top with heq | ⟨i, m, hm, hi, ho⟩
  · exact Or.inl heq
  · exact Or.inr ⟨i, m, hm, Nat.lt_succ_of_lt hi, ho⟩

/-- The store goes on to the next message. -/
theorem Tracks.next (h : Tracks U ms own ack r k) (hp : ∀ offset, r.phase ≠ .raising offset)
    (hm : ms[r.pos]? = some msg) {s : Store} (phase : ApplyPhase)
    (hold : r.pos < k →
      Store.Lacks (Old U ms r.store.maxOff) s.data (reference U ms own ack k).data)
    (hnew : r.pos = k → Store.Lacks (Old U ms r.store.maxOff) s.data
      ((reference U ms own ack k).apply U msg).data)
    (hseen : Noted ms (r.pos + 1) s.peerWaveSeen)
    (hsettled : (∀ offset, phase ≠ .raising offset) →
      Passed U r.store.maxOff msg ∨ msg.offset = 0)
    (hchanging : ∀ m cmds, phase ≠ .changing m cmds)
    (hraising : ∀ offset, phase = .raising offset →
      msg.offset = offset ∧ s.peerWaveSeen msg.sender ≤ msg.wave) :
    ∃ k', Tracks U ms own ack
      { r with store := { s with maxOff := r.store.maxOff }, pos := r.pos + 1, phase := phase }
      k' := by
  have hlast : (∀ offset, phase ≠ .raising offset) → ∀ i m, ms[i]? = some m → i = r.pos →
      Passed U r.store.maxOff m ∨ m.offset = 0 := by
    rintro hphase _ m hi rfl
    cases hi.symm.trans hm
    exact hsettled hphase
  have hraised : ∀ offset, phase = .raising offset → ∃ i m, ms[i]? = some m ∧
      i + 1 = r.pos + 1 ∧ m.offset = offset ∧ s.peerWaveSeen m.sender ≤ m.wave :=
    fun offset hphase => ⟨r.pos, msg, hm, rfl, hraising offset hphase⟩
  rcases h.pos_le.lt_or_eq with hlt | heq
  · refine ⟨k, ⟨hold hlt, h.holds.le_length, h.holds.inside, h.holds.covered⟩, hlt, h.through_le,
      h.top_succ, ?_, ?_, hseen, fun m cmds hc => absurd hc (hchanging m cmds), hraised⟩
    · intro i m hi hle hk
      exact h.replayed i m hi (Nat.le_of_succ_le hle) hk
    · intro hk hphase i m hi hik
      exact hlast hphase i m hi (Nat.succ.inj (hik.trans hk.symm))
  · have hlen := (List.getElem?_eq_some_iff.mp hm).1
    have hlacks := hnew heq
    rw [← reference_succ (heq ▸ hm)] at hlacks
    refine ⟨k + 1, ⟨hlacks, heq ▸ hlen, ?_, ?_⟩, Nat.succ_le_succ h.pos_le, h.through_le,
      h.top_succ, ?_, ?_, hseen, fun m cmds hc => absurd hc (hchanging m cmds), hraised⟩
    · intro i m hi hcov
      exact Nat.lt_succ_of_lt (h.holds.inside i m hi hcov)
    · intro i m hi hik
      exact h.covered_succ heq hp hi (Nat.lt_of_succ_lt_succ hik)
    · intro i m hi hle hik
      have hle' : r.pos + 1 ≤ i := hle
      omega
    · intro hk hphase i m hi hik
      exact hlast hphase i m hi (Nat.succ.inj (hik.trans hk.symm))

theorem ne_raising (hp : r.phase = .idle) (offset : ℕ) : r.phase ≠ .raising offset := by
  simp [hp]

/-- The store notes waves, but does not change its entries. -/
theorem Tracks.advance (h : Tracks U ms own ack r k) (hp : r.phase = .idle)
    (hm : ms[r.pos]? = some msg) (hpass : Passed U r.through msg) {w : ReplicaID → ℕ}
    (hw : Noted ms r.pos w) : ∃ k', Tracks U ms own ack
      { r with store := { r.store with peerWaveSeen := w }, pos := r.pos + 1 } k' := by
  have hpass' := hpass.mono h.through_le
  refine h.next (s := { r.store with peerWaveSeen := w }) (ne_raising hp) hm r.phase
    (fun _ => h.holds.lacks) ?_ hw.succ (fun _ => Or.inl hpass') ?_ ?_
  · intro heq
    have hcounts : Store.counts U msg = false := by
      rcases hpass' with hc | hc
      · exact hc
      · exact absurd (h.holds.inside r.pos msg hm hc) (by omega)
    rw [data_apply_of_not_counts hcounts]
    exact h.holds.lacks
  · simp [hp]
  · simp [hp]

theorem noteWave_eq (s : Store) (msg : Message) :
    s.noteWave msg = { s with peerWaveSeen := (s.noteWave msg).peerWaveSeen } := by
  unfold Store.noteWave
  split <;> rfl

theorem Tracks.seen_noteWave (h : Tracks U ms own ack r k) (hm : ms[r.pos]? = some msg) :
    Noted ms r.pos (r.store.noteWave msg).peerWaveSeen := by
  intro q
  unfold Store.noteWave
  split
  · by_cases hq : q = msg.sender
    · subst hq
      exact Or.inr ⟨r.pos, msg, hm, le_rfl, rfl, by simp⟩
    · simp only [Function.update_of_ne hq]
      exact h.seen q
  · exact h.seen q

theorem Tracks.begin (h : Tracks U ms own ack r k) (hp : r.phase = .idle)
    (hm : ms[r.pos]? = some msg) {cmds : List Command} (hU : U msg.payload = some cmds)
    (hc : Store.counts U msg = true) (hn : ¬ Covers r.through msg.offset) :
    Tracks U ms own ack
      { r with store := r.store.noteWave msg, phase := .changing msg cmds } k := by
  have hseen := h.seen_noteWave hm
  rw [noteWave_eq] at hseen ⊢
  refine ⟨h.holds, h.pos_le, h.through_le, h.top, h.replayed, ?_, hseen, ?_, ?_⟩
  · intro hk _
    exact h.settled hk (ne_raising hp)
  · intro m cs hphase
    cases hphase
    exact ⟨hm, hU, hc, hn⟩
  · intro offset hphase
    cases hphase

/-- The message at hand is new, or it is one that may be applied again. -/
theorem Tracks.data_change (h : Tracks U ms own ack r k) (hl : Logged ms)
    (hm : ms[r.pos]? = some msg) (hc : Store.counts U msg = true)
    (hn : ¬ Covers r.through msg.offset) (hlt : r.pos < k) :
    ((reference U ms own ack k).apply U msg).data = (reference U ms own ack k).data := by
  apply data_reapply hl hm hlt
  rcases (Nat.succ_le_of_lt hlt).lt_or_eq with hinner | hlast
  · rcases h.replayed r.pos msg hm le_rfl hinner with (hc' | hcov) | hz
    · cases hc.symm.trans hc'
    · exact absurd hcov hn
    · exact Or.inr hz
  · exact Or.inl hlast

theorem Tracks.change (h : Tracks U ms own ack r k) (hl : Logged ms) {cmds : List Command}
    (hp : r.phase = .changing msg cmds) :
    ∃ k', Tracks U ms own ack
      { r with
        store := { r.store.applyBatch msg cmds with maxOff := r.store.maxOff }
        pos := r.pos + 1
        phase := .raising msg.offset } k' := by
  obtain ⟨hm, hU, hc, hn⟩ := h.changing msg cmds hp
  have hold : ∀ e, Old U ms r.store.maxOff e → e.wave < msg.wave := by
    intro e he
    exact he msg (List.mem_of_getElem? hm) hc (h.not_covers hl hm le_rfl hn)
  have hlacks : Store.Lacks (Old U ms r.store.maxOff) (r.store.applyBatch msg cmds).data
      ((reference U ms own ack k).apply U msg).data := by
    have heq : ({ r.store with data := (reference U ms own ack k).data }.applyBatch msg cmds).data =
        ((reference U ms own ack k).apply U msg).data := Store.data_applyBatch_eq hU _ rfl
    rw [← heq]
    exact Store.lacks_applyBatch h.holds.lacks hold cmds
  have hwaves := Store.Sweeping.peerWaveSeen_applyBatch r.store msg cmds
  refine h.next (by simp [hp]) hm (.raising msg.offset) ?_ (fun _ => hlacks) ?_ ?_ ?_ ?_
  · intro hlt
    rw [← h.data_change hl hm hc hn hlt]
    exact hlacks
  · rw [hwaves]
    exact h.seen.succ
  · intro hphase
    exact absurd rfl (hphase msg.offset)
  · simp
  · rintro offset ⟨⟩
    rw [hwaves]
    exact ⟨rfl, h.seen_le hl hm le_rfl⟩

theorem Tracks.raise (h : Tracks U ms own ack r k) (hl : Logged ms) {offset : ℕ}
    (hp : r.phase = .raising offset) :
    Tracks U ms own ack
      { r with store := { r.store with maxOff := max r.store.maxOff offset }, phase := .idle }
      k := by
  obtain ⟨j, m₀, hm₀, hj, hoff, -⟩ := h.raising offset hp
  have hle : r.store.maxOff ≤ max r.store.maxOff offset := le_max_left _ _
  have hpos := h.pos_le
  refine ⟨⟨?_, h.holds.le_length, ?_, ?_⟩, hpos, h.through_le.trans hle, ?_, h.replayed, ?_,
    h.seen, ?_, ?_⟩
  · exact h.holds.lacks.mono fun e he => he.mono hle
  · intro i m hi hc
    rcases le_max_iff.mp hc.2 with ho | ho
    · exact h.holds.inside i m hi ⟨hc.1, ho⟩
    · by_contra hge
      have := hl.offset_lt hm₀ hi (by omega)
      omega
  · intro i m hi hk
    exact (h.holds.covered i m hi hk).imp_left fun hpass => hpass.mono hle
  · rcases max_choice r.store.maxOff offset with heq | heq
    · simp only [heq]
      exact h.top
    · exact Or.inr ⟨j, m₀, hm₀, Nat.lt_of_succ_le hj.le, hoff.trans heq.symm⟩
  · intro hk _ i m hi hik
    have hk' : r.pos = k := hk
    obtain rfl : i = j := by omega
    cases hi.symm.trans hm₀
    by_cases hz : m₀.offset = 0
    · exact Or.inr hz
    · exact Or.inl (Or.inr ⟨hz, hoff ▸ le_max_right _ _⟩)
  · intro m cmds hphase
    cases hphase
  · intro o hphase
    cases hphase

/-- What all members have passed is below all that may yet be applied. -/
theorem Tracks.old_of_seen (h : Tracks U ms own ack r k) (hl : Logged ms)
    {members : List ReplicaID} (ha : Allowed U ms r (.sweep members)) {e : Entry}
    (he : ∀ q ∈ members, e.wave < r.store.peerWaveSeen q) : Old U ms r.store.maxOff e := by
  intro m hm hc hn
  have hlt := he m.sender (ha.1 m hm)
  obtain ⟨i, hi⟩ := List.getElem?_of_mem hm
  have hnotPassed : ¬ (Passed U r.store.maxOff m ∨ m.offset = 0) := by
    rintro ((hc' | hcov) | hz)
    · cases hc.symm.trans hc'
    · exact hn hcov
    · cases hc.symm.trans (ha.2 m hm hz)
  have hpos := h.pos_le
  by_cases hipos : r.pos ≤ i
  · exact hlt.trans_le (h.seen_le hl hi hipos)
  · by_cases hlast : i + 1 < k
    · exact absurd (h.holds.covered i m hi hlast) hnotPassed
    · -- the message behind the store, which it has not covered yet
      cases hp : r.phase with
      | raising offset =>
        obtain ⟨j, m', hm', hj, -, hle⟩ := h.raising offset hp
        obtain rfl : i = j := by omega
        cases hi.symm.trans hm'
        exact hlt.trans_le hle
      | idle => exact absurd (h.settled (by omega) (ne_raising hp) i m hi (by omega)) hnotPassed
      | changing m' cmds =>
        exact absurd (h.settled (by omega) (by simp [hp]) i m hi (by omega)) hnotPassed

theorem Tracks.sweep (h : Tracks U ms own ack r k) (hl : Logged ms) {members : List ReplicaID}
    (ha : Allowed U ms r (.sweep members)) :
    Tracks U ms own ack { r with store := r.store.gcTombstones members } k := by
  have hgc : Store.Lags (Old U ms r.store.maxOff) (r.store.gcTombstones members) r.store :=
    (Store.lags_gcTombstones r.store members).mono fun e he => h.old_of_seen hl ha he
  have hlive : Store.Lags (Old U ms r.store.maxOff) r.store
      { r.store with data := (reference U ms own ack k).data } :=
    ⟨r.store.data, rfl, h.holds.lacks⟩
  obtain ⟨d, hd, hlacks⟩ := hgc.trans hlive
  rw [hd]
  exact ⟨⟨hlacks, h.holds.le_length, h.holds.inside, h.holds.covered⟩, h.pos_le, h.through_le,
    h.top, h.replayed, h.settled, h.seen, h.changing, h.raising⟩

theorem invariant_start : Invariant U ms own ack (start own ack) where
  live := ⟨0, tracks_restore holds_empty _⟩
  saved := ⟨0, holds_empty⟩

theorem Invariant.step {a : KvRunAction} (h : Invariant U ms own ack r) (hl : Logged ms)
    (ha : Allowed U ms r a) (hs : r.step U ms own ack a = some r') :
    Invariant U ms own ack r' := by
  obtain ⟨⟨k, hk⟩, hsaved⟩ := h
  cases stepped_of_step hs with
  | skip hp hm hc => exact ⟨hk.advance hp hm hc.symm hk.seen, hsaved⟩
  | note hp hm hc =>
    have hadv := hk.advance hp hm (Or.inl hc) (hk.seen_noteWave hm)
    rw [← noteWave_eq] at hadv
    exact ⟨hadv, hsaved⟩
  | begin hp hm hU hc hn => exact ⟨⟨k, hk.begin hp hm hU hc hn⟩, hsaved⟩
  | change hp => exact ⟨hk.change hl hp, hsaved⟩
  | raise hp => exact ⟨⟨k, hk.raise hl hp⟩, hsaved⟩
  | snapshot =>
    exact ⟨⟨k, hk.holds, hk.pos_le, hk.through_le, hk.top, hk.replayed, hk.settled, hk.seen,
      hk.changing, hk.raising⟩, ⟨k, hk.holds⟩⟩
  | sweep members => exact ⟨⟨k, hk.sweep hl ha⟩, hsaved⟩
  | restart =>
    obtain ⟨j, hj⟩ := hsaved
    exact ⟨⟨j, tracks_restore hj _⟩, ⟨j, hj⟩⟩

end Contents

/-- A message of the wave that is its offset and one. -/
def logged (sender b : UInt8) (offset : ℕ) : Message :=
  ⟨⟨none, none, []⟩, [b], Cluster.replicaOf sender, offset, offset + 1⟩

/-- A key is set and deleted, and its tombstone is dropped while the message at offset four, which
sets it again, is in flight. A snapshot catches that message halfway. -/
def setAgain : List Message := [logged 1 1 1, logged 2 0 2, logged 2 3 3, logged 1 2 4]

def caughtHalfway : List KvRunAction :=
  [.receive, .change, .raise, .receive, .change, .raise, .receive, .receive,
    .sweep [Cluster.replicaOf 1, Cluster.replicaOf 2], .change, .snapshot, .raise, .restart,
    .receive, .receive, .receive, .receive, .change]

/-- The same with the first message at offset zero: the restart brings its key back. -/
def atZero : List Message := [logged 1 1 0, logged 2 0 1, logged 2 3 2, logged 1 3 3]

def broughtBack : List KvRunAction :=
  [.receive, .change, .raise, .receive, .change, .raise, .receive, .receive,
    .sweep [Cluster.replicaOf 1, Cluster.replicaOf 2], .snapshot, .restart,
    .receive, .change, .raise, .receive, .receive, .receive]

end KvRun

end Comlink
