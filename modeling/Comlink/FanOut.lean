import Comlink.GuardedRuns
import Comlink.ListScans

/-!
# Fanning events out to subscribers

Every subscriber of a topic owns a buffered channel. A publication notes the subscribers of
its topic and then sends to them one by one, each send at a time of its own. A channel that
is full loses its oldest event. Sending on a closed channel is fatal, and so is closing it
once more. Subscribers leave, and all of them are shut down, at any time.
-/
namespace Comlink.FanOut
open GuardedRuns ListScans

universe u v w
variable {τ : Type u} {ε : Type v}

structure Channel (τ : Type u) (ε : Type v) where
  topic : τ
  buffer : List ε
  closed : Bool
  deriving DecidableEq, Repr

/-- A send that finds the channel full drops the oldest event and is tried once more. -/
inductive SendPhase where
  | first
  | dropOldest
  | second
  deriving DecidableEq, Repr

/-- An event on its way, with the subscribers that are still to get it. -/
structure Publication (ε : Type v) where
  event : ε
  ahead : List ℕ
  phase : SendPhase
  deriving DecidableEq, Repr

structure Hub (τ : Type u) (ε : Type v) where
  subscribers : τ → List ℕ
  channels : List (Channel τ ε)
  publications : List (Publication ε)
  fatal : Bool

inductive Action (τ : Type u) (ε : Type v) where
  | subscribe (topic : τ)
  | unsubscribe (n : ℕ)
  | publish (topic : τ) (e : ε) (order : List ℕ)
  | send (i : ℕ)
  | receive (n : ℕ)
  | shutdown
  deriving DecidableEq, Repr

namespace Hub

def empty : Hub τ ε := ⟨fun _ => [], [], [], false⟩

/-- The subscribers come in any order. -/
def publish (h : Hub τ ε) (topic : τ) (e : ε) (order : List ℕ) : Option (Hub τ ε) :=
  if order.Perm (h.subscribers topic) then
    some { h with publications := h.publications ++ [⟨e, order, .first⟩] }
  else none

/-- The send of an event if there is room for it, and what to do then or otherwise. -/
def trySend (h : Hub τ ε) (cap i n : ℕ) (ch : Channel τ ε) (e : ε)
    (sent full : Publication ε) : Hub τ ε :=
  if ch.closed then { h with fatal := true }
  else if ch.buffer.length < cap then
    { h with
      channels := h.channels.set n { ch with buffer := ch.buffer ++ [e] }
      publications := h.publications.set i sent }
  else { h with publications := h.publications.set i full }

/-- The next operation of a publication on a channel. -/
def send (h : Hub τ ε) (cap i : ℕ) : Option (Hub τ ε) :=
  h.publications[i]?.bind fun p => match p.ahead with
    | [] => none
    | n :: rest => h.channels[n]?.map fun ch => match p.phase with
      | .first => h.trySend cap i n ch p.event { p with ahead := rest }
          { p with phase := .dropOldest }
      | .dropOldest =>
        { h with
          channels := h.channels.set n { ch with buffer := ch.buffer.tail }
          publications := h.publications.set i { p with phase := .second } }
      | .second => h.trySend cap i n ch p.event ⟨p.event, rest, .first⟩ ⟨p.event, rest, .first⟩

def receive (h : Hub τ ε) (n : ℕ) : Option (Hub τ ε) :=
  h.channels[n]?.map fun ch =>
    { h with channels := h.channels.set n { ch with buffer := ch.buffer.tail } }

def shutdown (h : Hub τ ε) : Hub τ ε :=
  { h with
    subscribers := fun _ => []
    channels := h.channels.mapIdx fun n ch =>
      if n ∈ h.subscribers ch.topic then { ch with closed := true } else ch
    fatal := h.fatal || (h.channels.mapIdx fun n ch =>
      decide (n ∈ h.subscribers ch.topic) && ch.closed).any id }

/-- The channel of a subscriber. -/
def Subscribed (h : Hub τ ε) (n : ℕ) : Prop :=
  ∃ ch ∈ h.channels[n]?, n ∈ h.subscribers ch.topic

/-- A publication is still to send to a channel. -/
def Addressed (h : Hub τ ε) (n : ℕ) : Prop := ∃ p ∈ h.publications, n ∈ p.ahead

instance (h : Hub τ ε) (n : ℕ) : Decidable (h.Subscribed n) :=
  inferInstanceAs (Decidable (∃ ch ∈ h.channels[n]?, n ∈ h.subscribers ch.topic))

instance (h : Hub τ ε) (n : ℕ) : Decidable (h.Addressed n) :=
  inferInstanceAs (Decidable (∃ p ∈ h.publications, n ∈ p.ahead))

/-- No channel is closed to which a publication is still to send. -/
def Undisturbed (h : Hub τ ε) : Action τ ε → Prop
  | .unsubscribe n => h.Subscribed n → ¬h.Addressed n
  | .shutdown => ∀ p ∈ h.publications, ∀ n ∈ p.ahead, ¬h.Subscribed n
  | _ => True

instance (h : Hub τ ε) (a : Action τ ε) : Decidable (h.Undisturbed a) :=
  match a with
  | .unsubscribe n => inferInstanceAs (Decidable (h.Subscribed n → ¬h.Addressed n))
  | .shutdown => inferInstanceAs (Decidable (∀ p ∈ h.publications, ∀ n ∈ p.ahead, ¬h.Subscribed n))
  | .subscribe _ | .publish _ _ _ | .send _ | .receive _ => isTrue trivial

variable {h t : Hub τ ε} {cap i n : ℕ} {ch : Channel τ ε} {p : Publication ε}

/-- A channel that is there and not closed. -/
def Open (h : Hub τ ε) (n : ℕ) : Prop := ∃ ch, h.channels[n]? = some ch ∧ ch.closed = false

/-- Subscribers and the targets of the publications have open channels. -/
structure Sound (h : Hub τ ε) : Prop where
  fatal : h.fatal = false
  subscribed : ∀ topic, ∀ n ∈ h.subscribers topic,
    ∃ ch, h.channels[n]? = some ch ∧ ch.topic = topic ∧ ch.closed = false
  ahead : ∀ p ∈ h.publications, ∀ n ∈ p.ahead, h.Open n

theorem sound_empty : Sound (empty : Hub τ ε) := ⟨rfl, nofun, nofun⟩

/-- A channel keeps its topic and stays open while its buffer changes. -/
theorem Sound.set_buffer (hs : h.Sound) (hch : h.channels[n]? = some ch) (buffer : List ε) :
    Sound { h with channels := h.channels.set n { ch with buffer := buffer } } := by
  have hkeep : ∀ (m : ℕ) (c : Channel τ ε), h.channels[m]? = some c →
      ∃ c', (h.channels.set n { ch with buffer := buffer })[m]? = some c' ∧ c'.topic = c.topic ∧
        c'.closed = c.closed := by
    intro m c hc
    by_cases hnm : n = m
    · subst hnm
      cases hch.symm.trans hc
      exact ⟨_, getElem?_set_of_some hch _, rfl, rfl⟩
    · exact ⟨c, (List.getElem?_set_ne hnm).trans hc, rfl, rfl⟩
  refine ⟨hs.fatal, fun topic m hm => ?_, fun p hp m hm => ?_⟩
  · obtain ⟨c, hc, htopic, hopen⟩ := hs.subscribed topic m hm
    obtain ⟨c', hc', htopic', hclosed⟩ := hkeep m c hc
    exact ⟨c', hc', htopic'.trans htopic, hclosed.trans hopen⟩
  · obtain ⟨c, hc, hopen⟩ := hs.ahead p hp m hm
    obtain ⟨c', hc', -, hclosed⟩ := hkeep m c hc
    exact ⟨c', hc', hclosed.trans hopen⟩

/-- A publication goes on to targets that it had before. -/
theorem Sound.set_publication (hs : h.Sound) (hp : h.publications[i]? = some p)
    {q : Publication ε} (hq : q.ahead ⊆ p.ahead) :
    Sound { h with publications := h.publications.set i q } := by
  refine ⟨hs.fatal, hs.subscribed, fun p' hp' n hn => ?_⟩
  rcases List.mem_or_eq_of_mem_set hp' with hold | rfl
  · exact hs.ahead p' hold n hn
  · exact hs.ahead p (List.mem_of_getElem? hp) n (hq hn)

theorem Sound.trySend (hs : h.Sound) (hp : h.publications[i]? = some p)
    (hch : h.channels[n]? = some ch) (hn : n ∈ p.ahead) {e : ε} {sent full : Publication ε}
    (hsent : sent.ahead ⊆ p.ahead) (hfull : full.ahead ⊆ p.ahead) :
    (h.trySend cap i n ch e sent full).Sound := by
  obtain ⟨c, hc, hopen⟩ := hs.ahead p (List.mem_of_getElem? hp) n hn
  cases hch.symm.trans hc
  rw [Hub.trySend, if_neg (by simp [hopen])]
  split
  · exact (hs.set_publication hp hsent).set_buffer hch _
  · exact hs.set_publication hp hfull

theorem Sound.send (hs : h.Sound) (ht : h.send cap i = some t) : t.Sound := by
  obtain ⟨⟨e, ahead, phase⟩, hp, ht⟩ := Option.bind_eq_some_iff.mp ht
  cases ahead with
  | nil => cases ht
  | cons n rest =>
    obtain ⟨ch, hch, rfl⟩ := Option.map_eq_some_iff.mp ht
    have hrest : rest ⊆ n :: rest := List.subset_cons_self n rest
    cases phase with
    | first =>
      exact hs.trySend hp hch List.mem_cons_self hrest (List.Subset.refl _)
    | dropOldest =>
      have hsecond := hs.set_publication (q := ⟨e, n :: rest, .second⟩) hp (List.Subset.refl _)
      exact hsecond.set_buffer hch _
    | second => exact hs.trySend hp hch List.mem_cons_self hrest hrest

theorem Sound.shutdown (hs : h.Sound)
    (hok : ∀ p ∈ h.publications, ∀ n ∈ p.ahead, ¬h.Subscribed n) : h.shutdown.Sound := by
  refine ⟨?_, nofun, fun p hp n hn => ?_⟩
  · have hnone : (h.channels.mapIdx fun n ch =>
        decide (n ∈ h.subscribers ch.topic) && ch.closed).any id = false := by
      rw [List.any_eq_false]
      intro b hb hid
      obtain ⟨n, hlt, rfl⟩ := List.mem_mapIdx.mp hb
      simp only [id_eq, Bool.and_eq_true, decide_eq_true_eq] at hid
      obtain ⟨c, hc, -, hopen⟩ := hs.subscribed _ n hid.1
      rw [List.getElem?_eq_getElem hlt] at hc
      cases hc
      rw [hopen] at hid
      cases hid.2
    rw [Hub.shutdown, hnone, hs.fatal]
    rfl
  · obtain ⟨ch, hch, hopen⟩ := hs.ahead p hp n hn
    refine ⟨ch, ?_, hopen⟩
    have hnot : n ∉ h.subscribers ch.topic := fun hmem => hok p hp n hn ⟨ch, hch, hmem⟩
    rw [Hub.shutdown, List.getElem?_mapIdx, hch]
    simp [hnot]

/-- Which channels are closed. -/
def closedFlags (h : Hub τ ε) : List Bool := h.channels.map Channel.closed

theorem closedFlags_set_buffer (hch : h.channels[n]? = some ch) (buffer : List ε) :
    (h.channels.set n { ch with buffer := buffer }).map Channel.closed = h.closedFlags := by
  obtain ⟨hlt, heq⟩ := List.getElem?_eq_some_iff.mp hch
  rw [List.map_set, closedFlags]
  refine List.ext_getElem (by simp) fun m hm hm' => ?_
  by_cases hnm : n = m
  · subst hnm
    simp [heq]
  · simp [List.getElem_set_ne hnm]

/-- A send on an open channel, with room or without. -/
theorem trySend_open (hf : h.fatal = false) (hp : h.publications[i]? = some p)
    (hch : h.channels[n]? = some ch) (hopen : ch.closed = false) (e : ε)
    (sent full : Publication ε) : (h.trySend cap i n ch e sent full).fatal = false ∧
      (h.trySend cap i n ch e sent full).closedFlags = h.closedFlags ∧
      ∃ q, (h.trySend cap i n ch e sent full).publications[i]? = some q ∧
        (q = sent ∨ q = full) := by
  rw [trySend, if_neg (by simp [hopen])]
  split
  · exact ⟨hf, closedFlags_set_buffer hch _, sent, getElem?_set_of_some hp _, Or.inl rfl⟩
  · exact ⟨hf, rfl, full, getElem?_set_of_some hp _, Or.inr rfl⟩

/-- How many operations a publication has left at most. -/
def opsLeft (p : Publication ε) : ℕ :=
  3 * p.ahead.length - match p.phase with
    | .first => 0
    | .dropOldest => 1
    | .second => 2

/-- The publication has come closer to a channel that it still has ahead. -/
structure Closer (h t : Hub τ ε) (i n : ℕ) (p : Publication ε) : Prop where
  running : t.fatal = false
  flags : t.closedFlags = h.closedFlags
  publication : ∃ q, t.publications[i]? = some q ∧ n ∈ q.ahead ∧ q.ahead ⊆ p.ahead ∧
    opsLeft q < opsLeft p

/-- A try to send to a channel fails on a closed one, and leaves an open one or repeats it
with fewer operations left. -/
theorem closer_trySend (cap : ℕ) {ch : Channel τ ε} {m : ℕ} (hf : h.fatal = false)
    (hp : h.publications[i]? = some p) (hch : h.channels[m]? = some ch) (e : ε)
    {sent full : Publication ε}
    (hsent : ch.closed = false → n ∈ sent.ahead ∧ sent.ahead ⊆ p.ahead ∧ opsLeft sent < opsLeft p)
    (hfull : ch.closed = false → n ∈ full.ahead ∧ full.ahead ⊆ p.ahead ∧ opsLeft full < opsLeft p) :
    (h.trySend cap i m ch e sent full).fatal = true ∨
      Closer h (h.trySend cap i m ch e sent full) i n p := by
  cases hopen : ch.closed with
  | true => exact Or.inl (by simp [trySend, hopen])
  | false =>
    obtain ⟨hf', hflags, q, hq, rfl | rfl⟩ := trySend_open hf hp hch hopen e sent full
    · exact Or.inr ⟨hf', hflags, _, hq, hsent hopen⟩
    · exact Or.inr ⟨hf', hflags, _, hq, hfull hopen⟩

/-- A publication with a closed channel ahead comes closer to it with each operation. -/
theorem exists_send (cap : ℕ) (hf : h.fatal = false) (hp : h.publications[i]? = some p)
    (hn : n ∈ p.ahead) (hclosed : h.closedFlags[n]? = some true)
    (hahead : ∀ m ∈ p.ahead, m < h.closedFlags.length) :
    ∃ t, h.send cap i = some t ∧ (t.fatal = true ∨ Closer h t i n p) := by
  obtain ⟨e, ahead, phase⟩ := p
  cases ahead with
  | nil => cases hn
  | cons m rest =>
    have hlt : m < h.channels.length := by
      simpa [closedFlags] using hahead m List.mem_cons_self
    have hch := List.getElem?_eq_getElem hlt
    generalize h.channels[m] = ch at hch
    have hflag : h.closedFlags[m]? = some ch.closed := by simp [closedFlags, hch]
    have hrest : ch.closed = false → n ∈ rest := by
      intro hopen
      rcases List.mem_cons.mp hn with rfl | hrest
      · rw [hclosed, hopen] at hflag
        cases hflag
      · exact hrest
    have hsub : rest ⊆ m :: rest := List.subset_cons_self m rest
    cases phase with
    | first =>
      refine ⟨h.trySend cap i m ch e ⟨e, rest, .first⟩ ⟨e, m :: rest, .dropOldest⟩, ?_,
        closer_trySend cap hf hp hch e (fun hopen => ⟨hrest hopen, hsub, ?_⟩)
          fun _ => ⟨hn, List.Subset.refl _, ?_⟩⟩
      · simp [send, hp, hch]
      · simp only [opsLeft, List.length_cons]
        omega
      · simp only [opsLeft, List.length_cons]
        omega
    | dropOldest =>
      refine ⟨{ h with
        channels := h.channels.set m { ch with buffer := ch.buffer.tail }
        publications := h.publications.set i ⟨e, m :: rest, .second⟩ }, ?_,
        Or.inr ⟨hf, closedFlags_set_buffer hch _, _, getElem?_set_of_some hp _, hn,
          List.Subset.refl _, ?_⟩⟩
      · simp [send, hp, hch]
      · simp only [opsLeft, List.length_cons]
        omega
    | second =>
      have hnext : ch.closed = false → n ∈ rest ∧ rest ⊆ m :: rest ∧
          opsLeft (⟨e, rest, .first⟩ : Publication ε) <
            opsLeft (⟨e, m :: rest, .second⟩ : Publication ε) := by
        intro hopen
        refine ⟨hrest hopen, hsub, ?_⟩
        simp only [opsLeft, List.length_cons]
        omega
      refine ⟨h.trySend cap i m ch e ⟨e, rest, .first⟩ ⟨e, rest, .first⟩, ?_,
        closer_trySend cap hf hp hch e hnext hnext⟩
      simp [send, hp, hch]

section Topics

variable [DecidableEq τ]

/-- The channel of the new subscriber is the next one. -/
def subscribe (h : Hub τ ε) (topic : τ) : Hub τ ε :=
  { h with
    subscribers := Function.update h.subscribers topic
      (h.subscribers topic ++ [h.channels.length])
    channels := h.channels ++ [⟨topic, [], false⟩] }

/-- Whoever has left before stays away. -/
def unsubscribe (h : Hub τ ε) (n : ℕ) : Hub τ ε :=
  match h.channels[n]? with
  | none => h
  | some ch =>
    if n ∈ h.subscribers ch.topic then
      { h with
        subscribers := Function.update h.subscribers ch.topic
          ((h.subscribers ch.topic).filter (· ≠ n))
        channels := h.channels.set n { ch with closed := true }
        fatal := h.fatal || ch.closed }
    else h

/-- Nothing happens after a fatal operation. -/
def step (cap : ℕ) (h : Hub τ ε) (a : Action τ ε) : Option (Hub τ ε) :=
  if h.fatal then none
  else match a with
    | .subscribe topic => some (h.subscribe topic)
    | .unsubscribe n => some (h.unsubscribe n)
    | .publish topic e order => h.publish topic e order
    | .send i => h.send cap i
    | .receive n => h.receive n
    | .shutdown => some h.shutdown

theorem Sound.subscribe (hs : h.Sound) (topic : τ) : (h.subscribe topic).Sound := by
  have hkeep : ∀ (n : ℕ) (ch : Channel τ ε), h.channels[n]? = some ch →
      (h.subscribe topic).channels[n]? = some ch := fun n ch hch => by
    rw [Hub.subscribe, List.getElem?_append_left (List.getElem?_eq_some_iff.mp hch).1, hch]
  refine ⟨hs.fatal, fun topic' n hn => ?_, fun p hp n hn => ?_⟩
  · have hold : n ∈ h.subscribers topic' ∨ topic' = topic ∧ n = h.channels.length := by
      by_cases heq : topic' = topic
      · subst heq
        simpa [Hub.subscribe] using hn
      · exact Or.inl (by simpa [Hub.subscribe, Function.update_of_ne heq] using hn)
    rcases hold with hold | ⟨rfl, rfl⟩
    · obtain ⟨ch, hch, htopic, hopen⟩ := hs.subscribed topic' n hold
      exact ⟨ch, hkeep n ch hch, htopic, hopen⟩
    · exact ⟨_, List.getElem?_concat_length, rfl, rfl⟩
  · obtain ⟨ch, hch, hopen⟩ := hs.ahead p hp n hn
    exact ⟨ch, hkeep n ch hch, hopen⟩

/-- Channels that nothing addresses may be closed, if nobody is subscribed to them then. -/
theorem Sound.unsubscribe (hs : h.Sound) (hok : h.Subscribed n → ¬h.Addressed n) :
    (h.unsubscribe n).Sound := by
  unfold Hub.unsubscribe
  split
  · exact hs
  · rename_i ch hch
    split
    · rename_i hn
      have hfree := hok ⟨ch, hch, hn⟩
      obtain ⟨c, hc, -, hopen⟩ := hs.subscribed _ n hn
      cases hch.symm.trans hc
      refine ⟨?_, fun topic m hm => ?_, fun p hp m hm => ?_⟩
      · rw [hs.fatal, hopen]
        rfl
      · have hmem : m ∈ h.subscribers topic ∧ m ≠ n := by
          by_cases heq : topic = ch.topic
          · subst heq
            simpa using hm
          · have hold : m ∈ h.subscribers topic := by simpa [Function.update_of_ne heq] using hm
            refine ⟨hold, ?_⟩
            rintro rfl
            obtain ⟨c, hc, rfl, -⟩ := hs.subscribed topic m hold
            cases hch.symm.trans hc
            exact heq rfl
        obtain ⟨c, hc, htopic, hc'⟩ := hs.subscribed topic m hmem.1
        exact ⟨c, (List.getElem?_set_ne hmem.2.symm).trans hc, htopic, hc'⟩
      · obtain ⟨c, hc, hc'⟩ := hs.ahead p hp m hm
        refine ⟨c, (List.getElem?_set_ne ?_).trans hc, hc'⟩
        rintro rfl
        exact hfree ⟨p, hp, hm⟩
    · exact hs

theorem Sound.step {a : Action τ ε} (hs : h.Sound) (hok : h.Undisturbed a)
    (ht : step cap h a = some t) : t.Sound := by
  unfold Hub.step at ht
  rw [hs.fatal, if_neg Bool.false_ne_true] at ht
  cases a with
  | subscribe topic =>
    cases ht
    exact hs.subscribe topic
  | unsubscribe n =>
    cases ht
    exact hs.unsubscribe hok
  | publish topic e order =>
    dsimp only [publish] at ht
    split at ht
    · rename_i horder
      cases ht
      refine ⟨hs.fatal, hs.subscribed, fun p hp n hn => ?_⟩
      rcases List.mem_append.mp hp with hp | hp
      · exact hs.ahead p hp n hn
      · cases List.mem_singleton.mp hp
        obtain ⟨ch, hch, -, hopen⟩ := hs.subscribed topic n (horder.subset hn)
        exact ⟨ch, hch, hopen⟩
    · cases ht
  | send i => exact hs.send ht
  | receive n =>
    obtain ⟨ch, hch, rfl⟩ := Option.map_eq_some_iff.mp ht
    exact hs.set_buffer hch _
  | shutdown =>
    cases ht
    exact hs.shutdown hok

/-- Runs in which no channel is closed under a publication stay clear of fatal operations. -/
theorem sound_of_reach (hr : Reach (step cap) Undisturbed h t) (hs : h.Sound) : t.Sound :=
  hr.invariant hs fun _ _ _ hs hok ht => hs.step hok ht

/-- A system whose sends are those of the hub runs its publications as the hub does. -/
theorem reach_sends_iff {α : Type w} {step' : Hub τ ε → α → Option (Hub τ ε)} {f : ℕ → α}
    (hsend : ∀ s i, step' s (f i) = step cap s (.send i)) :
    Reach step' (fun _ a => ∃ i, a = f i) h t ↔
      Reach (step cap) (fun _ a => ∃ i, a = .send i) h t := by
  constructor
  · refine fun hr => hr.simulate ?_
    rintro s _ t ⟨i, rfl⟩ hs
    exact ⟨.send i, ⟨i, rfl⟩, hsend s i ▸ hs⟩
  · refine fun hr => hr.simulate ?_
    rintro s _ t ⟨i, rfl⟩ hs
    exact ⟨f i, ⟨i, rfl⟩, hsend s i ▸ hs⟩

/-- A publication that has a closed channel ahead becomes fatal when it goes on. -/
theorem reach_fatal (hf : h.fatal = false) (hp : h.publications[i]? = some p) (hn : n ∈ p.ahead)
    (hclosed : h.closedFlags[n]? = some true) (hahead : ∀ m ∈ p.ahead, m < h.closedFlags.length) :
    ∃ t, Reach (step cap) (fun _ a => ∃ i, a = .send i) h t ∧ t.fatal = true := by
  induction hleft : opsLeft p using Nat.strong_induction_on generalizing h p with
  | _ left ih =>
    obtain ⟨t, ht, hnext⟩ := exists_send cap hf hp hn hclosed hahead
    have hstep : step cap h (.send i) = some t := by
      rw [step, if_neg (by simp [hf])]
      exact ht
    have hreach : Reach (step cap) (fun _ a => ∃ i, a = .send i) h t := .single ⟨_, ⟨i, rfl⟩, hstep⟩
    rcases hnext with hfatal | ⟨hf', hflags, q, hq, hnq, hsub, hlt⟩
    · exact ⟨t, hreach, hfatal⟩
    · rw [← hflags] at hclosed hahead
      obtain ⟨u, hu, hfatal⟩ := ih _ (hleft ▸ hlt) hf' hq hnq hclosed
        (fun m hm => hahead m (hsub hm)) rfl
      exact ⟨u, hreach.trans hu, hfatal⟩

/-- When a subscriber leaves, the publications can go on to a fatal operation exactly if one
of them is still to send to it. -/
theorem Sound.unsubscribe_fatal_iff (hs : h.Sound) (cap : ℕ) (hsub : h.Subscribed n) :
    (∃ t, Reach (Hub.step cap) (fun _ a => ∃ i, a = .send i) (h.unsubscribe n) t ∧
      t.fatal = true) ↔ h.Addressed n := by
  constructor
  · rintro ⟨t, hr, hfatal⟩
    by_contra haddr
    have hsound := sound_of_reach (hr.mono fun _ _ ⟨i, hi⟩ => hi ▸ trivial)
      (hs.unsubscribe fun _ => haddr)
    rw [hsound.fatal] at hfatal
    cases hfatal
  rintro ⟨p, hp, hnp⟩
  obtain ⟨ch, hch, hn⟩ := hsub
  obtain ⟨c, hc, -, hopen⟩ := hs.subscribed _ n hn
  cases Option.some.inj (hc.symm.trans hch)
  obtain ⟨i, hi⟩ := List.mem_iff_getElem?.mp hp
  have hleft : h.unsubscribe n = { h with
      subscribers := Function.update h.subscribers ch.topic
        ((h.subscribers ch.topic).filter (· ≠ n))
      channels := h.channels.set n { ch with closed := true }
      fatal := h.fatal || ch.closed } := by
    rw [Hub.unsubscribe, hc]
    exact if_pos hn
  rw [hleft]
  refine Hub.reach_fatal ?_ hi hnp ?_ ?_
  · rw [hs.fatal, hopen]
    rfl
  · rw [closedFlags, List.getElem?_map, getElem?_set_of_some hc]
    rfl
  · intro m hm
    obtain ⟨c', hc', -⟩ := hs.ahead p hp m hm
    simpa [closedFlags] using (List.getElem?_eq_some_iff.mp hc').1

end Topics

end Hub
end Comlink.FanOut
