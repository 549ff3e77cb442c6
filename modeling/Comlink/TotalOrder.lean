import Comlink.BlockSequences
import Comlink.ReplicaGroup
import Comlink.SortedPermutations
import Comlink.Stability

/-!
# The total order layer

The pump of `order/total.go`. It reads the delivery channel of its conversation and
drains one wave after the other: a wave is fetched once it is complete and every
active replica has been observed in a later wave, and its messages are emitted sorted
by sender. The queries `WaveComplete`, `Membership` and `MessagesInWave` are separate
calls, between which the conversation may move on, so each is a step of its own here.
`drained` is the history of the fetched waves as the sort returned them.
-/
namespace Comlink
open SortedPermutations BlockSequences

/-- Where the pump stands between two of its calls. -/
inductive TotalPhase where
  | recv
  | waveComplete
  | membership
  | messagesInWave
  | emit (rest : List Envelope)
  deriving DecidableEq, Repr

inductive PumpAction where
  | recv
  | waveComplete
  | membership
  | messagesInWave (sorted : List Envelope)
  | emit
  deriving DecidableEq, Repr

structure Total where
  nextWave : ℕ
  latestWave : AList (fun _ : ReplicaID => ℕ)
  received : ℕ
  phase : TotalPhase
  drained : List (List Envelope)
  emitted : List Envelope

/-- The comparator of the sort within a wave: the bytes of the sender. -/
def bySender (a b : Envelope) : Prop := a.sender < b.sender

instance (a b : Envelope) : Decidable (bySender a b) :=
  inferInstanceAs (Decidable (a.sender < b.sender))

namespace Total

def new : Total := ⟨1, ∅, 0, .recv, [], []⟩

def noteObservedWave (t : Total) (env : Envelope) : Total :=
  match t.latestWave.lookup env.sender with
  | none => { t with latestWave := t.latestWave.insert env.sender env.wave }
  | some cur =>
    if cur < env.wave then { t with latestWave := t.latestWave.insert env.sender env.wave }
    else t

/-- Every active replica has been observed in a wave after `wave`. -/
def continuationProperty (t : Total) (m : Membership) (wave : ℕ) : Bool :=
  m.slots.all fun s => s.frozen || match t.latestWave.lookup s.replica with
    | none => false
    | some w => decide (wave < w)

/-- One call of the pump against the present state of its conversation; `none` when
the pump is not at that call, has nothing to receive, or the query panics. -/
def pump (c : Conversation) (t : Total) (a : PumpAction) : Option Total :=
  match t.phase, a with
  | .recv, .recv => (c.delivered[t.received]?).map fun env =>
      { t.noteObservedWave env with received := t.received + 1, phase := .waveComplete }
  | .waveComplete, .waveComplete => (c.graph.waveComplete c.membership t.nextWave).map
      fun complete => { t with phase := if complete then .membership else .recv }
  | .membership, .membership =>
      some { t with phase :=
        if t.continuationProperty c.membership t.nextWave then .messagesInWave else .recv }
  | .messagesInWave, .messagesInWave sorted =>
      if IsSortOf bySender ((c.graph.messagesInWave t.nextWave).map Node.envelope) sorted then
        some { t with phase := .emit sorted, drained := t.drained ++ [sorted] }
      else none
  | .emit [], .emit => some { t with nextWave := t.nextWave + 1, phase := .waveComplete }
  | .emit (env :: rest), .emit =>
      some { t with emitted := t.emitted ++ [env], phase := .emit rest }
  | _, _ => none

/-- What has been fetched and not yet emitted. -/
def pending (t : Total) : List Envelope :=
  match t.phase with
  | .emit rest => rest
  | _ => []

/-- The waves fetched so far, counting the one being emitted. -/
def fetched (t : Total) : ℕ :=
  match t.phase with
  | .emit _ => t.nextWave
  | _ => t.nextWave - 1

end Total

namespace Conversation

/-- The replica holds a slot that is not frozen. -/
def Active (c : Conversation) (r : ReplicaID) : Prop :=
  ∃ s ∈ c.membership.slots, s.replica = r ∧ s.frozen = false

/-- Every slot of the replica is frozen. -/
def Frozen (c : Conversation) (r : ReplicaID) : Prop :=
  ∀ s ∈ c.membership.slots, s.replica = r → s.frozen = true

instance (c : Conversation) (r : ReplicaID) : Decidable (c.Frozen r) :=
  inferInstanceAs (Decidable (∀ s ∈ c.membership.slots, s.replica = r → s.frozen = true))

theorem not_frozen_iff {c : Conversation} {r : ReplicaID} : ¬ c.Frozen r ↔ c.Active r := by
  simp [Frozen, Active]

/-- Every active replica has a message in a wave after `w`. -/
def Passed (c : Conversation) (w : ℕ) : Prop :=
  ∀ r, c.Active r → ∃ n ∈ c.graph.nodes, n.envelope.sender = r ∧ w < n.wave

theorem Extends.active_of {c c' : Conversation} (h : Extends c c') {r : ReplicaID}
    (hr : c'.Active r) : c.Active r := by
  obtain ⟨s, hs, hsr, hf⟩ := hr
  exact ⟨s, h.active s hs hf, hsr, hf⟩

theorem Passed.extends {c c' : Conversation} {w : ℕ} (hp : c.Passed w) (h : Extends c c') :
    c'.Passed w := by
  intro r hr
  obtain ⟨n, hn, hs, hw⟩ := hp r (h.active_of hr)
  exact ⟨n, h.nodes.subset hn, hs, hw⟩

end Conversation

namespace Total
open Conversation

variable {c c' : Conversation} {t t' : Total}

/-- What the pump knows about its conversation, whose graph is ahead of it. -/
structure Invariant (c : Conversation) (t : Total) : Prop where
  split : t.drained.flatten = t.emitted ++ t.pending
  count : t.drained.length = t.fetched
  current : ∀ e ∈ t.pending, e.wave = t.nextWave
  positive : 0 < t.nextWave
  observed : ∀ r w, t.latestWave.lookup r = some w →
    ∃ n ∈ c.graph.nodes, n.envelope.sender = r ∧ n.wave = w
  gated : t.phase = .messagesInWave → c.Passed t.nextWave
  ranked : Ranked Envelope.wave t.drained
  distinct : ∀ b ∈ t.drained, b.Nodup
  sorted : ∀ b ∈ t.drained, IsSortOf bySender b b
  stored : ∀ b ∈ t.drained, ∀ e ∈ b, ∃ n ∈ c.graph.nodes, n.envelope = e
  closed : ∀ i, i < t.drained.length → c.Passed (i + 1)
  complete : ∀ i b, t.drained[i]? = some b → ∀ n ∈ c.graph.nodes, n.wave = i + 1 →
    c.Active n.envelope.sender → n.envelope ∈ b

theorem invariant_new (c : Conversation) : Invariant c new := by
  refine ⟨rfl, rfl, nofun, Nat.one_pos, ?_, nofun, ranked_nil, nofun, nofun, nofun, ?_, ?_⟩
  · intro r w h
    cases h
  · intro i hi
    cases hi
  · intro i b hb
    cases hb

/-- A conversation that grows without late arrivals keeps the invariant: a new message
of a wave that its sender has left was stored before. -/
theorem Invariant.grow (h : Invariant c t) (he : Extends c c')
    (hlate : ∀ n ∈ c'.graph.nodes, ∀ x ∈ c.graph.nodes, x.envelope.sender = n.envelope.sender →
      n.wave < x.wave → ∃ a ∈ c.graph.nodes, a.envelope = n.envelope ∧ a.wave = n.wave) :
    Invariant c' t := by
  refine ⟨h.split, h.count, h.current, h.positive, ?_, fun hp => (h.gated hp).extends he, h.ranked,
    h.distinct, h.sorted, ?_, fun i hi => (h.closed i hi).extends he, ?_⟩
  · intro r w hl
    obtain ⟨n, hn, hs, hw⟩ := h.observed r w hl
    exact ⟨n, he.nodes.subset hn, hs, hw⟩
  · intro b hb e heb
    obtain ⟨n, hn, hne⟩ := h.stored b hb e heb
    exact ⟨n, he.nodes.subset hn, hne⟩
  · intro i b hb n hn hw hact
    have hi : i < t.drained.length := (List.getElem?_eq_some_iff.mp hb).1
    have hact' := he.active_of hact
    obtain ⟨x, hx, hxs, hxw⟩ := h.closed i hi n.envelope.sender hact'
    obtain ⟨a, ha, hae, haw⟩ := hlate n hn x hx hxs (by omega)
    have hmem := h.complete i b hb a ha (haw.trans hw)
    rw [hae] at hmem
    exact hmem hact'

section PumpSteps

theorem lookup_noteObservedWave {env : Envelope} {r : ReplicaID} {w : ℕ}
    (h : (t.noteObservedWave env).latestWave.lookup r = some w) :
    t.latestWave.lookup r = some w ∨ (env.sender = r ∧ env.wave = w) := by
  have hinsert : (t.latestWave.insert env.sender env.wave).lookup r = some w →
      t.latestWave.lookup r = some w ∨ (env.sender = r ∧ env.wave = w) := by
    intro hl
    by_cases hr : r = env.sender
    · subst hr
      rw [AList.lookup_insert] at hl
      exact Or.inr ⟨rfl, Option.some.inj hl⟩
    · rw [AList.lookup_insert_ne hr] at hl
      exact Or.inl hl
  unfold noteObservedWave at h
  split at h
  · exact hinsert h
  · split at h
    · exact hinsert h
    · exact Or.inl h

theorem noteObservedWave_eq (t : Total) (env : Envelope) :
    t.noteObservedWave env = { t with latestWave := (t.noteObservedWave env).latestWave } := by
  unfold noteObservedWave
  split
  · rfl
  · split <;> rfl

theorem continuationProperty_passed (h : Invariant c t) {w : ℕ}
    (hg : t.continuationProperty c.membership w = true) : c.Passed w := by
  rintro r ⟨s, hs, rfl, hf⟩
  have hslot := List.all_eq_true.mp hg s hs
  rw [hf, Bool.false_or] at hslot
  split at hslot
  · cases hslot
  · rename_i w' hl
    obtain ⟨n, hn, hns, hnw⟩ := h.observed _ _ hl
    exact ⟨n, hn, hns, by simpa [hnw] using hslot⟩

/-- Everything that one call of the pump can do. -/
inductive PumpEffect (c : Conversation) (t : Total) : PumpAction → Total → Prop
  | recv {env : Envelope} (hp : t.phase = .recv) (henv : c.delivered[t.received]? = some env) :
      PumpEffect c t .recv { t with
        latestWave := (t.noteObservedWave env).latestWave
        received := t.received + 1
        phase := .waveComplete }
  | waveComplete {phase : TotalPhase} (hp : t.phase = .waveComplete)
      (hphase : phase = .membership ∨ phase = .recv) :
      PumpEffect c t .waveComplete { t with phase := phase }
  | refused (hp : t.phase = .membership) :
      PumpEffect c t .membership { t with phase := .recv }
  | admitted (hp : t.phase = .membership)
      (hg : t.continuationProperty c.membership t.nextWave = true) :
      PumpEffect c t .membership { t with phase := .messagesInWave }
  | fetch {sorted : List Envelope} (hp : t.phase = .messagesInWave)
      (hs : IsSortOf bySender ((c.graph.messagesInWave t.nextWave).map Node.envelope) sorted) :
      PumpEffect c t (.messagesInWave sorted)
        { t with phase := .emit sorted, drained := t.drained ++ [sorted] }
  | next (hp : t.phase = .emit []) :
      PumpEffect c t .emit { t with nextWave := t.nextWave + 1, phase := .waveComplete }
  | emit {env : Envelope} {rest : List Envelope} (hp : t.phase = .emit (env :: rest)) :
      PumpEffect c t .emit { t with emitted := t.emitted ++ [env], phase := .emit rest }

theorem pump_effect {a : PumpAction} (h : t.pump c a = some t') : PumpEffect c t a t' := by
  unfold pump at h
  split at h
  · rename_i hp
    obtain ⟨env, henv, rfl⟩ := Option.map_eq_some_iff.mp h
    rw [noteObservedWave_eq]
    exact .recv hp henv
  · rename_i hp
    obtain ⟨complete, _, rfl⟩ := Option.map_eq_some_iff.mp h
    refine .waveComplete hp ?_
    cases complete
    · exact Or.inr rfl
    · exact Or.inl rfl
  · rename_i hp
    rw [← Option.some.inj h]
    by_cases hg : t.continuationProperty c.membership t.nextWave = true
    · rw [if_pos hg]
      exact .admitted hp hg
    · rw [if_neg hg]
      exact .refused hp
  · rename_i hp
    split at h
    · rename_i hs
      rw [← Option.some.inj h]
      exact .fetch hp hs
    · cases h
  · rename_i hp
    rw [← Option.some.inj h]
    exact .next hp
  · rename_i hp
    rw [← Option.some.inj h]
    exact .emit hp
  · cases h

/-- Only a fetch extends the history of drained waves. -/
theorem drained_pump {a : PumpAction} (h : t.pump c a = some t') :
    t'.drained = t.drained ∨ ∃ sorted, a = .messagesInWave sorted ∧
      t.phase = .messagesInWave ∧ t'.drained = t.drained ++ [sorted] ∧
      IsSortOf bySender ((c.graph.messagesInWave t.nextWave).map Node.envelope) sorted := by
  cases pump_effect h with
  | fetch hp hs => exact Or.inr ⟨_, rfl, hp, rfl, hs⟩
  | _ => exact Or.inl rfl

theorem node_of_sorted {w : ℕ} {sorted : List Envelope}
    (hs : IsSortOf bySender ((c.graph.messagesInWave w).map Node.envelope) sorted)
    {e : Envelope} (he : e ∈ sorted) : ∃ n ∈ c.graph.nodes, n.envelope = e ∧ n.wave = w := by
  obtain ⟨n, hn, hne⟩ := List.mem_map.mp (hs.mem_iff.mp he)
  obtain ⟨hng, hw⟩ := Graph.mem_messagesInWave.mp hn
  exact ⟨n, hng, hne, hw⟩

theorem Invariant.length_drained (h : Invariant c t) (hp : t.phase = .messagesInWave) :
    t.drained.length + 1 = t.nextWave := by
  have hc := h.count
  have hpos := h.positive
  simp only [fetched, hp] at hc
  omega

/-- The bucket of the fetched wave joins the drained ones, each complete for the senders
that are not frozen. -/
theorem Invariant.complete_fetch (h : Invariant c t) {sorted : List Envelope}
    (hp : t.phase = .messagesInWave)
    (hs : IsSortOf bySender ((c.graph.messagesInWave t.nextWave).map Node.envelope) sorted)
    {i : ℕ} {b : List Envelope} (hb : (t.drained ++ [sorted])[i]? = some b) {n : Node}
    (hn : n ∈ c.graph.nodes) (hw : n.wave = i + 1)
    (hact : c.Active n.envelope.sender) : n.envelope ∈ b := by
  have hlen := h.length_drained hp
  rcases Nat.lt_or_ge i t.drained.length with hlt | hge
  · rw [List.getElem?_append_left hlt] at hb
    exact h.complete i b hb n hn hw hact
  · rw [List.getElem?_append_right hge, List.getElem?_singleton] at hb
    split at hb
    · rw [← Option.some.inj hb, hs.mem_iff]
      have hnw : n.wave = t.nextWave := by omega
      exact List.mem_map_of_mem (Graph.mem_messagesInWave.mpr ⟨hn, hnw⟩)
    · cases hb

theorem Invariant.fetch (h : Invariant c t) (hsound : c.graph.Sound c.membership)
    {sorted : List Envelope} (hp : t.phase = .messagesInWave)
    (hs : IsSortOf bySender ((c.graph.messagesInWave t.nextWave).map Node.envelope) sorted) :
    Invariant c { t with phase := .emit sorted, drained := t.drained ++ [sorted] } := by
  have hlen := h.length_drained hp
  have hwave : ∀ e ∈ sorted, e.wave = t.nextWave := by
    intro e he
    obtain ⟨n, hn, rfl, hw⟩ := node_of_sorted hs he
    exact (hsound.derived n hn).wave.symm.trans hw
  refine ⟨?_, ?_, hwave, h.positive, h.observed, nofun, ?_, ?_, ?_, ?_, ?_, ?_⟩
  · have hsplit := h.split
    simp only [pending, hp, List.append_nil] at hsplit
    simp only [pending, List.flatten_append, hsplit, List.flatten_singleton]
  · simp only [fetched, List.length_append, List.length_singleton]
    exact hlen
  · refine h.ranked.append ?_
    intro e he
    rw [hlen]
    exact hwave e he
  · intro b hb
    rcases List.mem_append.mp hb with hb | hb
    · exact h.distinct b hb
    · rw [List.mem_singleton.mp hb, hs.1.nodup_iff]
      exact hsound.nodup_envelopes.sublist (List.filter_sublist.map _)
  · intro b hb
    rcases List.mem_append.mp hb with hb | hb
    · exact h.sorted b hb
    · rw [List.mem_singleton.mp hb]
      exact ⟨List.Perm.refl _, hs.2⟩
  · intro b hb e he
    rcases List.mem_append.mp hb with hb | hb
    · exact h.stored b hb e he
    · rw [List.mem_singleton.mp hb] at he
      obtain ⟨n, hn, hne, _⟩ := node_of_sorted hs he
      exact ⟨n, hn, hne⟩
  · intro i hi
    simp only [List.length_append, List.length_singleton] at hi
    rcases Nat.lt_or_ge i t.drained.length with hlt | hge
    · exact h.closed i hlt
    · have hi' : i + 1 = t.nextWave := by omega
      rw [hi']
      exact h.gated hp
  · exact fun i b hb n hn hw hact => h.complete_fetch hp hs hb hn hw hact

/-- The history of fetched waves carries most of the invariant. -/
theorem Invariant.of_drained (h : Invariant c t) (hd : t'.drained = t.drained)
    (hsplit : t.drained.flatten = t'.emitted ++ t'.pending)
    (hcount : t.drained.length = t'.fetched) (hcur : ∀ e ∈ t'.pending, e.wave = t'.nextWave)
    (hpos : 0 < t'.nextWave)
    (hobs : ∀ r w, t'.latestWave.lookup r = some w →
      ∃ n ∈ c.graph.nodes, n.envelope.sender = r ∧ n.wave = w)
    (hgate : t'.phase = .messagesInWave → c.Passed t'.nextWave) : Invariant c t' := by
  refine ⟨?_, ?_, hcur, hpos, hobs, hgate, ?_, ?_, ?_, ?_, ?_, ?_⟩ <;> rw [hd]
  · exact hsplit
  · exact hcount
  · exact h.ranked
  · exact h.distinct
  · exact h.sorted
  · exact h.stored
  · exact h.closed
  · exact h.complete

theorem Invariant.pump (h : Invariant c t) {members : List ReplicaID} (hl : Live members c)
    {a : PumpAction} (hstep : t.pump c a = some t') : Invariant c t' := by
  have hsplit := h.split
  have hcount := h.count
  cases pump_effect hstep with
  | recv hp henv =>
    simp only [pending, fetched, hp] at hsplit hcount
    refine h.of_drained rfl hsplit hcount nofun h.positive ?_ nofun
    intro r w hlookup
    rcases lookup_noteObservedWave hlookup with hold | ⟨hr, hw⟩
    · exact h.observed r w hold
    · have hmem := List.mem_of_getElem? henv
      rw [hl.delivered] at hmem
      obtain ⟨n, hn, rfl⟩ := List.mem_map.mp hmem
      exact ⟨n, hn, hr, (hl.sound.derived n hn).wave.trans hw⟩
  | waveComplete hp hphase =>
    simp only [pending, fetched, hp] at hsplit hcount
    rcases hphase with rfl | rfl
    · exact h.of_drained rfl hsplit hcount nofun h.positive h.observed nofun
    · exact h.of_drained rfl hsplit hcount nofun h.positive h.observed nofun
  | refused hp =>
    simp only [pending, fetched, hp] at hsplit hcount
    exact h.of_drained rfl hsplit hcount nofun h.positive h.observed nofun
  | admitted hp hg =>
    simp only [pending, fetched, hp] at hsplit hcount
    exact h.of_drained rfl hsplit hcount nofun h.positive h.observed
      (fun _ => continuationProperty_passed h hg)
  | fetch hp hs => exact h.fetch hl.sound hp hs
  | next hp =>
    simp only [pending, fetched, hp] at hsplit hcount
    exact h.of_drained rfl hsplit hcount nofun (Nat.succ_pos _) h.observed nofun
  | emit hp =>
    simp only [pending, fetched, hp] at hsplit hcount
    refine h.of_drained rfl ?_ hcount ?_ h.positive h.observed nofun
    · simp only [pending, hsplit, List.append_assoc, List.singleton_append]
    · intro e he
      apply h.current
      simp only [pending, hp]
      exact List.mem_cons_of_mem _ he

/-- The messages of the waves already passed have all been emitted. -/
theorem Invariant.emitted_of_wave_lt (h : Invariant c t) {e : Envelope}
    (he : e ∈ t.drained.flatten) (hw : e.wave < t.nextWave) : e ∈ t.emitted := by
  rw [h.split] at he
  rcases List.mem_append.mp he with he | he
  · exact he
  · have := h.current e he
    omega

theorem Invariant.lt_fetched (h : Invariant c t) {w : ℕ} (hw : w < t.nextWave) :
    w ≤ t.drained.length := by
  rw [h.count]
  unfold fetched
  split <;> omega

end PumpSteps

end Total
end Comlink
