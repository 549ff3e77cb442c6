import Comlink.ClockAncestry
import Comlink.TotalOrderGroup

/-!
# Waves have no gaps

The wave of a message is the largest entry of its clock. A wave beyond the first is opened
by a message whose own number exceeds all else that it has seen, and whose predecessor lies
in the wave before. Going back along the parents therefore meets every wave on the way down,
and the total order layer never asks for a wave that the graph has left out.
-/
namespace Comlink
open GuardedRuns ListScans VectorClock

namespace Graph

variable {m : Membership} {g : Graph} {n : Node}

/-- A message is in no wave before its own number. -/
theorem WellDerived.senderSeq_le_wave (h : WellDerived m n) : n.senderSeq ≤ n.wave := by
  rw [h.wave, ← h.seq]
  exact atSlot_le_waveOf _ _

/-- A wave that none of the parents of a message has reached is the message's own number. -/
theorem Sound.wave_eq_of_opens (h : Sound m g) (hn : n ∈ g.nodes) {w : ℕ} (hpos : 0 < w)
    (hle : w ≤ n.wave) (hparents : ∀ a, g.Parent a n → a.wave < w) : n.wave = w := by
  have hd := h.derived n hn
  have hparent : ∀ k ∈ n.parents, k.seq < w := by
    intro k hk
    obtain ⟨a, ha, rfl⟩ := has_iff.mp (h.closed hn hk)
    exact (h.derived a ha).senderSeq_le_wave.trans_lt (hparents a ⟨ha, hn, hk⟩)
  have hmem : n.wave ∈ n.envelope.id.vectorClock := by
    have hw : n.wave = waveOf n.envelope.id.vectorClock := hd.wave
    rw [hw]
    exact runningMax_mem (by rw [← waveOf, ← hw]; omega)
  obtain ⟨i, hi, hentry⟩ := List.mem_iff_getElem.mp hmem
  rw [← atSlot_eq_getElem hi] at hentry
  have hslot : i = n.senderSlot := by
    by_contra hne
    obtain ⟨r, hr⟩ : ∃ r, m.allReplicas[i]? = some r :=
      ⟨_, List.getElem?_eq_getElem (hi.trans_le hd.length_le)⟩
    have hk : (⟨r, n.wave⟩ : Key) ∈ n.parents := by
      rw [hd.parents, mem_requiredParents]
      refine ⟨i, hr, ?_⟩
      rw [requiredSeq, if_neg hne, hentry, if_neg (by omega)]
    exact absurd (hparent _ hk) (Nat.not_lt.mpr hle)
  rw [hslot, hd.seq] at hentry
  by_contra hne
  have hk := h.own_parent hn (by omega)
  have hlt : n.senderSeq - 1 < w := hparent _ hk
  omega

/-- Below the wave of a message no wave is missing. -/
theorem Sound.exists_wave (h : Sound m g) (hn : n ∈ g.nodes) {w : ℕ} (hpos : 0 < w)
    (hle : w ≤ n.wave) : ∃ a ∈ g.nodes, a.wave = w := by
  obtain ⟨pre, post, hg⟩ := List.append_of_mem hn
  induction hlen : pre.length using Nat.strong_induction_on generalizing pre n post with
  | _ len ih =>
    subst hlen
    by_cases hparents : ∀ a, g.Parent a n → a.wave < w
    · exact ⟨n, hn, h.wave_eq_of_opens hn hpos hle hparents⟩
    · push Not at hparents
      obtain ⟨a, ha, hwave⟩ := hparents
      obtain ⟨u, v, rfl⟩ := List.append_of_mem (h.mem_of_parent ha hg)
      refine ih u.length ?_ ha.1 hwave u (v ++ n :: post) ?_ rfl
      · simp
      · rw [hg, List.append_assoc, List.cons_append]

theorem Sound.waves_eq_range (h : Sound m g) :
    g.waves = List.range' 1 (runningMax (g.nodes.map Node.wave)) := by
  have hsorted : g.waves.Pairwise (· ≤ ·) := List.pairwise_insertionSort _ _
  refine List.Perm.eq_of_pairwise (fun a b _ _ => Nat.le_antisymm) hsorted
    List.pairwise_le_range' ?_
  refine (List.perm_ext_iff_of_nodup ?_ List.nodup_range').mpr fun w => ?_
  · exact (List.perm_insertionSort _ _).nodup_iff.mpr (List.nodup_dedup _)
  · rw [mem_waves, List.mem_range'_1]
    constructor
    · rintro ⟨n, hn, rfl⟩
      have hd := h.derived n hn
      have hmax : n.wave ≤ runningMax (g.nodes.map Node.wave) :=
        le_runningMax (List.mem_map_of_mem hn)
      have hseq := hd.senderSeq_le_wave
      have hpos := hd.seq_pos
      omega
    · rintro ⟨hpos, hlt⟩
      have hmem : runningMax (g.nodes.map Node.wave) ∈ g.nodes.map Node.wave :=
        runningMax_mem (by omega)
      obtain ⟨n, hn, hw⟩ := List.mem_map.mp hmem
      exact h.exists_wave hn hpos (by omega)

end Graph

namespace TotalGroup

variable {G : Group} {s : TotalGroup} {p : ReplicaID}

/-- Waves never decrease along parents and along the messages of one sender, none is missing
below the last, and the next one is not empty while a later one is not. Each replica is one
process over the whole run: none is restarted. -/
theorem waves_are_consecutive (hr : Reach (step G) Static (initial G) s) (hp : p ∈ G.members) :
    (∀ a b, (s.net p).graph.Parent a b → a.wave ≤ b.wave) ∧
      (∀ a ∈ (s.net p).graph.nodes, ∀ b ∈ (s.net p).graph.nodes,
        a.envelope.sender = b.envelope.sender → a.senderSeq ≤ b.senderSeq → a.wave ≤ b.wave) ∧
      (s.net p).graph.waves =
        List.range' 1 (runningMax ((s.net p).graph.nodes.map Node.wave)) ∧
      ((∃ n ∈ (s.net p).graph.nodes, (s.total p).nextWave ≤ n.wave) → s.bucket p ≠ []) := by
  obtain ⟨hinv, hbelow⟩ : Invariant G s ∧ G.OwnParentsBelow s.net :=
    hr.invariant (P := fun s => Invariant G s ∧ G.OwnParentsBelow s.net)
      ⟨invariant_initial G, Group.ownParentsBelow_start G⟩ fun s a t h hs hstep => by
        refine ⟨(h.1.step hs hstep).1, ?_⟩
        cases a with
        | net a =>
          obtain ⟨net, hnet, rfl⟩ := step_net hstep
          exact h.2.step h.1.group hs hnet
        | pump q a =>
          obtain ⟨-, t', -, rfl⟩ := step_pump hstep
          exact h.2
  have hsound := (hinv.group.live p hp).sound
  refine ⟨fun a b hab => hbelow.wave_le hinv.group hp (.single hab), ?_, hsound.waves_eq_range, ?_⟩
  · exact fun a ha b hb hsender hle => hinv.group.wave_le_of_seq_le hp hp ha hb hsender hle
  · rintro ⟨n, hn, hle⟩
    obtain ⟨a, ha, hw⟩ := hsound.exists_wave hn (hinv.total p hp).positive hle
    exact List.ne_nil_of_mem (Graph.mem_messagesInWave.mpr ⟨ha, hw⟩)

/-- The first of two replicas sends twice before the second answers. -/
def twoWaves : List TotalAction :=
  [send [1], send [1], receive [2] (message [1] [1, 0]), receive [2] (message [1] [2, 0]), send [2]]

theorem waves_are_consecutive_twoWaves : ∃ s,
    execute (step ⟨[0], [[1], [2]]⟩) Static (initial ⟨[0], [[1], [2]]⟩) twoWaves = some s ∧
      (s.net [2]).graph.nodes.map Node.wave = [1, 2, 2] ∧ (s.net [2]).graph.waves = [1, 2] ∧
      s.bucket [2] ≠ [] := by
  have hrun : (execute (step ⟨[0], [[1], [2]]⟩) Static (initial ⟨[0], [[1], [2]]⟩) twoWaves).map
      (fun s => decide ((s.net [2]).graph.nodes.map Node.wave = [1, 2, 2] ∧
        ∃ n ∈ (s.net [2]).graph.nodes, (s.total [2]).nextWave ≤ n.wave)) = some true := by
    decide +kernel
  obtain ⟨s, he, hr, hc⟩ := reach_of_execute hrun
  obtain ⟨hwaves, hahead⟩ := of_decide_eq_true hc
  obtain ⟨-, -, hrange, hbucket⟩ := waves_are_consecutive (p := [2]) hr (by decide)
  refine ⟨s, he, hwaves, ?_, hbucket hahead⟩
  rw [hrange, hwaves]
  rfl

end TotalGroup
end Comlink
