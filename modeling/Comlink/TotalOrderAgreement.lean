import Comlink.TotalOrderDelivery

/-!
# Agreement of the emitted sequences

Two replicas emit prefix-comparable sequences as long as every wave that both drain
has the same messages at both and no two of them by one sender. The first part can
fail only through frozen slots, which the gate skips; the second can fail whenever a
member sends twice in one wave, because the comparator looks at the sender alone.
-/
namespace Comlink.TotalGroup
open GuardedRuns Conversation SortedPermutations BlockSequences

variable {G : Group} {s t : TotalGroup} {p q : ReplicaID}

/-- A fetched wave has at most one message of each sender. -/
def DistinctSenders (s : TotalGroup) : TotalAction → Prop
  | .pump p (.messagesInWave _) => ((s.bucket p).map (·.envelope.sender)).Nodup
  | _ => True

/-- No member has frozen the slot of `p`. -/
def Undisturbed (G : Group) (s : TotalGroup) (p : ReplicaID) : Prop :=
  ∀ q ∈ G.members, ¬ (s.net q).Frozen p

instance (G : Group) (s : TotalGroup) (p : ReplicaID) : Decidable (Undisturbed G s p) :=
  inferInstanceAs (Decidable (∀ q ∈ G.members, ¬ (s.net q).Frozen p))

/-- Where `q` is about to fetch a wave that `p` has drained, both have the same messages
of every member that one of them has frozen. -/
def SameOfFrozen (G : Group) (s : TotalGroup) (q p : ReplicaID) : Prop :=
  ∀ b ∈ (s.total p).drained[(s.total q).nextWave - 1]?, ∀ r ∈ G.members,
    (s.net p).Frozen r ∨ (s.net q).Frozen r →
      (∀ e ∈ b, e.sender = r → e ∈ (s.bucket q).map Node.envelope) ∧
        ∀ n ∈ s.bucket q, n.envelope.sender = r → n.envelope ∈ b

instance (G : Group) (s : TotalGroup) (q p : ReplicaID) : Decidable (SameOfFrozen G s q p) :=
  inferInstanceAs (Decidable (∀ b ∈ (s.total p).drained[(s.total q).nextWave - 1]?,
    ∀ r ∈ G.members, (s.net p).Frozen r ∨ (s.net q).Frozen r →
      (∀ e ∈ b, e.sender = r → e ∈ (s.bucket q).map Node.envelope) ∧
        ∀ n ∈ s.bucket q, n.envelope.sender = r → n.envelope ∈ b))

/-- A replica that nobody has frozen fetches a wave without two messages of one sender,
and with the frozen members' messages that the others like it have drained. -/
def Reconciled (G : Group) (s : TotalGroup) : TotalAction → Prop
  | .pump q (.messagesInWave _) => Undisturbed G s q →
      ((s.bucket q).map (·.envelope.sender)).Nodup ∧
        ∀ p ∈ G.members, Undisturbed G s p → SameOfFrozen G s q p
  | _ => True

instance (s : TotalGroup) (a : TotalAction) : Decidable (DistinctSenders s a) :=
  match a with
  | .pump p (.messagesInWave _) =>
    inferInstanceAs (Decidable ((s.bucket p).map (·.envelope.sender)).Nodup)
  | .net _ | .pump _ .recv | .pump _ .waveComplete | .pump _ .membership | .pump _ .emit =>
    isTrue trivial

instance (G : Group) (s : TotalGroup) (a : TotalAction) : Decidable (Reconciled G s a) :=
  match a with
  | .pump q (.messagesInWave _) =>
    inferInstanceAs (Decidable (Undisturbed G s q →
      ((s.bucket q).map (·.envelope.sender)).Nodup ∧
        ∀ p ∈ G.members, Undisturbed G s p → SameOfFrozen G s q p))
  | .net _ | .pump _ .recv | .pump _ .waveComplete | .pump _ .membership | .pump _ .emit =>
    isTrue trivial

theorem Undisturbed.of_later {net' : Network} {total' : ReplicaID → Total}
    (hlater : G.Later s.net net') (h : Undisturbed G ⟨net', total'⟩ p) : Undisturbed G s p := by
  intro q hq
  exact not_frozen_iff.mpr ((hlater q hq).active_of (not_frozen_iff.mp (h q hq)))

/-- Two waves without two messages of one sender that hold the same messages come out
of the sort as the same list. -/
theorem sorted_unique {b out inp : List Envelope} (hb : IsSortOf bySender b b)
    (hnb : b.Nodup) (hout : IsSortOf bySender inp out) (hni : inp.Nodup)
    (hd : (inp.map Envelope.sender).Nodup) (hmem : ∀ e, e ∈ b ↔ e ∈ inp) : b = out := by
  refine hb.unique hout ((List.perm_ext_iff_of_nodup hnb hni).mpr hmem) ?_
  intro x hx y hy hxy hyx
  have hsender : x.sender = y.sender := List.le_antisymm hyx hxy
  exact List.inj_on_of_nodup_map hd ((hmem x).mp hx) ((hmem y).mp hy) hsender

/-- At the moment of a fetch the two replicas hold the same messages of the wave. -/
theorem same_wave (h : Invariant G s) (hp : p ∈ G.members) (hq : q ∈ G.members)
    (hphase : (s.total q).phase = .messagesInWave) (hsame : SameOfFrozen G s q p)
    {b : List Envelope} (hb : (s.total p).drained[(s.total q).nextWave - 1]? = some b)
    (e : Envelope) : e ∈ b ↔ e ∈ (s.bucket q).map Node.envelope := by
  have htp := h.total p hp
  have htq := h.total q hq
  have hpos := htq.positive
  have hidx := (List.getElem?_eq_some_iff.mp hb).1
  have hlater := Group.Later.refl G s.net
  have hwave : (s.total q).nextWave - 1 + 1 = (s.total q).nextWave := by omega
  constructor
  · intro he
    have hstored := htp.stored b (List.mem_of_getElem? hb) e he
    obtain ⟨r, hr, hsender, hissued⟩ := h.group.held p hp e (Or.inl hstored)
    have hes : e.sender = r := by simp [Envelope.sender, hsender]
    have hew := htp.ranked _ b hb e he
    by_cases hf : (s.net p).Frozen r ∨ (s.net q).Frozen r
    · exact (hsame b hb r hr hf).1 e he hes
    · have hact : (s.net q).Active r := not_frozen_iff.mp fun hfr => hf (Or.inr hfr)
      obtain ⟨n, hn, rfl⟩ := stored_of_passed h h hlater hq hr hact hissued
        (htq.gated hphase) (by omega)
      refine List.mem_map_of_mem (Graph.mem_messagesInWave.mpr ⟨hn, ?_⟩)
      rw [h.group.wave_eq hq hn]
      omega
  · intro he
    obtain ⟨n, hn, rfl⟩ := List.mem_map.mp he
    obtain ⟨hng, hnw⟩ := Graph.mem_messagesInWave.mp hn
    obtain ⟨hr, hissued⟩ := h.group.own_node hq hng rfl
    rw [h.group.wave_eq hq hng] at hnw
    by_cases hf : (s.net p).Frozen n.envelope.sender ∨ (s.net q).Frozen n.envelope.sender
    · exact (hsame b hb _ hr hf).2 n hn rfl
    · have hact : (s.net p).Active n.envelope.sender :=
        not_frozen_iff.mp fun hfr => hf (Or.inl hfr)
      obtain ⟨a, ha, hae⟩ := stored_of_passed h h hlater hp hr hact hissued
        (htp.closed _ hidx) (by omega)
      have hmem := htp.complete _ b hb a ha (by rw [h.group.wave_eq hp ha, hae]; omega)
      rw [hae] at hmem
      exact hmem hact

/-- Replicas that nobody has frozen have drained the same lists. -/
def Agreed (G : Group) (s : TotalGroup) : Prop :=
  ∀ p ∈ G.members, ∀ q ∈ G.members, Undisturbed G s p → Undisturbed G s q →
    ∀ (i : ℕ) b b', (s.total p).drained[i]? = some b → (s.total q).drained[i]? = some b' → b = b'

theorem agreed_initial (G : Group) : Agreed G (initial G) := by
  intro p _ q _ _ _ i b b' hb
  cases hb

theorem Agreed.fetch (ha : Agreed G s) (h : Invariant G s) (hp : p ∈ G.members)
    (hq : q ∈ G.members) (hup : Undisturbed G s p) (huq : Undisturbed G s q)
    {sorted : List Envelope} (hr : Reconciled G s (.pump q (.messagesInWave sorted)))
    (hphase : (s.total q).phase = .messagesInWave)
    (hs : IsSortOf bySender ((s.bucket q).map Node.envelope) sorted) {i : ℕ}
    {b b' : List Envelope} (hb : (s.total p).drained[i]? = some b)
    (hb' : ((s.total q).drained ++ [sorted])[i]? = some b') : b = b' := by
  have htp := h.total p hp
  have htq := h.total q hq
  rcases Nat.lt_or_ge i (s.total q).drained.length with hlt | hge
  · rw [List.getElem?_append_left hlt] at hb'
    exact ha p hp q hq hup huq i b b' hb hb'
  · rw [List.getElem?_append_right hge, List.getElem?_singleton] at hb'
    split at hb'
    · rw [← Option.some.inj hb']
      have hcount := htq.count
      simp only [Total.fetched, hphase] at hcount
      have hi : (s.total q).nextWave - 1 = i := by omega
      have hbm := List.mem_of_getElem? hb
      obtain ⟨hdist, hsame⟩ := hr huq
      rw [← hi] at hb
      refine sorted_unique (htp.sorted b hbm) (htp.distinct b hbm) hs ?_ ?_
        (same_wave h hp hq hphase (hsame p hp hup) hb)
      · exact (h.group.live q hq).sound.nodup_envelopes.sublist (List.filter_sublist.map _)
      · rw [List.map_map]
        exact hdist
    · cases hb'

theorem Agreed.step (ha : Agreed G s) (h : Invariant G s) {a : TotalAction}
    (hst : Static s a) (hr : Reconciled G s a) (hstep : TotalGroup.step G s a = some t) :
    Agreed G t := by
  cases a with
  | net a =>
    have hlater := (h.step hst hstep).2
    obtain ⟨net, _, rfl⟩ := step_net hstep
    intro p hp q hq hup huq
    exact ha p hp q hq (hup.of_later hlater) (huq.of_later hlater)
  | pump r a =>
    obtain ⟨hrm, t', ht', rfl⟩ := step_pump hstep
    intro p hp q hq hup huq i b b' hb hb'
    dsimp only at hb hb'
    rcases Total.drained_pump ht' with hd | ⟨sorted, rfl, hphase, hd, hs⟩
    · have hsame : ∀ x, (Function.update s.total r t' x).drained = (s.total x).drained := by
        intro x
        by_cases hx : x = r
        · subst hx
          rw [Function.update_self, hd]
        · rw [Function.update_of_ne hx]
      rw [hsame] at hb hb'
      exact ha p hp q hq hup huq i b b' hb hb'
    · by_cases hpr : p = r <;> by_cases hqr : q = r
      · subst hpr hqr
        exact Option.some.inj (hb.symm.trans hb')
      · subst hpr
        rw [Function.update_self, hd] at hb
        rw [Function.update_of_ne hqr] at hb'
        exact (ha.fetch h hq hrm huq hup hr hphase hs hb' hb).symm
      · subst hqr
        rw [Function.update_of_ne hpr] at hb
        rw [Function.update_self, hd] at hb'
        exact ha.fetch h hp hrm hup huq hr hphase hs hb hb'
      · rw [Function.update_of_ne hpr] at hb
        rw [Function.update_of_ne hqr] at hb'
        exact ha p hp q hq hup huq i b b' hb hb'

theorem agreed_reach
    (hs : Reach (step G) (fun s a => Static s a ∧ Reconciled G s a) (initial G) s) :
    Invariant G s ∧ Agreed G s :=
  hs.invariant (P := fun s => Invariant G s ∧ Agreed G s)
    ⟨invariant_initial G, agreed_initial G⟩
    (fun _ _ _ h ha hstep => ⟨(h.1.step ha.1 hstep).1, h.2.step h.1 ha.1 ha.2 hstep⟩)

theorem Agreed.prefixComparable (ha : Agreed G s) (h : Invariant G s) (hp : p ∈ G.members)
    (hq : q ∈ G.members) (hup : Undisturbed G s p) (huq : Undisturbed G s q) :
    PrefixComparable (s.total p).emitted (s.total q).emitted := by
  have hcomp := (prefixComparable_of_getElem? (ha p hp q hq hup huq)).flatten
  refine hcomp.of_prefix ?_ ?_
  · rw [(h.total p hp).split]
    exact List.prefix_append _ _
  · rw [(h.total q hq).split]
    exact List.prefix_append _ _

theorem Unfrozen.undisturbed (h : Unfrozen G s) (hp : p ∈ G.members) : Undisturbed G s p :=
  fun _ hq => not_frozen_iff.mpr (h.active hq hp)

theorem Unfrozen.reconciled (h : Unfrozen G s) {a : TotalAction} (hd : DistinctSenders s a)
    (hmem : ∀ q x, a = .pump q x → q ∈ G.members) : Reconciled G s a := by
  match a with
  | .pump q (.messagesInWave sorted) =>
    have hq := hmem q _ rfl
    intro _
    refine ⟨hd, ?_⟩
    intro p hp _ b _ r hr hf
    rcases hf with hf | hf
    · exact absurd hf (not_frozen_iff.mpr (h.active hp hr))
    · exact absurd hf (not_frozen_iff.mpr (h.active hq hr))
  | .net _ | .pump _ .recv | .pump _ .waveComplete | .pump _ .membership | .pump _ .emit =>
    trivial

/-- Without frozen slots, the emitted sequences of any two replicas are prefix-comparable
in every run that never drains a wave with two messages of one sender. -/
theorem emitted_prefixComparable
    (hs : Reach (step G) (fun s a => Fixed s a ∧ DistinctSenders s a) (initial G) s)
    (hp : p ∈ G.members) (hq : q ∈ G.members) :
    PrefixComparable (s.total p).emitted (s.total q).emitted := by
  obtain ⟨h, hu, ha⟩ := hs.invariant
    (P := fun s => Invariant G s ∧ Unfrozen G s ∧ Agreed G s)
    ⟨invariant_initial G, unfrozen_initial G, agreed_initial G⟩ (by
      rintro s a t ⟨h, hu, ha⟩ ⟨hf, hd⟩ hstep
      refine ⟨(h.step (static_of_fixed hf) hstep).1, hu.step hf hstep, ?_⟩
      refine ha.step h (static_of_fixed hf) (hu.reconciled hd ?_) hstep
      rintro q x rfl
      exact (step_pump hstep).1)
  exact ha.prefixComparable h hp hq (hu.undisturbed hp) (hu.undisturbed hq)

/-- Both replicas drain wave 1 of the exchange. -/
def exchangeBoth : List TotalAction :=
  exchange ++ observe [2] ++ observe [2] ++ observe [2] ++ observe [2] ++
    drain [2] [message [1] [1, 0], message [2] [1, 1]]

theorem emitted_prefixComparable_exchange : ∃ s,
    execute (step pairGroup) (fun s a => Fixed s a ∧ DistinctSenders s a) (initial pairGroup)
        exchangeBoth = some s ∧
      (s.total [1]).emitted = [message [1] [1, 0], message [2] [1, 1]] ∧
      PrefixComparable (s.total [1]).emitted (s.total [2]).emitted := by
  have hrun : (execute (step pairGroup) (fun s a => Fixed s a ∧ DistinctSenders s a)
      (initial pairGroup) exchangeBoth).map (fun s => decide ((s.total [1]).emitted =
        [message [1] [1, 0], message [2] [1, 1]])) = some true := by decide +kernel
  obtain ⟨s, he, hs, hc⟩ := reach_of_execute hrun
  exact ⟨s, he, of_decide_eq_true hc, emitted_prefixComparable hs (by decide) (by decide)⟩

/-- Observe what `doubleSend` delivers, draining wave 1 and then wave 2 as `second`. -/
def drainTwice (p : ReplicaID) (second : List Envelope) : List TotalAction :=
  observe p ++ observe p ++ observe p ++ drain p [message [1] [1, 0]] ++
    [.pump p .waveComplete, .pump p .membership] ++ observe p ++ observe p ++ observe p ++
    drain p second

/-- The first replica sends twice, then the second sends twice in the wave of the other's
second message, and the two pumps sort this wave differently. -/
def doubleSend : List TotalAction :=
  [send [1], send [1], receive [2] (message [1] [1, 0]), receive [2] (message [1] [2, 0]),
    send [2], send [2], receive [1] (message [2] [2, 1]), receive [1] (message [2] [2, 2]),
    send [1], receive [2] (message [1] [3, 2]), send [2], receive [1] (message [2] [3, 3])] ++
  drainTwice [1] [message [1] [2, 0], message [2] [2, 1], message [2] [2, 2]] ++
  drainTwice [2] [message [1] [2, 0], message [2] [2, 2], message [2] [2, 1]]

/-- The sort may put two messages of one sender in one order here and in the other there.
Only that `sort.Slice` promises no order of equal elements is used: the library in use sorts a
slice as short as this one by insertion, which keeps them as they come. -/
theorem double_send_disagrees : ∃ s, Reach (step pairGroup) Fixed (initial pairGroup) s ∧
    ¬ PrefixComparable (s.total [1]).emitted (s.total [2]).emitted := by
  have hrun : (execute (step pairGroup) Fixed (initial pairGroup) doubleSend).map
      (fun s => decide (¬ PrefixComparable (s.total [1]).emitted (s.total [2]).emitted)) =
        some true := by decide +kernel
  obtain ⟨s, _, hs, hc⟩ := reach_of_execute hrun
  exact ⟨s, hs, of_decide_eq_true hc⟩

/-- With slots frozen at arbitrary moments, two replicas that nobody has frozen emit
prefix-comparable sequences in every run whose fetches are reconciled. -/
theorem emitted_prefixComparable_of_reconciled
    (hs : Reach (step G) (fun s a => Static s a ∧ Reconciled G s a) (initial G) s)
    (hp : p ∈ G.members) (hq : q ∈ G.members) (hup : Undisturbed G s p)
    (huq : Undisturbed G s q) : PrefixComparable (s.total p).emitted (s.total q).emitted := by
  obtain ⟨h, ha⟩ := agreed_reach hs
  exact ha.prefixComparable h hp hq hup huq

def trio : Group := ⟨[0], [[2], [3], [1]]⟩

def freeze (p r : ReplicaID) : TotalAction := .net ⟨p, .freezeMember r⟩

/-- Two replicas reach wave 2 by themselves while the third sends one message. -/
def trioExchange : List TotalAction :=
  [send [2], receive [3] (message [2] [1, 0, 0]), send [3], receive [2] (message [3] [1, 1, 0]),
    send [2], receive [3] (message [2] [2, 1, 0]), send [3], receive [2] (message [3] [2, 2, 0]),
    send [1]]

/-- Observe what `trioExchange` delivers and drain wave 1 as `first`. -/
def drainFirst (p : ReplicaID) (first : List Envelope) : List TotalAction :=
  observe p ++ observe p ++ observe p ++ observe p ++ drain p first

/-- Both replicas freeze the third before they have anything of it. -/
def frozenEarly : List TotalAction :=
  trioExchange ++ [freeze [2] [1], freeze [3] [1]] ++
    drainFirst [2] [message [2] [1, 0, 0], message [3] [1, 1, 0]] ++
    drainFirst [3] [message [2] [1, 0, 0], message [3] [1, 1, 0]]

theorem emitted_prefixComparable_of_reconciled_trio : ∃ s,
    execute (step trio) (fun s a => Static s a ∧ Reconciled trio s a) (initial trio)
        frozenEarly = some s ∧
      (s.total [2]).emitted = [message [2] [1, 0, 0], message [3] [1, 1, 0]] ∧
      PrefixComparable (s.total [2]).emitted (s.total [3]).emitted := by
  have hrun : (execute (step trio) (fun s a => Static s a ∧ Reconciled trio s a) (initial trio)
      frozenEarly).map (fun s => decide ((s.total [2]).emitted =
        [message [2] [1, 0, 0], message [3] [1, 1, 0]] ∧
        Undisturbed trio s [2] ∧ Undisturbed trio s [3])) = some true := by decide +kernel
  obtain ⟨s, he, hs, hc⟩ := reach_of_execute hrun
  obtain ⟨hemit, h₂, h₃⟩ := of_decide_eq_true hc
  exact ⟨s, he, hemit,
    emitted_prefixComparable_of_reconciled hs (by decide) (by decide) h₂ h₃⟩

/-- The message of the third reaches one of the two before it freezes the third. -/
def frozenApart : List TotalAction :=
  trioExchange ++ [freeze [2] [1], receive [3] (message [1] [0, 0, 1]), freeze [3] [1]] ++
    drainFirst [2] [message [2] [1, 0, 0], message [3] [1, 1, 0]] ++
    drainFirst [3] [message [1] [0, 0, 1], message [2] [1, 0, 0], message [3] [1, 1, 0]]

/-- A frozen member's message that only one replica has makes the drained waves differ. -/
theorem local_freeze_disagrees : ∃ s, Reach (step trio) Static (initial trio) s ∧
    Undisturbed trio s [2] ∧ Undisturbed trio s [3] ∧
    ¬ PrefixComparable (s.total [2]).emitted (s.total [3]).emitted := by
  have hrun : (execute (step trio) Static (initial trio) frozenApart).map (fun s => decide
      (Undisturbed trio s [2] ∧ Undisturbed trio s [3] ∧
        ¬ PrefixComparable (s.total [2]).emitted (s.total [3]).emitted)) = some true := by
    decide +kernel
  obtain ⟨s, _, hs, hc⟩ := reach_of_execute hrun
  exact ⟨s, hs, of_decide_eq_true hc⟩

end Comlink.TotalGroup
