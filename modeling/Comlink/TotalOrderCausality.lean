import Comlink.CausalClocks
import Comlink.TotalOrderDelivery

/-!
# Causal order of the emitted sequence

Waves never decrease along the ancestry of a message, so the ancestors in earlier
waves are emitted earlier, unless one of them comes from a frozen member after its wave has
been fetched. Ancestors in the same wave are a different matter: the sort by sender knows
nothing of them, and puts a message before its own predecessor whenever the sender bytes
say so.
-/
namespace Comlink.TotalGroup
open GuardedRuns Conversation SortedPermutations

variable {G : Group} {s t : TotalGroup} {p : ReplicaID}

/-- Wherever a message stands in the sequence, its ancestors stand before it. -/
def AncestorsFirst (g : Graph) (out : List Envelope) : Prop :=
  ∀ pre m post, out = pre ++ m :: post → ∀ a n, g.Ancestor a n → n.envelope = m →
    a.envelope ∈ pre

/-- No message of a frozen member enters the graph after its wave has been fetched: the
fetch waits for the active members only. -/
def ArrivesInTime (s : TotalGroup) (a : NetAction) : Prop :=
  ∀ n ∈ ((s.net a.replica).handle a.request).graph.nodes, n ∈ (s.net a.replica).graph.nodes ∨
    ((s.net a.replica).Frozen n.envelope.sender → (s.total a.replica).fetched < n.wave)

instance (s : TotalGroup) (a : NetAction) : Decidable (ArrivesInTime s a) :=
  inferInstanceAs (Decidable (∀ n ∈ ((s.net a.replica).handle a.request).graph.nodes,
    n ∈ (s.net a.replica).graph.nodes ∨
      ((s.net a.replica).Frozen n.envelope.sender → (s.total a.replica).fetched < n.wave)))

/-- What enters a graph arrives in time, and where a wave is fetched, an ancestor of one of
its messages in the same wave has smaller sender bytes. -/
def SendersFollowAncestry (s : TotalGroup) : TotalAction → Prop
  | .net a => ArrivesInTime s a
  | .pump p (.messagesInWave _) => ∀ n ∈ s.bucket p, ∀ a, (s.net p).graph.Ancestor a n →
      a.wave = n.wave → a.envelope.sender < n.envelope.sender
  | _ => True

theorem ancestorsFirst_nil (g : Graph) : AncestorsFirst g [] := by
  intro pre m post h
  cases pre <;> cases h

theorem AncestorsFirst.of_append {g : Graph} {out rest : List Envelope}
    (h : AncestorsFirst g (out ++ rest)) : AncestorsFirst g out := by
  intro pre m post hout
  refine h pre m (post ++ rest) ?_
  rw [hout, List.append_assoc, List.cons_append]

theorem AncestorsFirst.append {g : Graph} {out block : List Envelope} (h : AncestorsFirst g out)
    (hb : ∀ pre m post, block = pre ++ m :: post → ∀ a n, g.Ancestor a n → n.envelope = m →
      a.envelope ∈ out ++ pre) : AncestorsFirst g (out ++ block) := by
  intro pre m post hsplit
  rcases List.append_eq_append_iff.mp hsplit with ⟨pre', rfl, hblock⟩ | ⟨rest, hout, hrest⟩
  · exact hb pre' m post hblock
  · cases rest with
    | nil =>
      rw [List.append_nil] at hout
      rw [← hout]
      intro a n ha hn
      have hmem := hb [] m post hrest.symm a n ha hn
      rwa [List.append_nil] at hmem
    | cons x rest =>
      obtain ⟨rfl, _⟩ := List.cons.inj hrest
      exact h pre m rest hout

/-- Growth of the graph does not change the ancestors of what was drained. -/
theorem AncestorsFirst.grow {m : Membership} {g g' : Graph} {out : List Envelope}
    (h : AncestorsFirst g out) (hg : g.Sound m) (hg' : g'.Sound m) (hpre : g.nodes <+: g'.nodes)
    (hstored : ∀ e ∈ out, ∃ n ∈ g.nodes, n.envelope = e) : AncestorsFirst g' out := by
  intro pre m post hout a n ha hn
  have hmem : m ∈ out := by
    rw [hout]
    exact List.mem_append_right _ (List.mem_cons_self ..)
  obtain ⟨n', hn', hne⟩ := hstored m hmem
  have hnn : n' = n := hg'.eq_of_envelope (hpre.subset hn') ha.mem.2 (hne.trans hn.symm)
  subst hnn
  exact h pre m post hout a n' (hg.ancestor_of_extends hg' hpre hn' ha) hn

/-- Whatever is in the graph from a wave that has been fetched was fetched with it. -/
def DrainedWhole (s : TotalGroup) (p : ReplicaID) : Prop :=
  ∀ n ∈ (s.net p).graph.nodes, n.wave ≤ (s.total p).drained.length →
    n.envelope ∈ (s.total p).drained.flatten

theorem DrainedWhole.net (h : DrainedWhole s p) (hi : Invariant G s) {a : NetAction}
    (hst : Static s (.net a)) (hok : ArrivesInTime s a) {net : Network}
    (hnet : G.netStep s.net a = some net) (hp : p ∈ G.members) :
    DrainedWhole ⟨net, s.total⟩ p := by
  have hstep : TotalGroup.step G s (.net a) = some ⟨net, s.total⟩ := by
    rw [TotalGroup.step, hnet, Option.map_some]
  obtain ⟨ht, hlater⟩ := hi.step hst hstep
  intro n hn hw
  obtain ⟨hq, hissued⟩ := ht.group.own_node hp hn rfl
  have hwave := ht.group.wave_eq hp hn
  obtain ⟨-, -, rfl⟩ := Group.netStep_eq_some hnet
  by_cases hpa : p = a.replica
  · subst hpa
    simp only [Function.update_self] at hn
    rcases hok n hn with hold | hlate
    · exact h n hold hw
    · by_cases hf : (s.net a.replica).Frozen n.envelope.sender
      · have hfetched := hlate hf
        rw [← (hi.total _ hp).count] at hfetched
        exact absurd hw (Nat.not_le.mpr hfetched)
      · -- an active sender has left the waves that were fetched, so nothing of them is new
        have hact := not_frozen_iff.mp hf
        have hdrained := drained_of_issued (s := s) hi ht hlater hp hq hact hissued
        exact hdrained (hwave ▸ hw)
  · simp only [Function.update_of_ne hpa] at hn
    exact h n hn hw

theorem DrainedWhole.pump (h : DrainedWhole s p) (hi : Total.Invariant (s.net p) (s.total p))
    {a : PumpAction} {t' : Total} (ht : (s.total p).pump (s.net p) a = some t') :
    DrainedWhole ⟨s.net, Function.update s.total p t'⟩ p := by
  intro n hn
  simp only [Function.update_self]
  rcases Total.drained_pump ht with hd | ⟨sorted, rfl, hphase, hd, hs⟩
  · rw [hd]
    exact h n hn
  · intro hw
    rw [hd, List.flatten_append, List.flatten_singleton]
    rw [hd, List.length_append, List.length_singleton] at hw
    have hcount := hi.count
    have hpos := hi.positive
    simp only [Total.fetched, hphase] at hcount
    rcases Nat.lt_or_ge (s.total p).drained.length n.wave with hlt | hle
    · have hwave : n.wave = (s.total p).nextWave := by omega
      exact List.mem_append_right _ (hs.mem_iff.mpr
        (List.mem_map_of_mem (Graph.mem_messagesInWave.mpr ⟨hn, hwave⟩)))
    · exact List.mem_append_left _ (h n hn hle)

/-- The ancestors of a fetched message have been drained before it. -/
theorem ancestor_drained (h : Invariant G s) (hb : G.OwnParentsBelow s.net)
    (hwhole : DrainedWhole s p) (hp : p ∈ G.members) {sorted : List Envelope}
    (hok : SendersFollowAncestry s (.pump p (.messagesInWave sorted)))
    (hs : IsSortOf bySender ((s.bucket p).map Node.envelope) sorted) {pre post : List Envelope}
    {a n : Node} (hsplit : sorted = pre ++ n.envelope :: post)
    (ha : (s.net p).graph.Ancestor a n) :
    a.envelope ∈ (s.total p).drained.flatten ++ pre := by
  have hsound := (h.group.live p hp).sound
  have hbucket : n ∈ s.bucket p := by
    have hmem : n.envelope ∈ sorted := by
      rw [hsplit]
      exact List.mem_append_right _ (List.mem_cons_self ..)
    obtain ⟨n', hn', hne⟩ := List.mem_map.mp (hs.mem_iff.mp hmem)
    have hng := (Graph.mem_messagesInWave.mp hn').1
    rw [← hsound.eq_of_envelope hng ha.mem.2 hne]
    exact hn'
  have hnw : n.wave = (s.total p).nextWave := (Graph.mem_messagesInWave.mp hbucket).2
  rcases Nat.lt_or_ge a.wave n.wave with hlt | hge
  · apply List.mem_append_left
    exact hwhole a ha.mem.1 ((h.total p hp).lt_fetched (hnw ▸ hlt))
  · have hwave : a.wave = n.wave := Nat.le_antisymm (hb.wave_le h.group hp ha) hge
    apply List.mem_append_right
    refine hs.mem_of_less (List.mem_map_of_mem ?_) (hok n hbucket a ha hwave) (List.lt_irrefl _)
      hsplit
    exact Graph.mem_messagesInWave.mpr ⟨ha.mem.1, hwave.trans hnw⟩

structure CausalInvariant (G : Group) (s : TotalGroup) : Prop where
  base : Invariant G s
  clocks : G.OwnParentsBelow s.net
  whole : ∀ p ∈ G.members, DrainedWhole s p
  causal : ∀ p ∈ G.members, AncestorsFirst (s.net p).graph (s.total p).drained.flatten

theorem causalInvariant_initial (G : Group) : CausalInvariant G (initial G) :=
  ⟨invariant_initial G, Group.ownParentsBelow_start G, fun _ _ _ hn => (nomatch hn),
    fun _ _ => ancestorsFirst_nil _⟩

theorem CausalInvariant.step (h : CausalInvariant G s) {a : TotalAction} (hst : Static s a)
    (hok : SendersFollowAncestry s a) (hstep : TotalGroup.step G s a = some t) :
    CausalInvariant G t := by
  obtain ⟨hbase, hlater⟩ := h.base.step hst hstep
  cases a with
  | net a =>
    obtain ⟨net, hnet, rfl⟩ := step_net hstep
    refine ⟨hbase, h.clocks.step h.base.group hst hnet,
      fun p hp => (h.whole p hp).net h.base hst hok hnet hp, ?_⟩
    intro p hp
    have hext := hlater p hp
    have hsound := (hbase.group.live p hp).sound.congr hext.members.symm
    refine (h.causal p hp).grow (h.base.group.live p hp).sound hsound hext.nodes ?_
    intro e he
    obtain ⟨b, hb, heb⟩ := List.mem_flatten.mp he
    exact (h.base.total p hp).stored b hb e heb
  | pump r a =>
    obtain ⟨hr, t', ht', rfl⟩ := step_pump hstep
    refine ⟨hbase, h.clocks, ?_, ?_⟩
    · intro p hp
      by_cases hpr : p = r
      · subst hpr
        exact (h.whole p hp).pump (h.base.total p hp) ht'
      · intro n hn
        simp only [Function.update_of_ne hpr]
        exact h.whole p hp n hn
    intro p hp
    by_cases hpr : p = r
    · subst hpr
      simp only [Function.update_self]
      rcases Total.drained_pump ht' with hd | ⟨sorted, rfl, _, hd, hs⟩
      · rw [hd]
        exact h.causal p hp
      · rw [hd, List.flatten_append, List.flatten_singleton]
        refine (h.causal p hp).append ?_
        rintro pre _ post hsplit a n ha rfl
        exact ancestor_drained h.base h.clocks (h.whole p hp) hp hok hs hsplit ha
    · simp only [Function.update_of_ne hpr]
      exact h.causal p hp

/-- In every run whose fetches follow the ancestry, each replica emits a message after
all its ancestors in the context graph. Each replica is one process over the whole run: none
is restarted. -/
theorem emitted_ancestorsFirst
    (hs : Reach (step G) (fun s a => Static s a ∧ SendersFollowAncestry s a) (initial G) s)
    (hp : p ∈ G.members) : AncestorsFirst (s.net p).graph (s.total p).emitted := by
  have h : CausalInvariant G s := hs.invariant (causalInvariant_initial G)
    (fun _ _ _ h ha hstep => h.step ha.1 ha.2 hstep)
  have hcausal := h.causal p hp
  rw [(h.base.total p hp).split] at hcausal
  exact hcausal.of_append

/-- A decidable instance of the condition: in a fetched wave every parent has no parents
of its own and smaller sender bytes. -/
def ShallowAncestry (s : TotalGroup) : TotalAction → Prop
  | .net a => ArrivesInTime s a
  | .pump p (.messagesInWave _) => ∀ n ∈ s.bucket p, ∀ a ∈ (s.net p).graph.nodes,
      a.key ∈ n.parents → a.parents = [] ∧ a.envelope.sender < n.envelope.sender
  | _ => True

instance (s : TotalGroup) (a : TotalAction) : Decidable (ShallowAncestry s a) :=
  match a with
  | .net a => inferInstanceAs (Decidable (ArrivesInTime s a))
  | .pump p (.messagesInWave _) => inferInstanceAs (Decidable (∀ n ∈ s.bucket p,
      ∀ a ∈ (s.net p).graph.nodes, a.key ∈ n.parents → a.parents = [] ∧
        a.envelope.sender < n.envelope.sender))
  | .pump _ .recv | .pump _ .waveComplete | .pump _ .membership | .pump _ .emit => isTrue trivial

theorem sendersFollowAncestry_of_shallow {a : TotalAction} (h : ShallowAncestry s a) :
    SendersFollowAncestry s a := by
  match a with
  | .net a => exact h
  | .pump p (.messagesInWave sorted) =>
    intro n hn a ha _
    obtain ⟨x, hax, hx, _, hk⟩ := Relation.TransGen.tail'_iff.mp ha
    obtain ⟨hparents, hless⟩ := h n hn x hx hk
    have hxa : a = x := by
      rcases Relation.ReflTransGen.cases_tail hax with heq | ⟨y, _, _, _, hy⟩
      · exact heq.symm
      · rw [hparents] at hy
        cases hy
    rw [hxa]
    exact hless
  | .pump _ .recv | .pump _ .waveComplete | .pump _ .membership | .pump _ .emit => trivial

theorem emitted_ancestorsFirst_exchange : ∃ s,
    execute (step pairGroup) (fun s a => Static s a ∧ ShallowAncestry s a) (initial pairGroup)
        exchange = some s ∧
      (s.total [1]).emitted = [message [1] [1, 0], message [2] [1, 1]] ∧
      AncestorsFirst (s.net [1]).graph (s.total [1]).emitted := by
  have hrun : (execute (step pairGroup) (fun s a => Static s a ∧ ShallowAncestry s a)
      (initial pairGroup) exchange).map (fun s => decide ((s.total [1]).emitted =
        [message [1] [1, 0], message [2] [1, 1]])) = some true := by decide +kernel
  obtain ⟨s, he, hs, hc⟩ := reach_of_execute hrun
  refine ⟨s, he, of_decide_eq_true hc, ?_⟩
  exact emitted_ancestorsFirst
    (hs.mono fun _ _ ha => ⟨ha.1, sendersFollowAncestry_of_shallow ha.2⟩) (by decide)

/-- The replica with the larger bytes speaks first and the other answers in the same wave. -/
def swappedGroup : Group := ⟨[0], [[2], [1]]⟩

def answer : List TotalAction :=
  [send [2], receive [1] (message [2] [1, 0]), send [1], receive [2] (message [1] [1, 1]),
    send [2], receive [1] (message [2] [2, 1]), send [1], receive [2] (message [1] [2, 2])] ++
  observe [2] ++ observe [2] ++ observe [2] ++ observe [2] ++
  drain [2] [message [1] [1, 1], message [2] [1, 0]]

/-- The answer is emitted before the message that it answers. -/
theorem answer_emitted_first : ∃ s, Reach (step swappedGroup) Fixed (initial swappedGroup) s ∧
    ¬ AncestorsFirst (s.net [2]).graph (s.total [2]).emitted := by
  have hrun : (execute (step swappedGroup) Fixed (initial swappedGroup) answer).map (fun s => decide
      ((s.net [2]).graph.nodes.take 2 = [⟨message [2] [1, 0], 1, 0, 1, []⟩,
        ⟨message [1] [1, 1], 1, 1, 1, [⟨[2], 1⟩]⟩] ∧
        (s.total [2]).emitted = [message [1] [1, 1], message [2] [1, 0]])) = some true := by
    decide +kernel
  obtain ⟨s, _, hs, hc⟩ := reach_of_execute hrun
  obtain ⟨hnodes, hemit⟩ := of_decide_eq_true hc
  have hmem : ∀ n ∈ (s.net [2]).graph.nodes.take 2, n ∈ (s.net [2]).graph.nodes :=
    fun n hn => List.mem_of_mem_take hn
  rw [hnodes] at hmem
  refine ⟨s, hs, fun hfirst => ?_⟩
  have hbefore := hfirst [] (message [1] [1, 1]) [message [2] [1, 0]] hemit
    ⟨message [2] [1, 0], 1, 0, 1, []⟩ ⟨message [1] [1, 1], 1, 1, 1, [⟨[2], 1⟩]⟩
    (.single ⟨hmem _ (by simp), hmem _ (by simp), by decide⟩) rfl
  cases hbefore

end Comlink.TotalGroup
