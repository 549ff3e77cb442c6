import Comlink.TotalOrderGroup

/-!
# What a drained wave contains

Without frozen slots a wave that passes the gate is closed: every member has moved on
to a later wave at the draining replica, so the graph there holds all messages that
any member has issued in the wave or ever will. Hence nothing is lost or emitted
twice, and a message sent after an emission is emitted later everywhere.
-/
namespace Comlink.TotalGroup
open GuardedRuns Conversation

variable {G : Group} {s t : TotalGroup} {p q : ReplicaID} {e : Envelope}

theorem wave_pos_of_issued (h : Invariant G s) (hq : q ∈ G.members)
    (he : e ∈ (s.net q).issued) : 0 < e.wave := by
  obtain ⟨_, n, hn, rfl⟩ := h.group.own q hq e he
  have hd := (h.group.live q hq).sound.derived n hn
  have hpos := hd.seq_pos
  have hle := VectorClock.atSlot_le_waveOf n.envelope.id.vectorClock n.senderSlot
  rw [hd.seq] at hle
  exact lt_of_lt_of_le hpos hle

theorem wave_le_length (h : Invariant G s) (hp : p ∈ G.members)
    (he : e ∈ (s.total p).emitted) : e.wave ≤ (s.total p).drained.length := by
  have ht := h.total p hp
  have hmem : e ∈ (s.total p).drained.flatten := by
    rw [ht.split]
    exact List.mem_append_left _ he
  obtain ⟨b, hb, _, hpos⟩ := ht.ranked.mem_block hmem
  have hlt := (List.getElem?_eq_some_iff.mp hb).1
  omega

/-- An emitted message is stored at the replica and was issued by a member. -/
theorem issued_of_emitted (h : Invariant G s) (hp : p ∈ G.members)
    (he : e ∈ (s.total p).emitted) : G.Issued s.net e := by
  have ht := h.total p hp
  have hmem : e ∈ (s.total p).drained.flatten := by
    rw [ht.split]
    exact List.mem_append_left _ he
  obtain ⟨b, hb, heb⟩ := List.mem_flatten.mp hmem
  exact h.group.held p hp e (Or.inl (ht.stored b hb e heb))

/-- A message of a wave that every active member has left at `p` is stored there,
whenever an active member issues it. -/
theorem stored_of_passed (h : Invariant G s) (ht : Invariant G t)
    (hlater : G.Later s.net t.net) (hp : p ∈ G.members) (hq : q ∈ G.members)
    (hact : (s.net p).Active q) (he : e ∈ (t.net q).issued) {w : ℕ}
    (hpass : (s.net p).Passed w) (hw : e.wave ≤ w) :
    ∃ n ∈ (s.net p).graph.nodes, n.envelope = e := by
  obtain ⟨x, hx, hxs, hxw⟩ := hpass q hact
  exact h.group.present_of_wave_lt ht.group hlater hp hq hx hxs he (by omega)

theorem drained_of_issued (h : Invariant G s) (ht : Invariant G t)
    (hlater : G.Later s.net t.net) (hp : p ∈ G.members) (hq : q ∈ G.members)
    (hact : (s.net p).Active q) (he : e ∈ (t.net q).issued)
    (hw : e.wave ≤ (s.total p).drained.length) : e ∈ (s.total p).drained.flatten := by
  have hpos := wave_pos_of_issued ht hq he
  have htot := h.total p hp
  have hidx : e.wave - 1 < (s.total p).drained.length := by omega
  have hwave : e.wave ≤ e.wave - 1 + 1 := by omega
  obtain ⟨n, hn, rfl⟩ :=
    stored_of_passed h ht hlater hp hq hact he (htot.closed _ hidx) hwave
  have hsender : n.envelope.sender = q := by
    simp [Envelope.sender, (ht.group.own q hq _ he).1]
  have hblock := List.getElem?_eq_getElem hidx
  have hmem := htot.complete _ _ hblock n hn (by rw [h.group.wave_eq hp hn]; omega)
    (by rw [hsender]; exact hact)
  exact List.mem_flatten.mpr ⟨_, List.mem_of_getElem? hblock, hmem⟩

theorem nodup_emitted (h : Invariant G s) (hp : p ∈ G.members) :
    (s.total p).emitted.Nodup := by
  have ht := h.total p hp
  have hn := ht.ranked.nodup_flatten ht.distinct
  rw [ht.split] at hn
  exact hn.of_append_left

theorem count_emitted (h : Invariant G s) (ht : Invariant G t) (hlater : G.Later s.net t.net)
    (hp : p ∈ G.members) (hq : q ∈ G.members) (hact : (s.net p).Active q)
    (he : e ∈ (t.net q).issued) (hw : e.wave < (s.total p).nextWave) :
    (s.total p).emitted.count e = 1 := by
  have htot := h.total p hp
  have hmem := drained_of_issued h ht hlater hp hq hact he (htot.lt_fetched hw)
  exact List.count_eq_one_of_mem (nodup_emitted h hp) (htot.emitted_of_wave_lt hmem hw)

/-- Whatever a member issues in wave `W`, at any time of the run, is in the graph of
each replica when it fetches wave `W`, and a replica that has advanced past `W` has
emitted it exactly once. -/
theorem drained_wave_is_final (hs : Reach (step G) Fixed (initial G) s) (hp : p ∈ G.members)
    (W : ℕ) :
    (∀ sorted s', step G s (.pump p (.messagesInWave sorted)) = some s' →
      (s.total p).nextWave = W → ∀ t, Reach (step G) Fixed s' t → ∀ q ∈ G.members,
        ∀ e ∈ (t.net q).issued, e.wave = W → ∃ n ∈ (s.net p).graph.nodes, n.envelope = e) ∧
    (W < (s.total p).nextWave →
      (∀ t, Reach (step G) Fixed s t → ∀ q ∈ G.members, ∀ e ∈ (t.net q).issued, e.wave = W →
        (s.total p).emitted.count e = 1) ∧
      ∀ q ∈ G.members, W < (s.total q).nextWave → ∀ e, e.wave = W →
        (e ∈ (s.total p).emitted ↔ e ∈ (s.total q).emitted)) := by
  obtain ⟨_, hinv, hunf⟩ := reach_fixed hs
  refine ⟨?_, ?_⟩
  · intro sorted s' hstep hW t hr q hq e he hew
    obtain ⟨_, t', ht', rfl⟩ := step_pump hstep
    have hinv' := (hinv.step (a := .pump p (.messagesInWave sorted)) trivial hstep).1
    obtain ⟨hti, hlater⟩ := hinv'.reach (hr.mono fun _ _ => static_of_fixed)
    have hphase : (s.total p).phase = .messagesInWave := by
      cases Total.pump_effect ht' with
      | fetch hp hs => exact hp
    have hpass := (hinv.total p hp).gated hphase
    rw [hW] at hpass
    exact stored_of_passed hinv hti hlater hp hq (hunf.active hp hq) he hpass hew.le
  · intro hW
    refine ⟨?_, ?_⟩
    · intro t hr q hq e he hew
      obtain ⟨hti, hlater⟩ := hinv.reach (hr.mono fun _ _ => static_of_fixed)
      exact count_emitted hinv hti hlater hp hq (hunf.active hp hq) he (by omega)
    · have hsub : ∀ p ∈ G.members, ∀ q ∈ G.members, W < (s.total q).nextWave → ∀ e, e.wave = W →
          e ∈ (s.total p).emitted → e ∈ (s.total q).emitted := by
        intro p hp q hq hWq e hew he
        obtain ⟨r, hr, _, hissued⟩ := issued_of_emitted hinv hp he
        have hc := count_emitted hinv hinv (Group.Later.refl G _) hq hr (hunf.active hq hr)
          hissued (by omega)
        exact List.count_pos_iff.mp (by omega)
      intro q hq hWq e hew
      exact ⟨hsub p hp q hq hWq e hew, hsub q hq p hp hW e hew⟩

def pairGroup : Group := ⟨[0], [[1], [2]]⟩

/-- Two replicas answer each other until both are past wave 1, and the first drains it. -/
def exchange : List TotalAction :=
  [send [1], receive [2] (message [1] [1, 0]), send [2], receive [1] (message [2] [1, 1]),
    send [1], receive [2] (message [1] [2, 1]), send [2], receive [1] (message [2] [2, 2])] ++
  observe [1] ++ observe [1] ++ observe [1] ++ observe [1] ++
  drain [1] [message [1] [1, 0], message [2] [1, 1]]

theorem drained_wave_is_final_exchange : ∃ s,
    execute (step pairGroup) Fixed (initial pairGroup) exchange = some s ∧
      (s.total [1]).emitted = [message [1] [1, 0], message [2] [1, 1]] ∧
      ∀ t, Reach (step pairGroup) Fixed s t → ∀ q ∈ pairGroup.members,
        ∀ e ∈ (t.net q).issued, e.wave = 1 → (s.total [1]).emitted.count e = 1 := by
  have hrun : (execute (step pairGroup) Fixed (initial pairGroup) exchange).map (fun s => decide
      ((s.total [1]).emitted = [message [1] [1, 0], message [2] [1, 1]] ∧
        1 < (s.total [1]).nextWave)) = some true := by decide +kernel
  obtain ⟨s, he, hs, hc⟩ := reach_of_execute hrun
  have hfinal := of_decide_eq_true hc
  exact ⟨s, he, hfinal.1, ((drained_wave_is_final hs (by decide) 1).2 hfinal.2).1⟩

theorem nextEnvelope_of_send (h : Invariant G s) (hp : p ∈ G.members) {io : HandlerChoices}
    {payload : List UInt8} {m : Envelope}
    (hstep : step G s (.net ⟨p, .send io payload⟩) = some t)
    (hm : (t.net p).issued = (s.net p).issued ++ [m]) :
    (s.net p).nextEnvelope payload = some m := by
  obtain ⟨net, hnet, rfl⟩ := step_net hstep
  obtain ⟨_, _, rfl⟩ := Group.netStep_eq_some hnet
  simp only [Function.update_self, Conversation.handle] at hm
  rcases (h.group.live p hp).handleSend_cases io payload with he | ⟨env, _, _, henv, _, _, _, _, he⟩
  · rw [he] at hm
    simp at hm
  · rw [he] at hm
    have hlast : env = m := by simpa [broadcastEnvelope] using hm
    rw [henv, hlast]

/-- What a replica sends after an emission lies in a later wave. -/
theorem wave_lt_of_sent_after (h : Invariant G s) (hp : p ∈ G.members)
    (hact : (s.net p).Active p) {m₁ m₂ : Envelope} (h₁ : m₁ ∈ (s.total p).emitted)
    {payload : List UInt8} (h₂ : (s.net p).nextEnvelope payload = some m₂) :
    m₁.wave < m₂.wave := by
  have htot := h.total p hp
  obtain ⟨r, hr, _, hissued⟩ := issued_of_emitted h hp h₁
  have hpos := wave_pos_of_issued h hr hissued
  have hlen := wave_le_length h hp h₁
  have hidx : m₁.wave - 1 < (s.total p).drained.length := by omega
  obtain ⟨x, hx, hxs, hxw⟩ := htot.closed _ hidx p hact
  have hbefore := h.group.issuedBefore_next hp h₂ (h.group.own_node hp hx hxs).2
  have hle : x.envelope.wave ≤ m₂.wave := hbefore.1.waveOf_le
  rw [h.group.wave_eq hp hx] at hxw
  omega

/-- A message that `p` sends after its own layer has emitted `m₁` is emitted after `m₁`
at every replica. -/
theorem emitted_before_later_send (hs : Reach (step G) Fixed (initial G) s)
    (hp : p ∈ G.members) {m₁ m₂ : Envelope} (h₁ : m₁ ∈ (s.total p).emitted)
    {io : HandlerChoices} {payload : List UInt8} {s' : TotalGroup}
    (hsend : step G s (.net ⟨p, .send io payload⟩) = some s')
    (h₂ : (s'.net p).issued = (s.net p).issued ++ [m₂]) :
    m₁.wave < m₂.wave ∧ ∀ t, Reach (step G) Fixed s' t → ∀ q ∈ G.members, ∀ pre post,
      (t.total q).emitted = pre ++ m₂ :: post → m₁ ∈ pre := by
  obtain ⟨_, hinv, hunf⟩ := reach_fixed hs
  have hwave := wave_lt_of_sent_after hinv hp (hunf.active hp hp) h₁
    (nextEnvelope_of_send hinv hp hsend h₂)
  refine ⟨hwave, ?_⟩
  intro t hr q hq pre post hsplit
  have hsend' : Step (step G) Fixed s s' :=
    ⟨.net ⟨p, .send io payload⟩, rfl, hsend⟩
  have hfrom : Reach (step G) Fixed s t := Relation.ReflTransGen.head hsend' hr
  obtain ⟨_, htinv, htunf⟩ := reach_fixed (Relation.ReflTransGen.trans hs hfrom)
  have hlater := (hinv.reach (hfrom.mono fun _ _ => static_of_fixed)).2
  obtain ⟨r, hrm, _, hissued⟩ := issued_of_emitted hinv hp h₁
  have hissued' := (hlater r hrm).issued.subset hissued
  have hm₂ : m₂ ∈ (t.total q).emitted := by
    rw [hsplit]
    exact List.mem_append_right _ (List.mem_cons_self ..)
  have hlen := wave_le_length htinv hq hm₂
  have hmem := drained_of_issued htinv htinv (Group.Later.refl G _) hq hrm
    (htunf.active hq hrm) hissued' (by omega)
  have htot := htinv.total q hq
  exact htot.ranked.mem_before htot.split hsplit hmem hwave

theorem emitted_before_later_send_exchange : ∃ s s',
    execute (step pairGroup) Fixed (initial pairGroup) exchange = some s ∧
      step pairGroup s (send [1]) = some s' ∧
      ∀ t, Reach (step pairGroup) Fixed s' t → ∀ q ∈ pairGroup.members, ∀ pre post,
        (t.total q).emitted = pre ++ message [1] [3, 2] :: post → message [2] [1, 1] ∈ pre := by
  have hrun : (execute (step pairGroup) Fixed (initial pairGroup) exchange).map (fun s => decide
      (message [2] [1, 1] ∈ (s.total [1]).emitted ∧
        (step pairGroup s (send [1])).map (fun s' => (s'.net [1]).issued) =
          some ((s.net [1]).issued ++ [message [1] [3, 2]]))) = some true := by decide +kernel
  obtain ⟨s, he, hs, hc⟩ := reach_of_execute hrun
  obtain ⟨hmem, hsend⟩ := of_decide_eq_true hc
  obtain ⟨s', hs', hissued⟩ := Option.map_eq_some_iff.mp hsend
  exact ⟨s, s', he, hs', (emitted_before_later_send hs (by decide) hmem hs' hissued).2⟩

end Comlink.TotalGroup
