import Comlink.ContextGraph

/-!
# Sound context graphs

Three facts survive every insertion, whatever the clock of the envelope: keys are
unique, each node records what `Insert` derives from its envelope, and the derived
parents of a node were inserted before it. They make each sender's sequence numbers
contiguous and the view of the next message complete, so that a message built from
the view is always accepted.
-/
namespace Comlink.Graph
open VectorClock

variable {m m' : Membership} {g g' : Graph}

structure Sound (m : Membership) (g : Graph) : Prop where
  keys : (g.nodes.map Node.key).Nodup
  derived : ∀ n ∈ g.nodes, WellDerived m n
  parentsFirst : ∀ pre n post, g.nodes = pre ++ n :: post → ∀ k ∈ n.parents, has ⟨pre⟩ k = true

theorem sound_empty (m : Membership) : Sound m empty := by
  constructor <;> simp [empty]

theorem has_append {g : Graph} {k : Key} (ns : List Node) (h : g.has k = true) :
    has ⟨g.nodes ++ ns⟩ k = true := by
  obtain ⟨n, hn, hk⟩ := has_iff.mp h
  exact has_iff.mpr ⟨n, List.mem_append_left _ hn, hk⟩

theorem Sound.closed (h : Sound m g) {n : Node} (hn : n ∈ g.nodes) {k : Key}
    (hk : k ∈ n.parents) : g.has k = true := by
  obtain ⟨pre, post, he⟩ := List.append_of_mem hn
  obtain ⟨a, ha, hak⟩ := has_iff.mp (h.parentsFirst pre n post he k hk)
  refine has_iff.mpr ⟨a, ?_, hak⟩
  rw [he]
  exact List.mem_append_left _ ha

theorem Sound.insert (h : Sound m g) {env : Envelope} {n : Node}
    (hi : g.insert m env = .ok (g', n)) : Sound m g' := by
  obtain ⟨rfl, _, hd, hnew, hp⟩ := insert_ok hi
  refine ⟨?_, ?_, ?_⟩
  · rw [List.map_append, List.map_singleton, List.nodup_append]
    refine ⟨h.keys, List.nodup_singleton _, ?_⟩
    intro k hk k' hk' he
    obtain ⟨a, ha, rfl⟩ := List.mem_map.mp hk
    rw [List.mem_singleton.mp hk'] at he
    exact lookup_eq_none_iff.mp hnew a ha he
  · intro a ha
    rcases List.mem_append.mp ha with ha | ha
    · exact h.derived a ha
    · rw [List.mem_singleton.mp ha]
      exact hd
  · exact ListScans.forall_split_concat.mpr ⟨h.parentsFirst, hp⟩

/-- The graph as it was after its first insertions. -/
theorem Sound.take (h : Sound m g) (i : ℕ) : Sound m ⟨g.nodes.take i⟩ := by
  refine ⟨?_, fun n hn => h.derived n (List.mem_of_mem_take hn), ?_⟩
  · rw [List.map_take]
    exact h.keys.sublist (List.take_sublist _ _)
  · intro pre n post he k hk
    refine h.parentsFirst pre n (post ++ g.nodes.drop i) ?_ k hk
    calc g.nodes = g.nodes.take i ++ g.nodes.drop i := (List.take_append_drop i g.nodes).symm
      _ = (pre ++ n :: post) ++ g.nodes.drop i := congrArg (· ++ g.nodes.drop i) he
      _ = pre ++ n :: (post ++ g.nodes.drop i) := by simp

/-- A slot that a clock is too short for adds no parent to it. -/
theorem requiredParents_grown (h : m.Grown m') {slot : ℕ} {vc : VectorClock}
    (hs : slot < vc.length) (hl : vc.length ≤ m.len) (seq : ℕ) :
    requiredParents m' slot seq vc = requiredParents m slot seq vc := by
  obtain ⟨joined, hjoined⟩ := h.slots
  rw [Membership.len] at hl
  have hnew : ∀ i, m.allReplicas.length ≤ i → requiredSeq slot seq vc i = none := by
    intro i hi
    have hne : i ≠ slot := by omega
    rw [requiredSeq, if_neg hne, if_pos (atSlot_of_length_le (hl.trans hi))]
  have hnone : (joined.zipIdx (0 + m.allReplicas.length)).filterMap (fun p =>
      (requiredSeq slot seq vc p.2).map fun q => Key.mk p.1 q) = [] := by
    rw [List.filterMap_eq_nil_iff]
    rintro ⟨r, i⟩ hr
    have hi := (List.mem_zipIdx_iff_le_and_getElem?_sub.mp hr).1
    rw [hnew i (by simpa using hi), Option.map_none]
  rw [requiredParents, ← hjoined, List.zipIdx_append, List.filterMap_append, hnone,
    List.append_nil, requiredParents]

theorem WellDerived.grown {n : Node} (h : WellDerived m n) (hg : m.Grown m') :
    WellDerived m' n := by
  refine ⟨h.sender, hg.keeps _ _ h.slot, h.slot_lt, h.seq, h.seq_pos, ?_, h.wave, ?_⟩
  · exact h.length_le.trans hg.slots.length_le
  · rw [requiredParents_grown hg h.slot_lt h.length_le]
    exact h.parents

/-- Members that join change nothing about the messages that are already there. -/
theorem Sound.grown (h : Sound m g) (hg : m.Grown m') : Sound m' g :=
  ⟨h.keys, fun n hn => (h.derived n hn).grown hg, h.parentsFirst⟩

/-- Soundness reads the slot order only, so freezing a slot keeps it. -/
theorem Sound.congr (h : Sound m g) (hm : m'.allReplicas = m.allReplicas) : Sound m' g :=
  h.grown (.of_eq hm)

theorem Sound.add {r : ReplicaID} (h : Sound m g) (hm : m.add r = some m') : Sound m' g :=
  h.grown (Membership.grown_add hm)

theorem Sound.eq_of_key (h : Sound m g) {a b : Node} (ha : a ∈ g.nodes) (hb : b ∈ g.nodes)
    (hk : a.key = b.key) : a = b := List.inj_on_of_nodup_map h.keys ha hb hk

/-- A message identity determines its node, whatever the payload. -/
theorem Sound.eq_of_id (h : Sound m g) {a b : Node} (ha : a ∈ g.nodes)
    (hb : b ∈ g.nodes) (he : a.envelope.id = b.envelope.id) : a = b := by
  apply h.eq_of_key ha hb
  have hda := h.derived a ha
  have hdb := h.derived b hb
  have hsender : a.envelope.sender = b.envelope.sender := by
    rw [Envelope.sender, he, Envelope.sender]
  have hslot : a.senderSlot = b.senderSlot := by
    have hs := hda.slot
    rw [hsender, hdb.slot] at hs
    exact (Option.some.inj hs).symm
  refine Key.ext hsender ?_
  change a.senderSeq = b.senderSeq
  rw [← hda.seq, ← hdb.seq, he, hslot]

theorem Sound.eq_of_envelope (h : Sound m g) {a b : Node} (ha : a ∈ g.nodes)
    (hb : b ∈ g.nodes) (he : a.envelope = b.envelope) : a = b :=
  h.eq_of_id ha hb (congrArg Envelope.id he)

theorem Sound.nodup_ids (h : Sound m g) : ((g.nodes.map Node.envelope).map Envelope.id).Nodup := by
  rw [List.map_map]
  exact h.keys.of_map.map_on fun _ ha _ hb he => h.eq_of_id ha hb he

theorem Sound.nodup_envelopes (h : Sound m g) : (g.nodes.map Node.envelope).Nodup :=
  h.nodup_ids.of_map

/-- A node can be inserted again into what was there before it. -/
theorem Sound.insert_prefix (h : Sound m g) {pre post : List Node} {n : Node}
    (hg : g.nodes = pre ++ n :: post) :
    Graph.insert ⟨pre⟩ m n.envelope = .ok (⟨pre ++ [n]⟩, n) := by
  have hn : n ∈ g.nodes := by
    rw [hg]
    exact List.mem_append_right _ (List.mem_cons_self ..)
  have hd := h.derived n hn
  have hnew : lookup ⟨pre⟩ n.key = none := by
    rw [lookup_eq_none_iff]
    intro a ha hk
    have hkeys := h.keys
    rw [hg, List.map_append, List.map_cons, List.nodup_append] at hkeys
    exact hkeys.2.2 _ (List.mem_map_of_mem ha) _ (List.mem_cons_self ..) hk
  have hparents := h.parentsFirst pre n post hg
  rw [hd.parents] at hparents
  have hpos : n.senderSeq ≠ 0 := Nat.pos_iff_ne_zero.mp hd.seq_pos
  rw [Node.key] at hnew
  rw [← hd.seq] at hnew hparents hpos
  obtain ⟨g', x, hi⟩ := insert_eq_ok hd.sender hd.slot hd.slot_lt hpos hd.length_le hnew hparents
  obtain ⟨rfl, hx, hdx, _, _⟩ := insert_ok hi
  rw [hi, hdx.eq hd hx]

theorem Sound.own_parent (h : Sound m g) {n : Node} (hn : n ∈ g.nodes) (hs : 1 < n.senderSeq) :
    (⟨n.envelope.sender, n.senderSeq - 1⟩ : Key) ∈ n.parents := by
  have hd := h.derived n hn
  rw [hd.parents, mem_requiredParents]
  refine ⟨n.senderSlot, Membership.slotOf_getElem? hd.slot, ?_⟩
  rw [requiredSeq, if_pos rfl, if_neg (by omega)]

/-- Under the entry that a node has at a slot of its own sender, the graph knows the node
itself or an earlier one. -/
theorem Sound.eq_or_before (h : Sound m g) {pre post : List Node} {n x : Node}
    (hg : g.nodes = pre ++ n :: post) {i : ℕ}
    (hi : m.allReplicas[i]? = some n.envelope.sender) (hx : x ∈ g.nodes)
    (hk : x.key = ⟨n.envelope.sender, n.envelope.id.vectorClock.atSlot i⟩) : x = n ∨ x ∈ pre := by
  have hn : n ∈ g.nodes := by
    rw [hg]
    exact List.mem_append_right _ (List.mem_cons_self ..)
  have hd := h.derived n hn
  by_cases his : i = n.senderSlot
  · subst his
    rw [hd.seq] at hk
    exact Or.inl (h.eq_of_key hx hn hk)
  · have hseq : n.envelope.id.vectorClock.atSlot i ≠ 0 := by
      have hpos := (h.derived x hx).seq_pos
      have hxs : x.senderSeq = n.envelope.id.vectorClock.atSlot i := congrArg Key.seq hk
      omega
    have hparent : (⟨n.envelope.sender, n.envelope.id.vectorClock.atSlot i⟩ : Key) ∈
        n.parents := by
      rw [hd.parents, mem_requiredParents]
      refine ⟨i, hi, ?_⟩
      rw [requiredSeq, if_neg his, if_neg hseq]
    obtain ⟨a, ha, hak⟩ := has_iff.mp (h.parentsFirst pre n post hg _ hparent)
    have hag : a ∈ g.nodes := by
      rw [hg]
      exact List.mem_append_left _ ha
    rw [h.eq_of_key hx hag (hk.trans hak.symm)]
    exact Or.inr ha

/-- The sequence numbers of one sender in the graph have no gap below any of them. -/
theorem Sound.contiguous (h : Sound m g) {n : Node} (hn : n ∈ g.nodes) {j : ℕ} (hj : 0 < j)
    (hle : j ≤ n.senderSeq) : ∃ a ∈ g.nodes, a.envelope.sender = n.envelope.sender ∧
      a.senderSeq = j := by
  obtain ⟨d, hd⟩ := Nat.exists_eq_add_of_le hle
  induction d generalizing n with
  | zero => exact ⟨n, hn, rfl, by omega⟩
  | succ d ih =>
    obtain ⟨p, hp, hk⟩ := has_iff.mp (h.closed hn (h.own_parent hn (by omega)))
    have hs : p.envelope.sender = n.envelope.sender := congrArg Key.sender hk
    have hq : p.senderSeq = n.senderSeq - 1 := congrArg Key.seq hk
    obtain ⟨a, ha, has, haj⟩ := ih hp (by omega) (by omega)
    exact ⟨a, ha, has.trans hs, haj⟩

/-- Two messages of one sender have the same slot. -/
theorem Sound.senderSlot_eq (h : Sound m g) {a b : Node} (ha : a ∈ g.nodes) (hb : b ∈ g.nodes)
    (hs : a.envelope.sender = b.envelope.sender) : a.senderSlot = b.senderSlot := by
  have hslot := (h.derived a ha).slot
  rw [hs, (h.derived b hb).slot] at hslot
  exact (Option.some.inj hslot).symm

/-- The latest message of a replica is the one with its largest number. -/
theorem Sound.latestNode_eq_some_iff (h : Sound m g) {r : ReplicaID} {l : Node} :
    g.latestNode r = some l ↔ l ∈ g.nodes ∧ l.envelope.sender = r ∧
      ∀ n ∈ g.nodes, n.envelope.sender = r → n.senderSeq ≤ l.senderSeq := by
  constructor
  · intro hl
    obtain ⟨hmem, hs, hseq⟩ := latestNode_eq_some hl
    refine ⟨hmem, hs, fun n hn hr => ?_⟩
    rw [hseq, ← hr]
    exact le_latestSeq hn
  · rintro ⟨hmem, rfl, hmax⟩
    have hle := le_latestSeq hmem
    have hpos := (h.derived l hmem).seq_pos
    obtain ⟨l', hl'⟩ := exists_latestNode (g := g) (r := l.envelope.sender) (by omega)
    obtain ⟨hmem', hs', hseq'⟩ := latestNode_eq_some hl'
    have hle' := hmax l' hmem' hs'
    have heq : l' = l := h.eq_of_key hmem' hmem (Key.ext hs' (by simp only [Node.key]; omega))
    rw [hl', heq]

theorem Sound.latestNode_concat {ns : List Node} {n : Node} (h : Sound m ⟨ns ++ [n]⟩)
    (r : ReplicaID) : latestNode ⟨ns ++ [n]⟩ r =
      if r = n.envelope.sender then some n else latestNode ⟨ns⟩ r := by
  have hpre : Sound m ⟨ns⟩ := by simpa using h.take ns.length
  have hlast : n ∈ ns ++ [n] := by simp
  split
  · rename_i hr
    refine h.latestNode_eq_some_iff.mpr ⟨hlast, hr.symm, fun a ha hs => ?_⟩
    rcases List.mem_append.mp ha with ha | ha
    · by_contra hlt
      obtain ⟨b, hb, hbs, hbq⟩ := hpre.contiguous ha (h.derived n hlast).seq_pos (by omega)
      have hbn := h.eq_of_key (List.mem_append_left _ hb) hlast
        (Key.ext (hbs.trans (hs.trans hr)) hbq)
      have hkeys := h.keys
      rw [List.map_append, List.nodup_append] at hkeys
      exact hkeys.2.2 n.key (List.mem_map.mpr ⟨b, hb, by rw [hbn]⟩) n.key (by simp) rfl
    · rw [List.mem_singleton.mp ha]
  · rename_i hr
    refine Option.ext fun l => ?_
    rw [h.latestNode_eq_some_iff, hpre.latestNode_eq_some_iff]
    have hmem : ∀ a, a.envelope.sender = r → (a ∈ ns ++ [n] ↔ a ∈ ns) := by
      rintro a rfl
      rw [List.mem_append, List.mem_singleton, or_iff_left]
      rintro rfl
      exact hr rfl
    constructor
    · rintro ⟨hl, hs, hmax⟩
      exact ⟨(hmem l hs).mp hl, hs, fun a ha has => hmax a ((hmem a has).mpr ha) has⟩
    · rintro ⟨hl, hs, hmax⟩
      exact ⟨(hmem l hs).mpr hl, hs, fun a ha has => hmax a ((hmem a has).mp ha) has⟩

/-- Every non-zero entry of a stored clock names a stored message. -/
theorem Sound.entry_present (h : Sound m g) {n : Node} (hn : n ∈ g.nodes) {i : ℕ}
    {r : ReplicaID} (hr : m.allReplicas[i]? = some r)
    (hne : n.envelope.id.vectorClock.atSlot i ≠ 0) :
    g.has ⟨r, n.envelope.id.vectorClock.atSlot i⟩ = true := by
  have hd := h.derived n hn
  by_cases hi : i = n.senderSlot
  · have hsender : r = n.envelope.sender := by
      have := Membership.slotOf_getElem? hd.slot
      rw [← hi, hr] at this
      exact Option.some.inj this
    rw [hi, hd.seq, hsender]
    exact has_iff.mpr ⟨n, hn, rfl⟩
  · apply h.closed hn
    rw [hd.parents, mem_requiredParents]
    exact ⟨i, hr, by rw [requiredSeq, if_neg hi, if_neg hne]⟩

/-- No stored clock is ahead of the messages that the graph holds. -/
theorem Sound.entry_le_latestSeq (h : Sound m g) {n : Node} (hn : n ∈ g.nodes) {i : ℕ}
    {r : ReplicaID} (hr : m.allReplicas[i]? = some r) :
    n.envelope.id.vectorClock.atSlot i ≤ g.latestSeq r := by
  by_cases hne : n.envelope.id.vectorClock.atSlot i = 0
  · rw [hne]
    exact Nat.zero_le _
  · obtain ⟨a, ha, hk⟩ := has_iff.mp (h.entry_present hn hr hne)
    have hle := le_latestSeq ha
    have hs : a.envelope.sender = r := congrArg Key.sender hk
    have hq : a.senderSeq = n.envelope.id.vectorClock.atSlot i := congrArg Key.seq hk
    rw [hs, hq] at hle
    exact hle

private def viewStep (g : Graph) (out : VectorClock) (r : ReplicaID) : VectorClock :=
  match g.latestNode r with
  | none => out
  | some n => out.max n.envelope.id.vectorClock

private theorem currentView_eq (g : Graph) (m : Membership) :
    g.currentView m = m.allReplicas.foldl (viewStep g) (List.replicate m.len 0) := rfl

private theorem viewStep_below (g : Graph) (out : VectorClock) (r : ReplicaID) :
    Below out (viewStep g out r) := by
  unfold viewStep
  split
  · exact Below.refl _
  · intro i
    rw [atSlot_max]
    exact le_max_left _ _

private theorem foldl_viewStep_below (g : Graph) (rs : List ReplicaID) (out : VectorClock) :
    Below out (rs.foldl (viewStep g) out) := by
  induction rs generalizing out with
  | nil => exact Below.refl _
  | cons r rs ih => exact (viewStep_below g out r).trans (ih _)

private theorem latest_below_foldl {rs : List ReplicaID} {r : ReplicaID} {n : Node}
    (hr : r ∈ rs) (hn : g.latestNode r = some n) (out : VectorClock) :
    Below n.envelope.id.vectorClock (rs.foldl (viewStep g) out) := by
  induction rs generalizing out with
  | nil => cases hr
  | cons a rs ih =>
    rcases List.mem_cons.mp hr with rfl | hr
    · have hstep : Below n.envelope.id.vectorClock (viewStep g out r) := by
        intro i
        simp only [viewStep, hn, atSlot_max]
        exact le_max_right _ _
      exact hstep.trans (foldl_viewStep_below g rs _)
    · exact ih hr _

private theorem foldl_viewStep_entry (rs : List ReplicaID) (out : VectorClock) (i : ℕ) :
    (rs.foldl (viewStep g) out).atSlot i = out.atSlot i ∨
      ∃ n ∈ g.nodes, (rs.foldl (viewStep g) out).atSlot i =
        n.envelope.id.vectorClock.atSlot i := by
  induction rs generalizing out with
  | nil => exact Or.inl rfl
  | cons r rs ih =>
    rcases ih (viewStep g out r) with h | h
    · rw [List.foldl_cons, h]
      unfold viewStep
      split
      · exact Or.inl rfl
      · rename_i n hn
        rw [atSlot_max]
        rcases max_choice (out.atSlot i) (n.envelope.id.vectorClock.atSlot i) with he | he
        · exact Or.inl he
        · exact Or.inr ⟨n, (latestNode_eq_some hn).1, he⟩
    · exact Or.inr h

private theorem foldl_viewStep_length (h : Sound m g) (rs : List ReplicaID)
    {out : VectorClock} (ho : out.length = m.len) :
    (rs.foldl (viewStep g) out).length = m.len := by
  induction rs generalizing out with
  | nil => exact ho
  | cons r rs ih =>
    apply ih
    unfold viewStep
    split
    · exact ho
    · rename_i n hn
      have hl := (h.derived n (latestNode_eq_some hn).1).length_le
      rw [length_max, ho]
      exact max_eq_left hl

theorem Sound.length_currentView (h : Sound m g) : (g.currentView m).length = m.len := by
  rw [currentView_eq]
  exact foldl_viewStep_length h _ (by simp)

/-- The view covers every message that is the newest of its sender. -/
theorem latestNode_below_currentView {r : ReplicaID} {n : Node} (hr : r ∈ m.allReplicas)
    (hn : g.latestNode r = some n) : Below n.envelope.id.vectorClock (g.currentView m) := by
  rw [currentView_eq]
  exact latest_below_foldl hr hn _

theorem currentView_entry {i : ℕ} (hne : (g.currentView m).atSlot i ≠ 0) :
    ∃ n ∈ g.nodes, (g.currentView m).atSlot i = n.envelope.id.vectorClock.atSlot i := by
  rw [currentView_eq] at hne ⊢
  rcases foldl_viewStep_entry m.allReplicas (List.replicate m.len 0) i with h | h
  · rw [atSlot_replicate_zero] at h
    exact absurd h hne
  · exact h

theorem Sound.latestSeq_le_currentView (h : Sound m g) {r : ReplicaID} {i : ℕ}
    (hr : m.slotOf r = some i) : g.latestSeq r ≤ (g.currentView m).atSlot i := by
  by_cases hz : g.latestSeq r = 0
  · rw [hz]
    exact Nat.zero_le _
  · obtain ⟨n, hn⟩ := exists_latestNode hz
    obtain ⟨hm, hs, hq⟩ := latestNode_eq_some hn
    have hd := h.derived n hm
    have hslot : n.senderSlot = i := by
      have := hd.slot
      rw [hs, hr] at this
      exact (Option.some.inj this).symm
    have hb := latestNode_below_currentView (Membership.slotOf_isSome_iff.mp ⟨i, hr⟩) hn i
    rw [← hslot, hd.seq, hq, hslot] at hb
    exact hb

/-- The view names at each slot exactly the newest message of that slot's replica. -/
theorem Sound.currentView_eq_latestSeq (h : Sound m g) {r : ReplicaID} {i : ℕ}
    (hr : m.slotOf r = some i) : (g.currentView m).atSlot i = g.latestSeq r := by
  apply Nat.le_antisymm
  · by_cases hz : (g.currentView m).atSlot i = 0
    · rw [hz]
      exact Nat.zero_le _
    · obtain ⟨n, hn, he⟩ := currentView_entry hz
      rw [he]
      exact h.entry_le_latestSeq hn (Membership.slotOf_getElem? hr)
  · exact h.latestSeq_le_currentView hr

/-- A message stamped with the incremented view of a sound graph is accepted. -/
theorem Sound.insert_incremented (h : Sound m g) {self : ReplicaID} {slot : ℕ}
    (hs : m.slotOf self = some slot) {vec : VectorClock}
    (hv : (g.currentView m).increment slot = some vec) {env : Envelope}
    (hsender : env.id.sender = some self) (hvc : env.id.vectorClock = vec) :
    ∃ g' n, g.insert m env = .ok (g', n) := by
  obtain ⟨hlt, hlen, hself, hother⟩ := increment_eq_some hv
  rw [h.length_currentView] at hlen hlt
  have hseq := h.currentView_eq_latestSeq hs
  subst hvc
  refine insert_eq_ok hsender hs (by omega) (by omega) (by omega) ?_ ?_
  · rw [lookup_eq_none_iff]
    intro n hn hk
    have hle := le_latestSeq hn
    have h1 : n.envelope.sender = self := congrArg Key.sender hk
    have h2 : n.senderSeq = env.id.vectorClock.atSlot slot := congrArg Key.seq hk
    rw [h1] at hle
    omega
  · intro k hk
    obtain ⟨i, hi, hreq⟩ := mem_requiredParents.mp hk
    have hview : (g.currentView m).atSlot i = k.seq ∧ k.seq ≠ 0 := by
      unfold requiredSeq at hreq
      split_ifs at hreq with h1 h2 h3
      · have := Option.some.inj hreq
        subst h1
        omega
      · have := Option.some.inj hreq
        rw [← hother i h1]
        omega
    obtain ⟨n, hn, he⟩ := currentView_entry (g := g) (m := m) (i := i) (by omega)
    have hp := h.entry_present hn hi (by omega)
    rw [← he, hview.1] at hp
    exact hp

end Comlink.Graph
