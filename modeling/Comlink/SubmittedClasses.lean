import Comlink.TrimSafety

/-!
# The class of a submitted payload

`Submit` wraps the payload into a frame and sends the frame, and `buildOrder` hands the
configured classifier to the semantic order layer as it is. The layer classifies what the
conversation delivers, which is the frame: every replica uses the class that the classifier
gives to the bytes of the frame.
-/
namespace Comlink

/-- The class that the layer goes by for an envelope. -/
def SemOrder.classOf (o : SemOrder) (env : Envelope) : ℤ := o.classifier env.payload

theorem SemOrder.isClass1_iff {o : SemOrder} {env : Envelope} :
    o.isClass1 env = true ↔ o.classOf env = 1 := decide_eq_true_iff

/-- The send of `Submit`. -/
def Replica.submit (K : FrameCodec) (io : HandlerChoices) (payload : List UInt8) :
    ReplicaAction :=
  .request (.send io (K.marshal (.app payload)))

namespace SubstrateGroup
open GuardedRuns Conversation

variable {K : FrameCodec} {G : Group} {s t u : SubstrateGroup} {p q : ReplicaID}
variable {a : GroupAction} {classifier : List UInt8 → ℤ} {env : Envelope}

/-- No substrate's member list changes. -/
def KeepsMembers (s : SubstrateGroup) (a : GroupAction) : Prop := (s a.replica).Static a.action

instance (s : SubstrateGroup) (a : GroupAction) : Decidable (KeepsMembers s a) :=
  inferInstanceAs (Decidable ((s a.replica).Static a.action))

/-- Every member runs the semantic order layer with the configured classifier. -/
structure Classifying (G : Group) (classifier : List UInt8 → ℤ) (s : SubstrateGroup) : Prop where
  group : G.Invariant s.convs
  layer : ∀ q ∈ G.members, ∃ o, (s q).ord = .semOrder o ∧ o.classifier = classifier

theorem classifying_initial (G : Group) (classifier : List UInt8 → ℤ)
    (through : ReplicaID → ℕ) :
    Classifying G classifier (initial G (.semOrder classifier) through) :=
  ⟨Group.invariant_start G, fun _ _ => ⟨_, rfl, rfl⟩⟩

theorem layer_effect {r r' : Replica} {ra : ReplicaAction} (he : r.Effect K ra r')
    (h : ∃ o, r.ord = .semOrder o ∧ o.classifier = classifier) :
    ∃ o, r'.ord = .semOrder o ∧ o.classifier = classifier := by
  cases he with
  | order hpump =>
    obtain ⟨o, ho, hc⟩ := h
    rw [ho] at hpump
    rcases OrderLayer.pump_cases hpump with ⟨_, _, hl, _⟩ | ⟨_, _, _, hl, _⟩ |
      ⟨o₁, ch, o', hl, ho', rfl⟩
    · cases hl
    · cases hl
    · cases hl
      exact ⟨o', rfl, (SemOrder.pump_kept ho').1.trans hc⟩
  | _ => exact h

theorem Classifying.step (h : Classifying G classifier s) (hk : KeepsMembers s a)
    (hs : step K G s a = some t) : Classifying G classifier t ∧ G.Later s.convs t.convs := by
  obtain ⟨hp, hd, r, hr, rfl⟩ := step_eq_some hs
  have he := Replica.step_effect hr
  obtain ⟨hgroup, hlater⟩ := group_update h.group hp hd hk he
  exact ⟨⟨hgroup, Group.forall_members_update
    (P := fun _ (x : Replica) => ∃ o, x.ord = .semOrder o ∧ o.classifier = classifier)
    (layer_effect he (h.layer _ hp)) h.layer⟩, hlater⟩

theorem Classifying.reach (h : Classifying G classifier s)
    (hr : Reach (SubstrateGroup.step K G) KeepsMembers s t) :
    Classifying G classifier t ∧ G.Later s.convs t.convs := by
  refine hr.invariant (P := fun t => Classifying G classifier t ∧ G.Later s.convs t.convs)
    ⟨h, Group.Later.refl G _⟩ ?_
  rintro t a t' ⟨ht, hl⟩ hk hs
  obtain ⟨ht', hl'⟩ := ht.step hk hs
  exact ⟨ht', hl.trans hl'⟩

/-- The envelope of a submission carries the frame. -/
theorem payload_submit (h : Classifying G classifier s) {io : HandlerChoices}
    {payload : List UInt8} (hs : step K G s ⟨p, Replica.submit K io payload⟩ = some t)
    (hi : (t p).conv.issued = (s p).conv.issued ++ [env]) :
    p ∈ G.members ∧ env.payload = K.marshal (.app payload) := by
  obtain ⟨hp, -, r, hr, rfl⟩ := step_eq_some hs
  refine ⟨hp, ?_⟩
  obtain rfl := Option.some.inj hr
  rw [Function.update_self] at hi
  have hlive : Live G.members (s p).conv := h.group.live p hp
  have hstatic : (Request.send io (K.marshal (.app payload))).isStatic = true := rfl
  rcases hlive.issued_handle hstatic with hsame | ⟨io', bytes, env', hreq, hbytes, hnew⟩
  · rw [hsame] at hi
    simp at hi
  · cases hreq
    rw [hnew] at hi
    rw [← hbytes, List.singleton_inj.mp (List.append_cancel_left hi)]

/-- Whatever a member delivers under the identity of an issued envelope is that envelope. -/
theorem Classifying.eq_of_id (h : Classifying G classifier s) (hp : p ∈ G.members)
    (hi : env ∈ (s p).conv.issued) (hq : q ∈ G.members) {e : Envelope}
    (he : e ∈ (s q).conv.delivered) (hid : e.id = env.id) : e = env := by
  obtain ⟨n, hn, rfl⟩ := (h.group.own p hp env hi).2
  have hlive : Live G.members (s q).conv := h.group.live q hq
  have hmembers : (s p).conv.membership.allReplicas = (s q).conv.membership.allReplicas :=
    (h.group.live p hp).members_eq.trans hlive.members_eq.symm
  rw [hlive.delivered] at he
  obtain ⟨a, ha, rfl⟩ := List.mem_map.mp he
  refine h.group.envelope_eq_of_key hq hp ha hn (Option.some.inj ?_)
  have hkey := ((hlive.sound.congr hmembers).derived a ha).keyOf
  have hkey' := ((h.group.live p hp).sound.derived n hn).keyOf
  have hsame : (s p).conv.membership.keyOf a.envelope =
      (s p).conv.membership.keyOf n.envelope := by
    rw [Membership.keyOf, Membership.keyOf, Envelope.sender, Envelope.sender, hid]
  exact hkey.symm.trans (hsame.trans hkey')

/-- A submission at any member of a group, in any run: every replica goes by the class of
the frame, which is the class of the payload exactly if the classifier says so. -/
theorem class_of_submitted {through : ReplicaID → ℕ} {io : HandlerChoices}
    {payload : List UInt8}
    (hr : Reach (step K G) KeepsMembers (initial G (.semOrder classifier) through) s)
    (hs : step K G s ⟨p, Replica.submit K io payload⟩ = some t)
    (hi : (t p).conv.issued = (s p).conv.issued ++ [env])
    (hu : Reach (step K G) KeepsMembers t u) (hq : q ∈ G.members) :
    ∃ o, (u q).ord = .semOrder o ∧ (∀ e ∈ (u q).conv.delivered, e.id = env.id → e = env) ∧
      (o.classOf env = classifier payload ↔
        classifier (K.marshal (.app payload)) = classifier payload) := by
  obtain ⟨hbefore, -⟩ := (classifying_initial G classifier through).reach hr
  obtain ⟨hp, hpayload⟩ := payload_submit hbefore hs hi
  obtain ⟨hafter, -⟩ := hbefore.step (by rfl) hs
  obtain ⟨h, hlater⟩ := hafter.reach hu
  obtain ⟨o, ho, hc⟩ := h.layer q hq
  have hissued : env ∈ (u p).conv.issued := by
    refine (hlater p hp).issued.subset ?_
    change env ∈ (t p).conv.issued
    rw [hi]
    simp
  refine ⟨o, ho, fun e he hid => h.eq_of_id hp hissued hq he hid, ?_⟩
  rw [SemOrder.classOf, hc, hpayload]

section Scripts

/-- `[7]` is submitted at the first of two members and reaches the second. -/
def submission : GroupAction := ⟨[1], Replica.submit .tagged .standard [7]⟩

def submitted : Envelope := Replica.message [1] [1, 0] (.app [7])

def arrival : List GroupAction :=
  [⟨[2], Replica.receive submitted⟩, ⟨[2], .order (.semOrder .standard)⟩]

/-- The layer of a replica, if it is the semantic one. -/
def semLayer (s : SubstrateGroup) (q : ReplicaID) : Option SemOrder :=
  match (s q).ord with
  | .semOrder o => some o
  | _ => none

theorem ord_of_semLayer {o : SemOrder} (h : semLayer s q = some o) : (s q).ord = .semOrder o := by
  unfold semLayer at h
  split at h
  · rename_i ho
    rw [ho, Option.some.inj h]
  · cases h

/-- By the last byte, which the frame shares with the payload. -/
def byLastByte (bytes : List UInt8) : ℤ := if bytes.getLast? = some 7 then 1 else 2

/-- By the first byte, which in the frame is the field number. -/
def byFirstByte (bytes : List UInt8) : ℤ := if bytes.head? = some 7 then 1 else 2

/-- The states after the submission and after its arrival. -/
theorem exists_submission (kind : OrderingKind) (check : SubstrateGroup → Bool)
    (hsub : (execute (step .tagged Replica.duo) KeepsMembers (initial Replica.duo kind fun _ => 0)
      [submission]).map (fun t => decide ((t [1]).conv.issued = [submitted])) = some true)
    (hrun : (execute (step .tagged Replica.duo) KeepsMembers (initial Replica.duo kind fun _ => 0)
      (submission :: arrival)).map check = some true) :
    ∃ t u, step .tagged Replica.duo (initial Replica.duo kind fun _ => 0) submission = some t ∧
      (t [1]).conv.issued = [submitted] ∧
      Reach (step .tagged Replica.duo) KeepsMembers t u ∧ check u = true := by
  obtain ⟨u, he, -, hc⟩ := reach_of_execute hrun
  obtain ⟨-, t, ht, hrest⟩ := execute_cons he
  obtain ⟨t', he', -, hi⟩ := reach_of_execute hsub
  obtain ⟨-, t'', ht', hlast⟩ := execute_cons he'
  obtain rfl := Option.some.inj hlast
  obtain rfl := Option.some.inj (ht.symm.trans ht')
  exact ⟨t, u, ht, of_decide_eq_true hi, execute_reach arrival hrest, hc⟩

end Scripts

theorem class_of_submitted_byLastByte : ∃ t u o,
    step .tagged Replica.duo (initial Replica.duo (.semOrder byLastByte) fun _ => 0) submission =
        some t ∧
      Reach (step .tagged Replica.duo) KeepsMembers t u ∧ submitted ∈ (u [2]).conv.delivered ∧
      (u [2]).ord = .semOrder o ∧ o.classOf submitted = byLastByte [7] := by
  obtain ⟨t, u, ht, hi, hu, hc⟩ := exists_submission (.semOrder byLastByte)
    (fun u => decide (submitted ∈ (u [2]).conv.delivered)) (by decide +kernel) (by decide +kernel)
  have hstart : Reach (step .tagged Replica.duo) KeepsMembers
      (initial Replica.duo (.semOrder byLastByte) fun _ => 0)
      (initial Replica.duo (.semOrder byLastByte) fun _ => 0) := .refl
  obtain ⟨o, ho, -, hiff⟩ := class_of_submitted hstart ht hi hu (q := [2]) (by decide)
  exact ⟨t, u, o, ht, hu, of_decide_eq_true hc, ho, hiff.mpr (by decide)⟩

/-- The payload is of class 1, and the layer that has read its envelope takes it for a
strict operation. -/
theorem class_of_submitted_byFirstByte : ∃ t u o,
    step .tagged Replica.duo (initial Replica.duo (.semOrder byFirstByte) fun _ => 0) submission =
        some t ∧ (t [1]).conv.issued = [submitted] ∧
      Reach (step .tagged Replica.duo) KeepsMembers t u ∧ (u [2]).ord = .semOrder o ∧
      submitted ∈ o.inWave 1 ∧ byFirstByte [7] = 1 ∧ o.classOf submitted = 2 ∧
      o.isClass1 submitted = false := by
  obtain ⟨t, u, ht, hi, hu, hc⟩ := exists_submission (.semOrder byFirstByte)
    (fun u => (semLayer u [2]).any fun o : SemOrder =>
      decide (submitted ∈ o.inWave 1 ∧ o.classOf submitted = 2)) (by decide +kernel)
    (by decide +kernel)
  obtain ⟨o, ho, hmem⟩ := (Option.any_eq_true _ _).mp hc
  obtain ⟨hwave, hclass⟩ := of_decide_eq_true hmem
  refine ⟨t, u, o, ht, hi, hu, ord_of_semLayer ho, hwave, by decide, hclass, ?_⟩
  rw [← Bool.not_eq_true, SemOrder.isClass1_iff, hclass]
  decide

end SubstrateGroup
end Comlink
