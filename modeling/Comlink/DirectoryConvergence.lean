import Comlink.StrictOperations
import Comlink.Substrate

/-!
# The directory over the semantic order

`examples/directory` keeps a map from names to values under `OrderingSemOrder`. Its classifier
puts no operation into class 1. Then a layer never jumps over a wave in which something may still
arrive: to leave a wave it must have heard of everyone in a later one, and nothing is passed over
on the way. What remains to be asked for is that no sender has two messages in a wave, whose order
the sort of the wave leaves open.
-/
namespace Comlink
open GuardedRuns BlockSequences

/-! ### Layers without operations of class 1 -/

namespace SemOrder

variable {D D' : List Envelope} {o o' : SemOrder} {ch : SemChoices}

/-- Whatever may come after the messages of `D` is not below the current wave. -/
def OnTime (D : List Envelope) (o : SemOrder) : Prop :=
  ∀ env : Envelope, env.sender ∈ o.membership.replicas → 0 < env.wave →
    (∀ x ∈ D, x.sender = env.sender → x.wave ≤ env.wave) → o.currentWave ≤ env.wave

theorem OnTime.of_eq (h : OnTime D o) (hw : o'.currentWave = o.currentWave)
    (hm : o'.membership = o.membership) (hD : D ⊆ D') : OnTime D' o' := by
  intro env hr hpos hin
  rw [hw]
  exact h env (hm ▸ hr) hpos fun x hx => hin x (hD hx)

theorem currentWave_tryEagerExecutions (o : SemOrder) :
    (o.tryEagerExecutions ch).currentWave = o.currentWave := by
  apply eagerLoop_induction (P := fun o' => o'.currentWave = o.currentWave) _ _ rfl
  intro o' env _ h _ _ _ _
  unfold applyEnv
  split <;> exact h

theorem currentWave_observe (o : SemOrder) (env : Envelope) :
    (o.observe env).currentWave = o.currentWave := by
  unfold observe
  split
  · rfl
  · dsimp only
    split <;> rfl

/-- The next wave is at most that of any message above the current one. -/
theorem OnTime.advance (hs : Sees D o) (hstrict : ∀ e, o.isClass1 e = false)
    (hgate : ∀ r ∈ o.membership.replicas, ∃ x ∈ D, x.sender = r ∧ o.currentWave < x.wave)
    {next : ℕ} (hnext : o.findNextStrictWave (o.currentWave + 1) = some next) :
    OnTime D { o with currentWave := next } := by
  intro env hr _ hin
  obtain ⟨x, hx, hxr, hlt⟩ := hgate _ hr
  have hle := hin x hx hxr
  by_contra hbelow
  dsimp only at hbelow
  have hclass := (findNextStrictWave_eq_some hnext).2 x.wave hlt (by omega) x
    ((hs.stored _ _).mpr ⟨hx, rfl⟩)
  rw [hstrict] at hclass
  cases hclass

theorem OnTime.advanceLoop (h : OnTime D o) (hs : Sees D o) (hstrict : ∀ e, o.isClass1 e = false)
    (fuel : ℕ) : OnTime D (o.advanceLoop ch fuel) := by
  induction fuel generalizing o with
  | zero => exact h
  | succ fuel ih =>
    rw [SemOrder.advanceLoop]
    split
    · rename_i hgate
      have hmoves : Moves o ((o.drainWave ch).tryEagerExecutions ch) :=
        (moves_drainWave o).trans (moves_eagerLoop _ _)
      have hwave : ((o.drainWave ch).tryEagerExecutions ch).currentWave = o.currentWave := by
        obtain ⟨executed, heq⟩ := hs.drainWave ch
        rw [currentWave_tryEagerExecutions, heq]
      obtain ⟨hc, hm, -⟩ := hmoves.kept
      have hsees := hs.moves hmoves
      generalize (o.drainWave ch).tryEagerExecutions ch = r at hwave hc hm hsees ⊢
      have hstrict' : ∀ e, r.isClass1 e = false := by
        intro e
        rw [isClass1, hc]
        exact hstrict e
      dsimp only
      split
      · exact h.of_eq hwave hm (List.Subset.refl D)
      · rename_i next hnext
        refine ih (OnTime.advance hsees hstrict' ?_ hnext) (hsees.move (.advance next)) hstrict'
        intro q hq
        rw [hwave]
        exact hs.gate (Bool.and_eq_true_iff.mp hgate).2 (hm ▸ hq)
    · exact h

end SemOrder

namespace SemGroup
open SemOrder

variable {G : Group} {classifier : List UInt8 → ℤ} {s t : SemGroup} {p q : ReplicaID}

/-- What the pump reads next is the first message of its sender in its wave. -/
def FirstInWave (s : SemGroup) : SemAction → Prop
  | .net _ => True
  | .pump p _ => ∀ env ∈ (s.net p).delivered[(s.order p).received]?,
      ∀ f ∈ (s.order p).inWave env.wave, f.sender ≠ env.sender

instance (s : SemGroup) (a : SemAction) : Decidable (FirstInWave s a) :=
  match a with
  | .net _ => isTrue trivial
  | .pump _ _ => inferInstanceAs (Decidable (∀ env ∈ _, _))

structure Punctual (G : Group) (classifier : List UInt8 → ℤ) (s : SemGroup) : Prop
    extends Invariant G classifier s where
  onTime : ∀ p ∈ G.members, OnTime (s.observed p) (s.order p)

/-- The message that a layer reads next. -/
theorem Invariant.arrival (h : Invariant G classifier s) (hp : p ∈ G.members) {env : Envelope}
    (henv : (s.net p).delivered[(s.order p).received]? = some env) :
    env.sender ∈ (s.order p).membership.replicas ∧ 0 < env.wave ∧
      (∀ x ∈ s.observed p, x.sender = env.sender → x.wave ≤ env.wave) ∧
      Sees (s.observed p ++ [env]) ((s.order p).observe env) := by
  rw [(h.group.live p hp).delivered, List.getElem?_map, Option.map_eq_some_iff] at henv
  obtain ⟨n, hn, rfl⟩ := henv
  have hnm := List.mem_of_getElem? hn
  have hd := (h.group.live p hp).sound.derived n hnm
  have hread : ∀ e ∈ s.observed p,
      ∃ a ∈ (s.net p).graph.nodes.take (s.order p).received, a.envelope = e := by
    intro e he
    rw [h.observed_eq hp] at he
    exact List.mem_map.mp he
  refine ⟨?_, ?_, ?_, (h.layered p hp).ordered.toSees.observe (h.keyOf_node hp hp hnm) ?_⟩
  · rw [(h.layered p hp).membership_eq, Membership.replicas_ofReplicas]
    exact (h.group.own_node hp hnm rfl).1
  · have hle := VectorClock.atSlot_le_waveOf n.envelope.id.vectorClock n.senderSlot
    rw [hd.seq] at hle
    exact hd.seq_pos.trans_le hle
  · intro e he hs
    obtain ⟨a, ha, rfl⟩ := hread e he
    rw [← h.group.wave_eq hp (List.mem_of_mem_take ha), ← h.group.wave_eq hp hnm]
    exact (h.group.next_delivery hp hn ha).2 hs
  · intro e he
    obtain ⟨a, ha, rfl⟩ := hread e he
    rw [h.keyOf_node hp hp (List.mem_of_mem_take ha)]
    exact fun hk => (h.group.next_delivery hp hn ha).1 (Option.some.inj hk)

theorem Punctual.pump (h : Punctual G classifier s) (hstrict : ∀ payload, classifier payload ≠ 1)
    (hp : p ∈ G.members) {ch : SemChoices} {o : SemOrder}
    (ho : (s.order p).pump (s.net p) ch = some o) :
    OnTime ((s.net p).delivered.take o.received) o := by
  obtain ⟨env, henv, -⟩ := pump_moves ho
  obtain ⟨-, -, -, hsees⟩ := h.arrival hp henv
  rw [(pump_kept ho).2.2, List.take_add_one, henv, Option.toList_some]
  rw [SemOrder.pump, henv] at ho
  obtain rfl := Option.some.inj ho
  have hmoves : Moves { (s.order p).observe env with received := (s.order p).received + 1 }
      ({ (s.order p).observe env with
        received := (s.order p).received + 1 }.tryEagerExecutions ch) := moves_eagerLoop _ _
  obtain ⟨hc, hm, -⟩ := hmoves.kept
  obtain ⟨hc', hm'⟩ := kept_observe (s.order p) env
  refine OnTime.advanceLoop ?_ ((hsees.received _).moves hmoves) ?_ _
  · refine (h.onTime p hp).of_eq ?_ (hm.trans hm') (List.subset_append_left _ _)
    exact (currentWave_tryEagerExecutions _).trans (currentWave_observe _ env)
  · intro e
    have hclass := congrFun (hc.trans (hc'.trans (h.layered p hp).classifier_eq)) e.payload
    exact decide_eq_false fun hone => hstrict e.payload (hclass.symm.trans hone)

theorem Punctual.step (h : Punctual G classifier s) (hstrict : ∀ payload, classifier payload ≠ 1)
    {a : SemAction} (hf : Fixed s a) (hfirst : FirstInWave s a) (hs : step G s a = some t) :
    Punctual G classifier t := by
  cases a with
  | net a =>
    refine ⟨h.toInvariant.step hf trivial hs, ?_⟩
    obtain ⟨net, hnet, rfl⟩ := step_net hs
    intro p hp
    have hlater := h.group.later_step (Conversation.Request.isStatic_of_isFixed hf) hnet p hp
    obtain ⟨rest, hrest⟩ := hlater.delivered
    have hsame : observed ⟨net, s.order⟩ p = s.observed p := by
      rw [observed, observed, ← hrest,
        List.take_append_of_le_length (h.layered p hp).received_le]
    rw [hsame]
    exact h.onTime p hp
  | pump p ch =>
    obtain ⟨hp, o, ho, rfl⟩ := step_pump hs
    have htimely : DeliveredTimely s (.pump p ch) := by
      intro env henv _
      obtain ⟨hr, hpos, hin, -⟩ := h.arrival hp henv
      exact ⟨h.onTime p hp env hr hpos hin, fun f hf _ => hfirst env henv f hf⟩
    refine ⟨h.toInvariant.step hf htimely hs, ?_⟩
    exact Group.forall_members_update
      (P := fun q o => OnTime ((s.net q).delivered.take o.received) o) (h.pump hstrict hp ho)
      h.onTime

/-- Everything that is emitted is in one order. -/
theorem Punctual.prefixComparable (h : Punctual G classifier s)
    (hstrict : ∀ payload, classifier payload ≠ 1) (hp : p ∈ G.members) (hq : q ∈ G.members) :
    PrefixComparable (s.order p).emitted (s.order q).emitted := by
  have hall : ∀ r ∈ G.members, (s.order r).strictEmitted = (s.order r).emitted := by
    intro r hr
    apply List.filter_eq_self.mpr
    intro e _
    simp [(h.isClass1_eq_false hr).mpr (hstrict e.payload)]
  rw [← hall p hp, ← hall q hq]
  exact h.toInvariant.prefixComparable hp hq

end SemGroup

/-! ### The directory -/

inductive DirectoryOp where
  | insert
  | update
  | delete
  | other (op : String)

structure DirectoryCommand where
  op : DirectoryOp
  name : List UInt8
  value : List UInt8

/-- What `json.Unmarshal` makes of a payload. -/
abbrev CommandDecoder := List UInt8 → Option DirectoryCommand

abbrev Directory := AList fun _ : List UInt8 => List UInt8

namespace Directory

/-- FNV-1a with 32 bits. -/
def sum32 (name : List UInt8) : UInt32 :=
  name.foldl (fun h b => (h ^^^ b.toUInt32) * 16777619) 2166136261

/-- The class of a name. The conversion of the sum to an `int` of 64 bits keeps it; one of 32
bits could make it negative, and the class one of those below two. -/
def classifyName (name : List UInt8) : ℤ := (sum32 name).toNat + 2

def classifierForDirectory (C : CommandDecoder) (payload : List UInt8) : ℤ :=
  match C payload with
  | none => 0
  | some c => classifyName c.name

def apply (C : CommandDecoder) (d : Directory) (payload : List UInt8) : Directory :=
  match C payload with
  | none => d
  | some c =>
    match c.op with
    | .insert => if (d.lookup c.name).isSome then d else AList.insert c.name c.value d
    | .update => if (d.lookup c.name).isSome then AList.insert c.name c.value d else d
    | .delete => AList.erase c.name d
    | .other _ => d

/-- The directory of a substrate that was handed these messages. -/
def after (K : FrameCodec) (C : CommandDecoder) (envs : List Envelope) : Directory :=
  envs.foldl (fun d env => match K.unmarshal env.payload with
    | some (.app payload) => apply C d payload
    | _ => d) ∅

variable {K : FrameCodec} {C : CommandDecoder} {G : Group} {s : SemGroup} {p q : ReplicaID}

theorem classifierForDirectory_ne_one (C : CommandDecoder) (payload : List UInt8) :
    classifierForDirectory C payload ≠ 1 := by
  unfold classifierForDirectory
  split
  · decide
  · unfold classifyName
    omega

/-- Over every run of a group with a fixed member list in which no sender has two messages in a
wave, the directories are states of one history: the one that has applied fewer messages is what
the other one was. -/
theorem directories_agree
    (hr : Reach (SemGroup.step G) (fun s a => SemGroup.Fixed s a ∧ SemGroup.FirstInWave s a)
      (SemGroup.initial G (classifierForDirectory C)) s) (hp : p ∈ G.members)
    (hq : q ∈ G.members) (hle : (s.order p).emitted.length ≤ (s.order q).emitted.length) :
    after K C (s.order p).emitted =
      after K C ((s.order q).emitted.take (s.order p).emitted.length) := by
  have hstrict := classifierForDirectory_ne_one C
  have hstart : SemGroup.Punctual G (classifierForDirectory C)
      (SemGroup.initial G (classifierForDirectory C)) :=
    ⟨SemGroup.invariant_initial _ _, fun _ _ _ _ hpos _ => hpos⟩
  have h : SemGroup.Punctual G (classifierForDirectory C) s :=
    hr.invariant hstart fun _ _ _ h hok hstep => h.step hstrict hok.1 hok.2 hstep
  congr 1
  rcases h.prefixComparable hstrict hp hq with hpre | hpre
  · exact List.prefix_iff_eq_take.mp hpre
  · rw [hpre.eq_of_length_le hle, List.take_length]

section Scripts
open SemGroup

/-- A byte for the operation, one for the name and one for the value. -/
def byteCommand : CommandDecoder
  | [1, name, value] => some ⟨.insert, [name], [value]⟩
  | [2, name, value] => some ⟨.update, [name], [value]⟩
  | [3, name] => some ⟨.delete, [name], []⟩
  | _ => none

/-- Both replicas insert the name 5 in wave 1, and say something in wave 2. -/
def insertedTwice : List SemAction :=
  [send [1] [1, 1, 5, 7], receive [2] (message [1] [1, 0] [1, 1, 5, 7]), send [2] [1, 1, 5, 8],
    receive [1] (message [2] [1, 1] [1, 1, 5, 8]), send [1] [2],
    receive [2] (message [1] [2, 1] [2]), send [2] [2], receive [1] (message [2] [2, 2] [2])] ++
  read [1] 4 ++ read [2] 4

end Scripts

theorem directories_agree_insertedTwice : ∃ s,
    Reach (SemGroup.step SemGroup.twoReplicas)
        (fun s a => SemGroup.Fixed s a ∧ SemGroup.FirstInWave s a)
        (SemGroup.initial SemGroup.twoReplicas (classifierForDirectory byteCommand)) s ∧
      ((s.order [1]).emitted.length = 2 ∧ (s.order [2]).emitted.length = 2 ∧
        (after .tagged byteCommand (s.order [2]).emitted).lookup [5] = some [7]) ∧
      after .tagged byteCommand (s.order [1]).emitted =
        after .tagged byteCommand ((s.order [2]).emitted.take (s.order [1]).emitted.length) := by
  have hrun : (execute (SemGroup.step SemGroup.twoReplicas)
      (fun s a => SemGroup.Fixed s a ∧ SemGroup.FirstInWave s a)
      (SemGroup.initial SemGroup.twoReplicas (classifierForDirectory byteCommand))
      insertedTwice).map (fun s => decide ((s.order [1]).emitted.length = 2 ∧
        (s.order [2]).emitted.length = 2 ∧
        (after .tagged byteCommand (s.order [2]).emitted).lookup [5] = some [7])) = some true := by
    decide +kernel
  obtain ⟨s, -, hr, hs⟩ := reach_of_execute hrun
  have hstate := of_decide_eq_true hs
  refine ⟨s, hr, hstate, directories_agree hr (by decide) (by decide) ?_⟩
  rw [hstate.1, hstate.2.1]

end Directory
end Comlink
