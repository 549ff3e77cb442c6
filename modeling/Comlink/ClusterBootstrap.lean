import Comlink.MemberStorage
import Comlink.PeerAddresses
import Comlink.SlotStability

/-!
# The bootstrap of a cluster

`NewCluster` up to the point where the cluster is started, over a storage whose writes may
fail and in a process that may crash. A joiner asks its sponsors, and then writes the
identifier of the cluster and the member list one after the other. The next attempt looks
at the identifier alone: with it in the storage no sponsor is asked any more, so that the
members are never written if they are missing.
-/
namespace Comlink
open Cluster

structure BootstrapConfig where
  force : Bool
  allowOverride : Bool
  clusterID : Option (List UInt8)
  deriving DecidableEq, Repr

structure Sponsor where
  id : ReplicaID
  addr : String
  deriving DecidableEq, Repr

structure ClusterConfig where
  self : ReplicaID
  members : List ReplicaID
  bootstrap : BootstrapConfig
  sponsors : List Sponsor

structure JoinResponse where
  clusterID : List UInt8
  members : List ClusterMember
  deriving DecidableEq, Repr

/-- The values of the storage under the two keys of a cluster. -/
structure ClusterStorage where
  clusterID : Option (List UInt8)
  members : Option (List UInt8)
  deriving DecidableEq, Repr

/-- A `Put` succeeds, returns an error, or is cut short by a crash; in the latter cases the
new value may have been written or not. -/
inductive PutOutcome where
  | done
  | failed (written : Bool)
  | crashed (written : Bool)
  deriving DecidableEq, Repr

def PutOutcome.written : PutOutcome → Bool
  | .done => true
  | .failed w | .crashed w => w

inductive BootstrapError where
  | invalidConfig
  | parseMembers
  | storage
  | invalidID
  | required
  | wouldOverride
  | allSponsorsFailed
  | noMembers
  | selfNotPersisted
  deriving DecidableEq, Repr

/-- How an attempt ends before the cluster is started. -/
inductive Halt where
  | crash
  | error (e : BootstrapError)
  deriving DecidableEq, Repr

/-- What one attempt meets: the own address, the identifier that it would mint, the
answers of the sponsors, and what becomes of the two writes. -/
structure Attempt where
  selfAddr : String
  minted : List UInt8
  answer : Sponsor → Option JoinResponse
  putClusterID : PutOutcome
  putMembers : PutOutcome

namespace Bootstrap

/-- The storage after a `Put`, and how the attempt ends if it does. -/
def put (o : PutOutcome) (old new : ClusterStorage) : ClusterStorage × Except Halt Unit :=
  match o with
  | .done => (new, .ok ())
  | .failed w => (if w then new else old, .error (.error .storage))
  | .crashed w => (if w then new else old, .error .crash)

def persistClusterID (a : Attempt) (st : ClusterStorage) (id : List UInt8) :
    ClusterStorage × Except Halt (List UInt8) :=
  match put a.putClusterID st { st with clusterID := some id } with
  | (st, .ok _) => (st, .ok id)
  | (st, .error h) => (st, .error h)

def setAll (C : MemberCodec) (a : Attempt) (st : ClusterStorage) (members : List ClusterMember) :
    ClusterStorage × Except Halt Unit :=
  put a.putMembers st { st with members := some (C.marshal members) }

def chooseClusterID (cfg : ClusterConfig) (a : Attempt) : List UInt8 :=
  cfg.bootstrap.clusterID.getD a.minted

def loadOrCreateClusterID (cfg : ClusterConfig) (a : Attempt) (st : ClusterStorage) :
    ClusterStorage × Except Halt (List UInt8) :=
  if (st.clusterID.any fun id => id.length ≠ idLen) then (st, .error (.error .invalidID))
  else if (cfg.bootstrap.clusterID.any fun id => id.length ≠ idLen) then
    (st, .error (.error .invalidID))
  else match st.clusterID with
    | some existing =>
      if !cfg.bootstrap.force then (st, .ok existing)
      else if !cfg.bootstrap.allowOverride then (st, .error (.error .wouldOverride))
      else persistClusterID a st (chooseClusterID cfg a)
    | none =>
      if cfg.bootstrap.force then persistClusterID a st (chooseClusterID cfg a)
      else (st, .error (.error .required))

/-- `dialSponsorJoin`: an answer with an identifier of the wrong length is an error. -/
def dialSponsorJoin (a : Attempt) (sp : Sponsor) : Option JoinResponse :=
  (a.answer sp).filter fun resp => resp.clusterID.length = idLen

/-- `loadClusterIDOrJoin`, with the list that the member store has in memory then. -/
def loadClusterIDOrJoin (C : MemberCodec) (cfg : ClusterConfig) (a : Attempt)
    (st : ClusterStorage) (loaded : List ClusterMember) :
    ClusterStorage × Except Halt (List UInt8 × List ClusterMember) :=
  match loadOrCreateClusterID cfg a st with
  | (st, .ok id) => (st, .ok (id, loaded))
  | (st, .error h) =>
    if h ≠ .error .required then (st, .error h)
    else match cfg.sponsors.findSome? (dialSponsorJoin a) with
      | none =>
        (st, .error (.error (if cfg.sponsors = [] then .required else .allSponsorsFailed)))
      | some resp => match persistClusterID a st resp.clusterID with
        | (st, .error h) => (st, .error h)
        | (st, .ok id) => match setAll C a st resp.members with
          | (st, .error h) => (st, .error h)
          | (st, .ok _) => (st, .ok (id, resp.members))

/-- The configured members with the addresses that are known of them. -/
def seed (cfg : ClusterConfig) (a : Attempt) : List ClusterMember :=
  cfg.members.map fun m => ⟨m, if m = cfg.self then a.selfAddr
    else ((cfg.sponsors.find? fun sp => sp.id = m).map Sponsor.addr).getD ""⟩

def validateClusterConfig (cfg : ClusterConfig) : Bool :=
  cfg.self.length = idLen ∧ (cfg.members = [] ∨ cfg.self ∈ cfg.members)

/-- `NewCluster` until the persisted members are known to contain the replica. -/
def newCluster (C : MemberCodec) (cfg : ClusterConfig) (a : Attempt) (st : ClusterStorage) :
    ClusterStorage × Except Halt (List UInt8 × List ClusterMember) :=
  if !validateClusterConfig cfg then (st, .error (.error .invalidConfig))
  else match StoredMembers.load C st.members with
    | none => (st, .error (.error .parseMembers))
    | some loaded => match loadClusterIDOrJoin C cfg a st loaded with
      | (st, .error h) => (st, .error h)
      | (st, .ok (id, members)) =>
        if members = [] then
          if cfg.members = [] then (st, .error (.error .noMembers))
          else match setAll C a st (seed cfg a) with
            | (st, .error h) => (st, .error h)
            | (st, .ok _) =>
              if cfg.self ∈ MemberStore.ids (seed cfg a) then (st, .ok (id, seed cfg a))
              else (st, .error (.error .selfNotPersisted))
        else if cfg.self ∈ MemberStore.ids members then (st, .ok (id, members))
        else (st, .error (.error .selfNotPersisted))

variable {C : MemberCodec} {cfg : ClusterConfig} {a b : Attempt} {st : ClusterStorage}
variable {id : List UInt8} {resp : JoinResponse}

/-- A storage in which nothing was written. -/
def fresh : ClusterStorage := ⟨none, none⟩

/-- Without members of its own, a configuration relies on the sponsors. -/
structure Joiner (cfg : ClusterConfig) : Prop where
  self : cfg.self.length = idLen
  members : cfg.members = []

/-- `Force` is not set, and an identifier in the configuration is well formed. -/
structure Asks (cfg : ClusterConfig) : Prop where
  force : cfg.bootstrap.force = false
  clusterID : ∀ x ∈ cfg.bootstrap.clusterID, x.length = idLen

/-- A sponsor answers. -/
def Answered (cfg : ClusterConfig) (a : Attempt) : Prop :=
  ∃ sp ∈ cfg.sponsors, (a.answer sp).isSome = true

/-- Every sponsor that answers is of this cluster and has admitted the joiner. -/
def Sponsored (cfg : ClusterConfig) (id : List UInt8) (a : Attempt) : Prop :=
  ∀ sp ∈ cfg.sponsors, ∀ resp ∈ a.answer sp,
    resp.clusterID = id ∧ cfg.self ∈ MemberStore.ids resp.members

/-- The identifier of the cluster has been written, and the members have not. -/
def HalfWritten (cfg : ClusterConfig) (a : Attempt) : Prop :=
  Answered cfg a ∧ a.putClusterID.written = true ∧
    (a.putClusterID = .done → a.putMembers.written = false)

section Sponsors

variable (hid : id.length = idLen) (hs : Sponsored cfg id a)

include hid hs

theorem Answered.exists_response (h : Answered cfg a) : ∃ resp,
    cfg.sponsors.findSome? (dialSponsorJoin a) = some resp ∧ resp.clusterID = id ∧
      cfg.self ∈ MemberStore.ids resp.members := by
  obtain ⟨sp, hsp, hsome⟩ := h
  obtain ⟨resp₀, hresp₀⟩ := Option.isSome_iff_exists.mp hsome
  have hdial : dialSponsorJoin a sp = some resp₀ := by
    rw [dialSponsorJoin, hresp₀, Option.filter_some_pos]
    rw [(hs sp hsp resp₀ hresp₀).1]
    exact decide_eq_true hid
  have hfind : (cfg.sponsors.findSome? (dialSponsorJoin a)).isSome = true := by
    rw [List.findSome?_isSome_iff]
    exact ⟨sp, hsp, by rw [hdial]; rfl⟩
  obtain ⟨resp, hresp⟩ := Option.isSome_iff_exists.mp hfind
  obtain ⟨sp', hsp', hdial'⟩ := List.exists_of_findSome?_eq_some hresp
  rw [dialSponsorJoin, Option.filter_eq_some_iff] at hdial'
  exact ⟨resp, hresp, hs sp' hsp' resp hdial'.1⟩

end Sponsors

theorem findSome?_of_not_answered (h : ¬Answered cfg a) :
    cfg.sponsors.findSome? (dialSponsorJoin a) = none := by
  rw [List.findSome?_eq_none_iff]
  intro sp hsp
  have hnone : a.answer sp = none := by
    by_contra hne
    exact h ⟨sp, hsp, Option.isSome_iff_ne_none.mpr hne⟩
  rw [dialSponsorJoin, hnone]
  rfl

theorem Joiner.valid (h : Joiner cfg) : validateClusterConfig cfg = true := by
  simp [validateClusterConfig, h.self, h.members]

section Asking

variable (ha : Asks cfg)

include ha

theorem Asks.not_any : (cfg.bootstrap.clusterID.any fun x => x.length ≠ idLen) = false := by
  cases hx : cfg.bootstrap.clusterID with
  | none => rfl
  | some x => simp [ha.clusterID x hx]

theorem Asks.loadOrCreateClusterID_none (hst : st.clusterID = none) :
    loadOrCreateClusterID cfg a st = (st, .error (.error .required)) := by
  rw [loadOrCreateClusterID, ha.not_any, ha.force, hst]
  rfl

theorem Asks.loadOrCreateClusterID_some (hst : st.clusterID = some id)
    (hid : id.length = idLen) : loadOrCreateClusterID cfg a st = (st, .ok id) := by
  have hlen : (st.clusterID.any fun x => x.length ≠ idLen) = false := by simp [hst, hid]
  rw [loadOrCreateClusterID, hlen, ha.not_any, ha.force, hst]
  rfl

/-- Both writes of a response, of which the second is only made after the first. -/
theorem Asks.loadClusterIDOrJoin_response (hst : st.clusterID = none)
    (hresp : cfg.sponsors.findSome? (dialSponsorJoin a) = some resp)
    (loaded : List ClusterMember) :
    loadClusterIDOrJoin C cfg a st loaded = match persistClusterID a st resp.clusterID with
      | (st, .error h) => (st, .error h)
      | (st, .ok id) => match setAll C a st resp.members with
        | (st, .error h) => (st, .error h)
        | (st, .ok _) => (st, .ok (id, resp.members)) := by
  rw [loadClusterIDOrJoin, ha.loadOrCreateClusterID_none hst, hresp]
  rfl

theorem Asks.loadClusterIDOrJoin_known (hst : st.clusterID = some id)
    (hid : id.length = idLen) (loaded : List ClusterMember) :
    loadClusterIDOrJoin C cfg a st loaded = (st, .ok (id, loaded)) := by
  rw [loadClusterIDOrJoin, ha.loadOrCreateClusterID_some hst hid]

end Asking

theorem ne_nil_of_mem_ids {r : ReplicaID} {members : List ClusterMember}
    (h : r ∈ MemberStore.ids members) : members ≠ [] := by
  rintro rfl
  cases h

theorem Joiner.newCluster_eq (hj : Joiner cfg) {loaded : List ClusterMember}
    (hload : StoredMembers.load C st.members = some loaded) :
    newCluster C cfg a st = match loadClusterIDOrJoin C cfg a st loaded with
      | (st, .error h) => (st, .error h)
      | (st, .ok (id, members)) =>
        if members = [] then (st, .error (.error .noMembers))
        else if cfg.self ∈ MemberStore.ids members then (st, .ok (id, members))
        else (st, .error (.error .selfNotPersisted)) := by
  rw [newCluster, hj.valid, hload]
  simp only [hj.members, Bool.not_true, Bool.false_eq_true, if_false, if_true]

theorem load_fresh : StoredMembers.load C fresh.members = some [] := rfl

/-- What an attempt with an answer from a sponsor leaves in an empty storage. -/
theorem storage_join (hj : Joiner cfg) (ha : Asks cfg)
    (hresp : cfg.sponsors.findSome? (dialSponsorJoin a) = some resp)
    (hself : cfg.self ∈ MemberStore.ids resp.members) :
    (newCluster C cfg a fresh).1 =
      if a.putClusterID.written then ⟨some resp.clusterID,
        if a.putClusterID = .done ∧ a.putMembers.written = true then some (C.marshal resp.members)
        else none⟩
      else fresh := by
  have hne := ne_nil_of_mem_ids hself
  rw [hj.newCluster_eq load_fresh, ha.loadClusterIDOrJoin_response rfl hresp, persistClusterID]
  cases a.putClusterID with
  | done =>
    simp only [put, setAll]
    cases a.putMembers with
    | done => simp [PutOutcome.written, hne, hself]
    | failed w => cases w <;> simp [PutOutcome.written, fresh]
    | crashed w => cases w <;> simp [PutOutcome.written, fresh]
  | failed w => cases w <;> simp [put, PutOutcome.written, fresh]
  | crashed w => cases w <;> simp [put, PutOutcome.written, fresh]

theorem storage_of_not_answered (hj : Joiner cfg) (ha : Asks cfg) (h : ¬Answered cfg a) :
    (newCluster C cfg a fresh).1 = fresh := by
  rw [hj.newCluster_eq load_fresh, loadClusterIDOrJoin, ha.loadOrCreateClusterID_none rfl,
    findSome?_of_not_answered h]
  rfl

/-- An attempt whose writes succeed installs the response in an empty storage. -/
theorem newCluster_fresh (hj : Joiner cfg) (ha : Asks cfg)
    (hresp : cfg.sponsors.findSome? (dialSponsorJoin b) = some resp)
    (hself : cfg.self ∈ MemberStore.ids resp.members) (hid : b.putClusterID = .done)
    (hmembers : b.putMembers = .done) :
    (newCluster C cfg b fresh).2 = .ok (resp.clusterID, resp.members) := by
  have hne := ne_nil_of_mem_ids hself
  rw [hj.newCluster_eq load_fresh, ha.loadClusterIDOrJoin_response rfl hresp, persistClusterID, hid]
  simp [put, setAll, hmembers, hne, hself]

/-- With both values stored the sponsors are not needed. -/
theorem newCluster_stored (hj : Joiner cfg) (ha : Asks cfg) (hid : id.length = idLen)
    {members : List ClusterMember} (hself : cfg.self ∈ MemberStore.ids members) :
    (newCluster C cfg b ⟨some id, some (C.marshal members)⟩).2 = .ok (id, members) := by
  have hload : StoredMembers.load C (some (C.marshal members)) = some members :=
    C.unmarshal_marshal members
  rw [hj.newCluster_eq hload, ha.loadClusterIDOrJoin_known rfl hid]
  simp [ne_nil_of_mem_ids hself, hself]

/-- With the identifier alone the sponsors are not asked. -/
theorem newCluster_half (hj : Joiner cfg) (ha : Asks cfg) (hid : id.length = idLen) :
    (newCluster C cfg b ⟨some id, none⟩).2 = .error (.error .noMembers) := by
  have hload : StoredMembers.load C none = some [] := rfl
  rw [hj.newCluster_eq hload, ha.loadClusterIDOrJoin_known rfl hid]
  rfl

theorem members_persistClusterID (a : Attempt) (st : ClusterStorage) (id : List UInt8) :
    (persistClusterID a st id).1.members = st.members ∧
      (persistClusterID a st id).2 ≠ .error (.error .required) := by
  unfold persistClusterID
  cases a.putClusterID with
  | done => exact ⟨rfl, by simp [put]⟩
  | failed w => cases w <;> exact ⟨rfl, by simp [put]⟩
  | crashed w => cases w <;> exact ⟨rfl, by simp [put]⟩

/-- Other configurations do not come to ask, and no member is ever written. -/
theorem loadOrCreateClusterID_of_not_asks (h : ¬Asks cfg) (a : Attempt) (st : ClusterStorage) :
    (loadOrCreateClusterID cfg a st).1.members = st.members ∧
      (loadOrCreateClusterID cfg a st).2 ≠ .error (.error .required) := by
  unfold loadOrCreateClusterID
  split
  · exact ⟨rfl, by simp⟩
  · split
    · exact ⟨rfl, by simp⟩
    · rename_i hany
      have hforce : cfg.bootstrap.force = true := by
        by_contra hne
        refine h ⟨by simpa using hne, fun x hx => ?_⟩
        rw [hx] at hany
        simpa using hany
      rw [hforce]
      split
      · cases cfg.bootstrap.allowOverride with
        | false => exact ⟨rfl, by simp⟩
        | true => exact members_persistClusterID a st _
      · exact members_persistClusterID a st _

theorem newCluster_of_not_asks (hj : Joiner cfg) (h : ¬Asks cfg) (hst : st.members = none) :
    (newCluster C cfg a st).1.members = none ∧
      ∀ result, (newCluster C cfg a st).2 ≠ .ok result := by
  have hload : StoredMembers.load C st.members = some [] := by
    rw [hst]
    rfl
  obtain ⟨hmembers, hrequired⟩ := loadOrCreateClusterID_of_not_asks h a st
  rw [hj.newCluster_eq hload, loadClusterIDOrJoin]
  rcases hr : loadOrCreateClusterID cfg a st with ⟨st', r⟩
  rw [hr] at hmembers hrequired
  dsimp only at hmembers hrequired
  cases r with
  | ok id =>
    refine ⟨hmembers.trans hst, fun result => ?_⟩
    simp
  | error halt =>
    have hne : halt ≠ .error .required := fun heq => hrequired (by rw [heq])
    dsimp only
    rw [if_pos hne]
    refine ⟨hmembers.trans hst, fun result => ?_⟩
    simp

/-- However the first attempt of a joiner ends, the next one with the same configuration
and a sponsor that answers starts the cluster of the sponsor, if and only if the
configuration asks sponsors at all and the first attempt has not stored the identifier of
the cluster without its members. -/
theorem bootstrap_retry_iff (hj : Joiner cfg) (hid : id.length = idLen)
    (hfirst : Sponsored cfg id a) (hsecond : Sponsored cfg id b) (hb : Answered cfg b)
    (hputID : b.putClusterID = .done) (hputMembers : b.putMembers = .done) :
    (∃ members, (newCluster C cfg b (newCluster C cfg a fresh).1).2 = .ok (id, members) ∧
      cfg.self ∈ MemberStore.ids members) ↔ Asks cfg ∧ ¬HalfWritten cfg a := by
  by_cases ha : Asks cfg
  · rw [and_iff_right ha]
    obtain ⟨resp, hresp, hrespID, hself⟩ := hb.exists_response hid hsecond
    have hfresh : ∃ members, (newCluster C cfg b fresh).2 = .ok (id, members) ∧
        cfg.self ∈ MemberStore.ids members := by
      refine ⟨resp.members, ?_, hself⟩
      rw [newCluster_fresh hj ha hresp hself hputID hputMembers, hrespID]
    by_cases hanswered : Answered cfg a
    · obtain ⟨resp₁, hresp₁, hrespID₁, hself₁⟩ := hanswered.exists_response hid hfirst
      rw [storage_join hj ha hresp₁ hself₁, hrespID₁]
      by_cases hwritten : a.putClusterID.written = true
      · rw [if_pos hwritten]
        by_cases hboth : a.putClusterID = .done ∧ a.putMembers.written = true
        · rw [if_pos hboth]
          refine iff_of_true ⟨resp₁.members, newCluster_stored hj ha hid hself₁, hself₁⟩ ?_
          rintro ⟨-, -, hnot⟩
          rw [hnot hboth.1] at hboth
          cases hboth.2
        · rw [if_neg hboth]
          refine iff_of_false ?_ fun hnot => hnot ⟨hanswered, hwritten, fun hdone => ?_⟩
          · rintro ⟨members, hok, -⟩
            rw [newCluster_half hj ha hid] at hok
            cases hok
          · simpa [hdone] using hboth
      · rw [if_neg hwritten]
        exact iff_of_true hfresh fun hhalf => hwritten hhalf.2.1
    · rw [storage_of_not_answered hj ha hanswered]
      exact iff_of_true hfresh fun hhalf => hanswered hhalf.1
  · refine iff_of_false ?_ fun h => ha h.1
    rintro ⟨members, hok, -⟩
    have hfresh : fresh.members = none := rfl
    have hnone := (newCluster_of_not_asks (C := C) (a := a) hj ha hfresh).1
    exact (newCluster_of_not_asks hj ha hnone).2 _ hok

/-- A joiner with one sponsor, which answers with two members. -/
def oneSponsor : ClusterConfig := ⟨replicaOf 2, [], ⟨false, false, none⟩, [⟨replicaOf 1, "a"⟩]⟩

/-- An attempt in which the sponsor answers. -/
def answeredBy (putClusterID putMembers : PutOutcome) : Attempt :=
  ⟨"b", replicaOf 9, fun _ => some ⟨replicaOf 7, [⟨replicaOf 1, "a"⟩, ⟨replicaOf 2, "b"⟩]⟩,
    putClusterID, putMembers⟩

theorem sponsored_oneSponsor (p q : PutOutcome) :
    Sponsored oneSponsor (replicaOf 7) (answeredBy p q) := by
  rintro sp - resp ⟨⟩
  exact ⟨rfl, by decide⟩

theorem answered_oneSponsor (p q : PutOutcome) : Answered oneSponsor (answeredBy p q) :=
  ⟨_, List.mem_singleton_self _, rfl⟩

/-- The first write fails and leaves nothing. -/
theorem bootstrap_retry_iff_unwritten : ∃ members,
    (newCluster .unary oneSponsor (answeredBy .done .done)
      (newCluster .unary oneSponsor (answeredBy (.failed false) .done) fresh).1).2 =
        .ok (replicaOf 7, members) ∧ oneSponsor.self ∈ MemberStore.ids members :=
  (bootstrap_retry_iff ⟨rfl, rfl⟩ rfl (sponsored_oneSponsor _ _) (sponsored_oneSponsor _ _)
    (answered_oneSponsor _ _) rfl rfl).mpr ⟨⟨rfl, nofun⟩, fun h => nomatch h.2.1⟩

/-- The process crashes between the two writes. From then on every attempt fails, though
the sponsor answers. -/
theorem bootstrap_stuck :
    (newCluster .unary oneSponsor (answeredBy .done (.crashed false)) fresh).1 =
      ⟨some (replicaOf 7), none⟩ ∧
    newCluster .unary oneSponsor (answeredBy .done .done) ⟨some (replicaOf 7), none⟩ =
      (⟨some (replicaOf 7), none⟩, .error (.error .noMembers)) := by
  exact ⟨by decide, by decide⟩

end Bootstrap
end Comlink
