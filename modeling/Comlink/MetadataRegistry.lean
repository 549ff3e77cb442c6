import Comlink.AssociationLists
import Comlink.LastWriter
import Comlink.Substrate

/-!
# The metadata registry

The replicated map from names to `ConvInfo` of `metadata_registry.go`. `Register` and
`Unregister` publish an operation on the system conversation; each registry applies the
operations that its cluster hands to it, in the order in which they come. What the JSON
package does to an operation is left to a codec. The calls of `notify` are kept as the
history of the events; the watchers and their buffers are in `Comlink.Watchers`.
-/
namespace Comlink
open AssociationLists LastWriter

/-- The entry for one conversation, which means nothing to the registry but for its name. -/
structure ConvInfo where
  name : String
  conv : ConversationID
  members : List ReplicaID
  createdUnixNanos : ℤ
  properties : List (String × String)
  deriving DecidableEq, Repr

inductive RegistryOpKind where
  | register
  | unregister
  | other (op : String)
  deriving DecidableEq, Repr

structure RegistryOp where
  op : RegistryOpKind
  info : ConvInfo
  name : String
  deriving DecidableEq, Repr

/-- `json.Marshal` and `json.Unmarshal`, for the operations of a registry. -/
structure RegistryCodec where
  marshal : RegistryOp → List UInt8
  unmarshal : List UInt8 → Option RegistryOp

inductive RegistryEventKind where
  | registered
  | unregistered
  deriving DecidableEq, Repr

structure RegistryEvent where
  kind : RegistryEventKind
  name : String
  info : ConvInfo
  deriving DecidableEq, Repr

structure MetadataRegistry where
  entries : AList fun _ : String => ConvInfo
  events : List RegistryEvent

/-- What an operation does to the map: it sets a name, clears it, or is passed over. -/
def RegistryOp.effect (op : RegistryOp) : Option (String × Option ConvInfo) :=
  match op.op with
  | .register => if op.info.name = "" then none else some (op.info.name, some op.info)
  | .unregister => if op.name = "" then none else some (op.name, none)
  | .other _ => none

namespace MetadataRegistry

variable {K : FrameCodec} {J : RegistryCodec} {r : MetadataRegistry} {payload : List UInt8}

def new : MetadataRegistry := ⟨∅, []⟩

def get (r : MetadataRegistry) (name : String) : Option ConvInfo := r.entries.lookup name

/-- `applyMessage`: a payload that is not an operation belongs to somebody else. -/
def applyMessage (J : RegistryCodec) (r : MetadataRegistry) (payload : List UInt8) :
    MetadataRegistry :=
  match J.unmarshal payload with
  | none => r
  | some op =>
    match op.op with
    | .register =>
      if op.info.name = "" then r
      else
        { entries := r.entries.insert op.info.name op.info
          events := r.events ++ [⟨.registered, op.info.name, op.info⟩] }
    | .unregister =>
      if op.name = "" then r
      else
        match r.entries.lookup op.name with
        | none => r
        | some prior =>
          { entries := r.entries.erase op.name
            events := r.events ++ [⟨.unregistered, op.name, prior⟩] }
    | .other _ => r

/-- A delivery of the system conversation reaches the registry if it is an app frame. -/
def receive (K : FrameCodec) (J : RegistryCodec) (r : MetadataRegistry) (env : Envelope) :
    MetadataRegistry :=
  match K.unmarshal env.payload with
  | some (.app payload) => r.applyMessage J payload
  | _ => r

/-- The registry after these deliveries, in this order. -/
def run (K : FrameCodec) (J : RegistryCodec) (deliveries : List Envelope) : MetadataRegistry :=
  deliveries.foldl (receive K J) new

section Submissions

/-- `SubmitMetadata`, up to the send on the system conversation. -/
def submitMetadata (running : Bool) (payload : List UInt8) : Except String (List UInt8) :=
  if !running then
    .error "comlink: SubmitMetadata: cluster has no system manager (closed?)"
  else if payload = [] then .error "comlink: SubmitMetadata: empty payload"
  else .ok payload

/-- The time of the call is filled in where the caller has left it out. -/
def stamped (now : ℤ) (info : ConvInfo) : ConvInfo :=
  if info.createdUnixNanos = 0 then { info with createdUnixNanos := now } else info

def register (J : RegistryCodec) (running : Bool) (now : ℤ) (info : ConvInfo) :
    Except String (List UInt8) :=
  if info.name = "" then .error "comlink: MetadataRegistry.Register: Info.Name is required"
  else if info.conv = [] then
    .error "comlink: MetadataRegistry.Register: Info.Conv is required"
  else submitMetadata running (J.marshal ⟨.register, stamped now info, ""⟩)

def unregister (J : RegistryCodec) (running : Bool) (name : String) :
    Except String (List UInt8) :=
  if name = "" then .error "comlink: MetadataRegistry.Unregister: name is required"
  else submitMetadata running (J.marshal ⟨.unregister, ⟨"", [], [], 0, []⟩, name⟩)

end Submissions

/-- What a payload does to the map. -/
def payloadEffect (J : RegistryCodec) (payload : List UInt8) : Option (String × Option ConvInfo) :=
  (J.unmarshal payload).bind RegistryOp.effect

/-- What a delivery does to the map. -/
def effectOf (K : FrameCodec) (J : RegistryCodec) (env : Envelope) :
    Option (String × Option ConvInfo) :=
  match K.unmarshal env.payload with
  | some (.app payload) => payloadEffect J payload
  | _ => none

theorem get_insert (r : MetadataRegistry) (info : ConvInfo) (events : List RegistryEvent) :
    (MetadataRegistry.mk (r.entries.insert info.name info) events).get =
      Function.update r.get info.name (some info) :=
  lookup_insert_eq_update r.entries info.name info

/-- A name that is not there can be deleted without a change. -/
theorem update_get_none {name : String} (h : r.entries.lookup name = none) :
    Function.update r.get name none = r.get := Function.update_eq_self_iff.mpr h.symm

/-- To its readers the map is one in which the last write wins. -/
theorem get_applyMessage (J : RegistryCodec) (r : MetadataRegistry) (payload : List UInt8) :
    (r.applyMessage J payload).get = write (payloadEffect J) r.get payload := by
  unfold applyMessage
  split
  · rename_i hop
    rw [write_none (by rw [payloadEffect, hop, Option.bind_none])]
  · rename_i op hop
    have heffect : payloadEffect J payload = op.effect := by
      rw [payloadEffect, hop, Option.bind_some]
    obtain ⟨kind, info, name⟩ := op
    cases kind with
    | other op => rw [write_none heffect]
    | register =>
      by_cases hname : info.name = ""
      · simp only [RegistryOp.effect, hname, if_true] at heffect ⊢
        rw [write_none heffect]
      · simp only [RegistryOp.effect, hname, if_false] at heffect ⊢
        rw [write_some heffect, get_insert]
    | unregister =>
      by_cases hname : name = ""
      · simp only [RegistryOp.effect, hname, if_true] at heffect ⊢
        rw [write_none heffect]
      · simp only [RegistryOp.effect, hname, if_false] at heffect ⊢
        rw [write_some heffect]
        split
        · rename_i hnone
          exact (update_get_none hnone).symm
        · exact lookup_erase_eq_update r.entries name

theorem get_receive (K : FrameCodec) (J : RegistryCodec) (r : MetadataRegistry) (env : Envelope) :
    (r.receive K J env).get = write (effectOf K J) r.get env := by
  unfold receive
  split
  · rename_i payload hframe
    have heffect : effectOf K J env = payloadEffect J payload := by
      simp only [effectOf, hframe]
    rw [get_applyMessage]
    cases he : payloadEffect J payload with
    | none => rw [write_none he, write_none (heffect.trans he)]
    | some e => rw [write_some he, write_some (heffect.trans he)]
  · rename_i hframe
    rw [write_none]
    unfold effectOf
    split
    · rename_i payload happ
      exact absurd happ (hframe payload)
    · rfl

theorem get_run (K : FrameCodec) (J : RegistryCodec) (deliveries : List Envelope) :
    (run K J deliveries).get = deliveries.foldl (write (effectOf K J)) fun _ => none := by
  have hfrom : ∀ r : MetadataRegistry, (deliveries.foldl (receive K J) r).get =
      deliveries.foldl (write (effectOf K J)) r.get := by
    induction deliveries with
    | nil => exact fun _ => rfl
    | cons env deliveries ih =>
      intro r
      rw [List.foldl_cons, List.foldl_cons, ih, get_receive]
  exact hfrom new

section Submissions

theorem submitMetadata_eq_ok {running : Bool} {bytes : List UInt8}
    (h : submitMetadata running bytes = .ok payload) : payload = bytes := by
  unfold submitMetadata at h
  split_ifs at h
  cases h
  rfl

/-- What `Register` submits holds at once wherever it is applied. -/
theorem get_register {running : Bool} {now : ℤ} {info : ConvInfo}
    (hJ : ∀ op, J.unmarshal (J.marshal op) = some op)
    (h : register J running now info = .ok payload) (r : MetadataRegistry) :
    (r.applyMessage J payload).get info.name = some (stamped now info) := by
  unfold register at h
  split_ifs at h with hname hconv
  have hstamped : (stamped now info).name = info.name := by
    unfold stamped
    split <;> rfl
  have heffect : payloadEffect J payload = some (info.name, some (stamped now info)) := by
    rw [submitMetadata_eq_ok h, payloadEffect, hJ, Option.bind_some, RegistryOp.effect]
    simp only [hstamped, hname, if_false]
  rw [get_applyMessage, write_of_eq heffect]

theorem get_unregister {running : Bool} {name : String}
    (hJ : ∀ op, J.unmarshal (J.marshal op) = some op)
    (h : unregister J running name = .ok payload) (r : MetadataRegistry) :
    (r.applyMessage J payload).get name = none := by
  unfold unregister at h
  split_ifs at h with hname
  have heffect : payloadEffect J payload = some (name, none) := by
    rw [submitMetadata_eq_ok h, payloadEffect, hJ, Option.bind_some, RegistryOp.effect]
    simp only [hname, if_false]
  rw [get_applyMessage, write_of_eq heffect]

end Submissions

end MetadataRegistry
end Comlink
