import Comlink.AssociationLists
import Comlink.Channels
import Comlink.FileLog
import Comlink.GuardedRuns
import Comlink.ListScans

/-!
# Conversations over one endpoint

`transport/multiplex.go`. A `Multiplex` lets the conversations of a node share its endpoint:
every payload travels with the identity of its conversation, and a pump hands what arrives
to the view that is registered for it. The pump looks the view up under the lock and sends
to it afterwards, so a view can be closed in between; the steps here are those between two
operations on the lock or on a channel. Views are referred to by their number, as the source
does by pointers: one that was detached can still be in somebody's hands. How frames are
decoded is a parameter.

`read` is the history of what the pump took from the endpoint, `since` the length that it had
when a view was made.
-/
namespace Comlink
open GuardedRuns ListScans

/-- A message received from a peer. -/
structure Inbound where
  origin : ReplicaID
  payload : List UInt8
  deriving DecidableEq, Repr

structure MultiplexFrame where
  conversationId : ConversationID
  payload : List UInt8
  deriving DecidableEq, Repr

/-- What the pump reads in a payload; `none` when it does not decode. -/
abbrev FrameDecoder := List UInt8 → Option MultiplexFrame

/-- The encoding of a `MultiplexFrame`, of which only the round trip is known. -/
structure MultiplexCodec where
  marshal : MultiplexFrame → List UInt8
  unmarshal : FrameDecoder
  unmarshal_marshal : ∀ frame, unmarshal (marshal frame) = some frame

section Unary
open UnaryBytes

/-- The decoder of a small codec: the length of the identity, the identity and the payload. -/
def FrameDecoder.unary : FrameDecoder := fun bs =>
  (getNat bs).map fun r => ⟨r.2.take r.1, r.2.drop r.1⟩

def MultiplexCodec.unary : MultiplexCodec where
  marshal frame :=
    putNat frame.conversationId.length ++ (frame.conversationId ++ frame.payload)
  unmarshal := .unary
  unmarshal_marshal frame := by simp [FrameDecoder.unary]

end Unary

/-- A `multiplexView`. -/
structure View where
  convID : ConversationID
  recv : Chan Inbound
  since : ℕ
  deriving DecidableEq, Repr

/-- What matters of a view for its conversation. -/
def View.account (v : View) : ConversationID × ℕ × List Inbound :=
  (v.convID, v.since, v.recv.accepted)

/-- Where the pump's goroutine stands. -/
inductive PumpState where
  | reading
  | sending (view : ℕ) (inbound : Inbound)
  | returned
  deriving DecidableEq, Repr

structure Multiplex where
  bufSize : ℕ
  made : List View
  /-- The map of the registered views, which `Close` sets to nil. -/
  views : Option (AList fun _ : ConversationID => ℕ)
  pump : PumpState
  read : List Inbound
  /-- The views that `Close` still has to close. -/
  leftOpen : List ℕ
  /-- The calls of a view's own `Close` that have detached it. -/
  detached : List ℕ
  panicked : Bool

inductive MuxAction where
  | forConversation (convID : ConversationID)
  | read (inbound : Inbound)
  | send
  | pumpReturn
  | close
  | closeNext (view : ℕ)
  | closeView (view : ℕ)
  | markClosed (view : ℕ)
  | receive (view : ℕ)
  deriving DecidableEq, Repr

namespace Multiplex

/-- `NewMultiplex`. -/
def new (bufSize : ℕ) : Multiplex where
  bufSize := if bufSize = 0 then 256 else bufSize
  made := []
  views := some ∅
  pump := .reading
  read := []
  leftOpen := []
  detached := []
  panicked := false

/-- `ForConversation`; the assignment to a nil map panics. -/
def forConversation (m : Multiplex) (convID : ConversationID) : Multiplex :=
  match m.views with
  | none => { m with panicked := true }
  | some views =>
    match views.lookup convID with
    | some _ => m
    | none =>
      { m with
        made := m.made ++ [⟨convID, .make m.bufSize, m.read.length⟩]
        views := some (views.insert convID m.made.length) }

/-- The number of the view that a frame is for; a nil map holds none. -/
def viewOf (m : Multiplex) (convID : ConversationID) : Option ℕ :=
  m.views.bind fun views => views.lookup convID

/-- The pump takes a message, and drops it when it is malformed or no view is registered. -/
def takeIn (decode : FrameDecoder) (m : Multiplex) (inbound : Inbound) : Multiplex :=
  let pump := match decode inbound.payload with
    | none => .reading
    | some frame => match m.viewOf frame.conversationId with
      | none => .reading
      | some view => .sending view ⟨inbound.origin, frame.payload⟩
  { m with pump := pump, read := m.read ++ [inbound] }

/-- The pump's send, which drops the message when the view's buffer is full. -/
def send (m : Multiplex) (view : ℕ) (v : View) (inbound : Inbound) : Multiplex :=
  match v.recv.offer inbound with
  | none => { m with panicked := true }
  | some recv => { m with made := m.made.set view { v with recv := recv }, pump := .reading }

/-- `Close` up to the wait for the pump; a second call returns at once. -/
def close (m : Multiplex) : Multiplex :=
  match m.views with
  | none => m
  | some views => { m with views := none, leftOpen := views.entries.map Sigma.snd }

def markClosed (m : Multiplex) (view : ℕ) : Multiplex :=
  { m with made := m.made.modify view fun v => { v with recv := v.recv.close } }

/-- The first half of a view's `Close`: whatever view is registered for the conversation is
taken off the map. -/
def detach (m : Multiplex) (view : ℕ) (v : View) : Multiplex :=
  { m with
    views := m.views.map fun views => views.erase v.convID
    detached := m.detached ++ [view] }

def step (decode : FrameDecoder) (m : Multiplex) (a : MuxAction) : Option Multiplex :=
  if m.panicked then none
  else match a, m.pump with
    | .forConversation convID, _ => some (m.forConversation convID)
    | .read inbound, .reading => some (m.takeIn decode inbound)
    | .read _, _ => none
    | .send, .sending view inbound => m.made[view]?.map fun v => m.send view v inbound
    | .send, _ => none
    | .pumpReturn, .reading => some { m with pump := .returned }
    | .pumpReturn, _ => none
    | .close, _ => some m.close
    | .closeNext view, .returned =>
      if view ∈ m.leftOpen then
        some { m.markClosed view with leftOpen := m.leftOpen.erase view }
      else none
    | .closeNext _, _ => none
    | .closeView view, _ => m.made[view]?.map fun v => m.detach view v
    | .markClosed view, _ =>
      if view ∈ m.detached then
        some { m.markClosed view with detached := m.detached.erase view }
      else none
    | .receive view, _ => m.made[view]?.bind fun v => v.recv.take.map fun p =>
      { m with made := m.made.set view { v with recv := p.2 } }

/-! ### What a view is owed -/

/-- The payload of a message if it is a frame of the conversation. -/
def unwrap (decode : FrameDecoder) (convID : ConversationID) (inbound : Inbound) :
    Option Inbound :=
  match decode inbound.payload with
  | none => none
  | some frame =>
    if frame.conversationId = convID then some ⟨inbound.origin, frame.payload⟩ else none

/-- What has arrived for a conversation. -/
def routed (decode : FrameDecoder) (convID : ConversationID) (read : List Inbound) :
    List Inbound :=
  read.filterMap (unwrap decode convID)

/-- What the pump is about to send to a view. -/
def inHand (m : Multiplex) (view : ℕ) : List Inbound :=
  match m.pump with
  | .sending w inbound => if w = view then [inbound] else []
  | _ => []

variable {decode : FrameDecoder} {m m' : Multiplex}

theorem routed_append (decode : FrameDecoder) (convID : ConversationID) (read : List Inbound)
    (inbound : Inbound) : routed decode convID (read ++ [inbound]) =
      routed decode convID read ++ (unwrap decode convID inbound).toList := by
  rw [routed, routed, List.filterMap_append]
  cases h : unwrap decode convID inbound <;> simp [h]

theorem unwrap_of_unmarshal {inbound : Inbound} {frame : MultiplexFrame}
    (h : decode inbound.payload = some frame) (convID : ConversationID) :
    unwrap decode convID inbound =
      if frame.conversationId = convID then some ⟨inbound.origin, frame.payload⟩ else none := by
  simp [unwrap, h]

@[simp] theorem inHand_reading (h : m.pump = .reading) (i : ℕ) : m.inHand i = [] := by
  simp [inHand, h]

theorem inHand_sending {w : ℕ} {inbound : Inbound} (h : m.pump = .sending w inbound) (i : ℕ) :
    m.inHand i = if w = i then [inbound] else [] := by
  simp [inHand, h]

theorem account_of_map_eq (h : m'.made.map View.account = m.made.map View.account) {i : ℕ}
    {v' : View} (hv : m'.made[i]? = some v') :
    ∃ v, m.made[i]? = some v ∧ v'.account = v.account := by
  have hi : (m'.made.map View.account)[i]? = some v'.account := by simp [hv]
  rw [h, List.getElem?_map] at hi
  obtain ⟨v, hv, heq⟩ := Option.map_eq_some_iff.mp hi
  exact ⟨v, hv, heq.symm⟩

theorem length_of_map_eq (h : m'.made.map View.account = m.made.map View.account) :
    m'.made.length = m.made.length := by
  simpa using congrArg List.length h

theorem map_account_set {made : List View} {view : ℕ} {v v' : View} (hv : made[view]? = some v)
    (h : v'.account = v.account) :
    (made.set view v').map View.account = made.map View.account := by
  apply List.ext_getElem?
  intro j
  rw [List.getElem?_map, List.getElem?_map, List.getElem?_set]
  split
  · subst view
    obtain ⟨hlt, rfl⟩ := List.getElem?_eq_some_iff.mp hv
    simp [hlt, h]
  · rfl

theorem map_account_markClosed (m : Multiplex) (view : ℕ) :
    (m.markClosed view).made.map View.account = m.made.map View.account := by
  apply List.ext_getElem?
  intro j
  simp only [markClosed, List.getElem?_map, List.getElem?_modify]
  cases m.made[j]? with
  | none => simp
  | some v => by_cases hj : view = j <;> simp [hj, View.account]

/-! ### The steps -/

/-- What one step can do. -/
inductive Stepped (decode : FrameDecoder) (m : Multiplex) : MuxAction → Multiplex → Prop
  | nilMap {convID : ConversationID} (hviews : m.views = none) :
      Stepped decode m (.forConversation convID) { m with panicked := true }
  | sendClosed {view : ℕ} {inbound : Inbound} {v : View}
      (hpump : m.pump = .sending view inbound) (hv : m.made[view]? = some v)
      (hclosed : v.recv.closed = true) : Stepped decode m .send { m with panicked := true }
  | known {convID : ConversationID} {i : ℕ} (h : m.viewOf convID = some i) :
      Stepped decode m (.forConversation convID) m
  | make {convID : ConversationID} {views : AList fun _ : ConversationID => ℕ}
      (hviews : m.views = some views) (hfree : views.lookup convID = none) :
      Stepped decode m (.forConversation convID)
        { m with
          made := m.made ++ [⟨convID, .make m.bufSize, m.read.length⟩]
          views := some (views.insert convID m.made.length) }
  | read {inbound : Inbound} (hpump : m.pump = .reading) :
      Stepped decode m (.read inbound) (m.takeIn decode inbound)
  | send {view : ℕ} {inbound : Inbound} {v : View} {recv : Chan Inbound}
      (hpump : m.pump = .sending view inbound) (hv : m.made[view]? = some v)
      (hrecv : v.recv.offer inbound = some recv) :
      Stepped decode m .send
        { m with made := m.made.set view { v with recv := recv }, pump := .reading }
  | pumpReturn (hpump : m.pump = .reading) :
      Stepped decode m .pumpReturn { m with pump := .returned }
  | closed (hviews : m.views = none) : Stepped decode m .close m
  | close {views : AList fun _ : ConversationID => ℕ} (hviews : m.views = some views) :
      Stepped decode m .close { m with views := none, leftOpen := views.entries.map Sigma.snd }
  | closeNext {view : ℕ} (hpump : m.pump = .returned) (hmem : view ∈ m.leftOpen) :
      Stepped decode m (.closeNext view)
        { m.markClosed view with leftOpen := m.leftOpen.erase view }
  | closeView {view : ℕ} {v : View} (hv : m.made[view]? = some v) :
      Stepped decode m (.closeView view) (m.detach view v)
  | markClosed {view : ℕ} (hmem : view ∈ m.detached) :
      Stepped decode m (.markClosed view)
        { m.markClosed view with detached := m.detached.erase view }
  | receive {view : ℕ} {v : View} {inbound : Inbound} {recv : Chan Inbound}
      (hv : m.made[view]? = some v) (hrecv : v.recv.take = some (inbound, recv)) :
      Stepped decode m (.receive view) { m with made := m.made.set view { v with recv := recv } }

theorem stepped_forConversation (m : Multiplex) (convID : ConversationID) :
    Stepped decode m (.forConversation convID) (m.forConversation convID) := by
  unfold forConversation
  split
  · rename_i hviews
    exact .nilMap hviews
  · rename_i views hviews
    split
    · rename_i i hi
      exact .known (i := i) (by simp [viewOf, hviews, hi])
    · rename_i hfree
      exact .make hviews hfree

theorem stepped_send {view : ℕ} {v : View} {inbound : Inbound}
    (hpump : m.pump = .sending view inbound)
    (hv : m.made[view]? = some v) : Stepped decode m .send (m.send view v inbound) := by
  unfold send
  split
  · rename_i hclosed
    exact .sendClosed hpump hv (Chan.offer_eq_none_iff.mp hclosed)
  · rename_i recv hrecv
    exact .send hpump hv hrecv

theorem stepped_close (m : Multiplex) : Stepped decode m .close m.close := by
  unfold close
  split
  · rename_i hviews
    exact .closed hviews
  · rename_i views hviews
    exact .close hviews

theorem stepped_of_step {a : MuxAction} (h : m.step decode a = some m') :
    Stepped decode m a m' := by
  unfold step at h
  split at h
  · cases h
  · split at h
    case h_1 => exact Option.some.inj h ▸ stepped_forConversation m _
    case h_2 hpump => exact Option.some.inj h ▸ .read hpump
    case h_4 hpump =>
      obtain ⟨v, hv, rfl⟩ := Option.map_eq_some_iff.mp h
      exact stepped_send hpump hv
    case h_6 hpump => exact Option.some.inj h ▸ .pumpReturn hpump
    case h_8 => exact Option.some.inj h ▸ stepped_close m
    case h_9 hpump =>
      split at h
      · rename_i hmem
        exact Option.some.inj h ▸ .closeNext hpump hmem
      · cases h
    case h_11 =>
      obtain ⟨v, hv, rfl⟩ := Option.map_eq_some_iff.mp h
      exact .closeView hv
    case h_12 =>
      split at h
      · rename_i hmem
        exact Option.some.inj h ▸ .markClosed hmem
      · cases h
    case h_13 =>
      obtain ⟨v, hv, hrest⟩ := Option.bind_eq_some_iff.mp h
      obtain ⟨⟨inbound, recv⟩, hrecv, rfl⟩ := Option.map_eq_some_iff.mp hrest
      exact .receive hv hrecv
    all_goals cases h

/-! ### A view gets the frames of its conversation, in order -/

structure Routed (decode : FrameDecoder) (m : Multiplex) : Prop where
  registered : ∀ {convID : ConversationID} {i : ℕ}, m.viewOf convID = some i →
    ∃ v, m.made[i]? = some v ∧ v.convID = convID
  held : ∀ {i : ℕ} {inbound : Inbound}, m.pump = .sending i inbound → i < m.made.length
  since_le : ∀ {i : ℕ} {v : View}, m.made[i]? = some v → v.since ≤ m.read.length
  accepted : ∀ {i : ℕ} {v : View}, m.made[i]? = some v →
    (v.recv.accepted ++ m.inHand i).Sublist (routed decode v.convID (m.read.drop v.since))

theorem routed_new (decode : FrameDecoder) (bufSize : ℕ) : Routed decode (new bufSize) where
  registered h := by simp [viewOf, new] at h
  held h := by cases h
  since_le h := by simp [new] at h
  accepted h := by simp [new] at h

/-- Nothing changes for the conversations when the views keep their accounts. -/
theorem Routed.keep (h : Routed decode m)
    (hmade : m'.made.map View.account = m.made.map View.account)
    (hviews : ∀ {convID : ConversationID} {i : ℕ},
      m'.viewOf convID = some i → m.viewOf convID = some i)
    (hpump : m'.pump = m.pump ∨ m'.pump = .returned) (hread : m'.read = m.read) :
    Routed decode m' where
  registered hview := by
    obtain ⟨v, hv, rfl⟩ := h.registered (hviews hview)
    obtain ⟨v', hv', heq⟩ := account_of_map_eq hmade.symm hv
    exact ⟨v', hv', (congrArg Prod.fst heq).symm⟩
  held hsend := by
    rw [length_of_map_eq hmade]
    rcases hpump with hpump | hpump
    · exact h.held (hpump ▸ hsend)
    · rw [hpump] at hsend
      cases hsend
  since_le hv' := by
    obtain ⟨v, hv, heq⟩ := account_of_map_eq hmade hv'
    obtain ⟨-, heq, -⟩ := by simpa [View.account] using heq
    rw [heq, hread]
    exact h.since_le hv
  accepted {i v'} hv' := by
    obtain ⟨v, hv, heq⟩ := account_of_map_eq hmade hv'
    obtain ⟨hconv, hsince, hacc⟩ : v'.convID = v.convID ∧ v'.since = v.since ∧
        v'.recv.accepted = v.recv.accepted := by simpa [View.account] using heq
    have hhand : (m'.inHand i).Sublist (m.inHand i) := by
      rcases hpump with hpump | hpump
      · simp [inHand, hpump]
      · simp [inHand, hpump]
    rw [hconv, hsince, hacc, hread]
    exact ((List.Sublist.refl _).append hhand).trans (h.accepted hv)

theorem Routed.make (h : Routed decode m) {convID : ConversationID}
    {views : AList fun _ : ConversationID => ℕ} (hviews : m.views = some views) :
    Routed decode { m with
      made := m.made ++ [⟨convID, .make m.bufSize, m.read.length⟩]
      views := some (views.insert convID m.made.length) } where
  registered {c i} hview := by
    rcases AssociationLists.lookup_insert_cases hview with ⟨rfl, rfl⟩ | ⟨-, hold⟩
    · exact ⟨_, List.getElem?_concat_length .., rfl⟩
    · have hview' : m.viewOf c = some i := by simpa [viewOf, hviews] using hold
      obtain ⟨v, hv, hc⟩ := h.registered hview'
      exact ⟨v, (List.getElem?_append_left (List.getElem?_eq_some_iff.mp hv).1).trans hv, hc⟩
  held hsend := by
    have := h.held hsend
    simp only [List.length_append, List.length_singleton]
    omega
  since_le hv := by
    rcases getElem?_concat_cases hv with hold | ⟨-, rfl⟩
    · exact h.since_le hold
    · exact le_rfl
  accepted {i v} hv := by
    rcases getElem?_concat_cases hv with hold | ⟨rfl, rfl⟩
    · exact h.accepted hold
    · have hhand : m.inHand m.made.length = [] := by
        unfold inHand
        split
        · rename_i w inbound hpump
          rw [if_neg (h.held hpump).ne]
        · rfl
      change (([] : List Inbound) ++ m.inHand m.made.length).Sublist _
      rw [hhand]
      exact List.nil_sublist _

theorem drop_append_of_le {read : List Inbound} {n : ℕ} (h : n ≤ read.length)
    (inbound : Inbound) : (read ++ [inbound]).drop n = read.drop n ++ [inbound] := by
  rw [List.drop_append, Nat.sub_eq_zero_of_le h, List.drop_zero]

theorem Routed.takeIn (h : Routed decode m) (hpump : m.pump = .reading) (inbound : Inbound) :
    Routed decode (m.takeIn decode inbound) where
  registered hview := h.registered hview
  held {i inb} hsend := by
    simp only [Multiplex.takeIn] at hsend
    split at hsend
    · cases hsend
    · split at hsend
      · cases hsend
      · rename_i view hview
        obtain ⟨rfl, -⟩ := PumpState.sending.inj hsend
        obtain ⟨v, hv, -⟩ := h.registered hview
        exact (List.getElem?_eq_some_iff.mp hv).1
  since_le hv := by
    have := h.since_le hv
    simp only [Multiplex.takeIn, List.length_append, List.length_singleton]
    omega
  accepted {i v} hv := by
    have hsub := h.accepted hv
    rw [inHand_reading hpump, List.append_nil] at hsub
    change List.Sublist _ (routed decode v.convID ((m.read ++ [inbound]).drop v.since))
    rw [drop_append_of_le (h.since_le hv), routed_append]
    apply hsub.append
    simp only [Multiplex.takeIn, inHand]
    split
    · rename_i w inb hsend
      split at hsend
      · cases hsend
      · rename_i frame hframe
        split at hsend
        · cases hsend
        · rename_i view hview
          obtain ⟨rfl, rfl⟩ := PumpState.sending.inj hsend
          split
          · rename_i heq
            subst heq
            obtain ⟨v', hv', hconv⟩ := h.registered hview
            obtain rfl : v' = v := Option.some.inj (hv'.symm.trans hv)
            simp [unwrap_of_unmarshal hframe, hconv]
          · exact List.nil_sublist _
    · exact List.nil_sublist _

theorem Routed.send (h : Routed decode m) {view : ℕ} {inbound : Inbound} {v : View}
    {recv : Chan Inbound} (hpump : m.pump = .sending view inbound)
    (hv : m.made[view]? = some v) (hrecv : v.recv.offer inbound = some recv) :
    Routed decode { m with made := m.made.set view { v with recv := recv }, pump := .reading } where
  registered {c i} hview := by
    obtain ⟨w, hw, hc⟩ := h.registered hview
    by_cases hi : i = view
    · subst hi
      obtain rfl : w = v := Option.some.inj (hw.symm.trans hv)
      exact ⟨_, getElem?_set_of_some hv _, hc⟩
    · exact ⟨w, by simpa [List.getElem?_set_ne (Ne.symm hi)] using hw, hc⟩
  held hsend := by cases hsend
  since_le hw := by
    rcases getElem?_set_cases hw with ⟨-, rfl⟩ | ⟨-, hold⟩
    · exact show v.since ≤ m.read.length from h.since_le hv
    · exact h.since_le hold
  accepted {i w} hw := by
    rw [inHand_reading rfl, List.append_nil]
    rcases getElem?_set_cases hw with ⟨rfl, rfl⟩ | ⟨-, hold⟩
    · have hsub := h.accepted hv
      rw [inHand_sending hpump, if_pos rfl] at hsub
      rcases Chan.accepted_of_offer hrecv with heq | heq
      · exact heq ▸ hsub
      · exact heq ▸ (List.sublist_append_left _ _).trans hsub
    · exact (List.sublist_append_left _ _).trans (h.accepted hold)

theorem Routed.step (h : Routed decode m) {a : MuxAction} (hs : Stepped decode m a m') :
    Routed decode m' := by
  cases hs with
  | nilMap => exact h.keep rfl (fun hview => hview) (.inl rfl) rfl
  | sendClosed => exact h.keep rfl (fun hview => hview) (.inl rfl) rfl
  | known => exact h
  | make hviews => exact h.make hviews
  | read hpump => exact h.takeIn hpump _
  | send hpump hv hrecv => exact h.send hpump hv hrecv
  | pumpReturn => exact h.keep rfl (fun hview => hview) (.inr rfl) rfl
  | closed => exact h
  | close =>
    refine h.keep rfl ?_ (.inl rfl) rfl
    intro c i hview
    cases hview
  | closeNext =>
    exact h.keep (map_account_markClosed m _) (fun hview => hview) (.inl rfl) rfl
  | closeView hv =>
    refine h.keep rfl ?_ (.inl rfl) rfl
    intro c i hview
    obtain ⟨views, hviews, hlook⟩ := Option.bind_eq_some_iff.mp hview
    obtain ⟨old, hold, rfl⟩ := Option.map_eq_some_iff.mp hviews
    simp [viewOf, hold, (AssociationLists.lookup_erase_cases hlook).2]
  | markClosed =>
    exact h.keep (map_account_markClosed m _) (fun hview => hview) (.inl rfl) rfl
  | receive hv hrecv =>
    refine h.keep (map_account_set hv ?_) (fun hview => hview) (.inl rfl) rfl
    simp [View.account, Chan.accepted_of_take hrecv]

/-- In every run, with views closed and the multiplex shut down at any time, a view is handed
frames of its own conversation only, unwrapped, each at most once and in the order in which
they arrived. -/
theorem view_reads_its_conversation {bufSize : ℕ} {ok : Multiplex → MuxAction → Prop}
    (hr : Reach (step decode) ok (new bufSize) m) {i : ℕ} {v : View} (hv : m.made[i]? = some v) :
    v.recv.accepted.Sublist (routed decode v.convID (m.read.drop v.since)) := by
  have hrouted : Routed decode m := by
    apply hr.invariant (routed_new decode bufSize)
    intro s a t hs _ hstep
    exact hs.step (stepped_of_step hstep)
  exact (List.sublist_append_left _ _).trans (hrouted.accepted hv)

/-- A frame of a conversation, as `Send` of its view wraps it. -/
def wrap (C : MultiplexCodec) (convID : ConversationID) (payload : List UInt8) : List UInt8 :=
  C.marshal ⟨convID, payload⟩

/-- A frame of one byte arrives, in the small codec. -/
def arrives (origin convID payload : UInt8) : MuxAction :=
  .read ⟨[origin], wrap .unary [convID] [payload]⟩

/-- Two conversations with a buffer of one message. The second frame for the first of them
is lost, and so is the last one, which arrives after its view was closed. -/
def crowded : List MuxAction :=
  [.forConversation [1], .forConversation [2], arrives 7 1 10, .send, arrives 8 1 11, .send,
    arrives 8 2 12, .send, .receive 0, arrives 7 1 13, .closeView 1, .send, .markClosed 1,
    arrives 7 2 14]

theorem view_reads_its_conversation_crowded : ∃ m v,
    Reach (step .unary) (fun _ _ => True) (new 1) m ∧ m.made[0]? = some v ∧
    v.recv.accepted = [⟨[7], [10]⟩, ⟨[7], [13]⟩] ∧
    v.recv.accepted.Sublist (routed .unary v.convID (m.read.drop v.since)) := by
  have hrun : (execute (step .unary) (fun _ _ => True) (new 1) crowded).map (fun m =>
      m.made[0]?.any fun v => v.recv.accepted = [⟨[7], [10]⟩, ⟨[7], [13]⟩]) = some true := by
    decide +kernel
  obtain ⟨m, -, hr, hm⟩ := reach_of_execute hrun
  obtain ⟨v, hv, hacc⟩ := (Option.any_eq_true _ _).mp hm
  exact ⟨m, v, hr, hv, by simpa using hacc, view_reads_its_conversation hr hv⟩

/-! ### Nothing is missing while nobody closes anything and the buffers have room -/

/-- The view that the pump is about to send to has room in its buffer. -/
def roomAhead (m : Multiplex) : Bool :=
  match m.pump with
  | .sending view _ =>
    m.made[view]?.all fun v => decide (v.recv.queue.length < v.recv.capacity)
  | _ => true

def Unhindered (m : Multiplex) : MuxAction → Prop
  | .close | .closeView _ => False
  | .send => m.roomAhead = true
  | _ => True

instance (m : Multiplex) (a : MuxAction) : Decidable (Unhindered m a) :=
  match a with
  | .close | .closeView _ => isFalse id
  | .send => inferInstanceAs (Decidable (_ = true))
  | .forConversation _ | .read _ | .pumpReturn | .closeNext _ | .markClosed _ | .receive _ =>
    isTrue trivial

structure Complete (decode : FrameDecoder) (m : Multiplex) : Prop extends Routed decode m where
  current : ∀ {i : ℕ} {v : View}, m.made[i]? = some v → m.viewOf v.convID = some i
  everything : ∀ {i : ℕ} {v : View}, m.made[i]? = some v →
    v.recv.accepted ++ m.inHand i = routed decode v.convID (m.read.drop v.since)
  nothingClosing : m.leftOpen = [] ∧ m.detached = []

theorem complete_new (decode : FrameDecoder) (bufSize : ℕ) : Complete decode (new bufSize) where
  toRouted := routed_new decode bufSize
  current h := by simp [new] at h
  everything h := by simp [new] at h
  nothingClosing := ⟨rfl, rfl⟩

theorem Complete.make (h : Complete decode m) {convID : ConversationID}
    {views : AList fun _ : ConversationID => ℕ} (hviews : m.views = some views)
    (hfree : views.lookup convID = none) :
    Complete decode { m with
      made := m.made ++ [⟨convID, .make m.bufSize, m.read.length⟩]
      views := some (views.insert convID m.made.length) } where
  toRouted := h.toRouted.make hviews
  current {i v} hv := by
    rcases getElem?_concat_cases hv with hold | ⟨rfl, rfl⟩
    · have hview := h.current hold
      have hne : v.convID ≠ convID := by
        rintro rfl
        simp [viewOf, hviews, hfree] at hview
      simpa [viewOf, hviews, AList.lookup_insert_ne hne] using hview
    · simp [viewOf]
  everything {i v} hv := by
    rcases getElem?_concat_cases hv with hold | ⟨rfl, rfl⟩
    · exact h.everything hold
    · have hsub := (h.toRouted.make hviews).accepted hv
      simp only [List.drop_length, routed, List.filterMap_nil, List.sublist_nil] at hsub ⊢
      exact hsub
  nothingClosing := h.nothingClosing

theorem Complete.takeIn (h : Complete decode m) (hpump : m.pump = .reading) (inbound : Inbound) :
    Complete decode (m.takeIn decode inbound) where
  toRouted := h.toRouted.takeIn hpump inbound
  current hv := h.current hv
  everything {i v} hv := by
    have hall := h.everything hv
    rw [inHand_reading hpump, List.append_nil] at hall
    change _ = routed decode v.convID ((m.read ++ [inbound]).drop v.since)
    rw [drop_append_of_le (h.since_le hv), routed_append, hall]
    congr 1
    cases hframe : decode inbound.payload with
    | none => simp [Multiplex.takeIn, inHand, unwrap, hframe]
    | some frame =>
      rw [unwrap_of_unmarshal hframe]
      by_cases hconv : frame.conversationId = v.convID
      · simp [Multiplex.takeIn, inHand, hframe, hconv, h.current hv]
      · have hview : ∀ w, m.viewOf frame.conversationId = some w → w ≠ i := by
          rintro w hw rfl
          obtain ⟨v', hv', hc⟩ := h.registered hw
          obtain rfl : v' = v := Option.some.inj (hv'.symm.trans hv)
          exact hconv hc.symm
        cases hw : m.viewOf frame.conversationId with
        | none => simp [Multiplex.takeIn, inHand, hframe, hconv, hw]
        | some w => simp [Multiplex.takeIn, inHand, hframe, hconv, hw, hview w hw]
  nothingClosing := h.nothingClosing

theorem Complete.send (h : Complete decode m) {view : ℕ} {inbound : Inbound} {v : View}
    {recv : Chan Inbound} (hpump : m.pump = .sending view inbound)
    (hv : m.made[view]? = some v) (hrecv : v.recv.offer inbound = some recv)
    (hroom : v.recv.queue.length < v.recv.capacity) :
    Complete decode
      { m with made := m.made.set view { v with recv := recv }, pump := .reading } where
  toRouted := h.toRouted.send hpump hv hrecv
  current {i w} hw := by
    rcases getElem?_set_cases hw with ⟨rfl, rfl⟩ | ⟨-, hold⟩
    · exact show m.viewOf v.convID = some i from h.current hv
    · exact h.current hold
  everything {i w} hw := by
    rw [inHand_reading rfl, List.append_nil]
    rcases getElem?_set_cases hw with ⟨rfl, rfl⟩ | ⟨hne, hold⟩
    · have hall := h.everything hv
      rw [inHand_sending hpump, if_pos rfl] at hall
      exact (Chan.accepted_of_offer_room hrecv hroom).trans hall
    · have hall := h.everything hold
      rw [inHand_sending hpump, if_neg (Ne.symm hne), List.append_nil] at hall
      exact hall
  nothingClosing := h.nothingClosing

theorem Complete.keep (h : Complete decode m)
    (hmade : m'.made.map View.account = m.made.map View.account) (hviews : m'.views = m.views)
    (hhand : ∀ i, m'.inHand i = m.inHand i) (hpump : m'.pump = m.pump ∨ m'.pump = .returned)
    (hread : m'.read = m.read) (hclosing : m'.leftOpen = m.leftOpen ∧ m'.detached = m.detached) :
    Complete decode m' where
  toRouted := h.toRouted.keep hmade (by simp [viewOf, hviews]) hpump hread
  current {i v'} hv' := by
    obtain ⟨v, hv, heq⟩ := account_of_map_eq hmade hv'
    have hconv : v'.convID = v.convID := congrArg Prod.fst heq
    rw [hconv, viewOf, hviews]
    exact h.current hv
  everything {i v'} hv' := by
    obtain ⟨v, hv, heq⟩ := account_of_map_eq hmade hv'
    obtain ⟨hconv, hsince, hacc⟩ : v'.convID = v.convID ∧ v'.since = v.since ∧
        v'.recv.accepted = v.recv.accepted := by simpa [View.account] using heq
    rw [hconv, hsince, hacc, hread, hhand]
    exact h.everything hv
  nothingClosing := by
    rw [hclosing.1, hclosing.2]
    exact h.nothingClosing

theorem Complete.step (h : Complete decode m) {a : MuxAction} (ha : Unhindered m a)
    (hs : Stepped decode m a m') : Complete decode m' := by
  cases hs with
  | nilMap => exact h.keep rfl rfl (fun _ => rfl) (.inl rfl) rfl ⟨rfl, rfl⟩
  | sendClosed => exact h.keep rfl rfl (fun _ => rfl) (.inl rfl) rfl ⟨rfl, rfl⟩
  | known => exact h
  | make hviews hfree => exact h.make hviews hfree
  | read hpump => exact h.takeIn hpump _
  | send hpump hv hrecv =>
    have hroom : m.roomAhead = true := ha
    exact h.send hpump hv hrecv (by simpa [roomAhead, hpump, hv] using hroom)
  | pumpReturn hpump =>
    refine h.keep rfl rfl ?_ (.inr rfl) rfl ⟨rfl, rfl⟩
    intro i
    rw [inHand_reading hpump]
    rfl
  | closed => exact h
  | close => exact ha.elim
  | closeNext hpump hmem =>
    rw [h.nothingClosing.1] at hmem
    cases hmem
  | closeView => exact ha.elim
  | markClosed hmem =>
    rw [h.nothingClosing.2] at hmem
    cases hmem
  | receive hv hrecv =>
    refine h.keep (map_account_set hv ?_) rfl (fun _ => rfl) (.inl rfl) rfl ⟨rfl, rfl⟩
    simp [View.account, Chan.accepted_of_take hrecv]

/-- As long as nothing is closed and every send finds room, a view gets every frame that has
arrived for its conversation since it was made. -/
theorem view_reads_everything {bufSize : ℕ} (hr : Reach (step decode) Unhindered (new bufSize) m)
    {i : ℕ} {v : View} (hv : m.made[i]? = some v) :
    v.recv.accepted ++ m.inHand i = routed decode v.convID (m.read.drop v.since) := by
  have hcomplete : Complete decode m := by
    apply hr.invariant (complete_new decode bufSize)
    intro s a t hs ha hstep
    exact hs.step ha (stepped_of_step hstep)
  exact hcomplete.everything hv

theorem view_reads_everything_twoConversations : ∃ m v,
    Reach (step .unary) Unhindered (new 0) m ∧ m.made[1]? = some v ∧
    v.recv.accepted ++ m.inHand 1 = [⟨[8], [12]⟩, ⟨[7], [13]⟩] ∧
    v.recv.accepted ++ m.inHand 1 = routed .unary v.convID (m.read.drop v.since) := by
  have hrun : (execute (step .unary) Unhindered (new 0)
      [.forConversation [1], arrives 7 2 9, arrives 7 1 10, .send, .forConversation [2],
        arrives 8 2 12, .send, .forConversation [1], .read ⟨[7], [255]⟩, .receive 1,
        arrives 7 2 13]).map (fun m =>
      m.made[1]?.any fun v =>
        v.recv.accepted ++ m.inHand 1 = [⟨[8], [12]⟩, ⟨[7], [13]⟩]) = some true := by
    decide +kernel
  obtain ⟨m, -, hr, hm⟩ := reach_of_execute hrun
  obtain ⟨v, hv, hacc⟩ := (Option.any_eq_true _ _).mp hm
  exact ⟨m, v, hr, hv, by simpa using hacc, view_reads_everything hr hv⟩

/-! ### Shutting down -/

/-- Nobody closes a single view, and no view is asked for after `Close`. -/
def Orderly (m : Multiplex) : MuxAction → Prop
  | .closeView _ => False
  | .forConversation _ => m.views ≠ none
  | _ => True

instance (m : Multiplex) (a : MuxAction) : Decidable (Orderly m a) :=
  match a with
  | .closeView _ => isFalse id
  | .forConversation _ => inferInstanceAs (Decidable (m.views ≠ none))
  | .send | .read _ | .pumpReturn | .close | .closeNext _ | .markClosed _ | .receive _ =>
    isTrue trivial

structure Calm (m : Multiplex) : Prop where
  running : m.panicked = false
  notDetached : m.detached = []
  closedLast : ∀ {i : ℕ} {v : View}, m.made[i]? = some v → v.recv.closed = true →
    m.pump = .returned

theorem calm_new (bufSize : ℕ) : Calm (new bufSize) := ⟨rfl, rfl, fun h => by simp [new] at h⟩

theorem Calm.step (h : Calm m) {a : MuxAction} (ha : Orderly m a) (hs : Stepped decode m a m') :
    Calm m' := by
  cases hs with
  | nilMap hviews => exact absurd hviews ha
  | sendClosed hpump hv hclosed =>
    rw [h.closedLast hv hclosed] at hpump
    cases hpump
  | known => exact h
  | make =>
    refine ⟨h.running, h.notDetached, ?_⟩
    intro i v hv hclosed
    rcases getElem?_concat_cases hv with hold | ⟨rfl, rfl⟩
    · exact h.closedLast hold hclosed
    · cases hclosed
  | read hpump =>
    refine ⟨h.running, h.notDetached, ?_⟩
    intro i v hv hclosed
    have := h.closedLast hv hclosed
    rw [hpump] at this
    cases this
  | send hpump hv hrecv =>
    refine ⟨h.running, h.notDetached, ?_⟩
    intro i v hw hclosed
    have hbusy : m.pump ≠ .returned := by simp [hpump]
    rcases getElem?_set_cases hw with ⟨-, rfl⟩ | ⟨-, hold⟩
    · exact absurd (h.closedLast hv ((Chan.closed_of_offer hrecv).symm.trans hclosed)) hbusy
    · exact absurd (h.closedLast hold hclosed) hbusy
  | pumpReturn => exact ⟨h.running, h.notDetached, fun _ _ => rfl⟩
  | closed => exact h
  | close => exact ⟨h.running, h.notDetached, h.closedLast⟩
  | closeNext hpump => exact ⟨h.running, h.notDetached, fun _ _ => hpump⟩
  | closeView => exact ha.elim
  | markClosed hmem =>
    rw [h.notDetached] at hmem
    cases hmem
  | receive hv hrecv =>
    refine ⟨h.running, h.notDetached, ?_⟩
    intro i v hw hclosed
    rcases getElem?_set_cases hw with ⟨-, rfl⟩ | ⟨-, hold⟩
    · exact h.closedLast hv ((Chan.closed_of_take hrecv).symm.trans hclosed)
    · exact h.closedLast hold hclosed

/-- `Close` never makes the pump send on a closed channel: it waits for the pump before it
closes the views. -/
theorem close_never_panics {bufSize : ℕ} (hr : Reach (step decode) Orderly (new bufSize) m) :
    m.panicked = false := by
  have hcalm : Calm m := by
    apply hr.invariant (calm_new bufSize)
    intro s a t hs ha hstep
    exact hs.step ha (stepped_of_step hstep)
  exact hcalm.running

/-- `Close` between the pump's lookup and its send; the view's own `Close` at the same moment
makes the pump panic. -/
theorem close_never_panics_busyPump :
    (∃ m, Reach (step .unary) Orderly (new 0) m ∧ m.leftOpen = [] ∧ m.panicked = false) ∧
    ∃ m, Reach (step .unary) (fun _ _ => True) (new 0) m ∧ m.panicked = true := by
  have hclose : (execute (step .unary) Orderly (new 0)
      [.forConversation [1], arrives 7 1 10, .close, .send, .pumpReturn, .closeNext 0]).map
        (fun m => decide (m.leftOpen = [])) = some true := by decide +kernel
  have hview : (execute (step .unary) (fun _ _ => True) (new 0)
      [.forConversation [1], arrives 7 1 10, .closeView 0, .markClosed 0, .send]).map panicked =
        some true := by decide +kernel
  obtain ⟨m, -, hr, hm⟩ := reach_of_execute hclose
  obtain ⟨m', -, hr', hm'⟩ := reach_of_execute hview
  exact ⟨⟨m, hr, by simpa using hm, close_never_panics hr⟩, m', hr', hm'⟩

end Multiplex
end Comlink
