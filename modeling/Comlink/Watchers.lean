import Comlink.FanOut
import Comlink.MetadataRegistry

/-!
# The watchers of the registry and of the key-value store

`Watch` of the metadata registry and of the key-value store hand out a channel and a
function that cancels it. `notify` takes the watchers under the lock and sends after it has
released it, while a cancel closes the channel under the lock, and so does `Close` of the
store for all watchers. A channel that is closed between the two makes the send panic.
-/
namespace Comlink
open GuardedRuns FanOut

namespace MetadataRegistry

def registryWatcherBuffer : ℕ := 64

/-- What a registry does with its watchers. -/
inductive WatchAction where
  | watch
  | cancel (w : ℕ)
  | notify (e : RegistryEvent) (order : List ℕ)
  | send (i : ℕ)
  | receive (w : ℕ)

/-- All watchers of a registry are in one set. -/
def watch (h : Hub Unit RegistryEvent) : Hub Unit RegistryEvent := h.subscribe ()

/-- The function that `Watch` returns with the channel. -/
def cancel (h : Hub Unit RegistryEvent) (w : ℕ) : Hub Unit RegistryEvent := h.unsubscribe w

/-- `notify` until it releases the lock, with the watchers in the order of the map. -/
def notify (h : Hub Unit RegistryEvent) (e : RegistryEvent) (order : List ℕ) :
    Option (Hub Unit RegistryEvent) :=
  h.publish () e order

/-- The next operation of a `notify` on the channel of a watcher. -/
def notifyNext (h : Hub Unit RegistryEvent) (i : ℕ) : Option (Hub Unit RegistryEvent) :=
  h.send registryWatcherBuffer i

def watchStep (h : Hub Unit RegistryEvent) (a : WatchAction) : Option (Hub Unit RegistryEvent) :=
  if h.fatal then none
  else match a with
    | .watch => some (watch h)
    | .cancel w => some (cancel h w)
    | .notify e order => notify h e order
    | .send i => notifyNext h i
    | .receive w => h.receive w

def WatchAction.toAction : WatchAction → Action Unit RegistryEvent
  | .watch => .subscribe ()
  | .cancel w => .unsubscribe w
  | .notify e order => .publish () e order
  | .send i => .send i
  | .receive w => .receive w

theorem watchStep_eq (h : Hub Unit RegistryEvent) (a : WatchAction) :
    watchStep h a = h.step registryWatcherBuffer a.toAction := by
  cases a <;> rfl

/-- No watcher is cancelled to which a `notify` is still to send. -/
def Settled (h : Hub Unit RegistryEvent) (a : WatchAction) : Prop := h.Undisturbed a.toAction

instance (h : Hub Unit RegistryEvent) (a : WatchAction) : Decidable (Settled h a) :=
  inferInstanceAs (Decidable (h.Undisturbed a.toAction))

theorem sound_of_settled {h : Hub Unit RegistryEvent} (hr : Reach watchStep Settled .empty h) :
    h.Sound :=
  hr.invariant Hub.sound_empty fun s a _ hs hok ht => hs.step hok (watchStep_eq s a ▸ ht)

/-- After a cancel the calls of `notify` can run into a panic exactly if one of them is
still to send to the watcher. -/
theorem cancel_panics_iff {h : Hub Unit RegistryEvent} {w : ℕ}
    (hr : Reach watchStep Settled .empty h) (hw : h.Subscribed w) :
    (∃ t, Reach watchStep (fun _ a => ∃ i, a = .send i) (cancel h w) t ∧ t.fatal = true) ↔
      h.Addressed w := by
  rw [← (sound_of_settled hr).unsubscribe_fatal_iff registryWatcherBuffer hw]
  exact exists_congr fun t => and_congr_left fun _ =>
    Hub.reach_sends_iff fun s i => watchStep_eq s (.send i)

end MetadataRegistry

inductive EventType where
  | set
  | delete
  deriving DecidableEq, Repr

/-- An event of the key-value store. -/
structure StoreEvent where
  type : EventType
  key : String
  value : String
  priorExists : Bool
  deriving DecidableEq, Repr

namespace Store

def watcherBufferSize : ℕ := 64

/-- What a store does with its watchers. -/
inductive WatchAction where
  | watch (key : String)
  | cancel (w : ℕ)
  | notify (key : String) (e : StoreEvent) (order : List ℕ)
  | send (i : ℕ)
  | receive (w : ℕ)
  | close

/-- A store keeps a bucket of watchers for every key. -/
def watch (h : Hub String StoreEvent) (key : String) : Hub String StoreEvent := h.subscribe key

def cancel (h : Hub String StoreEvent) (w : ℕ) : Hub String StoreEvent := h.unsubscribe w

def notify (h : Hub String StoreEvent) (key : String) (e : StoreEvent) (order : List ℕ) :
    Option (Hub String StoreEvent) :=
  h.publish key e order

def notifyNext (h : Hub String StoreEvent) (i : ℕ) : Option (Hub String StoreEvent) :=
  h.send watcherBufferSize i

/-- The section of `Close` under the lock of the watchers. The substrate, whose pump calls
`notify`, is closed only after it. -/
def close (h : Hub String StoreEvent) : Hub String StoreEvent := h.shutdown

def watchStep (h : Hub String StoreEvent) (a : WatchAction) : Option (Hub String StoreEvent) :=
  if h.fatal then none
  else match a with
    | .watch key => some (watch h key)
    | .cancel w => some (cancel h w)
    | .notify key e order => notify h key e order
    | .send i => notifyNext h i
    | .receive w => h.receive w
    | .close => some (close h)

def WatchAction.toAction : WatchAction → Action String StoreEvent
  | .watch key => .subscribe key
  | .cancel w => .unsubscribe w
  | .notify key e order => .publish key e order
  | .send i => .send i
  | .receive w => .receive w
  | .close => .shutdown

theorem watchStep_eq (h : Hub String StoreEvent) (a : WatchAction) :
    watchStep h a = h.step watcherBufferSize a.toAction := by
  cases a <;> rfl

/-- No watcher is cancelled, and no store closed, while a `notify` is still to send to a
channel that is closed by it. -/
def Settled (h : Hub String StoreEvent) (a : WatchAction) : Prop := h.Undisturbed a.toAction

instance (h : Hub String StoreEvent) (a : WatchAction) : Decidable (Settled h a) :=
  inferInstanceAs (Decidable (h.Undisturbed a.toAction))

theorem sound_of_settled {h : Hub String StoreEvent} (hr : Reach watchStep Settled .empty h) :
    h.Sound :=
  hr.invariant Hub.sound_empty fun s a _ hs hok ht => hs.step hok (watchStep_eq s a ▸ ht)

theorem cancel_panics_iff {h : Hub String StoreEvent} {w : ℕ}
    (hr : Reach watchStep Settled .empty h) (hw : h.Subscribed w) :
    (∃ t, Reach watchStep (fun _ a => ∃ i, a = .send i) (cancel h w) t ∧ t.fatal = true) ↔
      h.Addressed w := by
  rw [← (sound_of_settled hr).unsubscribe_fatal_iff watcherBufferSize hw]
  exact exists_congr fun t => and_congr_left fun _ =>
    Hub.reach_sends_iff fun s i => watchStep_eq s (.send i)

end Store

section Panics

/-- Neither the registry nor the store sends on a closed channel, or closes one twice, as
long as no channel is closed to which a `notify` is still to send. -/
theorem watchers_never_written_after_close {h : Hub Unit RegistryEvent}
    {h' : Hub String StoreEvent}
    (hr : Reach MetadataRegistry.watchStep MetadataRegistry.Settled .empty h)
    (hr' : Reach Store.watchStep Store.Settled .empty h') : h.fatal = false ∧ h'.fatal = false :=
  ⟨(MetadataRegistry.sound_of_settled hr).fatal, (Store.sound_of_settled hr').fatal⟩

def registeredEvent : RegistryEvent := ⟨.registered, "a", ⟨"a", [1], [], 0, []⟩⟩

def setEvent : StoreEvent := ⟨.set, "a", "b", false⟩

/-- A watcher that is cancelled after `notify` is done with it. -/
def cancelled : List MetadataRegistry.WatchAction :=
  [.watch, .watch, .notify registeredEvent [1, 0], .send 0, .cancel 1, .send 0]

/-- A store that is closed before `notify` takes the watchers. -/
def closedFirst : List Store.WatchAction :=
  [.watch "a", .close, .notify "a" setEvent []]

theorem watchers_never_written_after_close_runs :
    (∃ h, execute MetadataRegistry.watchStep MetadataRegistry.Settled .empty cancelled = some h ∧
      h.fatal = false) ∧
    ∃ h, execute Store.watchStep Store.Settled .empty closedFirst = some h ∧ h.fatal = false := by
  have hreg : (execute MetadataRegistry.watchStep MetadataRegistry.Settled .empty cancelled).map
      (fun _ => true) = some true := by decide +kernel
  have hstore : (execute Store.watchStep Store.Settled .empty closedFirst).map (fun _ => true) =
      some true := by decide +kernel
  obtain ⟨h, hrun, hr, -⟩ := reach_of_execute hreg
  obtain ⟨h', hrun', hr', -⟩ := reach_of_execute hstore
  obtain ⟨hfatal, hfatal'⟩ := watchers_never_written_after_close hr hr'
  exact ⟨⟨h, hrun, hfatal⟩, h', hrun', hfatal'⟩

/-- A watcher of the registry is cancelled, and a store closed, between the moment when
`notify` takes the watchers and its send. -/
theorem watcher_written_after_close :
    (∃ h, Reach MetadataRegistry.watchStep (fun _ _ => True) .empty h ∧ h.fatal = true) ∧
      ∃ h, Reach Store.watchStep (fun _ _ => True) .empty h ∧ h.fatal = true := by
  have hreg : (execute MetadataRegistry.watchStep (fun _ _ => True) .empty
      [.watch, .notify registeredEvent [0], .cancel 0, .send 0]).map Hub.fatal = some true := by
    decide +kernel
  have hstore : (execute Store.watchStep (fun _ _ => True) .empty
      [.watch "a", .notify "a" setEvent [0], .close, .send 0]).map Hub.fatal = some true := by
    decide +kernel
  obtain ⟨h, -, hr, hfatal⟩ := reach_of_execute hreg
  obtain ⟨h', -, hr', hfatal'⟩ := reach_of_execute hstore
  exact ⟨⟨h, hr, hfatal⟩, ⟨h', hr', hfatal'⟩⟩

end Panics

end Comlink
