import Comlink.ContextGraph

/-!
# Stability and wave completion

The standard checker of `psync/stability.go`. A node is stable once every other
active slot has sent a message whose clock acknowledges it, and a wave is complete
once it holds a stable node. The checker indexes the newest clock of a slot at the
sender's slot without a bound test, so a query returns `none` where the source
would panic.
-/
namespace Comlink.Graph

/-- The loop of `StandardChecker.IsStable` over the remaining slots. -/
def isStableAt (g : Graph) (n : Node) : List (Slot × ℕ) → Option Bool
  | [] => some true
  | (s, i) :: rest =>
    if i = n.senderSlot ∨ s.frozen then isStableAt g n rest
    else match g.latestNode s.replica with
      | none => some false
      | some latest => match latest.envelope.id.vectorClock[n.senderSlot]? with
        | none => none
        | some acked => if acked < n.senderSeq then some false else isStableAt g n rest

def isStable (g : Graph) (m : Membership) (n : Node) : Option Bool :=
  isStableAt g n m.slots.zipIdx

/-- The loop of `WaveComplete` over the remaining nodes of the wave. -/
def anyStable (g : Graph) (m : Membership) : List Node → Option Bool
  | [] => some false
  | n :: rest => match g.isStable m n with
    | none => none
    | some true => some true
    | some false => anyStable g m rest

def waveComplete (g : Graph) (m : Membership) (w : ℕ) : Option Bool :=
  g.anyStable m (g.messagesInWave w)

/-- The loop of `StableNodes` over the remaining nodes. -/
def collectStable (g : Graph) (m : Membership) : List Node → Option (List Node)
  | [] => some []
  | n :: rest => match g.isStable m n with
    | none => none
    | some stable => (collectStable g m rest).map fun out => if stable then n :: out else out

/-- `StableNodes`, which goes through the nodes wave by wave. -/
def stableNodes (g : Graph) (m : Membership) : Option (List Node) :=
  g.collectStable m (g.waves.flatMap g.messagesInWave)

end Comlink.Graph
