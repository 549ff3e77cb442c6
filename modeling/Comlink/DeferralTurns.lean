import Comlink.ConversationSteps

/-!
# The receive handler as a work list

`handleEnvelope` and `processNewlyAvailable` call each other. Here their recursion is
unrolled into a work list of releases that are still to be done: a turn takes the
first of them, and an envelope that has nothing left to wait for is handled again,
which may put further releases in front. The two indexes of the deferral are updated
in the middle of that recursion, so what connects them is an invariant of the state
together with the work list.
-/
namespace Comlink.Conversation
open Relation AssociationLists

variable {io : HandlerChoices} {c c' : Conversation} {env : Envelope} {origin : ReplicaID}

/-- Releases still to be done: a parent that has become available, and a dependent. -/
abbrev Todo := List (Key × Key)

/-- The dependents that are registered for a parent. -/
def needing (c : Conversation) (w : Key) : List Key := (c.deferredByNeed.lookup w).getD []

/-- An accepted envelope no longer counts as requested, and its dependents are taken
off the index. -/
def available (io : HandlerChoices) (c : Conversation) (env : Envelope) (k : Key) (g : Graph) :
    Conversation :=
  { c.accept io env k g with
    outstanding := c.outstanding.erase k
    deferredByNeed := c.deferredByNeed.erase k }

/-- The outcomes of handling one envelope, with the releases that follow from it. -/
inductive Handled (io : HandlerChoices) (c : Conversation) (env : Envelope)
    (origin : ReplicaID) : Conversation → Todo → Prop
  | screened (hs : c.screen env = none) : Handled io c env origin c []
  | refused {k : Key} {why : InsertError} (hs : c.screen env = some k)
      (hi : c.graph.insert c.membership env = .error why)
      (hw : ∀ missing, why ≠ .missingParents missing) : Handled io c env origin c []
  | deferred {k : Key} {missing : List Key} (hs : c.screen env = some k)
      (hi : c.graph.insert c.membership env = .error (.missingParents missing)) :
      Handled io c env origin (c.deferEnvelope env missing origin) []
  | accepted {k : Key} {g : Graph} {n : Node} (hs : c.screen env = some k)
      (hi : c.graph.insert c.membership env = .ok (g, n)) :
      Handled io c env origin (c.available io env k g)
        ((io.order k (c.needing k)).map fun d => (k, d))

inductive Turn (io : HandlerChoices) : Conversation × Todo → Conversation × Todo → Prop
  | skip {c : Conversation} {p k : Key} {todo : Todo} (hl : c.deferred.lookup k = none) :
      Turn io (c, (p, k) :: todo) (c, todo)
  | wait {c : Conversation} {p k : Key} {todo : Todo} {pe : PendingEnvelope}
      (hl : c.deferred.lookup k = some pe) (hw : pe.waiting.erase p ≠ []) :
      Turn io (c, (p, k) :: todo)
        ({ c with deferred := c.deferred.insert k { pe with waiting := pe.waiting.erase p } },
          todo)
  | retry {c c' : Conversation} {p k : Key} {todo new : Todo} {pe : PendingEnvelope}
      (hl : c.deferred.lookup k = some pe) (hw : pe.waiting.erase p = [])
      (hh : Handled io { c with deferred := c.deferred.erase k } pe.env pe.origin c' new) :
      Turn io (c, (p, k) :: todo) (c', new ++ todo)

abbrev Turns (io : HandlerChoices) := ReflTransGen (Turn io)

section Length

theorem awaitParent_eq (envKey : Key) (origin : ReplicaID) (c : Conversation) (parent : Key) :
    awaitParent envKey origin c parent = { c with
      deferredByNeed := c.deferredByNeed.insert parent ((c.needing parent).insert envKey)
      outstanding := c.outstanding.insert parent
      outbox := c.outbox ++ if parent ∈ c.outstanding then []
        else [⟨c.self, origin, .lostMessageRequest parent⟩] } := by
  unfold awaitParent
  by_cases hp : parent ∈ c.outstanding
  · simp [hp, needing]
  · simp [hp, needing, sendLostMessageRequest, post]

theorem deferred_foldl_awaitParent (envKey : Key) (origin : ReplicaID) (missing : List Key)
    (c : Conversation) :
    (missing.foldl (awaitParent envKey origin) c).deferred = c.deferred := by
  induction missing generalizing c with
  | nil => rfl
  | cons p ps ih => rw [List.foldl_cons, ih, awaitParent_eq]

theorem length_deferEnvelope_le (c : Conversation) (env : Envelope) (missing : List Key)
    (origin : ReplicaID) : (c.deferEnvelope env missing origin).deferred.entries.length ≤
      c.deferred.entries.length + 1 := by
  unfold deferEnvelope
  split
  · exact Nat.le_succ _
  · dsimp only
    split
    · exact Nat.le_succ _
    · rw [deferred_foldl_awaitParent]
      exact length_insert_le ..

theorem Handled.length_le {new : Todo} (h : Handled io c env origin c' new) :
    c'.deferred.entries.length ≤ c.deferred.entries.length + 1 := by
  cases h with
  | screened hs => exact Nat.le_succ _
  | refused hs hi hw => exact Nat.le_succ _
  | deferred hs hi => exact length_deferEnvelope_le ..
  | accepted hs hi => exact Nat.le_succ _

theorem Turn.length_le {s t : Conversation × Todo} (h : Turn io s t) :
    t.1.deferred.entries.length ≤ s.1.deferred.entries.length := by
  cases h with
  | skip hl => exact Nat.le_refl _
  | wait hl hw => exact Nat.le_of_eq (length_insert_of_lookup hl _)
  | retry hl hw hh => exact hh.length_le.trans (Nat.le_of_eq (length_erase_of_lookup hl))

theorem Turns.length_le {s t : Conversation × Todo} (h : Turns io s t) :
    t.1.deferred.entries.length ≤ s.1.deferred.entries.length := by
  induction h with
  | refl => exact Nat.le_refl _
  | tail _ ht ih => exact ht.length_le.trans ih

end Length

section Unrolling

/-- A handler whose recursion is the work list that its outcome starts. -/
def Unrolls (io : HandlerChoices) (handle : Conversation → Envelope → ReplicaID → Conversation)
    (c : Conversation) (env : Envelope) (origin : ReplicaID) : Prop :=
  ∃ c₁ new, Handled io c env origin c₁ new ∧
    ∀ todo, Turns io (c₁, new ++ todo) (handle c env origin, todo)

variable {handle : Conversation → Envelope → ReplicaID → Conversation} {fuel : ℕ}

theorem turns_releaseDependent
    (hh : ∀ c env origin, c.deferred.entries.length < fuel → Unrolls io handle c env origin)
    (p : Key) (c : Conversation) (hf : c.deferred.entries.length ≤ fuel) (k : Key) (todo : Todo) :
    Turns io (c, (p, k) :: todo) (releaseDependent handle p c k, todo) := by
  unfold releaseDependent
  cases hl : c.deferred.lookup k with
  | none => exact .single (.skip hl)
  | some pe =>
    dsimp only
    by_cases hw : pe.waiting.erase p = []
    · rw [if_pos hw]
      have hlen := length_erase_of_lookup hl
      obtain ⟨c₁, new, hhandled, hturns⟩ :=
        hh { c with deferred := c.deferred.erase k } pe.env pe.origin (by dsimp only; omega)
      exact .head (.retry hl hw hhandled) (hturns todo)
    · rw [if_neg hw]
      exact .single (.wait hl hw)

theorem turns_foldl_releaseDependent
    (hh : ∀ c env origin, c.deferred.entries.length < fuel → Unrolls io handle c env origin)
    (p : Key) (keys : List Key) (c : Conversation) (hf : c.deferred.entries.length ≤ fuel)
    (todo : Todo) : Turns io (c, keys.map (fun d => (p, d)) ++ todo)
      (keys.foldl (releaseDependent handle p) c, todo) := by
  induction keys generalizing c with
  | nil => exact .refl
  | cons k ks ih =>
    have hturns := turns_releaseDependent hh p c hf k (ks.map (fun d => (p, d)) ++ todo)
    exact hturns.trans (ih _ (hturns.length_le.trans hf))

theorem processNewlyAvailable_accept (io : HandlerChoices) (c : Conversation) (env : Envelope)
    (k : Key) (g : Graph) : processNewlyAvailable io handle (c.accept io env k g) k =
      (io.order k (c.needing k)).foldl (releaseDependent handle k) (c.available io env k g) := by
  unfold processNewlyAvailable needing available
  have hneed : (c.accept io env k g).deferredByNeed = c.deferredByNeed := rfl
  cases hl : c.deferredByNeed.lookup k with
  | none =>
    have hempty : io.order k [] = [] := List.Perm.eq_nil (io.order_perm k [])
    have herase : c.deferredByNeed.erase k = c.deferredByNeed :=
      AList.ext (List.kerase_of_notMem_keys (AList.lookup_eq_none.mp hl))
    simp only [hneed, hl, Option.getD_none, hempty, herase, List.foldl_nil]
    rfl
  | some ds =>
    simp only [hneed, hl, Option.getD_some]
    rfl

/-- With fuel for every deferred envelope the recursive handler finishes its work list. -/
theorem unrolls_handleEnvelope (fuel : ℕ) (c : Conversation) (env : Envelope)
    (origin : ReplicaID) (hf : c.deferred.entries.length < fuel) :
    Unrolls io (handleEnvelope io fuel) c env origin := by
  induction fuel generalizing c env origin with
  | zero => exact absurd hf (Nat.not_lt_zero _)
  | succ fuel ih =>
    unfold Unrolls
    simp only [handleEnvelope]
    cases hs : c.screen env with
    | none => exact ⟨c, [], .screened hs, fun _ => .refl⟩
    | some k =>
      cases hi : c.graph.insert c.membership env with
      | ok r =>
        obtain ⟨g, n⟩ := r
        refine ⟨_, _, .accepted hs hi, fun todo => ?_⟩
        have hlen : (c.available io env k g).deferred.entries.length ≤ fuel :=
          Nat.le_of_lt_succ hf
        dsimp only
        rw [processNewlyAvailable_accept]
        exact turns_foldl_releaseDependent ih k _ _ hlen todo
      | error why =>
        cases why with
        | missingParents missing => exact ⟨_, [], .deferred hs hi, fun _ => .refl⟩
        | _ => exact ⟨c, [], .refused hs hi (by simp), fun _ => .refl⟩

end Unrolling

/-- An incoming envelope is handled, and then every release that follows. -/
theorem turns_incoming (c : Conversation) (io : HandlerChoices) (origin : ReplicaID)
    (env : Envelope) : ∃ c₁ new, Handled io c env origin c₁ new ∧
      Turns io (c₁, new) (c.handleIncoming io origin (.envelope env), []) := by
  have hunrolls : Unrolls io (handleEnvelope io (c.deferred.entries.length + 1)) c env origin :=
    unrolls_handleEnvelope _ c env origin (Nat.lt_succ_self _)
  obtain ⟨c₁, new, hh, ht⟩ := hunrolls
  have hturns := ht []
  rw [List.append_nil] at hturns
  exact ⟨c₁, new, hh, hturns⟩

end Comlink.Conversation
