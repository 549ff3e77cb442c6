import Comlink.DeferralTurns

/-!
# Which envelopes the receive handler handles again

The receive handler with a record of the deferred envelopes that it handles again. As a work
list it is the same sequence of turns, each of which determines the next. Hence the fuel of
the handler makes no difference once there is some for every deferred envelope and one more:
the recursion has ended before the fuel does.
-/
namespace Comlink.Conversation
open AssociationLists

variable {io : HandlerChoices} {c c' : Conversation} {env : Envelope} {origin : ReplicaID}

/-- `releaseDependent` with the keys of the envelopes handled again so far. -/
def releaseNoting (handle : Conversation → Envelope → ReplicaID → Conversation × List Key)
    (parent : Key) (st : Conversation × List Key) (k : Key) : Conversation × List Key :=
  match st.1.deferred.lookup k with
  | none => st
  | some pe =>
    let waiting := pe.waiting.erase parent
    if waiting = [] then
      let r := handle { st.1 with deferred := st.1.deferred.erase k } pe.env pe.origin
      (r.1, st.2 ++ k :: r.2)
    else
      ({ st.1 with deferred := st.1.deferred.insert k { pe with waiting := waiting } }, st.2)

def processNoting (io : HandlerChoices)
    (handle : Conversation → Envelope → ReplicaID → Conversation × List Key) (c : Conversation)
    (parent : Key) : Conversation × List Key :=
  let c := { c with outstanding := c.outstanding.erase parent }
  match c.deferredByNeed.lookup parent with
  | none => (c, [])
  | some dependents =>
    (io.order parent dependents).foldl (releaseNoting handle parent)
      ({ c with deferredByNeed := c.deferredByNeed.erase parent }, [])

/-- `handleEnvelope`, and the keys of the deferred envelopes that it handles again. -/
def handleNoting (io : HandlerChoices) :
    ℕ → Conversation → Envelope → ReplicaID → Conversation × List Key
  | 0, c, _, _ => (c, [])
  | fuel + 1, c, env, origin =>
    match c.screen env with
    | none => (c, [])
    | some k =>
      match c.graph.insert c.membership env with
      | .error (.missingParents missing) => (c.deferEnvelope env missing origin, [])
      | .error _ => (c, [])
      | .ok (g, _) => processNoting io (handleNoting io fuel) (c.accept io env k g) k

section Projection

variable {handle : Conversation → Envelope → ReplicaID → Conversation × List Key}
variable {plain : Conversation → Envelope → ReplicaID → Conversation}

theorem releaseNoting_fst (h : ∀ c env origin, (handle c env origin).1 = plain c env origin)
    (p : Key) (st : Conversation × List Key) (k : Key) :
    (releaseNoting handle p st k).1 = releaseDependent plain p st.1 k := by
  unfold releaseNoting releaseDependent
  cases st.1.deferred.lookup k with
  | none => rfl
  | some pe =>
    dsimp only
    by_cases hw : pe.waiting.erase p = []
    · rw [if_pos hw, if_pos hw, h]
    · rw [if_neg hw, if_neg hw]

theorem foldl_releaseNoting_fst (h : ∀ c env origin, (handle c env origin).1 = plain c env origin)
    (p : Key) (keys : List Key) (st : Conversation × List Key) :
    (keys.foldl (releaseNoting handle p) st).1 = keys.foldl (releaseDependent plain p) st.1 := by
  induction keys generalizing st with
  | nil => rfl
  | cons k ks ih => rw [List.foldl_cons, ih, releaseNoting_fst h, List.foldl_cons]

theorem handleNoting_fst (io : HandlerChoices) (fuel : ℕ) (c : Conversation) (env : Envelope)
    (origin : ReplicaID) :
    (handleNoting io fuel c env origin).1 = handleEnvelope io fuel c env origin := by
  induction fuel generalizing c env origin with
  | zero => rfl
  | succ fuel ih =>
    rw [handleNoting, handleEnvelope]
    cases c.screen env with
    | none => rfl
    | some k =>
      cases c.graph.insert c.membership env with
      | error why => cases why <;> rfl
      | ok r =>
        dsimp only
        unfold processNoting processNewlyAvailable
        dsimp only
        cases (c.accept io env k r.1).deferredByNeed.lookup k with
        | none => rfl
        | some dependents => exact foldl_releaseNoting_fst ih k _ _

end Projection

/-- A sequence of turns, with the keys of the envelopes that are handled again. -/
inductive Traced (io : HandlerChoices) :
    Conversation × Todo → List Key → Conversation × Todo → Prop
  | refl (s : Conversation × Todo) : Traced io s [] s
  | skip {c : Conversation} {p k : Key} {todo : Todo} {ks : List Key} {t : Conversation × Todo}
      (hl : c.deferred.lookup k = none) (rest : Traced io (c, todo) ks t) :
      Traced io (c, (p, k) :: todo) ks t
  | wait {c : Conversation} {p k : Key} {todo : Todo} {pe : PendingEnvelope} {ks : List Key}
      {t : Conversation × Todo} (hl : c.deferred.lookup k = some pe)
      (hw : pe.waiting.erase p ≠ [])
      (rest : Traced io ({ c with
        deferred := c.deferred.insert k { pe with waiting := pe.waiting.erase p } }, todo) ks t) :
      Traced io (c, (p, k) :: todo) ks t
  | retry {c c' : Conversation} {p k : Key} {todo new : Todo} {pe : PendingEnvelope}
      {ks : List Key} {t : Conversation × Todo} (hl : c.deferred.lookup k = some pe)
      (hw : pe.waiting.erase p = [])
      (hh : Handled io { c with deferred := c.deferred.erase k } pe.env pe.origin c' new)
      (rest : Traced io (c', new ++ todo) ks t) : Traced io (c, (p, k) :: todo) (k :: ks) t

section Traces

variable {s t u : Conversation × Todo} {ks ks' : List Key}

theorem Traced.trans (h : Traced io s ks t) (h' : Traced io t ks' u) :
    Traced io s (ks ++ ks') u := by
  induction h with
  | refl s => exact h'
  | skip hl _ ih => exact .skip hl (ih h')
  | wait hl hw _ ih => exact .wait hl hw (ih h')
  | retry hl hw hh _ ih => exact .retry hl hw hh (ih h')

theorem Traced.turns (h : Traced io s ks t) : Turns io s t := by
  induction h with
  | refl s => exact .refl
  | skip hl _ ih => exact .head (.skip hl) ih
  | wait hl hw _ ih => exact .head (.wait hl hw) ih
  | retry hl hw hh _ ih => exact .head (.retry hl hw hh) ih

theorem Handled.unique {c₁ c₂ : Conversation} {new new' : Todo}
    (h : Handled io c env origin c₁ new) (h' : Handled io c env origin c₂ new') :
    c₁ = c₂ ∧ new = new' := by
  cases h with
  | screened hs =>
    cases h' with
    | screened hs' => exact ⟨rfl, rfl⟩
    | refused hs' _ _ | deferred hs' _ | accepted hs' _ => cases hs.symm.trans hs'
  | refused hs hi hw =>
    cases h' with
    | screened hs' => cases hs.symm.trans hs'
    | refused _ _ _ => exact ⟨rfl, rfl⟩
    | deferred _ hi' =>
      cases hi.symm.trans hi'
      exact absurd rfl (hw _)
    | accepted _ hi' => cases hi.symm.trans hi'
  | deferred hs hi =>
    cases h' with
    | screened hs' => cases hs.symm.trans hs'
    | refused _ hi' hw =>
      cases hi.symm.trans hi'
      exact absurd rfl (hw _)
    | deferred _ hi' =>
      cases hi.symm.trans hi'
      exact ⟨rfl, rfl⟩
    | accepted _ hi' => cases hi.symm.trans hi'
  | accepted hs hi =>
    cases h' with
    | screened hs' => cases hs.symm.trans hs'
    | refused _ hi' _ | deferred _ hi' => cases hi.symm.trans hi'
    | accepted hs' hi' =>
      cases hs.symm.trans hs'
      cases hi.symm.trans hi'
      exact ⟨rfl, rfl⟩

/-- A finished work list has one trace. -/
theorem Traced.unique {c₁ c₂ : Conversation} (h : Traced io s ks (c₁, []))
    (h' : Traced io s ks' (c₂, [])) : c₁ = c₂ ∧ ks = ks' := by
  generalize ht : (c₁, ([] : Todo)) = t at h
  induction h generalizing ks' with
  | refl s =>
    cases ht
    cases h'
    exact ⟨rfl, rfl⟩
  | skip hl _ ih =>
    cases h' with
    | skip _ rest => exact ih rest ht
    | wait hl' _ _ | retry hl' _ _ _ => cases hl.symm.trans hl'
  | wait hl hw _ ih =>
    cases h' with
    | skip hl' _ => cases hl.symm.trans hl'
    | wait hl' _ rest =>
      cases hl.symm.trans hl'
      exact ih rest ht
    | retry hl' hw' _ _ =>
      cases hl.symm.trans hl'
      exact absurd hw' hw
  | retry hl hw hh _ ih =>
    cases h' with
    | skip hl' _ => cases hl.symm.trans hl'
    | wait hl' hw' _ =>
      cases hl.symm.trans hl'
      exact absurd hw hw'
    | retry hl' _ hh' rest =>
      cases hl.symm.trans hl'
      obtain ⟨rfl, rfl⟩ := hh.unique hh'
      obtain ⟨hc, rfl⟩ := ih rest ht
      exact ⟨hc, rfl⟩

end Traces

section Unrolling

/-- A handler whose record is that of the work list that its outcome starts. -/
def NotingUnrolls (io : HandlerChoices)
    (handle : Conversation → Envelope → ReplicaID → Conversation × List Key)
    (c : Conversation) (env : Envelope) (origin : ReplicaID) : Prop :=
  ∃ c₁ new, Handled io c env origin c₁ new ∧ ∀ todo,
    Traced io (c₁, new ++ todo) (handle c env origin).2 ((handle c env origin).1, todo)

variable {handle : Conversation → Envelope → ReplicaID → Conversation × List Key} {fuel : ℕ}

theorem traced_releaseNoting
    (hh : ∀ c env origin, c.deferred.entries.length < fuel → NotingUnrolls io handle c env origin)
    (p : Key) (st : Conversation × List Key) (hf : st.1.deferred.entries.length ≤ fuel) (k : Key) :
    ∃ ks, (releaseNoting handle p st k).2 = st.2 ++ ks ∧
      ∀ todo, Traced io (st.1, (p, k) :: todo) ks ((releaseNoting handle p st k).1, todo) := by
  unfold releaseNoting
  cases hl : st.1.deferred.lookup k with
  | none => exact ⟨[], by simp, fun todo => .skip hl (.refl _)⟩
  | some pe =>
    dsimp only
    by_cases hw : pe.waiting.erase p = []
    · rw [if_pos hw]
      have hlen := length_erase_of_lookup hl
      obtain ⟨c₁, new, hhandled, htraced⟩ :=
        hh { st.1 with deferred := st.1.deferred.erase k } pe.env pe.origin (by dsimp only; omega)
      exact ⟨_, rfl, fun todo => .retry hl hw hhandled (htraced todo)⟩
    · rw [if_neg hw]
      exact ⟨[], by simp, fun todo => .wait hl hw (.refl _)⟩

theorem traced_foldl_releaseNoting
    (hh : ∀ c env origin, c.deferred.entries.length < fuel → NotingUnrolls io handle c env origin)
    (p : Key) (keys : List Key) (st : Conversation × List Key)
    (hf : st.1.deferred.entries.length ≤ fuel) :
    ∃ ks, (keys.foldl (releaseNoting handle p) st).2 = st.2 ++ ks ∧
      ∀ todo, Traced io (st.1, keys.map (fun d => (p, d)) ++ todo) ks
        ((keys.foldl (releaseNoting handle p) st).1, todo) := by
  induction keys generalizing st with
  | nil => exact ⟨[], by simp, fun todo => .refl _⟩
  | cons k keys ih =>
    obtain ⟨ks, hks, hfirst⟩ := traced_releaseNoting hh p st hf k
    have hlen := (hfirst []).turns.length_le
    obtain ⟨ks', hks', hrest⟩ := ih (releaseNoting handle p st k) (hlen.trans hf)
    refine ⟨ks ++ ks', ?_, fun todo => ?_⟩
    · rw [List.foldl_cons, hks', hks, List.append_assoc]
    · exact (hfirst _).trans (hrest todo)

theorem processNoting_accept (io : HandlerChoices) (c : Conversation) (env : Envelope)
    (k : Key) (g : Graph) : processNoting io handle (c.accept io env k g) k =
      (io.order k (c.needing k)).foldl (releaseNoting handle k) (c.available io env k g, []) := by
  unfold processNoting needing available
  have hneed : (c.accept io env k g).deferredByNeed = c.deferredByNeed := rfl
  cases hl : c.deferredByNeed.lookup k with
  | none =>
    have hempty : io.order k [] = [] := List.Perm.eq_nil (io.order_perm k [])
    have herase : c.deferredByNeed.erase k = c.deferredByNeed :=
      AList.ext (List.kerase_of_notMem_keys (AList.lookup_eq_none.mp hl))
    simp only [hneed, hl, Option.getD_none, hempty, herase, List.foldl_nil]
    rfl
  | some ds =>
    simp only [hneed, hl, Option.getD_some]
    rfl

theorem unrolls_handleNoting (fuel : ℕ) (c : Conversation) (env : Envelope)
    (origin : ReplicaID) (hf : c.deferred.entries.length < fuel) :
    NotingUnrolls io (handleNoting io fuel) c env origin := by
  induction fuel generalizing c env origin with
  | zero => exact absurd hf (Nat.not_lt_zero _)
  | succ fuel ih =>
    unfold NotingUnrolls
    simp only [handleNoting]
    cases hs : c.screen env with
    | none => exact ⟨c, [], .screened hs, fun _ => .refl _⟩
    | some k =>
      cases hi : c.graph.insert c.membership env with
      | ok r =>
        obtain ⟨g, n⟩ := r
        refine ⟨_, _, .accepted hs hi, fun todo => ?_⟩
        have hlen : (c.available io env k g).deferred.entries.length ≤ fuel :=
          Nat.le_of_lt_succ hf
        dsimp only
        rw [processNoting_accept]
        obtain ⟨ks, hks, htraced⟩ := traced_foldl_releaseNoting ih k
          (io.order k (c.needing k)) (c.available io env k g, []) hlen
        rw [hks]
        exact htraced todo
      | error why =>
        cases why with
        | missingParents missing => exact ⟨_, [], .deferred hs hi, fun _ => .refl _⟩
        | _ => exact ⟨c, [], .refused hs hi (by simp), fun _ => .refl _⟩

/-- The fuel does not matter once it is enough for every deferred envelope. -/
theorem handleNoting_fuel (io : HandlerChoices) (c : Conversation) (env : Envelope)
    (origin : ReplicaID) {fuel : ℕ} (hf : c.deferred.entries.length < fuel) :
    handleNoting io fuel c env origin =
      handleNoting io (c.deferred.entries.length + 1) c env origin := by
  obtain ⟨c₁, new, hh, ht⟩ := unrolls_handleNoting fuel c env origin hf
  obtain ⟨c₂, new', hh', ht'⟩ :=
    unrolls_handleNoting _ c env origin (Nat.lt_succ_self c.deferred.entries.length)
  obtain ⟨rfl, rfl⟩ := hh.unique hh'
  obtain ⟨hc, hks⟩ := (ht []).unique (ht' [])
  exact Prod.ext hc hks

end Unrolling

end Comlink.Conversation
