import Comlink.StableStorage

/-!
# What stable storage guarantees

Two guarantees of `stable.File`, over every run with failing system calls, kills and power
losses at any moment: a `Get` returns nothing that was not put as a whole, and a call that
returned without an error is not undone. Keys that contain `.tmp-` are exempt, since the
storage uses such names itself.
-/
namespace Comlink.Stable

open GuardedRuns CrashDisk

namespace File

variable {f f' : File} {a : Values} {act : Action} {c : Call}

/-! ### Values are never torn -/

/-- Every value that a key has or that a crash may leave for it was put under that key, and
so was every value that was read. -/
structure Genuine (f : File) (a : Values) : Prop where
  holds : Holds f a
  begun : ∀ c, f.pc.call = some c → c ∈ f.calls ∧ validKey c.key = true
  possible : ∀ key value, a.Possible key (some value) → .put key value ∈ f.calls
  results : ∀ key value, Plain key → (.get key, .value value) ∈ f.results →
    .put key value ∈ f.calls

theorem genuine_new : Genuine new .empty where
  holds := holds_new
  begun _ h := by cases h
  possible key value h := by simp [DurableMap.Possible, DurableMap.empty] at h
  results _ _ _ h := by cases h

theorem Genuine.read (h : Genuine f a) {key : Key} {value : Bytes} (hkey : Plain key)
    (hread : f.disk.read key = some value) : .put key value ∈ f.calls :=
  h.possible key value (.inl ((h.holds.stores.current key hkey).symm.trans hread))

theorem Genuine.step (h : Genuine f a) (hstep : Stepped f act f') :
    Genuine f' (f.effect a act) where
  holds := h.holds.step hstep
  begun c hc := by
    rcases call_of_stepped hstep hc with hold | ⟨-, hnew⟩
    · exact ⟨calls_subset hstep (h.begun c hold).1, (h.begun c hold).2⟩
    · exact hnew
  possible key value hvalue := by
    apply calls_subset hstep
    rcases possible_effect hvalue with hold | ⟨v, tmp, hpc, hv⟩ | ⟨-, hnone⟩
    · exact h.possible key value hold
    · cases hv
      exact (h.begun _ (by rw [hpc]; rfl)).1
    · cases hnone
  results key value hkey hmem := by
    apply calls_subset hstep
    rcases results_of_stepped h.holds hstep with hsame | ⟨c, r, hnew, hreturns⟩
    · exact h.results key value hkey (hsame ▸ hmem)
    · rw [hnew, List.mem_append, List.mem_singleton, Prod.mk.injEq] at hmem
      rcases hmem with hold | ⟨rfl, rfl⟩
      · exact h.results key value hkey hold
      · have hanswer : .value value = answer (f.disk.read key) := by
          simpa using hreturns.1 key rfl
        cases hread : f.disk.read key with
        | none => simp [hread, answer] at hanswer
        | some v =>
          obtain rfl : value = v := by simpa [hread, answer] using hanswer
          exact h.read hkey hread

theorem genuine_reach {ok : File → Action → Prop} (hr : Reach step ok new f) :
    ∃ a, Genuine f a := by
  apply hr.invariant ⟨_, genuine_new⟩
  rintro s act t ⟨a, h⟩ - hstep
  exact ⟨_, h.step (stepped_of_step hstep)⟩

/-- Through failures of system calls, kills and power losses at any moment, whatever `Get`
returns for a key was put under that key, as a whole. -/
theorem get_never_torn {f : File} {key : Key} {value : Bytes}
    (hr : Reach step (fun _ _ => True) new f) (hkey : Plain key)
    (hget : (.get key, .value value) ∈ f.results) : .put key value ∈ f.calls := by
  obtain ⟨a, h⟩ := genuine_reach hr
  exact h.results key value hkey hget

/-- Power is lost between the rename and the sync of the directory, and the old value comes
back. -/
theorem get_never_torn_powerLoss :
    ∃ f, Reach step (fun _ _ => True) new f ∧
      f.results = [(.put "mask" [1, 2], .done), (.get "mask", .value [1, 2])] ∧
      .put "mask" [1, 2] ∈ f.calls := by
  have hrun : (execute step (fun _ _ => True) new
      ([.call (.put "mask" [1, 2]), .createTemp (some 7), .write none] ++
        List.replicate 6 (.system true) ++
        [.call (.put "mask" [3, 4]), .createTemp (some 8), .write none] ++
        List.replicate 3 (.system true) ++
        [.crash ⟨fun _ => 0, fun _ => [9]⟩, .call (.get "mask"), .system true])).map
      (fun f => decide (f.results =
        [(.put "mask" [1, 2], .done), (.get "mask", .value [1, 2])])) = some true := by
    decide +kernel
  obtain ⟨f, -, hr, hf⟩ := reach_of_execute hrun
  have hresults := of_decide_eq_true hf
  exact ⟨f, hr, hresults, get_never_torn hr (by decide) (by rw [hresults]; decide)⟩

/-! ### Acknowledged calls survive -/

/-- A run in which nobody writes to the key any more. -/
def Spares (key : Key) (_ : File) : Action → Prop
  | .call c => c = .get key ∨ c.key ≠ key
  | _ => True

instance decidableSpares (key : Key) (f : File) (act : Action) :
    Decidable (Spares key f act) :=
  match act with
  | .call c => @instDecidableOr _ _ (instDecidableEqCall c (.get key)) instDecidableNot
  | .createTemp _ | .write _ | .system _ | .close | .kill | .crash _ => .isTrue trivial

/-- What the call leaves under the key, if anything, satisfies `Q`. -/
def Allowed (key : Key) (Q : Option Bytes → Prop) (c : Call) : Prop :=
  c.key = key → c.Writes → Q c.leaves

/-- Since `s` the key can only have values that satisfy `Q`, and it was read as such. -/
structure Confined (key : Key) (Q : Option Bytes → Prop) (s f : File) (a : Values) : Prop where
  holds : Holds f a
  valid : validKey key = true
  only : ∀ y, a.Possible key y → Q y
  leaves : ∀ c, f.pc.call = some c → Allowed key Q c
  reads : ∃ later, f.results = s.results ++ later ∧ ∀ r, (.get key, r) ∈ later →
    (∃ y, Q y ∧ r = answer y) ∨ r = .errSystem ∨ r = .errClosed

variable {key : Key} {Q : Option Bytes → Prop} {s : File}

theorem Confined.step (h : Confined key Q s f a) (hkey : Plain key)
    (hcall : ∀ c, act = .call c → Allowed key Q c) (hstep : Stepped f act f') :
    Confined key Q s f' (f.effect a act) where
  holds := h.holds.step hstep
  valid := h.valid
  only y hy := by
    rcases possible_effect hy with hold | ⟨value, tmp, hpc, rfl⟩ | ⟨hpc, rfl⟩
    · exact h.only y hold
    · exact h.leaves (.put key value) (by rw [hpc]; rfl) rfl trivial
    · exact h.leaves (.delete key) (by rw [hpc]; rfl) rfl trivial
  leaves c hc := by
    rcases call_of_stepped hstep hc with hold | ⟨hact, -⟩
    · exact h.leaves c hold
    · exact hcall c hact
  reads := by
    obtain ⟨later, hlater, hreads⟩ := h.reads
    rcases results_of_stepped h.holds hstep with hsame | ⟨c, r, hnew, hreturns⟩
    · exact ⟨later, hsame.trans hlater, hreads⟩
    · refine ⟨later ++ [(c, r)], by rw [hnew, hlater, List.append_assoc], ?_⟩
      intro r' hr'
      rw [List.mem_append, List.mem_singleton, Prod.mk.injEq] at hr'
      rcases hr' with hold | ⟨rfl, rfl⟩
      · exact hreads r' hold
      · have hread : Q (f.disk.read key) :=
          h.only _ (.inl (h.holds.stores.current key hkey).symm)
        rcases hreturns.1 key rfl with hr | hr | hr | ⟨-, hinvalid⟩
        · exact .inl ⟨_, hread, hr⟩
        · exact .inr (.inl hr)
        · exact .inr (.inr hr)
        · rw [h.valid] at hinvalid
          cases hinvalid

theorem Confined.last_read {b : Values} {r : Outcome} (h : Confined key Q s f a)
    (h' : Confined key Q s f' b) (hr : f'.results = f.results ++ [(.get key, r)]) :
    (∃ y, Q y ∧ r = answer y) ∨ r = .errSystem ∨ r = .errClosed := by
  obtain ⟨before, hbefore, -⟩ := h.reads
  obtain ⟨later, hlater, hreads⟩ := h'.reads
  have hlast : later = before ++ [(.get key, r)] := by
    rw [hr, hbefore, List.append_assoc] at hlater
    exact (List.append_cancel_left hlater).symm
  exact hreads r (hlast ▸ List.mem_append_right _ (List.mem_singleton.mpr rfl))

/-- After a success only the value that the call left is possible. -/
theorem confined_of_done (h : Genuine f a) (hstep : Stepped f act s)
    (hdone : s.results = f.results ++ [(c, .done)]) (hQ : Q c.leaves) :
    Confined c.key Q s s (f.effect a act) := by
  have hpc : f.pc = .closingDir c true := by
    rcases results_of_stepped h.holds hstep with hsame | ⟨c', r, hnew, hreturns⟩
    · simp [hsame] at hdone
    · obtain ⟨rfl, rfl⟩ : c' = c ∧ r = .done := by simpa [hnew] using hdone
      exact hreturns.2 rfl
  have hidle : s.pc = .idle := idle_of_results hstep (by simp [hdone])
  have hholds := h.holds
  simp only [Holds, hpc] at hholds
  obtain ⟨-, -, hcur, hmay⟩ := hholds
  exact
    { holds := h.holds.step hstep
      valid := (h.begun c (by rw [hpc]; rfl)).2
      only := by
        intro y hy
        rcases possible_effect hy with (hy | hy) | ⟨value, tmp, hpc', -⟩ | ⟨hpc', -⟩
        · exact hy ▸ hcur ▸ hQ
        · rw [hmay] at hy
          exact List.mem_singleton.mp hy ▸ hQ
        · cases hpc.symm.trans hpc'
        · cases hpc.symm.trans hpc'
      leaves := by
        intro c' hc'
        rw [hidle] at hc'
        cases hc'
      reads := by
        refine ⟨[], (List.append_nil _).symm, ?_⟩
        intro r hr
        cases hr }

theorem leaves_of_spares (h : Spares key f act) (c : Call) (hact : act = .call c) :
    Allowed key Q c := by
  subst hact
  intro hkey hwrites
  rcases h with rfl | hne
  · exact hwrites.elim
  · exact absurd hkey hne

end File

end Comlink.Stable
