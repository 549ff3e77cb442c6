import Comlink.StableStorage

/-!
# Stable storage in files and in memory

`stable.Memory` stands in for `stable.File` in tests. Where no system call fails, a storage in
files returns for every sequence of calls what a storage in memory returns.
-/
namespace Comlink.Stable

open GuardedRuns CrashDisk

inductive MemoryRequest where
  | call (c : Call)
  | close

/-- A storage in memory and what its calls returned. -/
structure MemoryRun where
  store : Memory
  results : List (Call × Outcome)

namespace MemoryRun

def new : MemoryRun := ⟨.new, []⟩

def step (m : MemoryRun) : MemoryRequest → Option MemoryRun
  | .call c => some ⟨(m.store.call c).1, m.results ++ [(c, (m.store.call c).2)]⟩
  | .close => some ⟨m.store.close, m.results⟩

end MemoryRun

namespace Memory

variable {m : Memory} {key : Key}

theorem call_refused {c : Call} {r : Outcome}
    (hr : r = .errInvalidKey ∧ validKey c.key = false ∨
      r = .errClosed ∧ validKey c.key = true ∧ m.closed = true) : m.call c = (m, r) := by
  rcases hr with ⟨rfl, hvalid⟩ | ⟨rfl, hvalid, hclosed⟩
  · simp [call, hvalid]
  · simp [call, hvalid, hclosed]

theorem call_get (hvalid : validKey key = true) (hopen : m.closed = false) :
    m.call (.get key) = (m, answer (m.data.lookup key)) := by
  cases hlookup : m.data.lookup key <;> simp [call, Call.key, hvalid, hopen, hlookup, answer]

theorem call_put (hvalid : validKey key = true) (hopen : m.closed = false) (value : Bytes) :
    m.call (.put key value) = ({ m with data := m.data.insert key value }, .done) := by
  simp [call, Call.key, hvalid, hopen]

theorem call_delete_missing (hvalid : validKey key = true) (hopen : m.closed = false)
    (hlookup : m.data.lookup key = none) : m.call (.delete key) = (m, .errNotFound) := by
  simp [call, Call.key, hvalid, hopen, hlookup]

theorem call_delete (hvalid : validKey key = true) (hopen : m.closed = false)
    (hlookup : m.data.lookup key ≠ none) :
    m.call (.delete key) = ({ m with data := m.data.erase key }, .done) := by
  obtain ⟨v, hv⟩ := Option.ne_none_iff_exists'.mp hlookup
  simp [call, Call.key, hvalid, hopen, hv]

end Memory

namespace File

variable {f f' : File} {a : Values} {act : Action} {m : MemoryRun}

/-- No system call fails, nothing is killed, and keys are plain. -/
def Smooth (_ : File) : Action → Prop
  | .call c => Plain c.key
  | .createTemp suffix => suffix ≠ none
  | .write failedAt => failedAt = none
  | .system ok => ok = true
  | .close => True
  | .kill | .crash _ => False

instance decidableSmooth (f : File) (act : Action) : Decidable (Smooth f act) := by
  unfold Smooth
  split <;> infer_instance

/-- The memory holds the map, apart from the effect of a call that has not returned yet. -/
def Agrees (pc : Pc) (a : Values) (m : Memory) : Prop :=
  match pc with
  | .cleaning .. | .closingDir _ false => False
  | .openingDir c | .syncingDir c | .closingDir c true =>
    (m.call c).2 = .done ∧ (m.call c).1.closed = false ∧
      ∀ key, Plain key → (m.call c).1.data.lookup key = a.cur key
  | _ => m.closed = false → ∀ key, Plain key → m.data.lookup key = a.cur key

structure Mirrors (f : File) (a : Values) (m : MemoryRun) : Prop where
  holds : Holds f a
  closed : m.store.closed = f.closed
  results : m.results = f.results
  begun : ∀ c, f.pc.call = some c → Plain c.key ∧ validKey c.key = true ∧ f.closed = false
  agrees : Agrees f.pc a m.store

theorem mirrors_new : Mirrors new .empty .new where
  holds := holds_new
  closed := rfl
  results := rfl
  begun _ h := by cases h
  agrees _ _ _ := rfl

theorem closed_of_stepped (h : Stepped f act f') (hbusy : f'.pc.call ≠ none) :
    f'.closed = f.closed := by
  cases h
  case close hpc => simp [hpc, Pc.call] at hbusy
  case kill | crash => exact absurd rfl hbusy
  all_goals rfl

theorem Mirrors.begun_step (h : Mirrors f a m) (hsmooth : Smooth f act)
    (hstep : Stepped f act f') (c : Call) (hc : f'.pc.call = some c) :
    Plain c.key ∧ validKey c.key = true ∧ f'.closed = false := by
  rw [closed_of_stepped hstep (by simp [hc])]
  rcases call_of_stepped hstep hc with hold | ⟨rfl, -, hvalid⟩
  · exact h.begun c hold
  · refine ⟨hsmooth, hvalid, ?_⟩
    cases hstep
    case refused => cases hc
    all_goals assumption

/-- A step on which no call returns. -/
theorem Mirrors.silent (h : Mirrors f a m) (hsmooth : Smooth f act) (hstep : Stepped f act f')
    (hclosed : f'.closed = f.closed) (hresults : f'.results = f.results)
    (hagrees : Agrees f'.pc (f.effect a act) m.store) :
    ∃ m', (m' = m ∨ ∃ request, m.step request = some m') ∧ Mirrors f' (f.effect a act) m' :=
  ⟨m, .inl rfl, h.holds.step hstep, h.closed.trans hclosed.symm, h.results.trans hresults.symm,
    h.begun_step hsmooth hstep, hagrees⟩

/-- A step on which a call returns what it returns in memory. -/
theorem Mirrors.returned (h : Mirrors f a m) (hsmooth : Smooth f act) (hstep : Stepped f act f')
    {c : Call} {r : Outcome} (hresults : f'.results = f.results ++ [(c, r)])
    (hcall : (m.store.call c).2 = r) (hclosed : (m.store.call c).1.closed = f'.closed)
    (hagrees : Agrees f'.pc (f.effect a act) (m.store.call c).1) :
    ∃ m', (m' = m ∨ ∃ request, m.step request = some m') ∧ Mirrors f' (f.effect a act) m' :=
  ⟨_, .inr ⟨.call c, rfl⟩, h.holds.step hstep, hclosed,
    by rw [hresults, ← hcall, ← h.results], h.begun_step hsmooth hstep, hagrees⟩

theorem Mirrors.lookup (h : Mirrors f a m) (key : Key) {c : Call} (hc : f.pc.call = some c)
    (hkey : c.key = key) (hagrees : m.store.closed = false → ∀ key, Plain key →
      m.store.data.lookup key = a.cur key) :
    validKey key = true ∧ m.store.closed = false ∧ Plain key ∧
      m.store.data.lookup key = a.cur key := by
  obtain ⟨hplain, hvalid, hopen⟩ := h.begun c hc
  rw [hkey] at hplain hvalid
  have hopen' := h.closed.trans hopen
  exact ⟨hvalid, hopen', hplain, hagrees hopen' key hplain⟩

theorem Mirrors.read (h : Mirrors f a m) {key : Key} {r : Outcome}
    (hpc : f.pc = .reading key) (hstep : Stepped f (.system true) (f.ret (.get key) r))
    (hr : r = answer (f.disk.read key)) :
    ∃ m', (m' = m ∨ ∃ request, m.step request = some m') ∧
      Mirrors (f.ret (.get key) r) (f.effect a (.system true)) m' := by
  have hagrees := h.agrees
  simp only [Agrees, hpc] at hagrees
  obtain ⟨hvalid, hopen, hplain, hlookup⟩ :=
    h.lookup key (c := .get key) (by rw [hpc]; rfl) rfl hagrees
  have hcall := Memory.call_get hvalid hopen
  have hanswer : r = answer (m.store.data.lookup key) := by
    rw [hr, hlookup, h.holds.stores.current key hplain]
  refine h.returned rfl hstep rfl (by rw [hcall, hanswer]) (by rw [hcall]; exact h.closed) ?_
  rw [hcall]
  simp only [effect, hpc]
  exact hagrees

theorem Mirrors.step (h : Mirrors f a m) (hsmooth : Smooth f act) (hstep : Stepped f act f') :
    ∃ m', (m' = m ∨ ∃ request, m.step request = some m') ∧ Mirrors f' (f.effect a act) m' := by
  have hagrees := h.agrees
  have hstep' := hstep
  cases hstep with
  | refused hpc hr =>
    have hcall := Memory.call_refused (m := m.store) (h.closed ▸ hr)
    simp only [Agrees, hpc] at hagrees
    refine h.returned hsmooth hstep' rfl (by rw [hcall]) (by rw [hcall]; exact h.closed) ?_
    rw [hcall]
    exact hagrees
  | get hpc | put hpc | delete hpc =>
    simp only [Agrees, hpc] at hagrees
    exact h.silent hsmooth hstep' rfl rfl hagrees
  | readMissing hpc hread | readValue hpc hread =>
    exact h.read hpc hstep' (by rw [hread]; rfl)
  | created hpc | wrote hpc =>
    simp only [Agrees, hpc] at hagrees
    exact h.silent hsmooth hstep' rfl rfl hagrees
  | synced hpc | closed hpc =>
    simp only [Agrees, hpc] at hagrees
    refine h.silent hsmooth hstep' rfl rfl ?_
    simp only [effect, hpc]
    exact hagrees
  | @renamed key value tmp hpc =>
    simp only [Agrees, hpc] at hagrees
    obtain ⟨hvalid, hopen, -, -⟩ :=
      h.lookup key (c := .put key value) (by rw [hpc]; rfl) rfl hagrees
    refine h.silent hsmooth hstep' rfl rfl ?_
    simp only [effect, hpc, Agrees, goto, Memory.call_put hvalid hopen value]
    refine ⟨trivial, hopen, ?_⟩
    intro k hk
    by_cases hne : k = key
    · subst hne
      simp [DurableMap.set]
    · simp [DurableMap.set, hne, AList.lookup_insert_ne, hagrees hopen k hk]
  | @removeMissing key hpc hentry =>
    simp only [Agrees, hpc] at hagrees
    obtain ⟨hvalid, hopen, hplain, hlookup⟩ :=
      h.lookup key (c := .delete key) (by rw [hpc]; rfl) rfl hagrees
    rw [(h.holds.stores.entries_eq_none hplain).mp hentry] at hlookup
    have hcall := Memory.call_delete_missing hvalid hopen hlookup
    refine h.returned hsmooth hstep' rfl (by rw [hcall]) (by rw [hcall]; exact h.closed) ?_
    rw [hcall]
    simp only [effect, hpc, hentry]
    exact hagrees
  | @removed key hpc hentry =>
    simp only [Agrees, hpc] at hagrees
    obtain ⟨hvalid, hopen, hplain, hlookup⟩ :=
      h.lookup key (c := .delete key) (by rw [hpc]; rfl) rfl hagrees
    have hsome : m.store.data.lookup key ≠ none := by
      rw [hlookup]
      exact fun hnone => hentry ((h.holds.stores.entries_eq_none hplain).mpr hnone)
    refine h.silent hsmooth hstep' rfl rfl ?_
    simp only [effect, hpc, hentry, if_false, Agrees, goto, Memory.call_delete hvalid hopen hsome]
    refine ⟨trivial, hopen, ?_⟩
    intro k hk
    by_cases hne : k = key
    · subst hne
      simp [DurableMap.set]
    · simp [DurableMap.set, hne, AList.lookup_erase_ne, hagrees hopen k hk]
  | dirOpened hpc | dirSynced hpc =>
    simp only [Agrees, hpc] at hagrees
    refine h.silent hsmooth hstep' rfl rfl ?_
    simp only [effect, hpc]
    exact hagrees
  | @dirClosed c ok synced hpc =>
    have hok : ok = true := hsmooth
    subst hok
    cases synced with
    | false => simp only [Agrees, hpc] at hagrees
    | true =>
      simp only [Agrees, hpc] at hagrees
      obtain ⟨hdone, hopen, hdata⟩ := hagrees
      obtain ⟨-, -, hopen'⟩ := h.begun c (by rw [hpc]; rfl)
      refine h.returned hsmooth hstep' rfl hdone (hopen.trans hopen'.symm) ?_
      simp only [effect, hpc]
      exact fun _ => hdata
  | close hpc =>
    refine ⟨_, .inr ⟨.close, rfl⟩, h.holds.step hstep', rfl, h.results,
      h.begun_step hsmooth hstep', ?_⟩
    simp only [Agrees, hpc]
    intro hopen
    cases hopen
  | createFailed => exact absurd rfl hsmooth
  | writeFailed | readFailed | abandoned | removeFailed | dirOpenFailed | dirSyncFailed =>
    cases hsmooth
  | cleaned hpc =>
    simp only [Agrees, hpc] at hagrees
  | kill | crash => exact hsmooth.elim

/-- As long as nothing fails, the files answer every sequence of calls as the storage in
memory does. -/
theorem file_answers_as_memory {f : File} (hr : Reach step Smooth new f) :
    ∃ m, Reach MemoryRun.step (fun _ _ => True) .new m ∧ m.results = f.results ∧
      m.store.closed = f.closed := by
  have hmirror : ∃ a m, Reach MemoryRun.step (fun _ _ => True) .new m ∧ Mirrors f a m := by
    apply hr.invariant ⟨_, _, .refl, mirrors_new⟩
    rintro s act t ⟨a, m, hm, h⟩ hsmooth hstep
    obtain ⟨m', hm', h'⟩ := h.step hsmooth (stepped_of_step hstep)
    refine ⟨_, m', ?_, h'⟩
    rcases hm' with rfl | ⟨request, hrequest⟩
    · exact hm
    · exact hm.tail ⟨request, trivial, hrequest⟩
  obtain ⟨a, m, hm, h⟩ := hmirror
  exact ⟨m, hm, h.results, h.closed⟩

/-- A key is put twice, removed and read, and the storage is closed. -/
theorem file_answers_as_memory_closed :
    ∃ f m, Reach step Smooth new f ∧ Reach MemoryRun.step (fun _ _ => True) .new m ∧
      m.results = f.results ∧ f.results.map Prod.snd =
        [.done, .done, .value [2], .done, .errNotFound, .errInvalidKey, .errClosed] := by
  have hrun : (execute step Smooth new
      ([.call (.put "mask" [1]), .createTemp (some 7), .write none] ++
        List.replicate 6 (.system true) ++
        [.call (.put "mask" [2]), .createTemp (some 7), .write none] ++
        List.replicate 6 (.system true) ++
        [.call (.get "mask"), .system true, .call (.delete "mask")] ++
        List.replicate 4 (.system true) ++
        [.call (.delete "mask"), .system true, .call (.get "a/b"), .close,
          .call (.get "mask")])).map
      (fun f => decide (f.results.map Prod.snd =
        [.done, .done, .value [2], .done, .errNotFound, .errInvalidKey, .errClosed])) =
      some true := by
    decide +kernel
  obtain ⟨f, -, hr, hf⟩ := reach_of_execute hrun
  obtain ⟨m, hm, hresults, -⟩ := file_answers_as_memory hr
  exact ⟨f, m, hr, hm, hresults, of_decide_eq_true hf⟩

end File

end Comlink.Stable
