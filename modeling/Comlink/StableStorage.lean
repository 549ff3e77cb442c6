import Mathlib.Data.List.AList
import Mathlib.Data.List.Infix
import Comlink.CrashDisk
import Comlink.GuardedRuns

/-!
# Stable storage

`stable.File` keeps one file for every key. `Put` and `Delete` are modelled system call by
system call: each of them can fail, and the process can be killed or the machine can lose
power between any two of them. The mutex of the storage admits one call at a time, so that
the calls do not interleave. `stable.Memory` is the same interface over a map.
-/
namespace Comlink.Stable

open GuardedRuns CrashDisk

abbrev Key := String

abbrev Bytes := List UInt8

def keyChar (c : Char) : Bool :=
  c.isAlphanum || c == '_' || c == '.' || c == '-'

/-- The pattern `^[A-Za-z0-9_.-]{1,255}$`. -/
def validKey (key : Key) : Bool :=
  1 ≤ key.toList.length && key.toList.length ≤ 255 && key.toList.all keyChar

inductive Call where
  | get (key : Key)
  | put (key : Key) (value : Bytes)
  | delete (key : Key)
  deriving DecidableEq, Repr

def Call.key : Call → Key
  | .get key | .put key _ | .delete key => key

inductive Outcome where
  | value (bs : Bytes)
  | done
  | errInvalidKey
  | errClosed
  | errNotFound
  | errSystem
  deriving DecidableEq, Repr

/-! ### Storage in memory -/

structure Memory where
  data : AList fun _ : Key => Bytes
  closed : Bool

namespace Memory

def new : Memory := ⟨∅, false⟩

def call (m : Memory) (c : Call) : Memory × Outcome :=
  if !validKey c.key then (m, .errInvalidKey)
  else if m.closed then (m, .errClosed)
  else
    match c with
    | .get key =>
      match m.data.lookup key with
      | none => (m, .errNotFound)
      | some v => (m, .value v)
    | .put key value => ({ m with data := m.data.insert key value }, .done)
    | .delete key =>
      match m.data.lookup key with
      | none => (m, .errNotFound)
      | some _ => ({ m with data := m.data.erase key }, .done)

def close (_ : Memory) : Memory := ⟨∅, true⟩

end Memory

/-! ### Storage in files -/

/-- The system call that a call of the storage makes next. -/
inductive Pc where
  | idle
  | reading (key : Key)
  | creating (key : Key) (value : Bytes)
  | writing (key : Key) (value : Bytes) (tmp : String)
  | syncing (key : Key) (value : Bytes) (tmp : String)
  | closing (key : Key) (value : Bytes) (tmp : String)
  | replacing (key : Key) (value : Bytes) (tmp : String)
  | cleaning (key : Key) (value : Bytes) (tmp : String)
  | removing (key : Key)
  | openingDir (c : Call)
  | syncingDir (c : Call)
  | closingDir (c : Call) (synced : Bool)
  deriving DecidableEq, Repr

structure File where
  disk : Disk String UInt8
  closed : Bool
  pc : Pc
  /-- The calls that were begun. -/
  calls : List Call
  /-- The calls that returned, and what they returned. -/
  results : List (Call × Outcome)

inductive Action where
  | call (c : Call)
  /-- The name that `os.CreateTemp` found free, or its error. -/
  | createTemp (suffix : Option ℕ)
  /-- How much was written before the error, if there was one. -/
  | write (failedAt : Option ℕ)
  | system (ok : Bool)
  | close
  | kill
  | crash (c : Crash String UInt8)

namespace File

def new : File := ⟨.empty, false, .idle, [], []⟩

def tempName (key : Key) (suffix : ℕ) : String := key ++ ".tmp-" ++ toString suffix

def ret (f : File) (c : Call) (r : Outcome) : File :=
  { f with pc := .idle, results := f.results ++ [(c, r)] }

def goto (f : File) (pc : Pc) : File := { f with pc := pc }

def enter (f : File) (c : Call) : File := { f with calls := f.calls ++ [c] }

def begin (f : File) (c : Call) : File :=
  if !validKey c.key then (f.enter c).ret c .errInvalidKey
  else if f.closed then (f.enter c).ret c .errClosed
  else
    match c with
    | .get key => (f.enter c).goto (.reading key)
    | .put key value => (f.enter c).goto (.creating key value)
    | .delete key => (f.enter c).goto (.removing key)

def system (f : File) (ok : Bool) : Option File :=
  match f.pc with
  | .idle | .creating .. | .writing .. => none
  | .reading key =>
    if ok then
      match f.disk.read key with
      | none => some (f.ret (.get key) .errNotFound)
      | some v => some (f.ret (.get key) (.value v))
    else some (f.ret (.get key) .errSystem)
  | .syncing key value tmp =>
    if ok then some ({ f with disk := f.disk.fsync tmp }.goto (.closing key value tmp))
    else some (f.goto (.cleaning key value tmp))
  | .closing key value tmp =>
    if ok then some (f.goto (.replacing key value tmp))
    else some (f.goto (.cleaning key value tmp))
  | .replacing key value tmp =>
    if ok then
      some ({ f with disk := f.disk.rename tmp key }.goto (.openingDir (.put key value)))
    else some (f.goto (.cleaning key value tmp))
  | .cleaning key value tmp =>
    -- the error of `os.Remove` is dropped
    let disk := if ok then f.disk.unlink tmp else f.disk
    some ({ f with disk := disk }.ret (.put key value) .errSystem)
  | .removing key =>
    if ok then
      if f.disk.entries key = none then some (f.ret (.delete key) .errNotFound)
      else some ({ f with disk := f.disk.unlink key }.goto (.openingDir (.delete key)))
    else some (f.ret (.delete key) .errSystem)
  | .openingDir c => if ok then some (f.goto (.syncingDir c)) else some (f.ret c .errSystem)
  | .syncingDir c =>
    if ok then some ({ f with disk := f.disk.fsyncDir }.goto (.closingDir c true))
    else some (f.goto (.closingDir c false))
  | .closingDir c synced => some (f.ret c (if synced && ok then .done else .errSystem))

/-- One step. The keys `.` and `..` are valid, but as names of files they are the directory
itself and its parent; calls with them are left out. -/
def step (f : File) : Action → Option File
  | .call c =>
    if f.pc = .idle ∧ c.key ≠ "." ∧ c.key ≠ ".." then some (f.begin c) else none
  | .createTemp suffix =>
    match f.pc, suffix with
    | .creating key value, none => some (f.ret (.put key value) .errSystem)
    | .creating key value, some n =>
      let tmp := tempName key n
      if f.disk.entries tmp = none then
        some ({ f with disk := f.disk.create tmp }.goto (.writing key value tmp))
      else none
    | _, _ => none
  | .write failedAt =>
    match f.pc, failedAt with
    | .writing key value tmp, none =>
      some ({ f with disk := f.disk.write tmp value }.goto (.syncing key value tmp))
    | .writing key value tmp, some n =>
      some ({ f with disk := f.disk.write tmp (value.take n) }.goto (.cleaning key value tmp))
    | _, _ => none
  | .system ok => f.system ok
  | .close => if f.pc = .idle then some { f with closed := true } else none
  -- `NewFile` opens the directory again
  | .kill => some { f with pc := .idle, closed := false }
  | .crash c => some { f with disk := f.disk.crash c, pc := .idle, closed := false }

end File

/-! ### The map that the files hold -/

/-- The value that a call leaves under its key. -/
def Call.leaves : Call → Option Bytes
  | .put _ value => some value
  | .get _ | .delete _ => none

def Call.Writes : Call → Prop
  | .get _ => False
  | .put _ _ | .delete _ => True

/-- Keys that cannot be taken for a temporary file. -/
def Plain (key : Key) : Prop := ¬ ".tmp-".toList <:+: key.toList

instance decidablePlain (key : Key) : Decidable (Plain key) :=
  inferInstanceAs (Decidable (¬ ".tmp-".toList <:+: key.toList))

theorem not_plain_tempName (key : Key) (n : ℕ) : ¬ Plain (File.tempName key n) := by
  intro h
  apply h
  simp only [File.tempName, String.toList_append]
  exact List.infix_append _ _ _

abbrev Values := DurableMap Key UInt8

namespace File

/-- How an action changes the map. -/
def effect (f : File) (a : Values) : Action → Values
  | .system true =>
    match f.pc with
    | .replacing key value _ => a.set key (some value)
    | .removing key => if f.disk.entries key = none then a else a.set key none
    | .syncingDir _ => a.sync
    | _ => a
  | .crash c => a.crash c.entry
  | _ => a

/-- The files hold the map, and what the call in progress has achieved so far. -/
def Holds (f : File) (a : Values) : Prop :=
  match f.pc with
  | .writing _ _ tmp => Staged Plain f.disk a tmp ⟨[], false⟩
  | .syncing _ value tmp => Staged Plain f.disk a tmp ⟨value, false⟩
  | .closing _ value tmp | .replacing _ value tmp => Staged Plain f.disk a tmp ⟨value, true⟩
  | .cleaning _ _ tmp => Stores Plain f.disk a ∧ ¬ Plain tmp
  | .openingDir c | .syncingDir c | .closingDir c false =>
    Stores Plain f.disk a ∧ c.Writes ∧ a.cur c.key = c.leaves
  | .closingDir c true =>
    Stores Plain f.disk a ∧ c.Writes ∧ a.cur c.key = c.leaves ∧ a.may c.key = [c.leaves]
  | .idle | .reading _ | .creating _ _ | .removing _ => Stores Plain f.disk a

variable {f f' : File} {a : Values} {act : Action}

theorem holds_new : Holds new .empty := stores_empty Plain

theorem Holds.stores (h : Holds f a) : Stores Plain f.disk a := by
  unfold Holds at h
  split at h
  case h_1 | h_2 | h_3 | h_4 => exact h.stores
  all_goals first | exact h | exact h.1

end File

/-- The steps of a storage, one for each way in which a system call can end. -/
inductive Stepped (f : File) : Action → File → Prop
  | refused {c : Call} {r : Outcome} (hpc : f.pc = .idle)
      (hr : r = .errInvalidKey ∧ validKey c.key = false ∨
        r = .errClosed ∧ validKey c.key = true ∧ f.closed = true) :
      Stepped f (.call c) ((f.enter c).ret c r)
  | get {key : Key} (hpc : f.pc = .idle) (hvalid : validKey key = true)
      (hopen : f.closed = false) :
      Stepped f (.call (.get key)) ((f.enter (.get key)).goto (.reading key))
  | put {key : Key} {value : Bytes} (hpc : f.pc = .idle) (hvalid : validKey key = true)
      (hopen : f.closed = false) :
      Stepped f (.call (.put key value))
        ((f.enter (.put key value)).goto (.creating key value))
  | delete {key : Key} (hpc : f.pc = .idle) (hvalid : validKey key = true)
      (hopen : f.closed = false) :
      Stepped f (.call (.delete key))
        ((f.enter (.delete key)).goto (.removing key))
  | readMissing {key : Key} (hpc : f.pc = .reading key) (hread : f.disk.read key = none) :
      Stepped f (.system true) (f.ret (.get key) .errNotFound)
  | readValue {key : Key} {v : Bytes} (hpc : f.pc = .reading key)
      (hread : f.disk.read key = some v) :
      Stepped f (.system true) (f.ret (.get key) (.value v))
  | readFailed {key : Key} (hpc : f.pc = .reading key) :
      Stepped f (.system false) (f.ret (.get key) .errSystem)
  | createFailed {key : Key} {value : Bytes} (hpc : f.pc = .creating key value) :
      Stepped f (.createTemp none) (f.ret (.put key value) .errSystem)
  | created {key : Key} {value : Bytes} {n : ℕ} (hpc : f.pc = .creating key value) :
      Stepped f (.createTemp (some n))
        ({ f with disk := f.disk.create (File.tempName key n) }.goto
          (.writing key value (File.tempName key n)))
  | wrote {key : Key} {value : Bytes} {tmp : String} (hpc : f.pc = .writing key value tmp) :
      Stepped f (.write none)
        ({ f with disk := f.disk.write tmp value }.goto (.syncing key value tmp))
  | writeFailed {key : Key} {value : Bytes} {tmp : String} {n : ℕ}
      (hpc : f.pc = .writing key value tmp) :
      Stepped f (.write (some n))
        ({ f with disk := f.disk.write tmp (value.take n) }.goto (.cleaning key value tmp))
  | synced {key : Key} {value : Bytes} {tmp : String} (hpc : f.pc = .syncing key value tmp) :
      Stepped f (.system true)
        ({ f with disk := f.disk.fsync tmp }.goto (.closing key value tmp))
  | closed {key : Key} {value : Bytes} {tmp : String} (hpc : f.pc = .closing key value tmp) :
      Stepped f (.system true) (f.goto (.replacing key value tmp))
  | renamed {key : Key} {value : Bytes} {tmp : String} (hpc : f.pc = .replacing key value tmp) :
      Stepped f (.system true)
        ({ f with disk := f.disk.rename tmp key }.goto (.openingDir (.put key value)))
  | abandoned {key : Key} {value : Bytes} {tmp : String}
      (hpc : f.pc = .syncing key value tmp ∨ f.pc = .closing key value tmp ∨
        f.pc = .replacing key value tmp) :
      Stepped f (.system false) (f.goto (.cleaning key value tmp))
  | cleaned {key : Key} {value : Bytes} {tmp : String} {ok : Bool}
      (hpc : f.pc = .cleaning key value tmp) :
      Stepped f (.system ok)
        ({ f with disk := if ok then f.disk.unlink tmp else f.disk }.ret
          (.put key value) .errSystem)
  | removeMissing {key : Key} (hpc : f.pc = .removing key) (hentry : f.disk.entries key = none) :
      Stepped f (.system true) (f.ret (.delete key) .errNotFound)
  | removed {key : Key} (hpc : f.pc = .removing key) (hentry : f.disk.entries key ≠ none) :
      Stepped f (.system true)
        ({ f with disk := f.disk.unlink key }.goto (.openingDir (.delete key)))
  | removeFailed {key : Key} (hpc : f.pc = .removing key) :
      Stepped f (.system false) (f.ret (.delete key) .errSystem)
  | dirOpened {c : Call} (hpc : f.pc = .openingDir c) :
      Stepped f (.system true) (f.goto (.syncingDir c))
  | dirOpenFailed {c : Call} (hpc : f.pc = .openingDir c) :
      Stepped f (.system false) (f.ret c .errSystem)
  | dirSynced {c : Call} (hpc : f.pc = .syncingDir c) :
      Stepped f (.system true) ({ f with disk := f.disk.fsyncDir }.goto (.closingDir c true))
  | dirSyncFailed {c : Call} (hpc : f.pc = .syncingDir c) :
      Stepped f (.system false) (f.goto (.closingDir c false))
  | dirClosed {c : Call} {ok synced : Bool} (hpc : f.pc = .closingDir c synced) :
      Stepped f (.system ok) (f.ret c (if synced && ok then .done else .errSystem))
  | close (hpc : f.pc = .idle) : Stepped f .close { f with closed := true }
  | kill : Stepped f .kill { f with pc := .idle, closed := false }
  | crash (c : Crash String UInt8) :
      Stepped f (.crash c) { f with disk := f.disk.crash c, pc := .idle, closed := false }

namespace File

variable {f f' : File} {a : Values} {act : Action}

theorem stepped_begin (c : Call) (hpc : f.pc = .idle) : Stepped f (.call c) (f.begin c) := by
  unfold File.begin
  by_cases hvalid : validKey c.key = true
  · by_cases hclosed : f.closed = true
    · rw [if_neg (by simp [hvalid]), if_pos hclosed]
      exact .refused hpc (.inr ⟨rfl, hvalid, hclosed⟩)
    · have hopen : f.closed = false := by simpa using hclosed
      cases c with
      | get key => simpa [hvalid, hopen] using .get hpc hvalid hopen
      | put key value => simpa [hvalid, hopen] using .put hpc hvalid hopen
      | delete key => simpa [hvalid, hopen] using .delete hpc hvalid hopen
  · have hinvalid : validKey c.key = false := by simpa using hvalid
    simpa [hinvalid] using .refused hpc (.inl ⟨rfl, hinvalid⟩)

theorem stepped_system {ok : Bool} (h : f.system ok = some f') :
    Stepped f (.system ok) f' := by
  cases hpc : f.pc with
  | idle | creating | writing => simp [File.system, hpc] at h
  | reading key =>
    cases ok with
    | false =>
      obtain rfl : _ = f' := by simpa [File.system, hpc] using h
      exact .readFailed hpc
    | true =>
      cases hread : f.disk.read key with
      | none =>
        obtain rfl : _ = f' := by simpa [File.system, hpc, hread] using h
        exact .readMissing hpc hread
      | some v =>
        obtain rfl : _ = f' := by simpa [File.system, hpc, hread] using h
        exact .readValue hpc hread
  | removing key =>
    cases ok with
    | false =>
      obtain rfl : _ = f' := by simpa [File.system, hpc] using h
      exact .removeFailed hpc
    | true =>
      by_cases hentry : f.disk.entries key = none
      · obtain rfl : _ = f' := by simpa [File.system, hpc, hentry] using h
        exact .removeMissing hpc hentry
      · obtain rfl : _ = f' := by simpa [File.system, hpc, hentry] using h
        exact .removed hpc hentry
  | syncing key value tmp =>
    cases ok
    all_goals obtain rfl : _ = f' := by simpa [File.system, hpc] using h
    · exact .abandoned (.inl hpc)
    · exact .synced hpc
  | closing key value tmp =>
    cases ok
    all_goals obtain rfl : _ = f' := by simpa [File.system, hpc] using h
    · exact .abandoned (.inr (.inl hpc))
    · exact .closed hpc
  | replacing key value tmp =>
    cases ok
    all_goals obtain rfl : _ = f' := by simpa [File.system, hpc] using h
    · exact .abandoned (.inr (.inr hpc))
    · exact .renamed hpc
  | cleaning key value tmp =>
    simp only [File.system, hpc, Option.some.injEq] at h
    exact h ▸ .cleaned hpc
  | openingDir c =>
    cases ok
    all_goals obtain rfl : _ = f' := by simpa [File.system, hpc] using h
    · exact .dirOpenFailed hpc
    · exact .dirOpened hpc
  | syncingDir c =>
    cases ok
    all_goals obtain rfl : _ = f' := by simpa [File.system, hpc] using h
    · exact .dirSyncFailed hpc
    · exact .dirSynced hpc
  | closingDir c synced =>
    simp only [File.system, hpc, Option.some.injEq] at h
    exact h ▸ .dirClosed hpc

theorem stepped_of_step (h : f.step act = some f') : Stepped f act f' := by
  cases act with
  | call c =>
    simp only [File.step, Option.ite_none_right_eq_some, Option.some.injEq] at h
    obtain ⟨⟨hpc, -⟩, rfl⟩ := h
    exact stepped_begin c hpc
  | createTemp suffix =>
    cases hpc : f.pc <;> cases suffix <;> simp [File.step, hpc] at h
    · exact h ▸ .createFailed hpc
    · exact h.2 ▸ .created hpc
  | write failedAt =>
    cases hpc : f.pc <;> cases failedAt <;> simp [File.step, hpc] at h
    · exact h ▸ .wrote hpc
    · exact h ▸ .writeFailed hpc
  | system ok => exact stepped_system h
  | close =>
    simp only [File.step, Option.ite_none_right_eq_some, Option.some.injEq] at h
    exact h.2 ▸ .close h.1
  | kill =>
    simp only [File.step, Option.some.injEq] at h
    exact h ▸ .kill
  | crash c =>
    simp only [File.step, Option.some.injEq] at h
    exact h ▸ .crash c

/-- Every step of the storage is a step of the map. -/
theorem Holds.step (h : Holds f a) (hstep : Stepped f act f') : Holds f' (f.effect a act) := by
  have hstores := h.stores
  cases hstep with
  | refused | get | put | delete | readFailed | createFailed | removeFailed | dirOpenFailed |
    kill => exact hstores
  | close hpc =>
    simp only [Holds, hpc]
    exact hstores
  | readMissing hpc | readValue hpc =>
    simp only [effect, hpc]
    exact hstores
  | created hpc => exact hstores.create (not_plain_tempName _ _)
  | wrote hpc =>
    simp only [Holds, hpc] at h
    exact h.write _
  | writeFailed hpc =>
    simp only [Holds, hpc] at h
    exact ⟨(h.write _).stores, h.temporary⟩
  | synced hpc =>
    simp only [Holds, hpc] at h
    simp only [effect, hpc]
    exact h.fsync
  | closed hpc =>
    simp only [Holds, hpc] at h
    simp only [effect, hpc]
    exact h
  | renamed hpc =>
    simp only [Holds, hpc] at h
    simp only [effect, hpc]
    refine ⟨h.rename rfl, trivial, ?_⟩
    simp [DurableMap.set, Call.key, Call.leaves]
  | abandoned hpc =>
    refine ⟨hstores, ?_⟩
    rcases hpc with hpc | hpc | hpc <;> simp only [Holds, hpc] at h <;> exact h.temporary
  | @cleaned _ _ _ ok hpc =>
    simp only [Holds, hpc] at h
    cases ok with
    | false => exact hstores
    | true =>
      simp only [effect, hpc]
      exact hstores.unlink_temp h.2
  | removeMissing hpc hentry =>
    simp only [effect, hpc, hentry]
    exact hstores
  | removed hpc hentry =>
    simp only [effect, hpc, hentry, if_false]
    refine ⟨hstores.unlink _, trivial, ?_⟩
    simp [DurableMap.set, Call.key, Call.leaves]
  | dirOpened hpc =>
    simp only [Holds, hpc] at h
    simp only [effect, hpc]
    exact h
  | dirSynced hpc =>
    simp only [Holds, hpc] at h
    simp only [effect, hpc]
    refine ⟨hstores.fsyncDir, h.2.1, h.2.2, ?_⟩
    simp only [DurableMap.sync, h.2.2]
  | dirSyncFailed hpc =>
    simp only [Holds, hpc] at h
    exact h
  | @dirClosed _ ok _ hpc =>
    cases ok with
    | false => exact hstores
    | true =>
      simp only [effect, hpc]
      exact hstores
  | crash c => exact hstores.crash c

/-- A value becomes possible for a key only through a rename or a removal under that key. -/
theorem possible_effect {key : Key} {x : Option Bytes}
    (h : (f.effect a act).Possible key x) :
    a.Possible key x ∨ (∃ value tmp, f.pc = .replacing key value tmp ∧ x = some value) ∨
      f.pc = .removing key ∧ x = none := by
  unfold effect at h
  split at h
  · split at h
    case h_1 key' value tmp hpc =>
      rcases h.of_set with hold | ⟨rfl, hx⟩
      · exact .inl hold
      · exact .inr (.inl ⟨value, tmp, hpc, hx⟩)
    case h_2 key' hpc =>
      split_ifs at h
      · exact .inl h
      · rcases h.of_set with hold | ⟨rfl, hx⟩
        · exact .inl hold
        · exact .inr (.inr ⟨hpc, hx⟩)
    case h_3 => exact .inl h.of_sync
    case h_4 => exact .inl h
  · exact .inl h.of_crash
  · exact .inl h

end File

/-! ### What calls return -/

/-- The call in progress. -/
def Pc.call : Pc → Option Call
  | .idle => none
  | .reading key => some (.get key)
  | .creating key value | .writing key value _ | .syncing key value _ | .closing key value _ |
    .replacing key value _ | .cleaning key value _ => some (.put key value)
  | .removing key => some (.delete key)
  | .openingDir c | .syncingDir c | .closingDir c _ => some c

def answer : Option Bytes → Outcome
  | none => .errNotFound
  | some v => .value v

namespace File

variable {f f' : File} {a : Values} {act : Action} {c : Call}

theorem calls_subset (h : Stepped f act f') : f.calls ⊆ f'.calls := by
  cases h
  case refused | get | put | delete => exact List.subset_append_left _ _
  all_goals exact List.Subset.refl _

theorem call_of_stepped (h : Stepped f act f') (hc : f'.pc.call = some c) :
    f.pc.call = some c ∨ act = .call c ∧ c ∈ f'.calls ∧ validKey c.key = true := by
  cases h
  case get hpc hvalid hopen | put hpc hvalid hopen | delete hpc hvalid hopen =>
    obtain rfl : _ = c := by simpa [goto, Pc.call] using hc
    exact .inr ⟨rfl, List.mem_append_right _ (List.mem_singleton.mpr rfl), hvalid⟩
  case abandoned hpc =>
    left
    rcases hpc with hpc | hpc | hpc <;> rw [hpc] <;> exact hc
  case close hpc => exact .inl hc
  case refused | kill | crash => cases hc
  case readMissing | readValue | readFailed | createFailed | cleaned | removeMissing |
    removeFailed | dirOpenFailed | dirClosed => cases hc
  case removed hpc hentry => exact .inl (by rw [hpc]; exact hc)
  all_goals
    rename_i hpc
    exact .inl (by rw [hpc]; exact hc)

/-- What the next result can be: a `Get` reads the file, and a success is only reported after
the directory was synced. -/
def Returns (f : File) (c : Call) (r : Outcome) : Prop :=
  (∀ key, c = .get key → r = answer (f.disk.read key) ∨ r = .errSystem ∨ r = .errClosed ∨
    r = .errInvalidKey ∧ validKey key = false) ∧
  (r = .done → f.pc = .closingDir c true)

theorem results_of_stepped (hf : Holds f a) (h : Stepped f act f') :
    f'.results = f.results ∨
      ∃ c r, f'.results = f.results ++ [(c, r)] ∧ f.Returns c r := by
  cases h
  case refused c r hpc hr =>
    refine .inr ⟨c, r, rfl, ?_, ?_⟩
    · rintro key rfl
      rcases hr with ⟨hr, hkey⟩ | ⟨hr, -⟩
      · exact .inr (.inr (.inr ⟨hr, hkey⟩))
      · exact .inr (.inr (.inl hr))
    · rintro rfl
      simp at hr
  case readMissing key hpc hread =>
    refine .inr ⟨_, _, rfl, ?_, nofun⟩
    rintro _ ⟨⟩
    exact .inl (by rw [hread]; rfl)
  case readValue key v hpc hread =>
    refine .inr ⟨_, _, rfl, ?_, nofun⟩
    rintro _ ⟨⟩
    exact .inl (by rw [hread]; rfl)
  case dirClosed c ok synced hpc =>
    refine .inr ⟨_, _, rfl, ?_, ?_⟩
    · rintro key rfl
      simp only [Holds, hpc] at hf
      cases synced
      · exact absurd hf.2.1 id
      · exact absurd hf.2.1 id
    · intro hdone
      have hsynced : synced = true := by
        by_contra hne
        simp [hne] at hdone
      rw [hpc, hsynced]
  case readFailed | createFailed | cleaned | removeFailed | dirOpenFailed =>
    exact .inr ⟨_, _, rfl, fun _ _ => .inr (.inl rfl), nofun⟩
  case removeMissing => exact .inr ⟨_, _, rfl, nofun, nofun⟩
  all_goals exact .inl rfl

theorem idle_of_results (h : Stepped f act f') (hnew : f'.results ≠ f.results) :
    f'.pc = .idle := by
  cases h
  case refused | readMissing | readValue | readFailed | createFailed | cleaned | removeMissing |
    removeFailed | dirOpenFailed | dirClosed => rfl
  case kill | crash => rfl
  all_goals exact absurd rfl hnew

/-- A call goes on until it returns. -/
theorem call_or_returned {c : Call} (h : Stepped f act f')
    (hc : f.pc.call = some c ∨ act = .call c) (hkill : act ≠ .kill)
    (hcrash : ∀ crash, act ≠ .crash crash) :
    f'.pc.call = some c ∨ f'.pc = .idle ∧ ∃ r, f'.results = f.results ++ [(c, r)] := by
  cases h
  case kill => exact absurd rfl hkill
  case crash c => exact absurd rfl (hcrash c)
  case refused hpc hr =>
    rcases hc with hc | hc
    · simp [hpc, Pc.call] at hc
    · cases hc
      exact .inr ⟨rfl, _, rfl⟩
  case get hpc hvalid hopen | put hpc hvalid hopen | delete hpc hvalid hopen =>
    rcases hc with hc | hc
    · simp [hpc, Pc.call] at hc
    · cases hc
      exact .inl rfl
  case close hpc =>
    rcases hc with hc | hc
    · simp [hpc, Pc.call] at hc
    · cases hc
  case abandoned hpc =>
    rcases hc with hc | hc
    · left
      rcases hpc with hpc | hpc | hpc <;> rw [hpc] at hc <;> exact hc
    · cases hc
  case readMissing hpc hread | readValue hpc hread | removeMissing hpc hread =>
    rcases hc with hc | hc
    · obtain rfl : _ = c := by simpa [hpc, Pc.call] using hc
      exact .inr ⟨rfl, _, rfl⟩
    · cases hc
  case readFailed hpc | createFailed hpc | cleaned hpc | removeFailed hpc | dirOpenFailed hpc |
    dirClosed hpc =>
    rcases hc with hc | hc
    · obtain rfl : _ = c := by simpa [hpc, Pc.call] using hc
      exact .inr ⟨rfl, _, rfl⟩
    · cases hc
  case removed hpc hentry =>
    rcases hc with hc | hc
    · left
      rw [hpc] at hc
      exact hc
    · cases hc
  all_goals
    rename_i hpc
    rcases hc with hc | hc
    · left
      rw [hpc] at hc
      exact hc
    · cases hc

theorem call_eq_none {f : File} : f.pc.call = none ↔ f.pc = .idle := by
  cases f.pc <;> simp [Pc.call]

end File

end Comlink.Stable
