import Mathlib.Data.List.Basic
import Mathlib.Logic.Function.Basic

/-!
# Files that are replaced by a rename

A directory of files on a disk that can lose power. What was written to a file is sure to
survive only after the file was synced, and an entry of the directory only after the
directory was: until then a crash may leave any of the entries that the name has had since
the last time, independently of what becomes of other names. A file that was not synced may
hold anything afterwards.

A new version of a file is written under a temporary name, synced, renamed and made durable
by syncing the directory. Seen from the other names this is a map whose entries change in one
step, with a list of the values that a crash may leave for each of them.
-/
namespace Comlink.CrashDisk

universe u v
variable {N : Type u} {β : Type v}

/-! ### Disks -/

structure Inode (β : Type v) where
  content : List β
  synced : Bool
  deriving DecidableEq, Repr

structure Disk (N : Type u) (β : Type v) where
  inodes : List (Inode β)
  entries : N → Option ℕ
  /-- The entries that a crash may leave. -/
  mayHold : N → List (Option ℕ)

namespace Disk

def empty : Disk N β := ⟨[], fun _ => none, fun _ => [none]⟩

def setEntry [DecidableEq N] (d : Disk N β) (n : N) (x : Option ℕ) : Disk N β :=
  { d with
    entries := Function.update d.entries n x
    mayHold := Function.update d.mayHold n (d.mayHold n ++ [x]) }

def create [DecidableEq N] (n : N) (d : Disk N β) : Disk N β :=
  setEntry { d with inodes := d.inodes ++ [⟨[], false⟩] } n (some d.inodes.length)

def modify (n : N) (f : Inode β → Inode β) (d : Disk N β) : Disk N β :=
  match d.entries n with
  | none => d
  | some i => { d with inodes := d.inodes.modify i f }

def write (n : N) (bs : List β) (d : Disk N β) : Disk N β :=
  d.modify n fun x => ⟨x.content ++ bs, false⟩

def fsync (n : N) (d : Disk N β) : Disk N β := d.modify n fun x => ⟨x.content, true⟩

def rename [DecidableEq N] (source target : N) (d : Disk N β) : Disk N β :=
  (d.setEntry target (d.entries source)).setEntry source none

def unlink [DecidableEq N] (n : N) (d : Disk N β) : Disk N β := d.setEntry n none

def fsyncDir (d : Disk N β) : Disk N β := { d with mayHold := fun n => [d.entries n] }

def contentAt (d : Disk N β) (x : Option ℕ) : Option (List β) :=
  x.bind fun i => d.inodes[i]?.map Inode.content

def read (d : Disk N β) (n : N) : Option (List β) := d.contentAt (d.entries n)

end Disk

/-- Which of the possible entries is left for a name, and what files that were not synced
hold. -/
structure Crash (N : Type u) (β : Type v) where
  entry : N → ℕ
  garbage : ℕ → List β

def Disk.crash (d : Disk N β) (c : Crash N β) : Disk N β :=
  let entries n := (d.mayHold n)[c.entry n]?.getD (d.entries n)
  { inodes := d.inodes.mapIdx fun i x => if x.synced then x else ⟨c.garbage i, true⟩
    entries := entries
    mayHold := fun n => [entries n] }

/-! ### Durable maps -/

/-- The value of every name, and those that a crash may leave. -/
structure DurableMap (N : Type u) (β : Type v) where
  cur : N → Option (List β)
  may : N → List (Option (List β))

namespace DurableMap

def empty : DurableMap N β := ⟨fun _ => none, fun _ => [none]⟩

def set [DecidableEq N] (a : DurableMap N β) (n : N) (x : Option (List β)) : DurableMap N β where
  cur := Function.update a.cur n x
  may := Function.update a.may n (a.may n ++ [x])

def sync (a : DurableMap N β) : DurableMap N β := { a with may := fun n => [a.cur n] }

def crash (a : DurableMap N β) (choice : N → ℕ) : DurableMap N β :=
  let cur n := (a.may n)[choice n]?.getD (a.cur n)
  { cur := cur, may := fun n => [cur n] }

/-- A value that the name has or that a crash may leave for it. -/
def Possible (a : DurableMap N β) (n : N) (x : Option (List β)) : Prop :=
  a.cur n = x ∨ x ∈ a.may n

variable {a : DurableMap N β} {n m : N} {x y : Option (List β)}

theorem Possible.of_sync (h : a.sync.Possible n x) : a.Possible n x := by
  rcases h with hcur | hmay
  · exact .inl hcur
  · exact .inl (List.mem_singleton.mp hmay).symm

theorem Possible.of_crash {choice : N → ℕ} (h : (a.crash choice).Possible n x) :
    a.Possible n x := by
  have hx : (a.may n)[choice n]?.getD (a.cur n) = x := by
    rcases h with hcur | hmay
    · exact hcur
    · exact (List.mem_singleton.mp hmay).symm
  cases hc : (a.may n)[choice n]? with
  | none => exact .inl (by simpa [hc] using hx)
  | some z =>
    obtain rfl : z = x := by simpa [hc] using hx
    exact .inr (List.mem_of_getElem? hc)

theorem Possible.of_set [DecidableEq N] (h : (a.set m y).Possible n x) :
    a.Possible n x ∨ n = m ∧ x = y := by
  by_cases hnm : n = m
  · subst hnm
    simp only [Possible, set, Function.update_self, List.mem_append, List.mem_singleton] at h
    rcases h with hcur | hold | hnew
    · exact .inr ⟨rfl, hcur.symm⟩
    · exact .inl (.inr hold)
    · exact .inr ⟨rfl, hnew⟩
  · simp only [Possible, set, Function.update_of_ne hnm] at h
    exact .inl h

end DurableMap

/-! ### The refinement -/

/-- Under the names that are not temporary the disk holds the map, in synced files. -/
structure Stores (plain : N → Prop) (d : Disk N β) (a : DurableMap N β) : Prop where
  current : ∀ n, plain n → d.read n = a.cur n
  possible : ∀ n, plain n → (d.mayHold n).map d.contentAt = a.may n
  held : ∀ n, plain n → d.entries n ∈ d.mayHold n
  synced : ∀ n, plain n → ∀ i, some i ∈ d.mayHold n →
    ∃ node, d.inodes[i]? = some node ∧ node.synced = true

variable {plain : N → Prop} {d d' : Disk N β} {a : DurableMap N β} {t n : N}

theorem stores_empty (plain : N → Prop) : Stores plain (.empty : Disk N β) .empty where
  current _ _ := rfl
  possible _ _ := rfl
  held _ _ := List.mem_singleton.mpr rfl
  synced n _ i h := by simp [Disk.empty] at h

theorem contentAt_congr {x : Option ℕ}
    (h : ∀ i, x = some i → d'.inodes[i]? = d.inodes[i]?) : d'.contentAt x = d.contentAt x := by
  cases x with
  | none => rfl
  | some i => simp [Disk.contentAt, h i rfl]

theorem Stores.entries_eq_none (h : Stores plain d a) (hn : plain n) :
    d.entries n = none ↔ a.cur n = none := by
  rw [← h.current n hn, Disk.read]
  cases hentry : d.entries n with
  | none => simp [Disk.contentAt]
  | some i =>
    obtain ⟨node, hnode, -⟩ := h.synced n hn i (hentry ▸ h.held n hn)
    simp [Disk.contentAt, hnode]

/-- Nothing changes for the map when neither the entries of its names change nor the files
that these can lead to. -/
theorem Stores.keep (h : Stores plain d a)
    (hentries : ∀ n, plain n → d'.entries n = d.entries n)
    (hmay : ∀ n, plain n → d'.mayHold n = d.mayHold n)
    (hinodes : ∀ n, plain n → ∀ i, some i ∈ d.mayHold n → d'.inodes[i]? = d.inodes[i]?) :
    Stores plain d' a where
  current n hn := by
    rw [← h.current n hn, Disk.read, Disk.read, hentries n hn]
    apply contentAt_congr
    intro i hi
    exact hinodes n hn i (hi ▸ h.held n hn)
  possible n hn := by
    rw [← h.possible n hn, hmay n hn]
    apply List.map_congr_left
    intro x hx
    apply contentAt_congr
    rintro i rfl
    exact hinodes n hn i hx
  held n hn := by
    rw [hentries n hn, hmay n hn]
    exact h.held n hn
  synced n hn i hi := by
    rw [hmay n hn] at hi
    obtain ⟨node, hnode, hsynced⟩ := h.synced n hn i hi
    exact ⟨node, (hinodes n hn i hi).trans hnode, hsynced⟩

theorem Stores.fsyncDir (h : Stores plain d a) : Stores plain d.fsyncDir a.sync where
  current := h.current
  possible n hn := by
    have := h.current n hn
    simpa [Disk.fsyncDir, DurableMap.sync, Disk.read, Disk.contentAt] using this
  held n hn := List.mem_singleton.mpr rfl
  synced n hn i hi := by
    have hentry : some i = d.entries n := List.mem_singleton.mp hi
    exact h.synced n hn i (hentry ▸ h.held n hn)

theorem getD_map {α : Type u} {γ : Type v} (f : α → γ) (l : List α) (i : ℕ) (x : α) :
    (l.map f)[i]?.getD (f x) = f (l[i]?.getD x) := by
  cases h : l[i]? <;> simp [h]

theorem Stores.crash_held (h : Stores plain d a) (c : Crash N β) (hn : plain n) :
    (d.crash c).entries n ∈ d.mayHold n := by
  simp only [Disk.crash]
  cases hx : (d.mayHold n)[c.entry n]? with
  | none => exact h.held n hn
  | some x => exact List.mem_of_getElem? hx

theorem Stores.crash_inodes (h : Stores plain d a) (c : Crash N β) (hn : plain n) {i : ℕ}
    (hi : some i ∈ d.mayHold n) : (d.crash c).inodes[i]? = d.inodes[i]? := by
  obtain ⟨node, hnode, hsynced⟩ := h.synced n hn i hi
  simp [Disk.crash, hnode, hsynced]

/-- A crash leaves one of the values that the map allows, whole. -/
theorem Stores.crash (h : Stores plain d a) (c : Crash N β) :
    Stores plain (d.crash c) (a.crash c.entry) := by
  have hcurrent : ∀ n, plain n → (d.crash c).read n = (a.crash c.entry).cur n := by
    intro n hn
    have hcontent : (d.crash c).read n = d.contentAt ((d.crash c).entries n) := by
      apply contentAt_congr
      intro i hi
      exact h.crash_inodes c hn (hi ▸ h.crash_held c hn)
    rw [hcontent]
    simp only [Disk.crash, DurableMap.crash, ← h.possible n hn, ← h.current n hn, Disk.read]
    exact (getD_map d.contentAt _ _ _).symm
  exact
    { current := hcurrent
      possible := fun n hn => congrArg (fun x => [x]) (hcurrent n hn)
      held := fun n _ => List.mem_singleton.mpr rfl
      synced := fun n hn i hi => by
        have hentry : some i = (d.crash c).entries n := List.mem_singleton.mp hi
        have hmem : some i ∈ d.mayHold n := hentry ▸ h.crash_held c hn
        obtain ⟨node, hnode, hsynced⟩ := h.synced n hn i hmem
        exact ⟨node, (h.crash_inodes c hn hmem).trans hnode, hsynced⟩ }

variable [DecidableEq N]

theorem Stores.setEntry_temp (h : Stores plain d a) (ht : ¬ plain t) (x : Option ℕ) :
    Stores plain (d.setEntry t x) a := by
  have hne : ∀ n, plain n → n ≠ t := by
    rintro n hn rfl
    exact ht hn
  refine h.keep ?_ ?_ fun _ _ _ _ => rfl
  · intro n hn
    simp [Disk.setEntry, hne n hn]
  · intro n hn
    simp [Disk.setEntry, hne n hn]

theorem Stores.unlink_temp (h : Stores plain d a) (ht : ¬ plain t) :
    Stores plain (d.unlink t) a := h.setEntry_temp ht none

theorem contentAt_setEntry (d : Disk N β) (n : N) (x : Option ℕ) :
    (d.setEntry n x).contentAt = d.contentAt := rfl

/-- A name of the map gets another synced file, or none. -/
theorem Stores.setEntry (h : Stores plain d a) {x : Option ℕ}
    (hx : ∀ i, x = some i → ∃ node, d.inodes[i]? = some node ∧ node.synced = true) :
    Stores plain (d.setEntry n x) (a.set n (d.contentAt x)) where
  current m hm := by
    by_cases hmn : m = n
    · subst hmn
      simp [Disk.read, Disk.setEntry, DurableMap.set, Disk.contentAt]
    · simpa [Disk.read, Disk.setEntry, DurableMap.set, hmn, Disk.contentAt] using h.current m hm
  possible m hm := by
    rw [contentAt_setEntry]
    by_cases hmn : m = n
    · subst hmn
      simp [Disk.setEntry, DurableMap.set, ← h.possible m hm]
    · simp [Disk.setEntry, DurableMap.set, hmn, ← h.possible m hm]
  held m hm := by
    by_cases hmn : m = n
    · subst hmn
      simp [Disk.setEntry]
    · simpa [Disk.setEntry, hmn] using h.held m hm
  synced m hm i hi := by
    by_cases hmn : m = n
    · subst hmn
      simp only [Disk.setEntry, Function.update_self, List.mem_append, List.mem_singleton] at hi
      rcases hi with hold | hnew
      · exact h.synced m hm i hold
      · exact hx i hnew.symm
    · simp only [Disk.setEntry, Function.update_of_ne hmn] at hi
      exact h.synced m hm i hi

theorem Stores.unlink (h : Stores plain d a) (n : N) :
    Stores plain (d.unlink n) (a.set n none) :=
  h.setEntry fun _ hi => by cases hi

/-! ### A new version of a file -/

/-- A temporary file with the given content, which no other name can lead to. -/
structure Staged (plain : N → Prop) (d : Disk N β) (a : DurableMap N β) (t : N)
    (node : Inode β) : Prop where
  stores : Stores plain d a
  temporary : ¬ plain t
  file : ∃ i, d.entries t = some i ∧ d.inodes[i]? = some node ∧
    ∀ n, plain n → some i ∉ d.mayHold n

variable {node : Inode β}

theorem Stores.create (h : Stores plain d a) (ht : ¬ plain t) :
    Staged plain (d.create t) a t ⟨[], false⟩ := by
  have hlt : ∀ n, plain n → ∀ i, some i ∈ d.mayHold n → i < d.inodes.length := by
    intro n hn i hi
    obtain ⟨node, hnode, _⟩ := h.synced n hn i hi
    exact (List.getElem?_eq_some_iff.mp hnode).1
  have hgrown : Stores plain { d with inodes := d.inodes ++ [⟨[], false⟩] } a := by
    refine h.keep (fun _ _ => rfl) (fun _ _ => rfl) ?_
    intro n hn i hi
    exact List.getElem?_append_left (hlt n hn i hi)
  refine ⟨hgrown.setEntry_temp ht _, ht, d.inodes.length, ?_, ?_, ?_⟩
  · simp [Disk.create, Disk.setEntry]
  · simp [Disk.create, Disk.setEntry]
  · intro n hn hi
    have hne : n ≠ t := by
      rintro rfl
      exact ht hn
    simp only [Disk.create, Disk.setEntry, Function.update_of_ne hne] at hi
    exact Nat.lt_irrefl _ (hlt n hn _ hi)

omit [DecidableEq N] in
theorem Staged.modify (h : Staged plain d a t node) (f : Inode β → Inode β) :
    Staged plain (d.modify t f) a t (f node) := by
  obtain ⟨i, hentry, hnode, hfree⟩ := h.file
  have hmodify : d.modify t f = { d with inodes := d.inodes.modify i f } := by
    simp [Disk.modify, hentry]
  rw [hmodify]
  refine ⟨?_, h.temporary, i, hentry, by simp [hnode], hfree⟩
  refine h.stores.keep (fun _ _ => rfl) (fun _ _ => rfl) ?_
  intro n hn j hj
  have hij : i ≠ j := by
    rintro rfl
    exact hfree n hn hj
  exact List.getElem?_modify_ne f d.inodes hij

omit [DecidableEq N] in
theorem Staged.write (h : Staged plain d a t node) (bs : List β) :
    Staged plain (d.write t bs) a t ⟨node.content ++ bs, false⟩ := h.modify _

omit [DecidableEq N] in
theorem Staged.fsync (h : Staged plain d a t node) :
    Staged plain (d.fsync t) a t ⟨node.content, true⟩ := h.modify _

/-- The rename of a synced file sets its name in the map. -/
theorem Staged.rename (h : Staged plain d a t node) (hsynced : node.synced = true) :
    Stores plain (d.rename t n) (a.set n (some node.content)) := by
  obtain ⟨i, hentry, hnode, _⟩ := h.file
  have hcontent : d.contentAt (some i) = some node.content := by
    simp [Disk.contentAt, hnode]
  have hset := h.stores.setEntry (n := n) (x := some i) (by
    rintro j ⟨⟩
    exact ⟨node, hnode, hsynced⟩)
  rw [hcontent] at hset
  simp only [Disk.rename, hentry]
  exact hset.setEntry_temp h.temporary none

end Comlink.CrashDisk
