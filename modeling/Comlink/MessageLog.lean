import Comlink.Membership

/-!
# The message log seen by a conversation

The interface of `log/log.go`. Appended frames stay on disk at their offset for
ever; truncation advances the lowest readable offset. The index maps a key to the
offset at which it was appended last, so a lookup finds the last frame of that key
and fails when this frame lies below the readable range.
-/
namespace Comlink

structure LogFrame where
  envelope : Envelope
  senderSeq : ℕ
  deriving DecidableEq, Repr

def LogFrame.key (f : LogFrame) : Key := ⟨f.envelope.sender, f.senderSeq⟩

structure MessageLog where
  frames : List LogFrame
  firstOffset : ℕ
  firstOffset_le : firstOffset ≤ frames.length

namespace MessageLog
open ListScans

def empty : MessageLog := ⟨[], 0, Nat.le_refl _⟩

def nextOffset (l : MessageLog) : ℕ := l.frames.length

/-- `Append` without an I/O failure; the remaining error is a missing sender. -/
def append (l : MessageLog) (env : Envelope) (senderSeq : ℕ) : Option MessageLog :=
  match env.id.sender with
  | none => none
  | some _ => some ⟨l.frames ++ [⟨env, senderSeq⟩], l.firstOffset,
      l.firstOffset_le.trans (by simp)⟩

def lookupBySender (l : MessageLog) (k : Key) : Option (ℕ × Envelope) :=
  match lastIdxOf k (l.frames.map LogFrame.key) with
  | none => none
  | some off =>
    if off < l.firstOffset then none else (l.frames[off]?).map fun f => (off, f.envelope)

/-- The readable entries in offset order: `Range` from `FirstOffset` to the end. -/
def entries (l : MessageLog) : List LogFrame := l.frames.drop l.firstOffset

def truncate (l : MessageLog) (belowOffset : ℕ) : MessageLog :=
  if belowOffset ≤ l.firstOffset then l
  else ⟨l.frames, min belowOffset l.frames.length, Nat.min_le_right _ _⟩

theorem frames_append {l l' : MessageLog} {env : Envelope} {seq : ℕ}
    (h : l.append env seq = some l') :
    l'.frames = l.frames ++ [⟨env, seq⟩] ∧ l'.firstOffset = l.firstOffset := by
  unfold append at h
  split at h
  · cases h
  · cases h
    exact ⟨rfl, rfl⟩

@[simp] theorem frames_truncate (l : MessageLog) (b : ℕ) : (l.truncate b).frames = l.frames := by
  unfold truncate
  split <;> rfl

theorem mem_of_lookupBySender {l : MessageLog} {k : Key} {off : ℕ} {env : Envelope}
    (h : l.lookupBySender k = some (off, env)) :
    ∃ f, l.frames[off]? = some f ∧ f.envelope = env ∧ f.key = k ∧ l.firstOffset ≤ off := by
  unfold lookupBySender at h
  split at h
  · cases h
  · rename_i i hi
    split at h
    · cases h
    · rename_i hlt
      obtain ⟨f, hf, he⟩ := Option.map_eq_some_iff.mp h
      obtain ⟨rfl, rfl⟩ := Prod.mk.injEq .. ▸ he
      have hk := lastIdxOf_getElem? hi
      rw [List.getElem?_map, hf] at hk
      exact ⟨f, hf, rfl, Option.some.inj hk, Nat.le_of_not_lt hlt⟩

/-- With every key appended once, a readable frame is found at its own offset. -/
theorem lookupBySender_of_nodup {l : MessageLog} (hn : (l.frames.map LogFrame.key).Nodup)
    {i : ℕ} {f : LogFrame} (hf : l.frames[i]? = some f) (hi : l.firstOffset ≤ i) :
    l.lookupBySender f.key = some (i, f.envelope) := by
  have hk : (l.frames.map LogFrame.key)[i]? = some f.key := by rw [List.getElem?_map, hf]; rfl
  rw [lookupBySender, lastIdxOf_eq_of_nodup hn hk]
  simp [Nat.not_lt.mpr hi, hf]

end MessageLog
end Comlink
