import Comlink.Membership
import Mathlib.Data.List.AList

/-!
# The watermark tracker

`trim/trim.go`: the latest watermark of every member, and the frontier below which all
of the active members say that they need nothing any more.
-/
namespace Comlink

/-- The highest offset applied, and the highest one covered by a durable snapshot. -/
structure Mark where
  applied : ℕ
  snapshot : ℕ
  deriving DecidableEq, Repr

/-- The lower of the two; without a snapshot, zero. -/
def Mark.usableFrontier (m : Mark) : ℕ :=
  if m.snapshot = 0 then 0 else if m.applied < m.snapshot then m.applied else m.snapshot

theorem Mark.usableFrontier_le_snapshot (m : Mark) : m.usableFrontier ≤ m.snapshot := by
  unfold usableFrontier
  split_ifs <;> omega

abbrev Tracker := AList (fun _ : ReplicaID => Mark)

namespace Tracker

/-- `Update`: each field only advances; the flag says whether one did. -/
def update (t : Tracker) (r : ReplicaID) (mark : Mark) : Tracker × Bool :=
  let cur := (t.lookup r).getD ⟨0, 0⟩
  if cur.applied < mark.applied ∨ cur.snapshot < mark.snapshot then
    (t.insert r ⟨max cur.applied mark.applied, max cur.snapshot mark.snapshot⟩, true)
  else (t, false)

/-- The loop of `SafeFrontier` with the least usable frontier so far. -/
def leastFrontier (t : Tracker) : List ReplicaID → Option ℕ → Option ℕ
  | [], least => least
  | r :: rest, least =>
    match t.lookup r with
    | none => none
    | some m => leastFrontier t rest (some (match least with
      | none => m.usableFrontier
      | some f => min m.usableFrontier f))

/-- `SafeFrontier`: the least usable frontier of the active members, or `none` without
active members or when one of them is unknown. -/
def safeFrontier (t : Tracker) (active : List ReplicaID) : Option ℕ := t.leastFrontier active none

/-- A bound on every member's snapshot mark survives an update within the bound. -/
theorem snapshot_le_update {t : Tracker} {r : ReplicaID} {mark : Mark} {bound : ReplicaID → ℕ}
    (h : ∀ q m, t.lookup q = some m → m.snapshot ≤ bound q) (hm : mark.snapshot ≤ bound r)
    (q : ReplicaID) (m : Mark) (hl : (t.update r mark).1.lookup q = some m) :
    m.snapshot ≤ bound q := by
  unfold update at hl
  dsimp only at hl
  split at hl
  · by_cases hq : q = r
    · subst hq
      rw [AList.lookup_insert] at hl
      cases hl
      refine max_le ?_ hm
      cases hold : t.lookup q with
      | none => exact Nat.zero_le _
      | some old => exact h q old hold
    · rw [AList.lookup_insert_ne hq] at hl
      exact h q m hl
  · exact h q m hl

theorem leastFrontier_le {t : Tracker} {active : List ReplicaID} {least : Option ℕ} {f : ℕ}
    (h : t.leastFrontier active least = some f) :
    (∀ x, least = some x → f ≤ x) ∧
      ∀ r ∈ active, ∃ m, t.lookup r = some m ∧ f ≤ m.usableFrontier := by
  induction active generalizing least with
  | nil =>
    refine ⟨?_, nofun⟩
    intro x hx
    rw [leastFrontier, hx] at h
    exact (Option.some.inj h).ge
  | cons r rest ih =>
    rw [leastFrontier] at h
    split at h
    · cases h
    · rename_i m hm
      obtain ⟨hleast, hrest⟩ := ih h
      have hle := hleast _ rfl
      refine ⟨?_, ?_⟩
      · rintro x rfl
        exact hle.trans (min_le_right _ _)
      · intro q hq
        rcases List.mem_cons.mp hq with rfl | hq
        · refine ⟨m, hm, ?_⟩
          cases least with
          | none => exact hle
          | some x => exact hle.trans (min_le_left _ _)
        · exact hrest q hq

theorem safeFrontier_le {t : Tracker} {active : List ReplicaID} {f : ℕ}
    (h : t.safeFrontier active = some f) {r : ReplicaID} (hr : r ∈ active) :
    ∃ m, t.lookup r = some m ∧ f ≤ m.usableFrontier := (leastFrontier_le h).2 r hr

end Tracker
end Comlink
