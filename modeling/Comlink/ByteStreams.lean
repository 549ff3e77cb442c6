import Mathlib.Algebra.Order.Group.Nat
import Mathlib.Data.List.Basic
import Mathlib.Tactic.Ring

/-!
# Numbers and records in a stream of bytes

Fixed-width little-endian numbers, which drop what does not fit their width, and the read
of a given number of elements from the front of a stream, which either succeeds in full or
not at all.
-/
namespace Comlink.ByteStreams

universe u
variable {α : Type u}

/-- The `w` least significant bytes of `n`, the least significant first. -/
def putLE : ℕ → ℕ → List UInt8
  | 0, _ => []
  | w + 1, n => UInt8.ofNat (n % 256) :: putLE w (n / 256)

/-- The number with the given little-endian bytes. -/
def getLE : List UInt8 → ℕ
  | [] => 0
  | b :: bs => b.toNat + 256 * getLE bs

@[simp] theorem length_putLE (w n : ℕ) : (putLE w n).length = w := by
  induction w generalizing n with
  | zero => rfl
  | succ w ih => simp only [putLE, List.length_cons, ih]

theorem getLE_putLE (w n : ℕ) : getLE (putLE w n) = n % 256 ^ w := by
  induction w generalizing n with
  | zero => simp [putLE, getLE, Nat.mod_one]
  | succ w ih =>
    have hbyte : (UInt8.ofNat (n % 256)).toNat = n % 256 := by
      rw [UInt8.toNat_ofNat']
      exact Nat.mod_eq_of_lt (Nat.mod_lt n (by omega))
    rw [putLE, getLE, ih, hbyte, pow_succ', Nat.mod_mul]

theorem getLE_putLE_of_lt {w n : ℕ} (h : n < 256 ^ w) : getLE (putLE w n) = n := by
  rw [getLE_putLE, Nat.mod_eq_of_lt h]

/-- The next `n` elements and the rest, if there are that many. -/
def readFull (n : ℕ) (xs : List α) : Option (List α × List α) :=
  if xs.length < n then none else some (xs.take n, xs.drop n)

theorem readFull_append {n : ℕ} {xs ys : List α} (h : xs.length = n) :
    readFull n (xs ++ ys) = some (xs, ys) := by
  subst h
  simp [readFull]

theorem readFull_of_lt {n : ℕ} {xs : List α} (h : xs.length < n) : readFull n xs = none :=
  if_pos h

/-- What is left of two pieces after a cut that spares the first. -/
theorem exists_append_of_le {xs ys zs ws : List α} (h : zs ++ ws = xs ++ ys)
    (hle : xs.length ≤ zs.length) : ∃ part, zs = xs ++ part ∧ part ++ ws = ys := by
  have hpre : xs <+: zs :=
    List.prefix_of_prefix_length_le (List.prefix_append xs ys) ⟨ws, h⟩ hle
  obtain ⟨part, rfl⟩ := hpre
  rw [List.append_assoc, List.append_cancel_left_eq] at h
  exact ⟨part, rfl, h⟩

end Comlink.ByteStreams
