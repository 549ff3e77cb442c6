import Mathlib.Data.List.AList

/-!
# Association lists

How an insertion or an erasure changes what an association list holds, read off the
entry that is found afterwards, and what it does to the number of entries.
-/
namespace Comlink.AssociationLists

universe u v
variable {α : Type u} {β : Type v} [DecidableEq α] {s : AList fun _ : α => β} {a x : α} {b y : β}

theorem lookup_insert_cases (h : (s.insert a b).lookup x = some y) :
    x = a ∧ y = b ∨ x ≠ a ∧ s.lookup x = some y := by
  by_cases hx : x = a
  · subst hx
    rw [AList.lookup_insert] at h
    exact Or.inl ⟨rfl, (Option.some.inj h).symm⟩
  · rw [AList.lookup_insert_ne hx] at h
    exact Or.inr ⟨hx, h⟩

theorem lookup_erase_cases (h : (s.erase a).lookup x = some y) :
    x ≠ a ∧ s.lookup x = some y := by
  by_cases hx : x = a
  · subst hx
    rw [AList.lookup_erase] at h
    cases h
  · rw [AList.lookup_erase_ne hx] at h
    exact ⟨hx, h⟩

theorem lookup_insert_eq_update (s : AList fun _ : α => β) (a : α) (b : β) :
    (fun x => (s.insert a b).lookup x) = Function.update (fun x => s.lookup x) a (some b) := by
  funext x
  by_cases hx : x = a
  · subst hx
    rw [AList.lookup_insert, Function.update_self]
  · rw [AList.lookup_insert_ne hx, Function.update_of_ne hx]

theorem lookup_erase_eq_update (s : AList fun _ : α => β) (a : α) :
    (fun x => (s.erase a).lookup x) = Function.update (fun x => s.lookup x) a none := by
  funext x
  by_cases hx : x = a
  · subst hx
    rw [AList.lookup_erase, Function.update_self]
  · rw [AList.lookup_erase_ne hx, Function.update_of_ne hx]

theorem eq_empty_of_lookup (h : ∀ a, s.lookup a = none) : s = ∅ := by
  apply AList.ext
  rw [AList.empty_entries, List.eq_nil_iff_forall_not_mem]
  rintro ⟨a, b⟩ he
  have hab := AList.mem_lookup_iff.mpr he
  rw [h a] at hab
  cases hab

theorem forall_lookup_iff {P : α → β → Prop} :
    (∀ a b, s.lookup a = some b → P a b) ↔ ∀ e ∈ s.entries, P e.1 e.2 := by
  constructor
  · intro h e he
    exact h e.1 e.2 (AList.mem_lookup_iff.mpr he)
  · intro h a b hab
    exact h ⟨a, b⟩ (AList.mem_lookup_iff.mp hab)

instance decidableForallLookup {P : α → β → Prop} [∀ a b, Decidable (P a b)] :
    Decidable (∀ a b, s.lookup a = some b → P a b) :=
  decidable_of_iff _ forall_lookup_iff.symm

theorem length_erase_of_lookup (h : s.lookup a = some b) :
    (s.erase a).entries.length + 1 = s.entries.length := by
  have hmem : a ∈ s.keys := AList.mem_keys.mp (AList.lookup_isSome.mp (by simp [h]))
  have hkeys := List.length_erase_of_mem hmem
  have hpos := List.length_pos_of_mem hmem
  rw [← AList.keys_erase] at hkeys
  simp only [AList.keys, List.keys, List.length_map] at hkeys hpos
  omega

theorem length_insert_le (s : AList fun _ : α => β) (a : α) (b : β) :
    (s.insert a b).entries.length ≤ s.entries.length + 1 := by
  rw [AList.entries_insert, List.length_cons]
  exact Nat.succ_le_succ (List.kerase_sublist a s.entries).length_le

theorem length_insert_of_lookup (h : s.lookup a = some b) (b' : β) :
    (s.insert a b').entries.length = s.entries.length := by
  rw [← length_erase_of_lookup h, AList.entries_insert]
  rfl

end Comlink.AssociationLists
