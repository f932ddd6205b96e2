import Mathlib.Logic.Function.Basic

/-!
A table whose entries are leased to owners. Each owner remembers the key of the entry
that it holds, and the table has an entry for each owner that holds one, and no more.
-/

namespace Ciabatta.Lease

open Function

variable {κ ο ν : Type*} {table : κ → Option ν} {key key' : ο → κ} {holds : ο → Option ν}
  {o o' : ο} {v : ν}

/-- What the owners hold is what is in the table, each entry being one owner's. -/
structure Backs (table : κ → Option ν) (key : ο → κ) (holds : ο → Option ν) : Prop where
  entry : ∀ o v, holds o = some v → table (key o) = some v
  apart : ∀ o o' v v', holds o = some v → holds o' = some v' → key o = key o' → o = o'
  owner : ∀ k v, table k = some v → ∃ o, holds o = some v ∧ key o = k

theorem backs_empty (key : ο → κ) : Backs (fun _ => none : κ → Option ν) key fun _ => none :=
  ⟨nofun, nofun, nofun⟩

/-- What an owner that holds nothing remembers does not count. -/
theorem Backs.congr (h : Backs table key holds)
    (hkey : ∀ o v, holds o = some v → key' o = key o) : Backs table key' holds := by
  refine ⟨fun o v ho => ?_, fun o o' v v' ho ho' heq => ?_, fun k v hk => ?_⟩
  · rw [hkey o v ho]
    exact h.entry o v ho
  · rw [hkey o v ho, hkey o' v' ho'] at heq
    exact h.apart o o' v v' ho ho' heq
  · obtain ⟨o, ho, rfl⟩ := h.owner k v hk
    exact ⟨o, ho, hkey o v ho⟩

/-- A key that is in use is no key of the free ones. -/
theorem Backs.key_ne (h : Backs table key holds) (ho : holds o = some v) {k : κ}
    (hfree : table k = none) : key o ≠ k := by
  rintro rfl
  rw [h.entry o v ho] at hfree
  cases hfree

variable [DecidableEq κ] [DecidableEq ο]

theorem Backs.acquire (h : Backs table key holds) (hfree : table (key o) = none)
    (hnone : holds o = none) (v : ν) :
    Backs (update table (key o) (some v)) key (update holds o (some v)) := by
  have hold {o' : ο} {v' : ν} (ho' : update holds o (some v) o' = some v') (hne : o' ≠ o) :
      holds o' = some v' := by
    rwa [update_of_ne hne] at ho'
  refine ⟨fun o' v' ho' => ?_, fun o₁ o₂ v₁ v₂ h₁ h₂ heq => ?_, fun k v' hk => ?_⟩
  · rcases eq_or_ne o' o with rfl | hne
    · rwa [update_self] at ho' ⊢
    · rw [update_of_ne (h.key_ne (hold ho' hne) hfree)]
      exact h.entry o' v' (hold ho' hne)
  · rcases eq_or_ne o₁ o with rfl | hne₁
    · by_contra hne₂
      exact h.key_ne (hold h₂ (Ne.symm hne₂)) hfree heq.symm
    · rcases eq_or_ne o₂ o with rfl | hne₂
      · exact absurd heq (h.key_ne (hold h₁ hne₁) hfree)
      · exact h.apart o₁ o₂ v₁ v₂ (hold h₁ hne₁) (hold h₂ hne₂) heq
  · rcases eq_or_ne k (key o) with rfl | hne
    · refine ⟨o, ?_, rfl⟩
      rwa [update_self] at hk ⊢
    · rw [update_of_ne hne] at hk
      obtain ⟨o', ho', rfl⟩ := h.owner k v' hk
      refine ⟨o', ?_, rfl⟩
      rwa [update_of_ne fun heq : o' = o => hne (congrArg key heq)]

theorem Backs.release (h : Backs table key holds) (hheld : holds o = some v) :
    Backs (update table (key o) none) key (update holds o none) := by
  have hold {o' : ο} {v' : ν} (ho' : update holds o none o' = some v') :
      o' ≠ o ∧ holds o' = some v' := by
    rcases eq_or_ne o' o with rfl | hne
    · rw [update_self] at ho'
      cases ho'
    · rw [update_of_ne hne] at ho'
      exact ⟨hne, ho'⟩
  refine ⟨fun o' v' ho' => ?_, fun o₁ o₂ v₁ v₂ h₁ h₂ heq => ?_, fun k v' hk => ?_⟩
  · obtain ⟨hne, ho'⟩ := hold ho'
    rw [update_of_ne fun heq => hne (h.apart o' o v' v ho' hheld heq)]
    exact h.entry o' v' ho'
  · exact h.apart o₁ o₂ v₁ v₂ (hold h₁).2 (hold h₂).2 heq
  · have hne : k ≠ key o := by
      rintro rfl
      rw [update_self] at hk
      cases hk
    rw [update_of_ne hne] at hk
    obtain ⟨o', ho', rfl⟩ := h.owner k v' hk
    refine ⟨o', ?_, rfl⟩
    rwa [update_of_ne fun heq : o' = o => hne (congrArg key heq)]

/-- An owner hands what it holds to one that holds nothing and remembers the same key. -/
theorem Backs.handOver (h : Backs table key holds) (hheld : holds o = some v)
    (hnone : holds o' = none) (hkey : key o' = key o) :
    Backs table key (update (update holds o none) o' (some v)) := by
  have hne : o' ≠ o := by
    rintro rfl
    rw [hheld] at hnone
    cases hnone
  have hreleased := h.release hheld
  rw [← hkey] at hreleased
  have hback := hreleased.acquire (o := o') (by rw [update_self])
    (by rw [update_of_ne hne, hnone]) v
  have hentry : update table (key o') (some v) = table := by
    rw [hkey, ← h.entry o v hheld, update_eq_self]
  rwa [update_idem, hentry] at hback

end Ciabatta.Lease
