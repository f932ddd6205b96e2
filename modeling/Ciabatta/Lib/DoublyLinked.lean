import Mathlib.Data.List.Nodup

/-!
Doubly linked lists with the newest element at the head. The elements are
addresses of any type, and the links are functions of the address; one address
is null.
-/

namespace LinkedList

/-- From `head`, the link `prev` leads through the list to null. -/
def Chain {α : Type*} (prev : α → α) (null : α) : α → List α → Prop
  | head, [] => head = null
  | head, p :: l => head = p ∧ p ≠ null ∧ Chain prev null (prev p) l

/-- The list reached from `head` by `prev`, with `next` the way back. -/
structure DoublyLinked {α : Type*} (next prev : α → α) (null head : α) (l : List α) : Prop where
  chain : Chain prev null head l
  nodup : l.Nodup
  next_head : head ≠ null → next head = null
  next_prev : ∀ p ∈ l, prev p ≠ null → next (prev p) = p
  prev_next : ∀ p ∈ l, next p ≠ null → prev (next p) = p

variable {α : Type*} {next next' prev prev' : α → α} {null head p : α} {l : List α}

namespace Chain

theorem ne_null (h : Chain prev null head l) (hp : p ∈ l) : p ≠ null := by
  induction l generalizing head with
  | nil => exact absurd hp List.not_mem_nil
  | cons q l ih =>
      obtain ⟨-, hne, htail⟩ := h
      rcases List.mem_cons.mp hp with rfl | hmem
      · exact hne
      · exact ih htail hmem

/-- Only the links of the members count. -/
theorem congr (h : Chain prev null head l) (hprev : ∀ p ∈ l, prev' p = prev p) :
    Chain prev' null head l := by
  induction l generalizing head with
  | nil => exact h
  | cons q l ih =>
      obtain ⟨rfl, hne, htail⟩ := h
      refine ⟨rfl, hne, ?_⟩
      rw [hprev head List.mem_cons_self]
      exact ih htail fun p hp => hprev p (List.mem_cons_of_mem head hp)

theorem head_mem (h : Chain prev null head l) (hne : head ≠ null) : head ∈ l := by
  cases l with
  | nil => exact absurd h hne
  | cons q l =>
      rw [h.1]
      exact List.mem_cons_self

/-- A member leads to a member or to null. -/
theorem prev_mem (h : Chain prev null head l) (hp : p ∈ l) (hne : prev p ≠ null) :
    prev p ∈ l := by
  induction l generalizing head with
  | nil => exact absurd hp List.not_mem_nil
  | cons q l ih =>
      obtain ⟨-, -, htail⟩ := h
      apply List.mem_cons_of_mem
      rcases List.mem_cons.mp hp with rfl | hmem
      · exact htail.head_mem hne
      · exact ih htail hmem

/-- A member is the head, or one leads to it. -/
theorem eq_head_or (h : Chain prev null head l) (hp : p ∈ l) :
    p = head ∨ ∃ q ∈ l, prev q = p := by
  induction l generalizing head with
  | nil => exact absurd hp List.not_mem_nil
  | cons q l ih =>
      obtain ⟨rfl, -, htail⟩ := h
      rcases List.mem_cons.mp hp with rfl | hmem
      · exact .inl rfl
      · right
        rcases ih htail hmem with rfl | ⟨r, hr, hprev⟩
        · exact ⟨head, List.mem_cons_self, rfl⟩
        · exact ⟨r, List.mem_cons_of_mem head hr, hprev⟩

end Chain

namespace DoublyLinked

theorem nil : DoublyLinked next prev null null [] where
  chain := rfl
  nodup := List.nodup_nil
  next_head := fun hne => absurd rfl hne
  next_prev := nofun
  prev_next := nofun

/-- The links forward follow from the links back. -/
theorem of_next_prev (hchain : Chain prev null head l) (hnodup : l.Nodup)
    (hhead : head ≠ null → next head = null)
    (hnext : ∀ p ∈ l, prev p ≠ null → next (prev p) = p) :
    DoublyLinked next prev null head l where
  chain := hchain
  nodup := hnodup
  next_head := hhead
  next_prev := hnext
  prev_next := by
    intro p hp hne
    rcases hchain.eq_head_or hp with rfl | ⟨q, hq, rfl⟩
    · exact absurd (hhead (hchain.ne_null hp)) hne
    · rw [hnext q hq (hchain.ne_null hp)]

/-- Only the links of the members count. -/
theorem congr (h : DoublyLinked next prev null head l) (hnext : ∀ p ∈ l, next' p = next p)
    (hprev : ∀ p ∈ l, prev' p = prev p) : DoublyLinked next' prev' null head l := by
  apply of_next_prev (h.chain.congr hprev) h.nodup
  · intro hne
    rw [hnext head (h.chain.head_mem hne)]
    exact h.next_head hne
  · intro p hp hne
    rw [hprev p hp] at hne ⊢
    rw [hnext _ (h.chain.prev_mem hp hne)]
    exact h.next_prev p hp hne

/-- A new element in front. Of the others only the old head changes. -/
theorem push (h : DoublyLinked next prev null head l) (hp : p ∉ l) (hnull : p ≠ null)
    (hprev : prev' p = head) (hnext : next' p = null) (hback : head ≠ null → next' head = p)
    (hkeep : ∀ q ∈ l, prev' q = prev q) (hkeep' : ∀ q ∈ l, q ≠ head → next' q = next q) :
    DoublyLinked next' prev' null p (p :: l) := by
  apply of_next_prev
  · refine ⟨rfl, hnull, ?_⟩
    rw [hprev]
    exact h.chain.congr hkeep
  · exact List.nodup_cons.mpr ⟨hp, h.nodup⟩
  · exact fun _ => hnext
  · intro q hq hne
    rcases List.mem_cons.mp hq with rfl | hmem
    · rw [hprev] at hne ⊢
      exact hback hne
    · rw [hkeep q hmem] at hne ⊢
      have hold := h.next_prev q hmem hne
      have hother : prev q ≠ head := by
        intro heq
        rw [heq, h.next_head (heq ▸ hne)] at hold
        exact h.chain.ne_null hmem hold.symm
      rw [hkeep' _ (h.chain.prev_mem hmem hne) hother]
      exact hold

end DoublyLinked

end LinkedList
