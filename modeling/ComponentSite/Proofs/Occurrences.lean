/-
  ComponentSite.Proofs.Occurrences — where a search for a text ends.

  A search ends at the first occurrence (`breakOn_eq_some_iff`), and without one exactly if
  there is none (`breakOn_eq_none_iff`).
-/
import ComponentSite.Proofs.TagReading

namespace ComponentSite.Text

variable {needle s before after : List Char}

theorem rest?_eq_none_iff {lead : List Char} : rest? lead s = none ↔ ¬ lead <+: s := by
  rw [Option.eq_none_iff_forall_ne_some]
  constructor
  · rintro h ⟨after, rfl⟩
    exact h after (rest?_append lead after)
  · intro h after hafter
    exact h ⟨after, (rest?_eq_some hafter).symm⟩

theorem breakOn_eq_none_iff : breakOn needle s = none ↔ Lacks needle s := by
  induction s with
  | nil => cases needle <;> simp [breakOn, Lacks]
  | cons c r ih =>
    have hlacks : Lacks needle (c :: r) ↔ ¬ needle <+: c :: r ∧ Lacks needle r := by
      rw [Lacks, List.infix_cons_iff, not_or, Lacks]
    rw [breakOn, hlacks, ← ih, ← rest?_eq_none_iff]
    cases rest? needle (c :: r) <;> simp

/-- What is in front of the first occurrence is in front of every one. -/
theorem length_le_of_breakOn (h : breakOn needle s = some (before, after)) {front behind : List Char}
    (hs : s = front ++ needle ++ behind) : before.length ≤ front.length := by
  induction s generalizing before front with
  | nil =>
    rw [List.nil_eq_append_iff, List.append_eq_nil_iff] at hs
    obtain ⟨⟨rfl, rfl⟩, rfl⟩ := hs
    cases h
    exact Nat.le_refl 0
  | cons c r ih =>
    rw [breakOn] at h
    split at h
    · cases h
      exact Nat.zero_le _
    · rename_i hnone
      obtain ⟨⟨b, a⟩, hb, he⟩ := Option.map_eq_some_iff.mp h
      cases he
      cases front with
      | nil => exact absurd ⟨behind, hs.symm⟩ (rest?_eq_none_iff.mp hnone)
      | cons d front => exact Nat.succ_le_succ (ih hb (List.cons.inj hs).2)

theorem breakOn_eq_some_iff : breakOn needle s = some (before, after) ↔
    s = before ++ needle ++ after ∧ ∀ front behind, s = front ++ needle ++ behind → before.length ≤ front.length := by
  constructor
  · intro h
    exact ⟨breakOn_append h, fun front behind => length_le_of_breakOn h⟩
  · rintro ⟨hs, hfirst⟩
    cases h : breakOn needle s with
    | none =>
      refine absurd ?_ (breakOn_eq_none_iff.mp h)
      exact ⟨before, after, hs.symm⟩
    | some found =>
      obtain ⟨b, a⟩ := found
      have hb := breakOn_append h
      have hlength : b.length = before.length :=
        Nat.le_antisymm (length_le_of_breakOn h hs) (hfirst b a hb)
      obtain ⟨hfront, rfl⟩ := List.append_inj (hb.symm.trans hs) (by simp [hlength])
      rw [List.append_cancel_right hfront]

/-- A character is searched for up to the first one. -/
theorem breakOn_char_eq_some_iff {c : Char} :
    breakOn [c] s = some (before, after) ↔ s = before ++ c :: after ∧ c ∉ before := by
  rw [breakOn_eq_some_iff]
  constructor
  · rintro ⟨hs, hfirst⟩
    refine ⟨by simpa using hs, fun hc => ?_⟩
    obtain ⟨front, behind, rfl⟩ := List.append_of_mem hc
    have hle := hfirst front (behind ++ c :: after) (by simpa using hs)
    simp only [List.length_append, List.length_cons] at hle
    omega
  · rintro ⟨rfl, hc⟩
    refine ⟨by simp, fun front behind hs => ?_⟩
    by_contra hlt
    refine hc ?_
    rw [List.append_assoc] at hs
    rcases List.append_eq_append_iff.mp hs with ⟨t, rfl, -⟩ | ⟨t, rfl, ht⟩
    · simp at hlt
    · cases t with
      | nil => simp at hlt
      | cons d t =>
        obtain ⟨rfl, -⟩ := List.cons.inj ht
        simp

end ComponentSite.Text
