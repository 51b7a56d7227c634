/-
  ComponentSite.Text.Search — finding and cutting text.

  `breakOn needle s` cuts `s` at the first occurrence of `needle`; the pieces with
  the needle between them are the text again (`breakOn_append`). Pieces that are put
  together are parts of the text (`infix_intercalate`).
-/

namespace ComponentSite.Text

/-- What follows `lead` when the text starts with it. -/
def rest? : (lead s : List Char) → Option (List Char)
  | [], s => some s
  | _ :: _, [] => none
  | a :: lead, c :: s => if a == c then rest? lead s else none

/-- The text before the first occurrence of `needle`, and the text after it. -/
def breakOn (needle : List Char) : List Char → Option (List Char × List Char)
  | [] => if needle.isEmpty then some ([], []) else none
  | c :: r =>
    match rest? needle (c :: r) with
    | some after => some ([], after)
    | none => (breakOn needle r).map fun (before, after) => (c :: before, after)

def breakOnLast (needle : List Char) (s : List Char) : Option (List Char × List Char) :=
  (breakOn needle.reverse s.reverse).map fun (after, before) => (before.reverse, after.reverse)

/-- The lines of a text. A line ends at a line feed, of which it keeps neither the
    feed nor a carriage return before it; a last line without a feed is kept as it
    is, unless it is empty. -/
def lines (s : List Char) : List (List Char) :=
  let pieces := s.splitOn '\n'
  let closed := pieces.dropLast.map fun line =>
    if line.getLast? = some '\r' then line.dropLast else line
  match pieces.getLast? with
  | none | some [] => closed
  | some last => closed ++ [last]

def lowered (s : List Char) : List Char := s.map Char.toLower

theorem rest?_cons_self (a : Char) (lead s : List Char) : rest? (a :: lead) (a :: s) = rest? lead s := by
  rw [rest?, if_pos (beq_self_eq_true a)]

theorem rest?_of_ne {a c : Char} (h : a ≠ c) (lead s : List Char) : rest? (a :: lead) (c :: s) = none := by
  rw [rest?, if_neg (by simpa using h)]

theorem takeWhile_append_of_head {p : Char → Bool} {s t : List Char} (hs : ∀ c ∈ s, p c = true)
    (ht : t.head?.all (!p ·) = true) : (s ++ t).takeWhile p = s ∧ (s ++ t).dropWhile p = t := by
  rw [List.takeWhile_append_of_pos hs, List.dropWhile_append_of_pos hs]
  cases t with
  | nil => simp
  | cons c t =>
    have hc : p c = false := by simpa using ht
    simp [hc]

/-! ## Cutting loses nothing -/

theorem rest?_eq_some {lead s after : List Char} (h : rest? lead s = some after) :
    s = lead ++ after := by
  induction lead generalizing s with
  | nil => simpa [rest?] using h
  | cons a lead ih =>
    cases s with
    | nil => simp [rest?] at h
    | cons c s =>
      simp only [rest?] at h
      split at h
      · next hc => rw [ih h, eq_of_beq hc, List.cons_append]
      · simp at h

theorem rest?_append (lead after : List Char) : rest? lead (lead ++ after) = some after := by
  induction lead with
  | nil => simp [rest?]
  | cons a lead ih =>
    rw [List.cons_append, rest?_cons_self]
    exact ih

theorem rest?_length {lead s after : List Char} (h : rest? lead s = some after) :
    s.length = lead.length + after.length := by
  simp [rest?_eq_some h]

theorem breakOn_append {needle s before after : List Char} (h : breakOn needle s = some (before, after)) :
    s = before ++ needle ++ after := by
  induction s generalizing before with
  | nil =>
    simp only [breakOn] at h
    split at h
    · next hn => simp at h; simp_all
    · simp at h
  | cons c r ih =>
    simp only [breakOn] at h
    split at h
    · next hr => simp at h; simp [h.1.symm, rest?_eq_some hr, h.2]
    · obtain ⟨⟨b, a⟩, hb, he⟩ := Option.map_eq_some_iff.mp h
      simp at he
      simp [← he.1, ih (he.2 ▸ hb)]

theorem breakOnLast_append {needle s before after : List Char}
    (h : breakOnLast needle s = some (before, after)) : s = before ++ needle ++ after := by
  obtain ⟨⟨left, right⟩, hbreak, hpair⟩ := Option.map_eq_some_iff.mp h
  obtain ⟨rfl, rfl⟩ := Prod.mk.inj hpair
  have hreverse := congrArg List.reverse (breakOn_append hbreak)
  simpa using hreverse

/-! ## Putting together -/

theorem isPrefix_intercalate (sep l : List Char) (ls : List (List Char)) : l <+: sep.intercalate (l :: ls) := by
  cases ls with
  | nil => simp
  | cons second more =>
    rw [List.intercalate_cons_cons, List.append_assoc]
    exact List.prefix_append _ _

theorem infix_intercalate {sep l : List Char} {ls : List (List Char)} (h : l ∈ ls) : l <:+: sep.intercalate ls := by
  induction ls with
  | nil => cases h
  | cons first more ih =>
    rcases List.mem_cons.mp h with rfl | h
    · exact (isPrefix_intercalate sep l more).isInfix
    · have hne : more ≠ [] := List.ne_nil_of_mem h
      rw [List.intercalate_cons_of_ne_nil hne]
      exact (ih h).trans (List.suffix_append _ _).isInfix

theorem mem_of_mem_intercalate {sep : List Char} {ls : List (List Char)} {c : Char} (h : c ∈ sep.intercalate ls) :
    c ∈ sep ∨ ∃ l ∈ ls, c ∈ l := by
  induction ls with
  | nil => cases h
  | cons first more ih =>
    cases more with
    | nil => exact Or.inr ⟨first, List.mem_cons_self, by simpa using h⟩
    | cons second more =>
      rw [List.intercalate_cons_cons, List.mem_append, List.mem_append] at h
      rcases h with (h | h) | h
      · exact Or.inr ⟨first, List.mem_cons_self, h⟩
      · exact Or.inl h
      · exact (ih h).imp_right fun ⟨l, hl, hc⟩ => ⟨l, List.mem_cons_of_mem _ hl, hc⟩

end ComponentSite.Text
