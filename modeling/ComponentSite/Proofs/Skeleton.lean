/-
  ComponentSite.Proofs.Skeleton — texts with holes in the places of scope classes.

  A skeleton is a text in which the class of a source is left open (`Slot`); classes fill it
  (`fill`). What a search finds in a filled skeleton is uniform (`Uniform`) if it is the same
  for all classes: nothing, or the same part of the skeleton. For that the search must not
  stop within a class, nor begin one half way. Classes are lower-case letters, digits and
  dashes (`IsClassName`), and every hole has a character in front of it that is part of no
  name that is searched for (`isFree`, `IsWord`, `Guarded`).
-/
import ComponentSite.Fragment
import ComponentSite.Proofs.ClassName
import ComponentSite.Text.Search
import Mathlib.Data.List.Induction

namespace ComponentSite
open Text

namespace IsClassName

variable {s : String} (h : IsClassName s)
include h

theorem not_mem {c : Char} (hc : Style.isTagChar c = false) : c ∉ s.toList := fun hmem =>
  Bool.noConfusion (hc.symm.trans (h.chars c hmem))

theorem exists_cons : ∃ c r, s.toList = c :: r ∧ Style.isTagChar c = true := by
  obtain ⟨c, r, e⟩ := List.exists_cons_of_ne_nil h.ne_nil
  exact ⟨c, r, e, h.chars c (e ▸ List.mem_cons_self)⟩

theorem exists_concat : ∃ r c, s.toList = r ++ [c] ∧ Style.isTagChar c = true := by
  obtain ⟨r, c, e⟩ := (List.eq_nil_or_concat s.toList).resolve_left h.ne_nil
  rw [List.concat_eq_append] at e
  exact ⟨r, c, e, h.chars c (e ▸ List.mem_append_right r (List.mem_singleton_self c))⟩

end IsClassName

/-! ## Skeletons -/

/-- A character, or the class of a source. -/
inductive Slot
  | char (c : Char)
  | hole (source : Path)
  deriving DecidableEq

def Slot.isBlank : Slot → Bool
  | char c => Text.isBlank c
  | hole _ => false

abbrev Skeleton := List Slot

namespace Skeleton

def fill (classOf : Path → String) (s : Skeleton) : List Char :=
  s.flatMap fun
    | .char c => [c]
    | .hole source => (classOf source).toList

def ofChars (s : List Char) : Skeleton := s.map .char

variable {classOf : Path → String}

@[simp] theorem fill_nil : fill classOf [] = [] := rfl
@[simp] theorem fill_char (c : Char) (s : Skeleton) : fill classOf (.char c :: s) = c :: fill classOf s := rfl
@[simp] theorem fill_hole (source : Path) (s : Skeleton) :
    fill classOf (.hole source :: s) = (classOf source).toList ++ fill classOf s := rfl
@[simp] theorem fill_append (s t : Skeleton) : fill classOf (s ++ t) = fill classOf s ++ fill classOf t :=
  List.flatMap_append

@[simp] theorem fill_ofChars (s : List Char) : fill classOf (ofChars s) = s := by
  rw [fill, ofChars, List.flatMap_map]
  exact List.flatMap_singleton' s

def between (before : List Char) (source : Path) (after : List Char) : Skeleton :=
  ofChars before ++ .hole source :: ofChars after

@[simp] theorem fill_between (before : List Char) (source : Path) (after : List Char) :
    fill classOf (between before source after) = before ++ (classOf source).toList ++ after := by
  simp [between]

/-- A class may stand behind this character: it is in no name of a tag, nor at the start or
    the end of one. -/
def isFree (c : Char) : Bool := c == ' ' || c == '\n' || c == '\x22' || c == '-' || c == '.'

/-- A text behind no character of which a class may stand, such as the name of a tag. -/
def IsWord (s : List Char) : Prop := ∀ c ∈ s, isFree c = false

theorem isWord_of_all {s : List Char} (h : s.all (!isFree ·) = true) : IsWord s := fun c hc => by
  simpa using List.all_eq_true.mp h c hc

theorem IsWord.append {s t : List Char} (hs : IsWord s) (ht : IsWord t) : IsWord (s ++ t) :=
  fun c hc => (List.mem_append.mp hc).elim (hs c) (ht c)

theorem IsWord.tail {c : Char} {s : List Char} (h : IsWord (c :: s)) : IsWord s :=
  fun d hd => h d (List.mem_cons_of_mem c hd)

section Guard

variable (S : Path → Prop)

/-- Every hole is that of a source in `S`, behind a free character; `free` tells whether the
    character in front of the skeleton is one. -/
def Guarded : (free : Bool) → Skeleton → Prop
  | _, [] => True
  | _, .char c :: s => Guarded (isFree c) s
  | free, .hole source :: s => free = true ∧ S source ∧ Guarded false s

def Names (classOf : Path → String) : Prop := ∀ source, S source → IsClassName (classOf source)

variable {S} {free : Bool} {s t : Skeleton}

theorem Guarded.tail {c : Char} (h : Guarded S free (.char c :: s)) : Guarded S (isFree c) s := h

theorem Guarded.weaken (h : Guarded S false s) (free : Bool) : Guarded S free s := by
  match s, h with
  | [], _ => trivial
  | .char _ :: _, h => exact h
  | .hole _ :: _, h => exact absurd h.1 (by decide)

theorem Guarded.relax (h : Guarded S free s) : Guarded S true s := by
  cases free with
  | false => exact h.weaken true
  | true => exact h

theorem Guarded.append (hs : Guarded S free s) (ht : Guarded S false t) : Guarded S free (s ++ t) := by
  induction s generalizing free with
  | nil => exact ht.weaken free
  | cons p s ih =>
    cases p with
    | char c => exact ih hs.tail
    | hole source => exact ⟨hs.1, hs.2.1, ih hs.2.2⟩

theorem guarded_ofChars (free : Bool) (s : List Char) : Guarded S free (ofChars s) := by
  induction s generalizing free with
  | nil => trivial
  | cons c s ih => exact ih (isFree c)

theorem Guarded.of_append (h : Guarded S free (s ++ t)) : Guarded S free s ∧ ∃ free', Guarded S free' t := by
  induction s generalizing free with
  | nil => exact ⟨trivial, free, h⟩
  | cons p s ih =>
    cases p with
    | char c => exact ih h.tail
    | hole source =>
      obtain ⟨hs, ht⟩ := ih h.2.2
      exact ⟨⟨h.1, h.2.1, hs⟩, ht⟩

theorem guarded_behind (lead : List Char) {c : Char} (hc : isFree c = true) (ht : Guarded S true t) (free : Bool) :
    Guarded S free (ofChars (lead ++ [c]) ++ t) := by
  induction lead generalizing free with
  | nil =>
    show Guarded S (isFree c) t
    rw [hc]
    exact ht
  | cons d lead ih => exact ih (isFree d)

theorem guarded_between (before : List Char) {c : Char} (hc : isFree c = true) {source : Path} (hsource : S source)
    (after : List Char) : Guarded S free (between (before ++ [c]) source after) :=
  guarded_behind before hc (t := .hole source :: ofChars after) ⟨rfl, hsource, guarded_ofChars false after⟩ free

end Guard

/-! ## What is seen of a filled skeleton -/

section Seen

variable {S : Path → Prop} {free : Bool} {s : Skeleton}

theorem Guarded.hole_mem (h : Guarded S free s) {source : Path} (hs : .hole source ∈ s) : S source := by
  induction s generalizing free with
  | nil => cases hs
  | cons p s ih =>
    cases p with
    | char c => exact ih h.tail ((List.mem_cons.mp hs).resolve_left nofun)
    | hole first =>
      rcases List.mem_cons.mp hs with e | hs
      · cases e
        exact h.2.1
      · exact ih h.2.2 hs

variable (h : Guarded S free s) (hn : Names S classOf)
include h hn

theorem isEmpty_fill : (fill classOf s).isEmpty = s.isEmpty := by
  match s, h with
  | [], _ => rfl
  | .char c :: s, _ => rfl
  | .hole source :: s, h =>
    obtain ⟨c, r, e, -⟩ := (hn source h.2.1).exists_cons
    rw [fill_hole, e]
    rfl

theorem getLast?_fill {c : Char} (hc : Style.isTagChar c = false) :
    ((fill classOf s).getLast? == some c) = (s.getLast? == some (.char c)) := by
  rcases List.eq_nil_or_concat s with rfl | ⟨s, p, rfl⟩
  · rfl
  · rw [List.concat_eq_append] at h ⊢
    rw [fill_append, List.getLast?_concat]
    cases p with
    | char d =>
      rw [fill_char, fill_nil, List.getLast?_concat, Bool.eq_iff_iff]
      simp
    | hole source =>
      obtain ⟨r, d, e, hd⟩ := (hn source (h.hole_mem (by simp))).exists_concat
      have hne : d ≠ c := by
        rintro rfl
        exact Bool.noConfusion (hc.symm.trans hd)
      rw [fill_hole, fill_nil, List.append_nil, e, ← List.append_assoc, List.getLast?_concat, Bool.eq_iff_iff]
      simp [hne]

theorem all_isBlank_fill : (fill classOf s).all isBlank = s.all Slot.isBlank := by
  induction s generalizing free with
  | nil => rfl
  | cons p s ih =>
    cases p with
    | char c =>
      rw [fill_char, List.all_cons, List.all_cons, ih h.tail]
      rfl
    | hole source =>
      obtain ⟨c, r, e, hc⟩ := (hn source h.2.1).exists_cons
      rw [fill_hole, e, List.cons_append, List.all_cons, isBlank_of_isTagChar hc]
      rfl

/-- No character of a class ends the run of those that are not `c`. -/
theorem takeWhile_fill {c : Char} (hc : Style.isTagChar c = false) :
    (fill classOf s).takeWhile (· != c) = fill classOf (s.takeWhile (· != .char c)) ∧
      (fill classOf s).dropWhile (· != c) = fill classOf (s.dropWhile (· != .char c)) := by
  induction s generalizing free with
  | nil => exact ⟨rfl, rfl⟩
  | cons p s ih =>
    cases p with
    | char d =>
      obtain ⟨htake, hdrop⟩ := ih h.tail
      by_cases e : d = c
      · simp [e]
      · simp [e, htake, hdrop]
    | hole source =>
      obtain ⟨htake, hdrop⟩ := ih h.2.2
      have hall : ∀ d ∈ (classOf source).toList, (d != c) = true := by
        intro d hd
        rw [bne_iff_ne]
        rintro rfl
        exact (hn source h.2.1).not_mem hc hd
      have hfirst : (Slot.hole source != .char c) = true := by simp
      rw [fill_hole, List.takeWhile_append_of_pos hall, List.dropWhile_append_of_pos hall, htake, hdrop,
        List.takeWhile_cons, List.dropWhile_cons, if_pos hfirst, if_pos hfirst]
      exact ⟨rfl, rfl⟩

end Seen

/-- A skeleton is cut at the first `c`, or has none. -/
theorem cut_at {S : Path → Prop} {free : Bool} {s : Skeleton} (h : Guarded S free s) {c : Char}
    (hc : Style.isTagChar c = false) (hfree : isFree c = false) :
    (∀ classOf, Names S classOf → (fill classOf s).dropWhile (· != c) = []) ∨
      ∃ before after, s = before ++ .char c :: after ∧ Guarded S free before ∧ Guarded S false after ∧
        ∀ classOf, Names S classOf → (fill classOf s).takeWhile (· != c) = fill classOf before ∧
          (fill classOf s).dropWhile (· != c) = c :: fill classOf after := by
  have hcut : s.takeWhile (· != .char c) ++ s.dropWhile (· != .char c) = s := List.takeWhile_append_dropWhile
  have hdrop := fun classOf (hn : Names S classOf) => (takeWhile_fill h hn hc).2
  cases hd : s.dropWhile (· != .char c) with
  | nil => exact Or.inl fun classOf hn => by rw [hdrop classOf hn, hd, fill_nil]
  | cons p after =>
    obtain rfl : p = .char c := by
      have := List.head?_dropWhile_not (· != Slot.char c) s
      rw [hd] at this
      simpa using this
    rw [hd] at hcut
    have hparts : Guarded S free (s.takeWhile (· != .char c) ++ .char c :: after) := hcut.symm ▸ h
    obtain ⟨hbefore, _, hafter⟩ := hparts.of_append
    refine Or.inr ⟨_, after, hcut.symm, hbefore, hfree ▸ hafter, fun classOf hn => ⟨(takeWhile_fill h hn hc).1, ?_⟩⟩
    rw [hdrop classOf hn, hd, fill_char]

/-! ## Uniform results -/

/-- A result that depends on the classes as a filling does: there is none for any classes, or
    for all of them it is the same thing, filled. -/
inductive Uniform {α β : Type} (S : Path → Prop) (fillIn : (Path → String) → α → β) (P : α → Prop)
    (result : (Path → String) → Option β) : Prop
  | none : (∀ classOf, Names S classOf → result classOf = .none) → Uniform S fillIn P result
  | some (t : α) : P t → (∀ classOf, Names S classOf → result classOf = .some (fillIn classOf t)) →
    Uniform S fillIn P result

namespace Uniform

variable {α β γ δ : Type} {S : Path → Prop} {fillIn : (Path → String) → α → β} {fillOut : (Path → String) → γ → δ}
  {P Q : α → Prop} {R : γ → Prop} {result : (Path → String) → Option β}

theorem imp (h : Uniform S fillIn P result) (hpq : ∀ t, P t → Q t) : Uniform S fillIn Q result := by
  cases h with
  | none h => exact .none h
  | some t ht h => exact .some t (hpq t ht) h

theorem congr {other : (Path → String) → Option β} (h : Uniform S fillIn P other)
    (e : ∀ classOf, Names S classOf → result classOf = other classOf) : Uniform S fillIn P result := by
  cases h with
  | none h => exact .none fun classOf hn => (e classOf hn).trans (h classOf hn)
  | some t ht h => exact .some t ht fun classOf hn => (e classOf hn).trans (h classOf hn)

theorem or {other : (Path → String) → Option β} (h : Uniform S fillIn P result) (h' : Uniform S fillIn P other) :
    Uniform S fillIn P fun classOf => (result classOf).or (other classOf) := by
  cases h with
  | none h => exact h'.congr fun classOf hn => by rw [h classOf hn, Option.none_or]
  | some t ht h => exact .some t ht fun classOf hn => by rw [h classOf hn, Option.some_or]

theorem bind {f : β → Option δ} (h : Uniform S fillIn P result)
    (hf : ∀ t, P t → Uniform S fillOut R fun classOf => f (fillIn classOf t)) :
    Uniform S fillOut R fun classOf => (result classOf).bind f := by
  cases h with
  | none h => exact .none fun classOf hn => by rw [h classOf hn]; rfl
  | some t ht h =>
    cases hf t ht with
    | none h' => exact .none fun classOf hn => by rw [h classOf hn]; exact h' classOf hn
    | some u hu h' => exact .some u hu fun classOf hn => by rw [h classOf hn]; exact h' classOf hn

theorem map {f : (Path → String) → β → δ} (g : α → γ) (h : Uniform S fillIn P result) (hg : ∀ t, P t → R (g t))
    (hf : ∀ t, P t → ∀ classOf, Names S classOf → f classOf (fillIn classOf t) = fillOut classOf (g t)) :
    Uniform S fillOut R fun classOf => (result classOf).map (f classOf) := by
  cases h with
  | none h => exact .none fun classOf hn => by rw [h classOf hn]; rfl
  | some t ht h =>
    exact .some (g t) (hg t ht) fun classOf hn => by rw [h classOf hn, Option.map_some, hf t ht classOf hn]

end Uniform

structure Behind (S : Path → Prop) (s t : Skeleton) : Prop where
  guarded : Guarded S false t
  suffix : t <:+ s
  shorter : t.length < s.length

theorem Behind.cons {S : Path → Prop} {s t : Skeleton} (h : Behind S s t) (p : Slot) : Behind S (p :: s) t :=
  ⟨h.guarded, h.suffix.trans (List.suffix_cons p s), Nat.lt_succ_of_lt h.shorter⟩

section Search

variable {S : Path → Prop} {free : Bool} {s : Skeleton}

/-- Within a name no class begins. -/
theorem uniform_rest?_inside {lead : List Char} (hlead : IsWord lead) (h : Guarded S false s) :
    Uniform S fill (fun t => Guarded S false t ∧ t <:+ s) fun classOf => rest? lead (fill classOf s) := by
  induction lead generalizing s with
  | nil => exact .some s ⟨h, List.suffix_rfl⟩ fun _ _ => by rw [rest?]
  | cons a lead ih =>
    rcases s with _ | ⟨c | _, s⟩
    · exact .none fun _ _ => rfl
    · by_cases e : a = c
      · subst e
        have h : Guarded S false s := hlead a List.mem_cons_self ▸ h.tail
        simp only [fill_char, rest?_cons_self]
        exact (ih hlead.tail h).imp fun t ht => ⟨ht.1, ht.2.trans (List.suffix_cons _ s)⟩
      · exact .none fun _ _ => rest?_of_ne e _ _
    · exact absurd h.1 (by decide)

/-- Nor is its first character one of a class. -/
theorem uniform_rest? {a : Char} {lead : List Char} (ha : Style.isTagChar a = false)
    (hlead : IsWord (a :: lead)) (h : Guarded S free s) :
    Uniform S fill (Behind S s) fun classOf => rest? (a :: lead) (fill classOf s) := by
  match s, h with
  | [], _ => exact .none fun _ _ => rfl
  | .char c :: s, h =>
    by_cases e : a = c
    · subst e
      have h : Guarded S false s := hlead a List.mem_cons_self ▸ h.tail
      simp only [fill_char, rest?_cons_self]
      exact (uniform_rest?_inside hlead.tail h).imp fun t ht =>
        ⟨ht.1, ht.2.trans (List.suffix_cons _ s), Nat.lt_succ_of_le ht.2.length_le⟩
    · exact .none fun _ _ => rest?_of_ne e _ _
  | .hole source :: s, h =>
    refine .none fun classOf hn => ?_
    obtain ⟨c, r, e, hc⟩ := (hn source h.2.1).exists_cons
    have hne : a ≠ c := by
      rintro rfl
      exact Bool.noConfusion (ha.symm.trans hc)
    rw [fill_hole, e, List.cons_append]
    exact rest?_of_ne hne _ _

/-- White space and the end of a tag. -/
theorem uniform_closeTag (h : Guarded S free s) :
    Uniform S fill (Behind S s) fun classOf => rest? ['>'] (trimStart (fill classOf s)) := by
  induction s generalizing free with
  | nil => exact .none fun _ _ => rfl
  | cons p s ih =>
    cases p with
    | char c =>
      cases hc : isBlank c with
      | true =>
        simp only [fill_char, trimStart_cons_of_isBlank hc]
        exact (ih h.tail).imp fun t ht => ht.cons _
      | false =>
        simp only [fill_char, trimStart_cons_of_not_isBlank hc]
        exact uniform_rest? (s := .char c :: s) (a := '>') (by decide) (isWord_of_all (by decide)) h
    | hole source =>
      refine .none fun classOf hn => ?_
      obtain ⟨c, r, e, hc⟩ := (hn source h.2.1).exists_cons
      have hne : '>' ≠ c := by
        rintro rfl
        cases hc
      rw [fill_hole, e, List.cons_append, trimStart_cons_of_not_isBlank (isBlank_of_isTagChar hc)]
      exact rest?_of_ne hne _ _

end Search

/-! ## Trimming -/

theorem trimEnd_concat (s : List Char) (c : Char) :
    trimEnd (s ++ [c]) = if isBlank c = true then trimEnd s else s ++ [c] := by
  rw [trimEnd, List.reverse_concat, List.dropWhile_cons]
  split
  · rfl
  · rw [List.reverse_cons, List.reverse_reverse]

section Trim

variable {S : Path → Prop} {free : Bool} {s : Skeleton}

theorem exists_trimStart (h : Guarded S free s) :
    ∃ t, Guarded S true t ∧ ∀ classOf, Names S classOf → trimStart (fill classOf s) = fill classOf t := by
  induction s generalizing free with
  | nil => exact ⟨[], trivial, fun _ _ => rfl⟩
  | cons p s ih =>
    cases p with
    | char c =>
      cases hc : isBlank c with
      | true =>
        obtain ⟨t, ht, e⟩ := ih h.tail
        exact ⟨t, ht, fun classOf hn => by rw [fill_char, trimStart_cons_of_isBlank hc, e classOf hn]⟩
      | false => exact ⟨.char c :: s, h, fun _ _ => by rw [fill_char, trimStart_cons_of_not_isBlank hc]⟩
    | hole source =>
      refine ⟨.hole source :: s, h.relax, fun classOf hn => ?_⟩
      obtain ⟨c, r, e, hc⟩ := (hn source h.2.1).exists_cons
      rw [fill_hole, e, List.cons_append, trimStart_cons_of_not_isBlank (isBlank_of_isTagChar hc)]

theorem exists_trimEnd (h : Guarded S free s) :
    ∃ t, Guarded S free t ∧ ∀ classOf, Names S classOf → trimEnd (fill classOf s) = fill classOf t := by
  induction s using List.reverseRecOn with
  | nil => exact ⟨[], trivial, fun _ _ => rfl⟩
  | append_singleton s p ih =>
    cases p with
    | char c =>
      cases hc : isBlank c with
      | true =>
        obtain ⟨t, ht, e⟩ := ih h.of_append.1
        refine ⟨t, ht, fun classOf hn => ?_⟩
        rw [fill_append, fill_char, fill_nil, trimEnd_concat, if_pos hc, e classOf hn]
      | false =>
        refine ⟨s ++ [.char c], h, fun classOf _ => ?_⟩
        rw [fill_append, fill_char, fill_nil, trimEnd_concat, if_neg (by simp [hc])]
    | hole source =>
      refine ⟨s ++ [.hole source], h, fun classOf hn => ?_⟩
      obtain ⟨r, c, e, hc⟩ := (hn source (h.hole_mem (by simp))).exists_concat
      rw [fill_append, fill_hole, fill_nil, List.append_nil, e, ← List.append_assoc, trimEnd_concat,
        if_neg (by simp [isBlank_of_isTagChar hc])]

/-- White space at the ends of a text is no part of a class. -/
theorem exists_trim (h : Guarded S free s) :
    ∃ t, Guarded S true t ∧ ∀ classOf, Names S classOf → trim (fill classOf s) = fill classOf t := by
  obtain ⟨t, ht, e⟩ := exists_trimStart h
  obtain ⟨u, hu, e'⟩ := exists_trimEnd ht
  exact ⟨u, hu, fun classOf hn => by rw [trim, e classOf hn, e' classOf hn]⟩

end Trim

/-! ## Names of fragments -/

def nameOf (kind : FragmentKind) (source : Path) : Skeleton := between (kind.label.toList ++ ['-']) source []

theorem fill_nameOf (kind : FragmentKind) (source : Path) :
    fill classOf (nameOf kind source) = (kind.nameFor (classOf source)).toList := by
  simp [nameOf, FragmentKind.nameFor, String.toList_append]

theorem guarded_nameOf (kind : FragmentKind) {S : Path → Prop} {source : Path} (hsource : S source) :
    Guarded S false (nameOf kind source) :=
  guarded_between kind.label.toList (by decide) hsource []

end Skeleton

end ComponentSite
