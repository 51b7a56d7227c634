/-
  ComponentSite.Proofs.ClassAttribute — where the scope class lands among the attributes of a tag.

  The class lands if the tag then has the classes it had and the new one behind them, and all
  its other attributes as they were (`Lands`). It is put at the first place that looks like a
  class attribute, also in a longer name and in a value; without one it comes in an attribute of
  its own, in front of any other. So it lands exactly if that place is the class attribute
  itself and its value bears double quotes, or there is no place and no class yet
  (`class_lands_iff`). At any other place it changes an attribute: the one that the place is in,
  or the one with the double quote that ends it.
-/
import ComponentSite.Proofs.ClassPlaces
import ComponentSite.Proofs.RootElements
import Mathlib.Data.List.TakeWhile

namespace ComponentSite.Style
open Text HtmlAttribute

structure IsClassToken (cls : List Char) : Prop where
  nonempty : cls ≠ []
  plain : ∀ c ∈ cls, isBlank c = false ∧ isQuote c = false ∧ c ≠ '>'

/-- The attributes have the classes they had and the new one, and all others as they were. -/
structure Lands (cls : List Char) (original written : List (List Char × List Char)) : Prop where
  classes : ∃ value, valueOf "class".toList written = some value ∧
    tokens value = tokens ((valueOf "class".toList original).getD []) ++ [cls]
  others : ∀ name, lowered name ≠ "class".toList → valueOf name written = valueOf name original

/-- The class goes where it belongs. -/
inductive TakesClass (list : AttributeList) : Prop
  /-- The class attribute is the first place, and its value can stand in double quotes: it holds none, and it is no
      white space that does not divide classes. -/
  | extended (l r : List HtmlAttribute) (a : HtmlAttribute) (left right : List Char) (quote : Char) (value : List Char)
    {spaces isQuote closed} (hlist : list.attributes = l ++ a :: r) (hname : a.name = "class".toList)
    (hvalue : a.value = .quoted left right quote value spaces isQuote closed) (hquote : '\x22' ∉ value)
    (hblank : value.all isBlank = true → value.all isSpace = true)
    (hfirst : ∀ before left right quote value rest, IsClassPlace list.text before left right quote value rest →
      (texts l ++ a.gap).length ≤ before.length)
  /-- There is no place, and no class that a new attribute would hide. -/
  | added (hnone : ∀ before left right quote value rest, ¬ IsClassPlace list.text before left right quote value rest)
    (hempty : tokens ((valueOf "class".toList (list.attributes.map (·.read))).getD []) = [])

/-! ## What is written -/

def extended (cls value : List Char) : List Char := if (trim value).isEmpty then cls else value ++ ' ' :: cls

theorem isEmpty_trim (value : List Char) : (trim value).isEmpty = value.all isBlank := by
  have hiff : trim value = [] ↔ value.all isBlank = true := by
    rw [trim, trimEnd, List.reverse_eq_nil_iff, List.dropWhile_eq_nil_iff, List.all_eq_true]
    constructor
    · intro h
      refine List.dropWhile_eq_nil_iff.mp ?_
      cases hs : trimStart value with
      | nil => exact hs
      | cons c s =>
        have hc : isBlank c = true := h c (by simp [hs])
        exact Bool.noConfusion ((trimStart_head hs).symm.trans hc)
    · intro h c hc
      have hnil : trimStart value = [] := List.dropWhile_eq_nil_iff.mpr h
      rw [hnil] at hc
      cases hc
  rw [Bool.eq_iff_iff, List.isEmpty_iff, hiff]

theorem class_equals : "class=".toList = "class".toList ++ ['='] := by decide

theorem classAttribute_eq (value : List Char) :
    classAttribute value = "class=".toList ++ '\x22' :: (value ++ ['\x22']) := by
  have hlead : "class=\x22".toList = "class=".toList ++ ['\x22'] := by decide
  unfold classAttribute
  rw [hlead]
  simp only [List.append_assoc, List.cons_append, List.nil_append]

theorem addClass_of_some {cls s before value rest : List Char} (h : findClass false s = some (before, value, rest)) :
    addClass cls s = before ++ ("class=".toList ++ '\x22' :: (extended cls value ++ '\x22' :: rest)) := by
  have hvalue : addClass cls s = before ++ classAttribute (extended cls value) ++ rest := by
    unfold addClass
    rw [h]
    rfl
  rw [hvalue, classAttribute_eq]
  simp only [List.append_assoc, List.cons_append, List.nil_append]

theorem addClass_of_none {cls s : List Char} (h : findClass false s = none) :
    addClass cls s = ' ' :: ("class=".toList ++ '\x22' :: (cls ++ '\x22' :: s)) := by
  have hvalue : addClass cls s = ' ' :: classAttribute cls ++ s := by
    unfold addClass
    rw [h]
  rw [hvalue, classAttribute_eq]
  simp only [List.append_assoc, List.cons_append, List.nil_append]

theorem isClassPlace_slash {s before left right value rest : List Char} {quote : Char} :
    IsClassPlace (s ++ ['/']) before left right quote value rest ↔
      ∃ rest', rest = rest' ++ ['/'] ∧ IsClassPlace s before left right quote value rest' := by
  constructor
  · rintro ⟨htext, hbound, hblanks, hquote, hclosed⟩
    rcases List.eq_nil_or_concat rest with rfl | ⟨rest, c, rfl⟩
    · have hcut : s ++ ['/'] =
          (before ++ ("class".toList ++ (left ++ '=' :: (right ++ quote :: value)))) ++ [quote] := by
        simpa using htext
      obtain ⟨-, hlast⟩ := List.append_inj' hcut rfl
      cases hlast
      cases hquote
    · have hcut : s ++ ['/'] =
          (before ++ ("class".toList ++ (left ++ '=' :: (right ++ quote :: (value ++ quote :: rest))))) ++ [c] := by
        simpa using htext
      obtain ⟨hs, hlast⟩ := List.append_inj' hcut rfl
      cases hlast
      exact ⟨rest, by simp, hs, hbound, hblanks, hquote, hclosed⟩
  · rintro ⟨rest, rfl, rfl, hbound, hblanks, hquote, hclosed⟩
    exact ⟨by simp, hbound, hblanks, hquote, hclosed⟩

theorem addClass_slash (cls s : List Char) : addClass cls (s ++ ['/']) = addClass cls s ++ ['/'] := by
  cases h : findClass false s with
  | none =>
    have hnone : findClass false (s ++ ['/']) = none := by
      refine no_place_iff.mpr fun before left right quote value rest hplace => ?_
      obtain ⟨rest, -, hplace⟩ := isClassPlace_slash.mp hplace
      exact no_place_iff.mp h _ _ _ _ _ _ hplace
    rw [addClass_of_none hnone, addClass_of_none h]
    simp
  | some found =>
    obtain ⟨before, value, rest⟩ := found
    obtain ⟨⟨left, right, quote, hplace⟩, hfirst⟩ := first_place_iff.mp h
    have hsome : findClass false (s ++ ['/']) = some (before, value, rest ++ ['/']) := by
      refine first_place_iff.mpr ⟨⟨left, right, quote, isClassPlace_slash.mpr ⟨rest, rfl, hplace⟩⟩, ?_⟩
      intro front left right quote value rest hplace
      obtain ⟨rest, -, hplace⟩ := isClassPlace_slash.mp hplace
      exact hfirst front left right quote value rest hplace
    rw [addClass_of_some hsome, addClass_of_some h]
    simp

/-! ## Changed values -/

/-- What of a text is no white space. -/
def ink (s : List Char) : List Char := s.filter (!isBlank ·)

theorem ink_append (s t : List Char) : ink (s ++ t) = ink s ++ ink t := List.filter_append s t

theorem ink_of_blanks {s : List Char} (h : s.all isBlank = true) : ink s = [] :=
  List.filter_eq_nil_iff.mpr fun c hc => by simp [List.all_eq_true.mp h c hc]

theorem ink_cons {c : Char} (h : isBlank c = false) (s : List Char) : ink (c :: s) = c :: ink s :=
  List.filter_cons_of_pos (by simpa using h)

theorem mem_ink {c : Char} (h : isBlank c = false) {s : List Char} : c ∈ ink s ↔ c ∈ s := by simp [ink, h]

theorem ink_eq_flatten_tokens (s : List Char) : ink s = ink (tokens s).flatten := by
  rw [flatten_tokens, ink, ink, List.filter_filter]
  refine List.filter_congr fun c _ => ?_
  cases hc : isBlank c with
  | true => rfl
  | false => rw [isSpace_of_not_isBlank hc]; rfl

section
variable {cls : List Char} (hcls : IsClassToken cls)
include hcls

theorem ink_class : ink cls = cls := List.filter_eq_self.mpr fun c hc => by simp [(hcls.plain c hc).1]

theorem IsClassToken.not_mem {q : Char} (hq : isQuote q = true) : q ∉ cls :=
  fun hm => Bool.noConfusion (hq.symm.trans (hcls.plain q hm).2.1)

theorem IsClassToken.tokens_eq : tokens cls = [cls] :=
  tokens_of_word hcls.nonempty fun c hc => isSpace_of_not_isBlank (hcls.plain c hc).1

theorem ink_extended (value : List Char) : ink (extended cls value) = ink value ++ cls := by
  unfold extended
  split
  · rename_i h
    rw [isEmpty_trim] at h
    rw [ink_class hcls, ink_of_blanks h, List.nil_append]
  · have hspace : ink (' ' :: cls) = ink cls := List.filter_cons_of_neg (by decide)
    rw [ink_append, hspace, ink_class hcls]

theorem ink_of_tokens {x value : List Char} (h : tokens x = tokens value ++ [cls]) : ink x = ink value ++ cls := by
  rw [ink_eq_flatten_tokens, h, List.flatten_append, ink_append, ← ink_eq_flatten_tokens, List.flatten_singleton,
    ink_class hcls]

/-- A double quote where the class should begin. -/
theorem append_quote_ne (s t u : List Char) : s ++ '\x22' :: t ≠ s ++ (cls ++ u) := by
  obtain ⟨c, r, rfl⟩ := List.exists_cons_of_ne_nil hcls.nonempty
  intro h
  rw [List.append_cancel_left_eq] at h
  obtain ⟨rfl, -⟩ := List.cons.inj h
  exact hcls.not_mem rfl List.mem_cons_self

/-- With the class in front of a double quote a text neither stays as it is nor has the class at its end. -/
theorem inserted_ne (s t : List Char) : s ++ (cls ++ '\x22' :: t) ≠ s ++ '\x22' :: t ∧
    s ++ (cls ++ '\x22' :: t) ≠ s ++ '\x22' :: t ++ cls := by
  constructor
  · exact (append_quote_ne hcls s t ('\x22' :: t)).symm
  · rw [List.append_assoc, List.cons_append]
    exact (append_quote_ne hcls s (t ++ cls) ('\x22' :: t)).symm

/-! ## An attribute that is read otherwise -/

section
variable {l r : List HtmlAttribute} {a : HtmlAttribute} {x : List Char} {more : List (List Char × List Char)}
  (hdistinct : ((l ++ a :: r).map fun b => lowered b.name).Nodup)

omit hcls in
theorem valueOf_class {name : List Char} (h : lowered name = "class".toList)
    (attributes : List (List Char × List Char)) : valueOf "class".toList attributes = valueOf name attributes := by
  have hlowered : lowered "class".toList = "class".toList := by decide
  rw [valueOf, hlowered, valueOf, h]

omit hcls in
include hdistinct in
theorem name_ne_before : ∀ b ∈ l.map (·.read), lowered b.1 ≠ lowered a.name := by
  rw [List.map_append, List.nodup_append] at hdistinct
  intro b hb
  obtain ⟨c, hc, rfl⟩ := List.mem_map.mp hb
  exact hdistinct.2.2 _ (List.mem_map_of_mem hc) _ (List.mem_map_of_mem List.mem_cons_self)

omit hcls in
include hdistinct in
theorem valueOf_read : valueOf a.name ((l ++ a :: r).map (·.read)) = some a.value.value := by
  rw [List.map_append]
  exact valueOf_first (name_ne_before hdistinct)

omit hcls in
include hdistinct in
/-- What an attribute is read as, where the class lands. -/
theorem Lands.kept (h : Lands cls ((l ++ a :: r).map (·.read)) (l.map (·.read) ++ (a.name, x) :: more)) :
    lowered a.name = "class".toList ∧ tokens x = tokens a.value.value ++ [cls] ∨
      lowered a.name ≠ "class".toList ∧ x = a.value.value := by
  have hread := valueOf_read hdistinct
  have hwritten : valueOf a.name (l.map (·.read) ++ (a.name, x) :: more) = some x :=
    valueOf_first (name_ne_before hdistinct)
  by_cases hname : lowered a.name = "class".toList
  · obtain ⟨value, hvalue, htokens⟩ := h.classes
    rw [valueOf_class hname, hwritten] at hvalue
    rw [valueOf_class hname, hread] at htokens
    cases hvalue
    exact Or.inl ⟨hname, htokens⟩
  · refine Or.inr ⟨hname, ?_⟩
    have hother := h.others a.name hname
    rw [hread, hwritten] at hother
    exact Option.some.inj hother

omit hcls in
include hdistinct in
theorem not_lands_of_missing : ¬ Lands cls ((l ++ a :: r).map (·.read)) (l.map (·.read)) := by
  intro h
  have hwritten : valueOf a.name (l.map (·.read)) = none := valueOf_eq_none (name_ne_before hdistinct)
  by_cases hname : lowered a.name = "class".toList
  · obtain ⟨value, hvalue, -⟩ := h.classes
    rw [valueOf_class hname, hwritten] at hvalue
    cases hvalue
  · have hother := h.others a.name hname
    rw [valueOf_read hdistinct, hwritten] at hother
    cases hother

include hdistinct in
theorem not_lands_of_ink (hvalue : ink x ≠ ink a.value.value) (hextended : ink x ≠ ink a.value.value ++ cls) :
    ¬ Lands cls ((l ++ a :: r).map (·.read)) (l.map (·.read) ++ (a.name, x) :: more) := by
  intro h
  rcases h.kept hdistinct with ⟨-, htokens⟩ | ⟨-, rfl⟩
  · exact hextended (ink_of_tokens hcls htokens)
  · exact hvalue rfl

end

omit hcls in
theorem not_mem_of_isName {name : List Char} (h : IsAttributeName name) : '\x22' ∉ name :=
  fun hm => (h.2 _ hm).2.2.2.2.1 rfl

/-- With a double quote in it a text is neither a value without one nor such a value with the class behind it. -/
theorem ink_ne_of_quote {x value : List Char} (hx : '\x22' ∈ x) (hvalue : '\x22' ∉ value) :
    ink x ≠ ink value ∧ ink x ≠ ink value ++ cls := by
  rw [← mem_ink (c := '\x22') rfl] at hx hvalue
  refine ⟨fun e => hvalue (e ▸ hx), fun e => ?_⟩
  rcases List.mem_append.mp (e ▸ hx) with hm | hm
  · exact hvalue hm
  · exact hcls.not_mem rfl hm

theorem ink_inserted_ne (z w : List Char) : ink (z ++ ' ' :: (cls ++ '\x22' :: w)) ≠ ink (z ++ '\x22' :: w) ∧
    ink (z ++ ' ' :: (cls ++ '\x22' :: w)) ≠ ink (z ++ '\x22' :: w) ++ cls := by
  have hspace : ink (' ' :: (cls ++ '\x22' :: w)) = ink (cls ++ '\x22' :: w) := List.filter_cons_of_neg (by decide)
  rw [ink_append, hspace, ink_append, ink_class hcls, ink_cons rfl, ink_append, ink_cons rfl]
  exact inserted_ne hcls (ink z) (ink w)

section
variable {gap name before behind : List Char} (hgap : gap.all isSpace = true) (hname : IsAttributeName name)
  (hspaces : (before ++ behind).all isSpace = true)
include hgap hname hspaces

/-- With the class in front of its opening quote a value is read without quotes: it begins with the class. -/
theorem exists_unquoted_value (t : List Char) :
    ∃ x more, readAttributes (gap ++ (name ++ (before ++ '=' :: (behind ++ ' ' :: (cls ++ '\x22' :: t))))) =
      (name, x) :: more ∧ '\x22' ∈ x := by
  obtain ⟨c, w, rfl⟩ := List.exists_cons_of_ne_nil hcls.nonempty
  have hbehind : (before ++ (behind ++ [' '])).all isSpace = true := by
    rw [← List.append_assoc, List.all_append, hspaces]
    rfl
  have hfirst := hcls.plain c List.mem_cons_self
  have hpart : ∀ d ∈ c :: w, isBarePart d = true := by
    intro d hd
    obtain ⟨hblank, -, hgt⟩ := hcls.plain d hd
    simp [isBarePart, isSpace_of_not_isBlank hblank, hgt]
  have hcut : gap ++ (name ++ (before ++ '=' :: (behind ++ ' ' :: (c :: w ++ '\x22' :: t)))) =
      gap ++ (name ++ (before ++ '=' :: (behind ++ [' '] ++ c :: (w ++ '\x22' :: t)))) := by simp
  rw [hcut, readAttributes_name hgap hname (head?_equals hbehind _), readValue_behind hbehind,
    readValue_bare (isSpace_of_not_isBlank hfirst.1) hfirst.2.1, ← List.cons_append,
    List.takeWhile_append_of_pos hpart, List.takeWhile_cons_of_pos rfl]
  exact ⟨_, _, rfl, by simp⟩

/-- With the class in it a value in quotes is read up to the same quote. -/
theorem readAttributes_inserted {q : Char} {z w : List Char} (hq : isQuote q = true) (hz : q ∉ z)
    (hw : q ∉ '\x22' :: w) (t : List Char) :
    readAttributes (gap ++ (name ++ (before ++ '=' :: (behind ++ q :: (z ++ ' ' :: (cls ++ '\x22' :: w) ++ q :: t))))) =
      (name, z ++ ' ' :: (cls ++ '\x22' :: w)) :: readAttributes t := by
  have hclosed : q ∉ z ++ ' ' :: (cls ++ '\x22' :: w) := by
    have hspace : q ≠ ' ' := by
      rintro rfl
      cases hq
    have hclass := hcls.not_mem hq
    simp only [List.mem_append, List.mem_cons, not_or] at hw ⊢
    exact ⟨hz, hspace, hclass, hw⟩
  rw [readAttributes_quoted hgap hname hspaces hq, breakOn_char_eq_some_iff.mpr ⟨rfl, hclosed⟩]
  rfl

end

/-- A double quote at which the class is inserted ends up in the value of its attribute. -/
theorem exists_altered_value {b : HtmlAttribute} {z y t : List Char} (h : b.value.text = z ++ '\x22' :: y)
    (hz : '\x22' ∉ z) :
    ∃ x more, readAttributes (b.gap ++ (b.name ++ (z ++ ' ' :: (cls ++ '\x22' :: (y ++ t))))) = (b.name, x) :: more ∧
      ink x ≠ ink b.value.value ∧ ink x ≠ ink b.value.value ++ cls := by
  obtain ⟨gap, name, value, _, hgap, hname⟩ := b
  dsimp only at h ⊢
  cases value with
  | none =>
    rw [AttributeValue.text] at h
    simp at h
  | bare before behind value spaces nonempty isBare =>
    have hmem : '\x22' ∈ (AttributeValue.bare before behind value spaces nonempty isBare).text := h ▸ by simp
    rw [List.all_append, Bool.and_eq_true] at spaces
    have hvalue : '\x22' ∉ value := fun hm => by simpa [isQuote] using List.all_eq_true.mp isBare _ hm
    simp [AttributeValue.text, not_mem_of_all_isSpace (c := '\x22') rfl spaces.1,
      not_mem_of_all_isSpace (c := '\x22') rfl spaces.2, hvalue] at hmem
  | quoted before behind q value spaces isQuote closed =>
    have hsplit := spaces
    rw [List.all_append, Bool.and_eq_true] at hsplit
    have hlead : '\x22' ∉ before ++ '=' :: behind := by
      simp [not_mem_of_all_isSpace (c := '\x22') rfl hsplit.1, not_mem_of_all_isSpace (c := '\x22') rfl hsplit.2]
    have hcut : (before ++ '=' :: behind) ++ q :: (value ++ [q]) = z ++ '\x22' :: y := by
      rw [← h]
      simp [AttributeValue.text]
    obtain ⟨z, rfl, hin⟩ := exists_behind rfl hlead hcut
    rw [List.mem_append, not_or] at hz
    rcases List.cons_eq_append_iff.mp hin with ⟨rfl, hq⟩ | ⟨z, rfl, hq⟩
    · -- the double quote opens the value
      obtain ⟨rfl, rfl⟩ := List.cons.inj hq
      obtain ⟨x, more, hread, hquote⟩ := exists_unquoted_value hcls hgap hname spaces (value ++ ['\x22'] ++ t)
      refine ⟨x, more, ?_, ink_ne_of_quote hcls hquote closed⟩
      simpa only [List.append_assoc, List.cons_append, List.nil_append] using hread
    · -- it is in the value, which goes on behind it
      rw [List.mem_cons, not_or] at hz
      have hvalue : ∃ w, value = z ++ '\x22' :: w ∧ y = w ++ [q] := by
        rcases append_eq_append_cases hq with ⟨w, -, hw⟩ | ⟨w, hw, rfl, hy⟩
        · cases w with
          | nil => exact absurd (List.cons.inj hw).1.symm hz.2.1
          | cons d w => simp at hw
        · obtain ⟨d, w, rfl⟩ := List.exists_cons_of_ne_nil hw
          obtain ⟨rfl, hy'⟩ := List.cons.inj hy
          exact ⟨w, rfl, hy'⟩
      obtain ⟨w, rfl, rfl⟩ := hvalue
      have hkept := closed
      rw [List.mem_append, not_or] at hkept
      have hread := readAttributes_inserted hcls hgap hname spaces isQuote hkept.1 hkept.2 t
      refine ⟨_, readAttributes t, ?_, ink_inserted_ne hcls z w⟩
      simpa only [List.append_assoc, List.cons_append, List.nil_append] using hread

/-- Of the attributes behind a place that goes on to a double quote, the one with that quote is changed: it comes to
    stand behind the class. -/
theorem exists_altered {r : List HtmlAttribute} {ending z rest : List Char} (hend : IsEnding ending)
    (h : texts r ++ ending = z ++ '\x22' :: rest) (hz : '\x22' ∉ z) :
    ∃ l a r' x more, r = l ++ a :: r' ∧
      readAttributes (z ++ ' ' :: (cls ++ '\x22' :: rest)) = l.map (·.read) ++ (a.name, x) :: more ∧
      ink x ≠ ink a.value.value ∧ ink x ≠ ink a.value.value ++ cls := by
  induction r generalizing z with
  | nil =>
    obtain ⟨spaces, hspaces, hending⟩ := hend.exists_spaces
    have hq : '\x22' ∈ ending := by
      have hmem : '\x22' ∈ texts [] ++ ending := by
        rw [h]
        simp
      simpa [texts] using hmem
    have hspace := not_mem_of_all_isSpace (c := '\x22') rfl hspaces
    rcases hending with rfl | rfl
    · exact absurd hq hspace
    · exact absurd hq (by simpa using hspace)
  | cons b r ih =>
    rw [texts_cons, List.append_assoc] at h
    rcases append_eq_append_cases h with ⟨z, rfl, hlater⟩ | ⟨y, hy, hb, hcut⟩
    · rw [List.mem_append, not_or] at hz
      obtain ⟨l, a, r, x, more, rfl, hread, hne, hne'⟩ := ih hlater hz.2
      have hends : b.value.EndsBefore (z ++ ' ' :: (cls ++ '\x22' :: rest)) := by
        obtain ⟨c, r', hr'⟩ : ∃ c r', l ++ a :: r = c :: r' := List.exists_cons_of_ne_nil (by simp)
        rw [hr', texts_cons, text, List.append_assoc, List.append_assoc, List.append_assoc] at hlater
        obtain ⟨z, rfl, hin⟩ := exists_behind rfl (not_mem_of_all_isSpace (c := '\x22') rfl c.spaces) hlater
        obtain ⟨z, rfl, -⟩ := exists_behind rfl (not_mem_of_isName c.isName) hin
        rw [List.append_assoc, List.append_assoc]
        exact endsBefore_name b.value c _
      refine ⟨b :: l, a, r, x, more, rfl, ?_, hne, hne'⟩
      rw [List.append_assoc, readAttributes_text b hends, hread]
      rfl
    · obtain ⟨d, y, rfl⟩ := List.exists_cons_of_ne_nil hy
      obtain ⟨rfl, hrest⟩ := List.cons.inj hcut
      change rest = y ++ (texts r ++ ending) at hrest
      have hgap := not_mem_of_all_isSpace (c := '\x22') rfl b.spaces
      rw [text] at hb
      obtain ⟨z, rfl, hin⟩ := exists_behind rfl hgap hb
      obtain ⟨z, rfl, hvalue⟩ := exists_behind rfl (not_mem_of_isName b.isName) hin
      simp only [List.mem_append, not_or] at hz
      obtain ⟨x, more, hread, hne, hne'⟩ := exists_altered_value hcls (t := texts r ++ ending) hvalue hz.2.2
      refine ⟨[], b, r, x, more, rfl, ?_, hne, hne'⟩
      rw [hrest]
      simpa only [List.append_assoc, List.map_nil, List.nil_append] using hread

section
variable {l r : List HtmlAttribute} {a : HtmlAttribute} {ending : List Char}
  (hdistinct : ((l ++ a :: r).map fun b => lowered b.name).Nodup) (hend : IsEnding ending)
include hdistinct hend

theorem not_lands_behind {z rest : List Char} (h : texts r ++ ending = z ++ '\x22' :: rest) (hz : '\x22' ∉ z) :
    ¬ Lands cls ((l ++ a :: r).map (·.read))
      (l.map (·.read) ++ a.read :: readAttributes (z ++ ' ' :: (cls ++ '\x22' :: rest))) := by
  obtain ⟨l', a', r', x, more, rfl, hread, hne, hne'⟩ := exists_altered hcls hend h hz
  have hlist : l ++ a :: (l' ++ a' :: r') = (l ++ a :: l') ++ a' :: r' := by simp
  have hwritten : l.map (·.read) ++ a.read :: (l'.map (·.read) ++ (a'.name, x) :: more) =
      (l ++ a :: l').map (·.read) ++ (a'.name, x) :: more := by simp
  rw [hlist] at hdistinct ⊢
  rw [hread, hwritten]
  exact not_lands_of_ink hcls hdistinct hne hne'

end

end

/-- What a class attribute has in it of the texts around it. -/
theorem ink_place {left right : List Char} (hblanks : (left ++ right).all isBlank = true) (u w : List Char) :
    ink (u ++ ("class".toList ++ (left ++ '=' :: (right ++ w)))) = ink (u ++ "class=".toList) ++ ink w := by
  rw [List.all_append, Bool.and_eq_true] at hblanks
  rw [class_equals, ink_append, ink_append, ink_append, ink_of_blanks hblanks.1, ink_cons rfl, ink_append,
    ink_of_blanks hblanks.2, ink_append, ink_append, ink_cons rfl]
  simp [ink]

/-! ## A place in a value -/

def readOpen (name : List Char) (q : Char) (t : List Char) : List (List Char × List Char) :=
  (breakOn [q] t).elim [] fun (x, s) => (name, x) :: readAttributes s

theorem readOpen_closed {q : Char} {x : List Char} (h : q ∉ x) (name s : List Char) :
    readOpen name q (x ++ q :: s) = (name, x) :: readAttributes s := by
  rw [readOpen, breakOn_char_eq_some_iff.mpr ⟨rfl, h⟩]
  rfl

theorem readAttributes_open (l : List HtmlAttribute) (a : HtmlAttribute) {before behind : List Char} {q : Char}
    (hspaces : (before ++ behind).all isSpace = true) (hq : isQuote q = true) (t : List Char) :
    readAttributes (texts l ++ (a.gap ++ (a.name ++ (before ++ '=' :: (behind ++ q :: t))))) =
      l.map (·.read) ++ readOpen a.name q t := by
  rw [readAttributes_before l a, readAttributes_quoted a.spaces a.isName hspaces hq, readOpen]

theorem extended_of_mem {cls value : List Char} {c : Char} (hc : isBlank c = false) (hm : c ∈ value) :
    extended cls value = value ++ ' ' :: cls := by
  have hnot : ¬ (trim value).isEmpty = true := by
    rw [isEmpty_trim]
    intro h
    exact not_mem_of_isBlank hc h hm
  rw [extended, if_neg hnot]

theorem not_mem_extended {cls value : List Char} {c : Char} (hcls : c ∉ cls) (hc : c ≠ ' ') (hvalue : c ∉ value) :
    c ∉ extended cls value := by
  unfold extended
  split
  · exact hcls
  · simp [hvalue, hc, hcls]

/-- Where a place goes on: in the value that it begins in, or at its end. -/
theorem exists_cut {v t left right value rest : List Char} {q quote : Char} (hq : isQuote q = true)
    (hblanks : (left ++ right).all isBlank = true)
    (h : v ++ q :: t = left ++ '=' :: (right ++ quote :: (value ++ quote :: rest))) :
    ∃ w, v = left ++ '=' :: (right ++ w) ∧ quote :: (value ++ quote :: rest) = w ++ q :: t := by
  have hlead : q ∉ left ++ '=' :: right := by
    rw [List.all_append, Bool.and_eq_true] at hblanks
    have hblank := isBlank_of_isQuote hq
    have hne : q ≠ '=' := by
      rintro rfl
      cases hq
    simp [not_mem_of_isBlank hblank hblanks.1, not_mem_of_isBlank hblank hblanks.2, hne]
  have hcut : (left ++ '=' :: right) ++ quote :: (value ++ quote :: rest) = v ++ q :: t := by
    rw [h]
    simp
  obtain ⟨w, rfl, hw⟩ := exists_behind rfl hlead hcut
  exact ⟨w, by simp, hw⟩

section
variable {cls : List Char} (hcls : IsClassToken cls)
  {l r : List HtmlAttribute} {a : HtmlAttribute} {ending : List Char}
  (hdistinct : ((l ++ a :: r).map fun b => lowered b.name).Nodup) (hend : IsEnding ending)
  {u left right value rest : List Char}
  (hblanks : (left ++ right).all isBlank = true)
include hcls hdistinct hend hblanks

/-- In a value in double quotes the class attribute that is written ends the value with its own first quote. -/
theorem not_lands_in_double {v : List Char} {quote : Char} (hread : a.value.value = u ++ ("class".toList ++ v))
    (hquote : isQuote quote = true) (hclosed : '\x22' ∉ u ++ ("class".toList ++ v)) (hvalue : quote ∉ value)
    (hrest : v ++ '\x22' :: (texts r ++ ending) = left ++ '=' :: (right ++ quote :: (value ++ quote :: rest))) :
    ¬ Lands cls ((l ++ a :: r).map (·.read)) (l.map (·.read) ++
      readOpen a.name '\x22' (u ++ "class=".toList ++ '\x22' :: (extended cls value ++ '\x22' :: rest))) := by
  have hx : '\x22' ∉ u ++ "class=".toList := by
    rw [List.mem_append, not_or] at hclosed ⊢
    exact ⟨hclosed.1, by decide⟩
  rw [readOpen_closed hx]
  intro hlands
  rcases hlands.kept hdistinct with ⟨-, htokens⟩ | ⟨-, hsame⟩
  · obtain ⟨w, rfl, -⟩ := exists_cut rfl hblanks hrest
    have hink := ink_of_tokens hcls htokens
    rw [hread, ink_place hblanks, List.append_assoc] at hink
    exact hcls.nonempty (List.append_eq_nil_iff.mp (List.self_eq_append_right.mp hink)).2
  · -- the value is left as it is: it ends with the place, which goes on in the attributes behind it
    rw [hread, class_equals, List.append_cancel_left_eq, List.append_cancel_left_eq] at hsame
    obtain rfl := hsame
    rw [List.all_append, Bool.and_eq_true] at hblanks
    have hnil : ([] : List Char).all isBlank = true := rfl
    obtain ⟨rfl, -, hin⟩ := blanks_cut hnil hblanks.1 rfl rfl hrest
    obtain ⟨rfl, rfl, htail⟩ := blanks_cut hnil hblanks.2 rfl (isBlank_of_isQuote hquote) hin
    have hnot : ¬ value.all isBlank = true := by
      intro h
      have hbehind : IsBehind (texts r ++ ending) := isBehind_texts hend
      have hnext := hbehind.next
      rw [htail, trimStart_append h rfl] at hnext
      exact Bool.noConfusion (hnext '\x22' rfl).2
    have hextended : extended cls value = value ++ ' ' :: cls := by rw [extended, isEmpty_trim, if_neg hnot]
    have hwritten : extended cls value ++ '\x22' :: rest = value ++ ' ' :: (cls ++ '\x22' :: rest) := by
      rw [hextended]
      simp
    have hsame : (a.name, u ++ "class=".toList) = a.read := by
      rw [HtmlAttribute.read, hread, class_equals]
    rw [hwritten, hsame] at hlands
    exact not_lands_behind hcls hdistinct hend htail hvalue hlands

end

/-! In a value in single quotes the class attribute that is written brings double quotes into it, or takes its last
quote away. The place begins in the value, behind `p`; its own first quote is the last one of the value, or the place
ends in the value, or it goes on in the attributes behind. -/

section
variable {cls : List Char} (hcls : IsClassToken cls)
  {l r : List HtmlAttribute} {a : HtmlAttribute} {ending : List Char}
  (hdistinct : ((l ++ a :: r).map fun b => lowered b.name).Nodup) {p : List Char}
include hcls hdistinct

theorem not_lands_unclosed (hlead : '\x27' ∉ p) (hink : ink a.value.value = ink p) (t : List Char) :
    ¬ Lands cls ((l ++ a :: r).map (·.read)) (l.map (·.read) ++ readOpen a.name '\x27' (p ++ '\x22' :: t)) := by
  cases hfound : breakOn ['\x27'] (p ++ '\x22' :: t) with
  | none =>
    rw [readOpen, hfound, Option.elim_none, List.append_nil]
    exact not_lands_of_missing hdistinct
  | some found =>
    obtain ⟨x, s⟩ := found
    rw [readOpen, hfound]
    have hcut := (breakOn_char_eq_some_iff.mp hfound).1
    have hquoted : '\x27' ∉ p ++ ['\x22'] := by simpa using hlead
    rw [List.append_cons p] at hcut
    obtain ⟨x, rfl, -⟩ := exists_behind rfl hquoted hcut
    have hinkx : ink (p ++ ['\x22'] ++ x) = ink p ++ '\x22' :: ink x := by
      rw [← List.append_cons, ink_append, ink_cons rfl]
    refine not_lands_of_ink hcls hdistinct ?_ ?_ <;> rw [hinkx, hink]
    · simp
    · simpa using append_quote_ne hcls (ink p) (ink x) []

theorem not_lands_within {value y : List Char} (hlead : '\x27' ∉ p) (hclosed : '\x27' ∉ value ++ '\x22' :: y)
    (hink : ink a.value.value = ink p ++ '\x22' :: ink (value ++ '\x22' :: y)) (s : List Char) :
    ¬ Lands cls ((l ++ a :: r).map (·.read)) (l.map (·.read) ++
      readOpen a.name '\x27' (p ++ '\x22' :: (extended cls value ++ '\x22' :: (y ++ '\x27' :: s)))) := by
  have hx : '\x27' ∉ p ++ '\x22' :: (extended cls value ++ '\x22' :: y) := by
    simp only [List.mem_append, List.mem_cons, not_or] at hclosed ⊢
    have hextended := not_mem_extended (hcls.not_mem (q := '\x27') rfl) (by decide) hclosed.1
    exact ⟨hlead, by decide, hextended, by decide, hclosed.2.2⟩
  have hwritten : p ++ '\x22' :: (extended cls value ++ '\x22' :: (y ++ '\x27' :: s)) =
      p ++ '\x22' :: (extended cls value ++ '\x22' :: y) ++ '\x27' :: s := by simp
  have hinkx : ink (p ++ '\x22' :: (extended cls value ++ '\x22' :: y)) =
      ink p ++ '\x22' :: ink value ++ (cls ++ '\x22' :: ink y) := by
    rw [ink_append, ink_cons rfl, ink_append, ink_extended hcls, ink_cons rfl]
    simp
  have hinka : ink a.value.value = ink p ++ '\x22' :: ink value ++ '\x22' :: ink y := by
    rw [hink, ink_append, ink_cons rfl]
    simp
  have hne := inserted_ne hcls (ink p ++ '\x22' :: ink value) (ink y)
  rw [← hinkx, ← hinka] at hne
  rw [hwritten, readOpen_closed hx]
  exact not_lands_of_ink hcls hdistinct hne.1 hne.2

theorem not_lands_beyond (hend : IsEnding ending) {w z rest : List Char} (hx : '\x27' ∉ p ++ '\x22' :: w)
    (hink : ink a.value.value = ink p ++ '\x22' :: ink w) (htail : texts r ++ ending = z ++ '\x22' :: rest)
    (hz : '\x22' ∉ z) :
    ¬ Lands cls ((l ++ a :: r).map (·.read)) (l.map (·.read) ++
      readOpen a.name '\x27' (p ++ '\x22' :: (extended cls (w ++ '\x27' :: z) ++ '\x22' :: rest))) := by
  have hwritten : p ++ '\x22' :: (extended cls (w ++ '\x27' :: z) ++ '\x22' :: rest) =
      p ++ '\x22' :: w ++ '\x27' :: (z ++ ' ' :: (cls ++ '\x22' :: rest)) := by
    rw [extended_of_mem (c := '\x27') rfl (by simp)]
    simp
  have hinkx : ink (p ++ '\x22' :: w) = ink a.value.value := by rw [hink, ink_append, ink_cons rfl]
  rw [hwritten, readOpen_closed hx]
  intro hlands
  rcases hlands.kept hdistinct with ⟨-, htokens⟩ | ⟨-, hsame⟩
  · have hextended := ink_of_tokens hcls htokens
    rw [hinkx] at hextended
    exact hcls.nonempty (List.self_eq_append_right.mp hextended)
  · rw [hsame] at hlands
    exact not_lands_behind hcls hdistinct hend htail hz hlands

theorem not_lands_in_single (hend : IsEnding ending) {u v left right value rest : List Char} {quote : Char}
    (hblanks : (left ++ right).all isBlank = true) (hread : a.value.value = u ++ ("class".toList ++ v))
    (hquote : isQuote quote = true) (hclosed : '\x27' ∉ u ++ ("class".toList ++ v)) (hvalue : quote ∉ value)
    (hrest : v ++ '\x27' :: (texts r ++ ending) = left ++ '=' :: (right ++ quote :: (value ++ quote :: rest))) :
    ¬ Lands cls ((l ++ a :: r).map (·.read)) (l.map (·.read) ++
      readOpen a.name '\x27' (u ++ "class=".toList ++ '\x22' :: (extended cls value ++ '\x22' :: rest))) := by
  obtain ⟨w, rfl, hw⟩ := exists_cut rfl hblanks hrest
  have hlead : '\x27' ∉ u ++ "class=".toList := by
    rw [List.mem_append, not_or] at hclosed ⊢
    exact ⟨hclosed.1, by decide⟩
  have hink := ink_place hblanks u w
  rw [← hread] at hink
  generalize u ++ "class=".toList = p at hlead hink ⊢
  cases w with
  | nil =>
    rw [show ink [] = [] from rfl, List.append_nil] at hink
    exact not_lands_unclosed hcls hdistinct hlead hink _
  | cons d w =>
    obtain ⟨rfl, hin⟩ := List.cons.inj hw
    change value ++ quote :: rest = w ++ '\x27' :: (texts r ++ ending) at hin
    simp only [List.mem_append, List.mem_cons, not_or] at hclosed
    obtain ⟨-, -, -, -, -, hne, hclosed⟩ := hclosed
    obtain rfl : quote = '\x22' := by
      simp only [isQuote, Bool.or_eq_true, beq_iff_eq] at hquote
      exact hquote.resolve_right fun e => hne e.symm
    rw [ink_cons rfl] at hink
    rcases append_eq_append_cases hin with ⟨y, rfl, hy⟩ | ⟨y, hy, rfl, hz⟩
    · cases y with
      | nil => cases hy
      | cons d y =>
        obtain ⟨rfl, rfl⟩ := List.cons.inj hy
        exact not_lands_within hcls hdistinct hlead hclosed hink _
    · obtain ⟨d, z, rfl⟩ := List.exists_cons_of_ne_nil hy
      obtain ⟨rfl, htail⟩ := List.cons.inj hz
      rw [List.mem_append, List.mem_cons, not_or, not_or] at hvalue
      have hx : '\x27' ∉ p ++ '\x22' :: w := by
        simp only [List.mem_append, List.mem_cons, not_or]
        exact ⟨hlead, by decide, hclosed⟩
      exact not_lands_beyond hcls hdistinct hend hx hink htail hvalue.2.2

end

/-! ## A place at the end of a name -/

theorem readAttributes_class (l : List HtmlAttribute) {a : HtmlAttribute} {p : List Char}
    (hname : a.name = p ++ "class".toList) (t : List Char) :
    readAttributes (texts l ++ (a.gap ++ p) ++ ("class=".toList ++ '\x22' :: t)) =
      l.map (·.read) ++ readOpen a.name '\x22' t := by
  have hcut : texts l ++ (a.gap ++ p) ++ ("class=".toList ++ '\x22' :: t) =
      texts l ++ (a.gap ++ (a.name ++ ([] ++ '=' :: ([] ++ '\x22' :: t)))) := by
    rw [hname, class_equals]
    simp
  rw [hcut, readAttributes_open l a rfl rfl]

section
variable {cls : List Char} (hcls : IsClassToken cls)
  {l r : List HtmlAttribute} {a : HtmlAttribute} {ending : List Char}
  (hdistinct : ((l ++ a :: r).map fun b => lowered b.name).Nodup)
include hcls

theorem tokens_extended {value : List Char} (hblank : value.all isBlank = true → value.all isSpace = true) :
    tokens (extended cls value) = tokens value ++ [cls] := by
  unfold extended
  rw [isEmpty_trim]
  split
  · rename_i h
    rw [tokens_eq_nil_iff.mpr (hblank h), hcls.tokens_eq]
    rfl
  · rw [tokens_append, hcls.tokens_eq]

include hdistinct

theorem lands_of_class {value : List Char} (hname : a.name = "class".toList) (hvalue : a.value.value = value)
    (hblank : value.all isBlank = true → value.all isSpace = true) :
    Lands cls ((l ++ a :: r).map (·.read)) (l.map (·.read) ++ (a.name, extended cls value) :: r.map (·.read)) := by
  refine ⟨⟨extended cls value, ?_, ?_⟩, fun name hne => ?_⟩
  · rw [← hname]
    exact valueOf_first (name_ne_before hdistinct)
  · rw [← hname, valueOf_read hdistinct, Option.getD_some, hvalue]
    exact tokens_extended hcls hblank
  · have hother : lowered a.name ≠ lowered name := by
      rw [hname]
      exact Ne.symm hne
    rw [List.map_append, List.map_cons, valueOf_append, valueOf_append, valueOf_cons_of_ne hother]
    exact congrArg _ (valueOf_cons_of_ne hother).symm

/-- At the end of a name it lands only in a class attribute whose value bears double quotes. -/
theorem class_of_lands {p value : List Char} (hname : a.name = p ++ "class".toList) (hvalue : a.value.value = value)
    (hlands : Lands cls ((l ++ a :: r).map (·.read))
      (l.map (·.read) ++ readOpen a.name '\x22' (extended cls value ++ '\x22' :: (texts r ++ ending)))) :
    p = [] ∧ '\x22' ∉ value ∧ (value.all isBlank = true → value.all isSpace = true) := by
  have hclosed : '\x22' ∉ value := by
    intro hm
    obtain ⟨y, z, rfl, hy⟩ := List.eq_append_cons_of_mem hm
    have hwritten : extended cls (y ++ '\x22' :: z) ++ '\x22' :: (texts r ++ ending) =
        y ++ '\x22' :: (z ++ ' ' :: cls ++ '\x22' :: (texts r ++ ending)) := by
      rw [extended_of_mem (c := '\x22') rfl hm]
      simp
    rw [hwritten, readOpen_closed hy] at hlands
    refine not_lands_of_ink hcls hdistinct ?_ ?_ hlands <;> rw [hvalue, ink_append, ink_cons rfl] <;> simp
  rw [readOpen_closed (not_mem_extended (hcls.not_mem rfl) (by decide) hclosed)] at hlands
  rcases hlands.kept hdistinct with ⟨hclass, htokens⟩ | ⟨-, hsame⟩
  · have hp : p = [] := by
      have hlength := congrArg List.length hclass
      rw [hname] at hlength
      simpa [lowered] using hlength
    refine ⟨hp, hclosed, fun hblank => ?_⟩
    rw [hvalue, extended, isEmpty_trim, if_pos hblank, hcls.tokens_eq] at htokens
    exact tokens_eq_nil_iff.mp (List.self_eq_append_left.mp htokens)
  · have hink := ink_extended hcls value
    rw [hsame, hvalue] at hink
    exact absurd (List.self_eq_append_right.mp hink) hcls.nonempty

end

/-! ## Landing -/

section
variable {cls : List Char} (hcls : IsClassToken cls) (list : AttributeList)

theorem not_isWord_of_isSpace {c : Char} (h : isSpace c = true) : isWord c = false := by
  simp only [isSpace, Bool.or_eq_true, beq_iff_eq] at h
  rcases h with (((rfl | rfl) | rfl) | rfl) | rfl <;> decide

theorem isClassPlace_class {l r : List HtmlAttribute} {a : HtmlAttribute} {left right value : List Char}
    {quote : Char} {spaces isQuote closed} (hlist : list.attributes = l ++ a :: r) (hname : a.name = "class".toList)
    (hvalue : a.value = .quoted left right quote value spaces isQuote closed) :
    IsClassPlace list.text (texts l ++ a.gap) left right quote value (texts r ++ list.ending) := by
  refine ⟨?_, ?_, all_isBlank_of_isSpace spaces, isQuote, closed⟩
  · rw [AttributeList.text, hlist, texts_append, texts_cons, text, hname, hvalue, AttributeValue.text]
    simp
  · rw [List.getLast?_append_of_ne_nil _ a.nonempty]
    obtain ⟨c, hc⟩ : ∃ c, a.gap.getLast? = some c := Option.ne_none_iff_exists'.mp (by simpa using a.nonempty)
    have hspace : isSpace c = true := List.all_eq_true.mp a.spaces c (List.mem_of_getLast? hc)
    rw [hc]
    exact not_isWord_of_isSpace hspace

theorem readAttributes_behind {l r : List HtmlAttribute} {a : HtmlAttribute} (hlist : list.attributes = l ++ a :: r) :
    readAttributes (texts r ++ list.ending) = r.map (·.read) := by
  refine readAttributes_texts list.isEnd fun b hb hbare => list.apart b ?_ hbare
  rw [hlist, List.getLast?_append_cons]
  cases r with
  | nil => cases hb
  | cons c r => rwa [List.getLast?_cons_cons]

include hcls

/-- With the class in an attribute of its own. -/
theorem lands_added_iff (hnone : findClass false list.text = none) :
    Lands cls (readAttributes list.text) (readAttributes (addClass cls list.text)) ↔
      tokens ((valueOf "class".toList (list.attributes.map (·.read))).getD []) = [] := by
  have hwritten : readAttributes (addClass cls list.text) =
      ("class".toList, cls) :: list.attributes.map (·.read) := by
    have hcut : addClass cls list.text =
        [' '] ++ ("class".toList ++ ([] ++ '=' :: ([] ++ '\x22' :: (cls ++ '\x22' :: list.text)))) := by
      rw [addClass_of_none hnone, class_equals]
      simp
    rw [hcut, readAttributes_quoted rfl isAttributeName_class rfl rfl,
      breakOn_char_eq_some_iff.mpr ⟨rfl, hcls.not_mem rfl⟩]
    exact congrArg _ list.readAttributes_text
  rw [hwritten, list.readAttributes_text]
  constructor
  · rintro ⟨⟨value, hvalue, htokens⟩, -⟩
    rw [valueOf_cons_self rfl] at hvalue
    cases hvalue
    rw [hcls.tokens_eq] at htokens
    exact List.self_eq_append_left.mp htokens
  · intro hempty
    refine ⟨⟨cls, valueOf_cons_self rfl, by rw [hempty, hcls.tokens_eq]; rfl⟩, fun name hne => valueOf_cons_of_ne ?_⟩
    exact Ne.symm hne

/-- The class lands exactly if it is put where it belongs. -/
theorem lands_iff :
    Lands cls (readAttributes list.text) (readAttributes (addClass cls list.text)) ↔ TakesClass list := by
  constructor
  · intro hlands
    cases hfound : findClass false list.text with
    | none => exact .added (no_place_iff.mp hfound) ((lands_added_iff hcls list hfound).mp hlands)
    | some found =>
      obtain ⟨before, value, rest⟩ := found
      obtain ⟨⟨left, right, quote, hplace⟩, hfirst⟩ := first_place_iff.mp hfound
      rw [list.readAttributes_text, addClass_of_some hfound] at hlands
      cases placeIn list.isEnd hplace.blanks hplace.isQuote hplace.closed hplace.text with
      | name l r a p hlist hvalue hname hbefore hrest =>
        subst hbefore hrest
        rw [hlist, readAttributes_class l hname] at hlands
        obtain ⟨rfl, hquote, hblank⟩ := class_of_lands hcls (hlist ▸ list.distinct) hname (by rw [hvalue]; rfl) hlands
        refine .extended l r a left right quote value hlist hname hvalue hquote hblank ?_
        rwa [List.append_nil] at hfirst
      | @value l r a front behind q u v spaces isQuote closed hlist hvalue hbefore hrest =>
        subst hbefore
        have hdistinct := hlist ▸ list.distinct
        have hwritten : texts l ++ (a.gap ++ (a.name ++ (front ++ '=' :: (behind ++ q :: u)))) ++
            ("class=".toList ++ '\x22' :: (extended cls value ++ '\x22' :: rest)) =
            texts l ++ (a.gap ++ (a.name ++ (front ++ '=' :: (behind ++ q ::
              (u ++ "class=".toList ++ '\x22' :: (extended cls value ++ '\x22' :: rest)))))) := by simp
        rw [hwritten, hlist, readAttributes_open l a spaces isQuote] at hlands
        have hread : a.value.value = u ++ ("class".toList ++ v) := by
          rw [hvalue]
          rfl
        simp only [Style.isQuote, Bool.or_eq_true, beq_iff_eq] at isQuote
        rcases isQuote with rfl | rfl
        · exact absurd hlands (not_lands_in_double hcls hdistinct list.isEnd hplace.blanks hread hplace.isQuote closed
            hplace.closed hrest)
        · exact absurd hlands (not_lands_in_single hcls hdistinct list.isEnd hplace.blanks hread hplace.isQuote closed
            hplace.closed hrest)
  · intro htakes
    cases htakes with
    | extended l r a left right quote value hlist hname hvalue hquote hblank hfirst =>
      have hfound := first_place_iff.mpr ⟨⟨left, right, quote, isClassPlace_class list hlist hname hvalue⟩, hfirst⟩
      have hclosed : '\x22' ∉ extended cls value := not_mem_extended (hcls.not_mem rfl) (by decide) hquote
      have hplain : a.name = [] ++ "class".toList := hname
      have hread := readAttributes_class l hplain (extended cls value ++ '\x22' :: (texts r ++ list.ending))
      rw [List.append_nil, readOpen_closed hclosed, readAttributes_behind list hlist] at hread
      rw [list.readAttributes_text, addClass_of_some hfound, hread, hlist]
      exact lands_of_class hcls (hlist ▸ list.distinct) hname (by rw [hvalue]; rfl) hblank
    | added hnone hempty => exact (lands_added_iff hcls list (no_place_iff.mpr hnone)).mpr hempty

end

/-! ## The tag that is written -/

/-- The number of elements open behind the pieces, `depth` being open before them. -/
def depthBehind : (depth : Nat) → List MarkupPiece → Nat
  | depth, [] => depth
  | depth, piece :: rest =>
    match piece with
    | .tag false name _ selfClosing => depthBehind (if standsAlone name selfClosing then depth else depth + 1) rest
    | .tag true .. => depthBehind (depth - 1) rest
    | _ => depthBehind depth rest

theorem markRoots_append (cls : List Char) (tags : List (List Char)) (depth : Nat) (front rest : List MarkupPiece) :
    markRoots cls tags depth (front ++ rest) =
      markRoots cls tags depth front ++ markRoots cls tags (depthBehind depth front) rest := by
  induction front generalizing depth with
  | nil => rfl
  | cons piece front ih =>
    cases piece with
    | char c => simp only [List.cons_append, markRoots, depthBehind, ih, List.append_assoc]
    | comment body => simp only [List.cons_append, markRoots, depthBehind, ih, List.append_assoc]
    | tag closing name attributes selfClosing =>
      cases closing <;> simp only [List.cons_append, markRoots, depthBehind, ih, List.append_assoc]

/-- A top-level tag of a reported name comes to bear the class where the search puts it, and the pieces around it are
    marked as without it. Read again, its attributes have the class behind their own classes and are otherwise as they
    were, exactly if the class goes where it belongs. -/
theorem class_lands_iff {style markup scopeClass : String} (hcls : IsClassToken scopeClass.toList)
    {front back : List MarkupPiece} {name attributes : List Char} {selfClosing : Bool}
    (hpieces : readPieces markup.toList = front ++ .tag false name attributes selfClosing :: back)
    (htop : depthBehind 0 front = 0) (hname : String.ofList name ∈ (scope style markup scopeClass).scopedTags)
    {list : AttributeList} (hlist : attributes ++ (if selfClosing then ['/'] else []) = list.text) :
    let cls := scopeClass.toList
    let tags := (scopeRules cls style.toList).2
    let slash := if selfClosing then ['/'] else []
    let written := addClass cls attributes
    (scope style markup scopeClass).markup.toList = markRoots cls tags 0 front ++
        (MarkupPiece.tag false name written selfClosing).text ++
          markRoots cls tags (if standsAlone name selfClosing then 0 else 1) back ∧
      (Lands cls (readAttributes (attributes ++ slash)) (readAttributes (written ++ slash)) ↔ TakesClass list) := by
  intro cls tags slash written
  have hmem : name ∈ tags := by
    rw [mem_scopedTags, String.toList_ofList] at hname
    exact hname
  constructor
  · have hmarked : (scope style markup scopeClass).markup.toList = markRootElements cls tags markup.toList := by
      simp only [scope, String.toList_ofList, cls, tags]
    have hroot : rootAttributes cls tags name attributes = written := if_pos (List.contains_iff_mem.mpr hmem)
    rw [hmarked, markRootElements, if_neg (by simpa using List.ne_nil_of_mem hmem), hpieces, markRoots_append, htop,
      markRoots_root, hroot, List.append_assoc]
  · have hwritten : written ++ slash = addClass cls list.text := by
      rw [← hlist]
      cases selfClosing with
      | false => simp [written, slash]
      | true => exact (addClass_slash cls attributes).symm
    rw [hwritten, show attributes ++ slash = list.text from hlist]
    exact lands_iff hcls list

/-- A class attribute in single quotes, behind an attribute whose name begins with its name and one without quotes. -/
theorem class_lands_in_single_quotes :
    let attributes := " class-id=\x22x\x22 id=a class = \x27b c\x27".toList
    let written := " class-id=\x22x\x22 id=a class=\x22b c s1\x22".toList
    IsClassToken "s1".toList ∧
      (scope "p \x7b \x7d" "<ul></ul><p class-id=\x22x\x22 id=a class = \x27b c\x27/>" "s1").markup =
        "<ul></ul><p class-id=\x22x\x22 id=a class=\x22b c s1\x22/>" ∧
      Lands "s1".toList (readAttributes (attributes ++ ['/'])) (readAttributes (written ++ ['/'])) := by
  intro attributes written
  have hcls : IsClassToken "s1".toList := ⟨by decide, by simp [isBlank, isQuote]⟩
  let other : HtmlAttribute :=
    ⟨[' '], "class-id".toList, .quoted [] [] '\x22' ['x'] rfl rfl (by decide), by decide, rfl, by decide⟩
  let bare : HtmlAttribute := ⟨[' '], "id".toList, .bare [] [] ['a'] rfl (by decide) rfl, by decide, rfl, by decide⟩
  let cls : HtmlAttribute :=
    ⟨[' '], "class".toList, .quoted [' '] [' '] '\x27' "b c".toList rfl rfl (by decide), by decide, rfl, by decide⟩
  let list : AttributeList := ⟨[other, bare, cls], ['/'], Or.inr rfl, by rintro _ ⟨⟩ ⟨⟩, by decide⟩
  have hlist : attributes ++ (if true then ['/'] else []) = list.text := by decide
  have hfirst := (first_place_iff.mp (by decide : findClass false list.text =
    some (" class-id=\x22x\x22 id=a ".toList, "b c".toList, ['/']))).2
  have htakes : TakesClass list := .extended [other, bare] [] cls [' '] [' '] '\x27' "b c".toList rfl rfl rfl
    (by decide) (by decide) hfirst
  let forest := Forest.element "ul".toList [] .nil [] (.single "p".toList attributes true .nil)
  have hpieces : readPieces "<ul></ul><p class-id=\x22x\x22 id=a class = \x27b c\x27/>".toList =
      [.tag false "ul".toList [] false,
        .tag true "ul".toList [] false] ++ .tag false "p".toList attributes true :: [] := by
    have hread := readPieces_markup_append (by decide : forest.WellFormed) []
    rwa [List.append_nil, readPieces, List.append_nil] at hread
  have hname : String.ofList "p".toList ∈
      (scope "p \x7b \x7d" "<ul></ul><p class-id=\x22x\x22 id=a class = \x27b c\x27/>" "s1").scopedTags := by
    rw [mem_scopedTags]
    decide +kernel
  obtain ⟨hmarkup, hlands⟩ := class_lands_iff hcls hpieces rfl hname hlist
  exact ⟨hcls, String.toList_injective (hmarkup.trans (by decide +kernel)), hlands.mpr htakes⟩

/-- A class is put into the attribute whose name only ends with that of the class attribute, and none lands. -/
theorem dashed_name_takes_class :
    (scope "p \x7b \x7d" "<p data-class=\x22x\x22>t</p>" "s1").markup = "<p data-class=\x22x s1\x22>t</p>" ∧
      ¬ Lands "s1".toList (readAttributes " data-class=\x22x\x22".toList)
        (readAttributes " data-class=\x22x s1\x22".toList) := by
  let forest := Forest.element "p".toList " data-class=\x22x\x22".toList (.text ['t'] .nil) [] .nil
  have hmarkup := markRootElements_markup "s1".toList (scopeRules "s1".toList "p \x7b \x7d".toList).2
    (by decide : forest.WellFormed)
  let data (value : List Char) (h : '\x22' ∉ value) : HtmlAttribute :=
    ⟨[' '], "data-class".toList, .quoted [] [] '\x22' value rfl rfl h, by decide, rfl, by decide⟩
  let list : AttributeList := ⟨[data "x s1".toList (by decide)], [], Or.inl rfl, by rintro _ ⟨⟩ ⟨⟩, by decide⟩
  have hread : readAttributes " data-class=\x22x s1\x22".toList = [("data-class".toList, "x s1".toList)] :=
    list.readAttributes_text
  constructor
  · refine String.toList_injective ?_
    simp only [scope, String.toList_ofList]
    exact hmarkup.trans (by decide +kernel)
  · rintro ⟨⟨value, hvalue, -⟩, -⟩
    have hnone : valueOf "class".toList [("data-class".toList, "x s1".toList)] = none := by decide
    rw [hread, hnone] at hvalue
    cases hvalue

end ComponentSite.Style
