/-
  ComponentSite.Proofs.ClassPlaces — where the attributes of a tag look like a class attribute.

  The class is put where the text goes on as `class="..."` does, with white space around the
  equals sign and quotes of either kind, and not behind a word character (`IsClassPlace`). The
  first such place counts (`first_place_iff`). In a list of attributes it lies at the end of a
  name, whose quoted value then is the one found, or in a quoted value (`placeIn`).
-/
import ComponentSite.Proofs.AttributeReading

namespace ComponentSite.Style
open Text

/-- Behind `before`, and no word character, the text goes on as a class attribute with a quoted value does. -/
structure IsClassPlace (s before left right : List Char) (quote : Char) (value rest : List Char) : Prop where
  text : s = before ++ ("class".toList ++ (left ++ '=' :: (right ++ quote :: (value ++ quote :: rest))))
  bound : (before.getLast?.map isWord).getD false = false
  blanks : (left ++ right).all isBlank = true
  isQuote : isQuote quote = true
  closed : quote ∉ value

/-! ## The first place is found -/

theorem trimStart_append {blanks : List Char} (h : blanks.all isBlank = true) {c : Char} (hc : isBlank c = false)
    (t : List Char) : trimStart (blanks ++ c :: t) = c :: t := by
  rw [trimStart, List.dropWhile_append_of_pos (List.all_eq_true.mp h), ← trimStart, trimStart_cons_of_not_isBlank hc]

theorem isBlank_of_isQuote {q : Char} (h : isQuote q = true) : isBlank q = false := by
  simp only [isQuote, Bool.or_eq_true, beq_iff_eq] at h
  rcases h with rfl | rfl <;> decide

theorem classValue?_eq_some_iff {s value rest : List Char} : classValue? s = some (value, rest) ↔
    ∃ left right quote, s = "class".toList ++ (left ++ '=' :: (right ++ quote :: (value ++ quote :: rest))) ∧
      (left ++ right).all isBlank = true ∧ isQuote quote = true ∧ quote ∉ value := by
  constructor
  · intro h
    obtain ⟨s₁, h₁, h⟩ := Option.bind_eq_some_iff.mp h
    obtain ⟨s₂, h₂, h⟩ := Option.bind_eq_some_iff.mp h
    have e₁ : s₁ = s₁.takeWhile isBlank ++ trimStart s₁ := List.takeWhile_append_dropWhile.symm
    have e₂ : s₂ = s₂.takeWhile isBlank ++ trimStart s₂ := List.takeWhile_append_dropWhile.symm
    split at h
    · rename_i q r hq
      split at h
      · rename_i hquote
        obtain ⟨hr, hclosed⟩ := breakOn_char_eq_some_iff.mp h
        refine ⟨s₁.takeWhile isBlank, s₂.takeWhile isBlank, q, ?_, ?_, hquote, hclosed⟩
        · rw [rest?_eq_some h₁]
          conv => lhs; rw [e₁, rest?_eq_some h₂, e₂, hq, hr]
          rfl
        · rw [List.all_append, List.all_takeWhile, List.all_takeWhile]
          rfl
      · cases h
    · cases h
  · rintro ⟨left, right, quote, rfl, hblanks, hquote, hclosed⟩
    rw [List.all_append, Bool.and_eq_true] at hblanks
    have hfound : breakOn [quote] (value ++ quote :: rest) = some (value, rest) :=
      breakOn_char_eq_some_iff.mpr ⟨rfl, hclosed⟩
    have hcond : (quote == '\x22' || quote == '\x27') = true := hquote
    unfold classValue?
    rw [rest?_append, Option.bind_eq_bind, Option.bind_some, trimStart_append hblanks.1 rfl, rest?_cons_self]
    simp only [rest?, Option.bind_some, trimStart_append hblanks.2 (isBlank_of_isQuote hquote), if_pos hcond, hfound]

/-- A word character is the last one of the text, or of what is in front of it. -/
def behindWord (afterWord : Bool) (before : List Char) : Bool := (before.getLast?.map isWord).getD afterWord

theorem behindWord_cons (afterWord : Bool) (c : Char) (before : List Char) :
    behindWord afterWord (c :: before) = behindWord (isWord c) before := by
  cases before with
  | nil => rfl
  | cons d before => simp [behindWord, List.getLast?_cons]

theorem findClass_eq_none_iff {afterWord : Bool} {s : List Char} : findClass afterWord s = none ↔
    ∀ before t, s = before ++ t → behindWord afterWord before = false → classValue? t = none := by
  induction s generalizing afterWord with
  | nil =>
    refine ⟨fun _ before t h _ => ?_, fun _ => rfl⟩
    rw [(List.append_eq_nil_iff.mp h.symm).2]
    rfl
  | cons c r ih =>
    have hcons : findClass afterWord (c :: r) = none ↔
        (afterWord = false → classValue? (c :: r) = none) ∧ findClass (isWord c) r = none := by
      rw [findClass]
      cases afterWord with
      | true => simp
      | false => cases classValue? (c :: r) <;> simp
    rw [hcons, ih]
    constructor
    · rintro ⟨hhere, hlater⟩ before t hs hword
      cases before with
      | nil =>
        obtain rfl : c :: r = t := hs
        exact hhere hword
      | cons d before =>
        obtain ⟨rfl, hr⟩ := List.cons.inj hs
        exact hlater before t hr (behindWord_cons afterWord c before ▸ hword)
    · intro h
      refine ⟨fun hword => h [] (c :: r) rfl hword, fun before t hr hword => ?_⟩
      exact h (c :: before) t (congrArg _ hr) (behindWord_cons afterWord c before ▸ hword)

theorem exists_of_findClass {afterWord : Bool} {s before value rest : List Char}
    (h : findClass afterWord s = some (before, value, rest)) :
    ∃ t, s = before ++ t ∧ behindWord afterWord before = false ∧
      classValue? t = some (value, rest) ∧
        ∀ front t, s = front ++ t → behindWord afterWord front = false → classValue? t ≠ none →
          before.length ≤ front.length := by
  induction s generalizing afterWord before with
  | nil => cases h
  | cons c r ih =>
    rw [findClass] at h
    split at h
    · rename_i hv
      cases h
      cases afterWord with
      | true => cases hv
      | false => exact ⟨c :: r, rfl, rfl, hv, fun _ _ _ _ _ => Nat.zero_le _⟩
    · rename_i hnone
      obtain ⟨⟨b, v, t⟩, hb, he⟩ := Option.map_eq_some_iff.mp h
      cases he
      obtain ⟨t, rfl, hword, hvalue, hfirst⟩ := ih hb
      refine ⟨t, rfl, (behindWord_cons afterWord c b).trans hword, hvalue, fun front t' hs hfront hplace => ?_⟩
      cases front with
      | nil =>
        obtain rfl : afterWord = false := hfront
        obtain rfl : c :: (b ++ t) = t' := hs
        exact absurd hnone hplace
      | cons d front =>
        obtain ⟨rfl, hr⟩ := List.cons.inj hs
        exact Nat.succ_le_succ (hfirst front t' hr (behindWord_cons afterWord c front ▸ hfront) hplace)

theorem exists_place_iff {s before value rest : List Char} :
    (∃ left right quote, IsClassPlace s before left right quote value rest) ↔
      ∃ t, s = before ++ t ∧ behindWord false before = false ∧ classValue? t = some (value, rest) := by
  constructor
  · rintro ⟨left, right, quote, htext, hbound, hblanks, hquote, hclosed⟩
    exact ⟨_, htext, hbound, classValue?_eq_some_iff.mpr ⟨left, right, quote, rfl, hblanks, hquote, hclosed⟩⟩
  · rintro ⟨t, rfl, hbound, hvalue⟩
    obtain ⟨left, right, quote, rfl, hblanks, hquote, hclosed⟩ := classValue?_eq_some_iff.mp hvalue
    exact ⟨left, right, quote, rfl, hbound, hblanks, hquote, hclosed⟩

/-- The class is looked for in vain exactly if there is no place for it. -/
theorem no_place_iff {s : List Char} : findClass false s = none ↔
    ∀ before left right quote value rest, ¬ IsClassPlace s before left right quote value rest := by
  rw [findClass_eq_none_iff]
  constructor
  · intro h before left right quote value rest hplace
    obtain ⟨t, hs, hbound, hvalue⟩ := exists_place_iff.mp ⟨left, right, quote, hplace⟩
    rw [h before t hs hbound] at hvalue
    cases hvalue
  · intro h before t hs hbound
    refine Option.eq_none_iff_forall_ne_some.mpr fun (value, rest) hvalue => ?_
    obtain ⟨left, right, quote, hplace⟩ := exists_place_iff.mpr ⟨t, hs, hbound, hvalue⟩
    exact h before left right quote value rest hplace

theorem first_place_iff {s before value rest : List Char} : findClass false s = some (before, value, rest) ↔
    (∃ left right quote, IsClassPlace s before left right quote value rest) ∧
      ∀ front left right quote value rest,
        IsClassPlace s front left right quote value rest → before.length ≤ front.length := by
  constructor
  · intro h
    obtain ⟨t, hs, hbound, hvalue, hfirst⟩ := exists_of_findClass h
    refine ⟨exists_place_iff.mpr ⟨t, hs, hbound, hvalue⟩, fun front left right quote value rest hplace => ?_⟩
    obtain ⟨t, hs, hbound, hvalue⟩ := exists_place_iff.mp ⟨left, right, quote, hplace⟩
    exact hfirst front t hs hbound (hvalue ▸ Option.some_ne_none _)
  · rintro ⟨⟨left, right, quote, hplace⟩, hfirst⟩
    cases h : findClass false s with
    | none => exact absurd hplace (no_place_iff.mp h before left right quote value rest)
    | some found =>
      obtain ⟨b, v, r⟩ := found
      obtain ⟨t', hs', hbound', hvalue', hleast⟩ := exists_of_findClass h
      obtain ⟨left', right', quote', hplace'⟩ := exists_place_iff.mpr ⟨t', hs', hbound', hvalue'⟩
      obtain ⟨t, hs, hbound, hvalue⟩ := exists_place_iff.mp ⟨left, right, quote, hplace⟩
      have hle := hleast before t hs hbound (hvalue ▸ Option.some_ne_none _)
      have hge := hfirst b left' right' quote' v r hplace'
      obtain ⟨rfl, rfl⟩ := List.append_inj (hs'.symm.trans hs) (Nat.le_antisymm hle hge)
      rw [hvalue] at hvalue'
      cases hvalue'
      rfl

/-! ## Places in a list of attributes -/

structure IsBehind (t : List Char) : Prop where
  head : t.head?.all isSeparator = true
  next : ∀ c ∈ (trimStart t).head?, c ≠ '=' ∧ isQuote c = false

section
variable {attributes : List HtmlAttribute} {ending : List Char}

theorem all_isBlank_of_isSpace {s : List Char} (h : s.all isSpace = true) : s.all isBlank = true :=
  List.all_eq_true.mpr fun c hc => isBlank_of_isSpace (List.all_eq_true.mp h c hc)

theorem blanks_around {before behind : List Char} (h : (before ++ behind).all isSpace = true) :
    before.all isBlank = true ∧ behind.all isBlank = true := by
  rw [List.all_append, Bool.and_eq_true] at h
  exact ⟨all_isBlank_of_isSpace h.1, all_isBlank_of_isSpace h.2⟩

theorem isBehind_ending (hend : IsEnding ending) : IsBehind ending := by
  obtain ⟨spaces, hspaces, h⟩ := hend.exists_spaces
  have hblanks := all_isBlank_of_isSpace hspaces
  refine ⟨?_, fun c hc => ?_⟩
  · cases spaces with
    | nil => rcases h with rfl | rfl <;> rfl
    | cons c spaces =>
      have hc : isSpace c = true := List.all_eq_true.mp hspaces c List.mem_cons_self
      rcases h with rfl | rfl <;> simp [isSeparator, hc]
  · rcases h with rfl | rfl
    · have hnone : (ending ++ []).dropWhile isBlank = [] := List.dropWhile_append_of_pos (List.all_eq_true.mp hblanks)
      rw [trimStart, ← List.append_nil ending, hnone] at hc
      cases hc
    · rw [trimStart_append hblanks rfl] at hc
      cases hc
      decide

theorem isBehind_texts (hend : IsEnding ending) : IsBehind (HtmlAttribute.texts attributes ++ ending) := by
  cases attributes with
  | nil => exact isBehind_ending hend
  | cons a attributes =>
    obtain ⟨gap, name, avalue, hgap, hspaces, hname⟩ := a
    obtain ⟨d, name, rfl⟩ := List.exists_cons_of_ne_nil hname.1
    obtain ⟨hd, -, -, heq, hdouble, hsingle⟩ := hname.2 d List.mem_cons_self
    have hcut : HtmlAttribute.texts (⟨gap, d :: name, avalue, hgap, hspaces, hname⟩ :: attributes) ++ ending =
        gap ++ d :: (name ++ avalue.text ++ HtmlAttribute.texts attributes ++ ending) := by
      simp [HtmlAttribute.texts_cons, HtmlAttribute.text]
    rw [hcut]
    refine ⟨?_, fun c hc => ?_⟩
    · obtain ⟨c, gap, rfl⟩ := List.exists_cons_of_ne_nil hgap
      have hc : isSpace c = true := List.all_eq_true.mp hspaces c List.mem_cons_self
      simp [isSeparator, hc]
    · rw [trimStart_append (all_isBlank_of_isSpace hspaces) hd] at hc
      cases hc
      exact ⟨heq, by simp [isQuote, hdouble, hsingle]⟩

end

section
variable {t left right value rest : List Char} {quote : Char}

/-- No quote comes next where there is none in front of what is behind an attribute. -/
theorem IsBehind.next_append (ht : IsBehind t) {x : List Char} (hx : ∀ c ∈ x, isQuote c = false) :
    ∀ c ∈ (trimStart (x ++ t)).head?, isQuote c = false := by
  induction x with
  | nil => exact fun c hc => (ht.next c hc).2
  | cons d x ih =>
    obtain ⟨hd, hx⟩ := List.forall_mem_cons.mp hx
    by_cases hblank : isBlank d = true
    · rw [List.cons_append, trimStart_cons_of_isBlank hblank]
      exact ih hx
    · rw [List.cons_append, trimStart_cons_of_not_isBlank (by simpa using hblank)]
      rintro c ⟨⟩
      exact hd

/-- No class attribute begins in a value without quotes. -/
theorem IsBehind.not_place (ht : IsBehind t) {x : List Char} (hne : x ≠ []) (hx : ∀ c ∈ x, isQuote c = false)
    (hblanks : (left ++ right).all isBlank = true) (hquote : isQuote quote = true) :
    x ++ t ≠ "class".toList ++ (left ++ '=' :: (right ++ quote :: (value ++ quote :: rest))) := by
  intro h
  rw [List.all_append, Bool.and_eq_true] at hblanks
  rcases List.append_eq_append_iff.mp h with ⟨y, hclass, rfl⟩ | ⟨y, rfl, hy⟩
  · cases y with
    | nil =>
      have hnext := ht.next
      rw [List.nil_append, trimStart_append hblanks.1 rfl] at hnext
      exact (hnext '=' rfl).1 rfl
    | cons d y =>
      have hd : d ∈ "class".toList := hclass ▸ List.mem_append_right x List.mem_cons_self
      have hhead : isSeparator d = true := by simpa using ht.head
      have hpart : isNamePart d = true := isNamePart_of_mem isAttributeName_class hd
      rw [isNamePart, hhead] at hpart
      cases hpart
  · rcases List.append_eq_append_iff.mp hy.symm with ⟨z, rfl, rfl⟩ | ⟨z, rfl, hz⟩
    · have hz : z.all isBlank = true := by
        rw [List.all_append, Bool.and_eq_true] at hblanks
        exact hblanks.1.2
      have hnext := ht.next
      rw [trimStart_append hz rfl] at hnext
      exact (hnext '=' rfl).1 rfl
    · cases z with
      | nil =>
        have hhead := ht.head
        rw [← List.nil_append t, ← hz] at hhead
        exact absurd hhead (by simp [isSeparator, isSpace])
      | cons d z =>
        obtain ⟨rfl, hw⟩ := List.cons.inj hz
        have hquotes : ∀ c ∈ z, isQuote c = false := fun c hc => hx c (by simp [hc])
        have hnext := ht.next_append hquotes
        change right ++ quote :: (value ++ quote :: rest) = z ++ t at hw
        rw [← hw, trimStart_append hblanks.2 (isBlank_of_isQuote hquote)] at hnext
        exact Bool.noConfusion ((hnext quote rfl).symm.trans hquote)

theorem append_eq_append_cases {p s before t : List Char} (h : p ++ s = before ++ t) :
    (∃ x, before = p ++ x ∧ s = x ++ t) ∨ ∃ x, x ≠ [] ∧ p = before ++ x ∧ t = x ++ s := by
  rcases List.append_eq_append_iff.mp h with ⟨x, hbefore, hs⟩ | ⟨x, hp, ht⟩
  · exact Or.inl ⟨x, hbefore, hs⟩
  · rcases eq_or_ne x [] with rfl | hx
    · exact Or.inl ⟨[], by simpa using hp.symm, by simpa using ht.symm⟩
    · exact Or.inr ⟨x, hx, hp, ht⟩

/-- A text that does not hold the first letter of another one is in front of it. -/
theorem exists_behind {p s before t : List Char} {c : Char} (ht : t.head? = some c) (hc : c ∉ p)
    (h : p ++ s = before ++ t) : ∃ x, before = p ++ x ∧ s = x ++ t := by
  rcases append_eq_append_cases h with hbehind | ⟨x, hx, rfl, rfl⟩
  · exact hbehind
  · rw [List.head?_append_of_ne_nil x hx] at ht
    exact absurd (List.mem_append_right before (List.mem_of_head? ht)) hc

/-- White space goes up to the first character that is none. -/
theorem blanks_cut {blanks blanks' s s' : List Char} {c c' : Char} (hblanks : blanks.all isBlank = true)
    (hblanks' : blanks'.all isBlank = true) (hc : isBlank c = false) (hc' : isBlank c' = false)
    (h : blanks ++ c :: s = blanks' ++ c' :: s') : blanks = blanks' ∧ c = c' ∧ s = s' := by
  obtain ⟨htake, hdrop⟩ := takeWhile_append_of_head (List.all_eq_true.mp hblanks) (t := c :: s) (by simp [hc])
  obtain ⟨htake', hdrop'⟩ := takeWhile_append_of_head (List.all_eq_true.mp hblanks') (t := c' :: s') (by simp [hc'])
  rw [h] at htake hdrop
  obtain ⟨rfl, rfl⟩ := List.cons.inj (hdrop.symm.trans hdrop')
  exact ⟨htake.symm.trans htake', rfl, rfl⟩

theorem not_mem_of_all_isSpace {c : Char} (hc : isSpace c = false) {s : List Char} (h : s.all isSpace = true) :
    c ∉ s :=
  fun hm => Bool.noConfusion (hc.symm.trans (List.all_eq_true.mp h c hm))

theorem AttributeValue.eq_quoted {avalue : AttributeValue} (ht : IsBehind t)
    (hblanks : (left ++ right).all isBlank = true) (hquote : isQuote quote = true) (hclosed : quote ∉ value)
    (h : avalue.text ++ t = left ++ '=' :: (right ++ quote :: (value ++ quote :: rest))) :
    ∃ spaces isQuote closed, avalue = .quoted left right quote value spaces isQuote closed ∧ rest = t := by
  rw [List.all_append, Bool.and_eq_true] at hblanks
  cases avalue with
  | none =>
    have hnext := ht.next
    change t = _ at h
    rw [h, trimStart_append hblanks.1 rfl] at hnext
    exact absurd rfl (hnext '=' rfl).1
  | bare before behind v spaces nonempty isBare =>
    have hspaces := blanks_around spaces
    have hcut : before ++ '=' :: ((behind ++ v) ++ t) =
        left ++ '=' :: (right ++ quote :: (value ++ quote :: rest)) := by
      rw [← h]
      simp [AttributeValue.text]
    obtain ⟨-, -, hcut⟩ := blanks_cut hspaces.1 hblanks.1 rfl rfl hcut
    have hplain : ∀ c ∈ behind ++ v, isQuote c = false := by
      refine List.forall_mem_append.mpr ⟨fun c hc => ?_, fun c hc => ?_⟩
      · refine Bool.eq_false_iff.mpr fun hq => ?_
        exact Bool.noConfusion ((isBlank_of_isQuote hq).symm.trans (List.all_eq_true.mp hspaces.2 c hc))
      · simpa using (Bool.and_eq_true_iff.mp (List.all_eq_true.mp isBare c hc)).2
    have hnext := ht.next_append hplain
    rw [hcut, trimStart_append hblanks.2 (isBlank_of_isQuote hquote)] at hnext
    exact Bool.noConfusion ((hnext quote rfl).symm.trans hquote)
  | quoted before behind q v spaces isQuote closed =>
    have hspaces := blanks_around spaces
    have hcut : before ++ '=' :: (behind ++ q :: (v ++ q :: t)) =
        left ++ '=' :: (right ++ quote :: (value ++ quote :: rest)) := by
      rw [← h]
      simp [AttributeValue.text]
    obtain ⟨rfl, -, hcut⟩ := blanks_cut hspaces.1 hblanks.1 rfl rfl hcut
    obtain ⟨rfl, rfl, hcut⟩ :=
      blanks_cut hspaces.2 hblanks.2 (isBlank_of_isQuote isQuote) (isBlank_of_isQuote hquote) hcut
    have hfound := breakOn_char_eq_some_iff.mpr ⟨(rfl : v ++ q :: t = _), closed⟩
    have hfound' := breakOn_char_eq_some_iff.mpr ⟨hcut, hclosed⟩
    obtain ⟨rfl, rfl⟩ := Prod.mk.inj (Option.some.inj (hfound.symm.trans hfound'))
    exact ⟨spaces, isQuote, closed, rfl, rfl⟩

/-- A place that begins behind a name begins behind the value of the name, or in it if it has quotes. -/
theorem AttributeValue.place_cases {avalue : AttributeValue} (ht : IsBehind t)
    (hblanks : (left ++ right).all isBlank = true)
    (hquote : isQuote quote = true) {before : List Char} (h : avalue.text ++ t =
      before ++ ("class".toList ++ (left ++ '=' :: (right ++ quote :: (value ++ quote :: rest))))) :
    (∃ x, before = avalue.text ++ x ∧
      t = x ++ ("class".toList ++ (left ++ '=' :: (right ++ quote :: (value ++ quote :: rest))))) ∨
      ∃ front behind q u v spaces isQuote closed,
        avalue = .quoted front behind q (u ++ ("class".toList ++ v)) spaces isQuote closed ∧
        before = front ++ '=' :: (behind ++ q :: u) ∧
          v ++ q :: t = left ++ '=' :: (right ++ quote :: (value ++ quote :: rest)) := by
  cases avalue with
  | none => exact Or.inl ⟨before, rfl, h⟩
  | bare front behind v spaces nonempty isBare =>
    rw [List.all_append, Bool.and_eq_true] at spaces
    have hlead : 'c' ∉ front ++ '=' :: behind := by
      simp [not_mem_of_all_isSpace (c := 'c') rfl spaces.1, not_mem_of_all_isSpace (c := 'c') rfl spaces.2]
    have hcut : (front ++ '=' :: behind) ++ (v ++ t) =
        before ++ ("class".toList ++ (left ++ '=' :: (right ++ quote :: (value ++ quote :: rest)))) := by
      rw [← h]
      simp [AttributeValue.text]
    obtain ⟨before, rfl, hin⟩ := exists_behind rfl hlead hcut
    rcases append_eq_append_cases hin with ⟨x, rfl, ht'⟩ | ⟨x, hx, hv, hplace⟩
    · exact Or.inl ⟨x, by simp [AttributeValue.text], ht'⟩
    -- in a value without quotes the place would have to go on with a quote behind it
    · have hplain : ∀ c ∈ x, isQuote c = false := by
        intro c hc
        have hmem : c ∈ v := hv ▸ List.mem_append_right before hc
        simpa using (Bool.and_eq_true_iff.mp (List.all_eq_true.mp isBare c hmem)).2
      exact absurd hplace.symm (ht.not_place hx hplain hblanks hquote)
  | quoted front behind q v spaces isQuote closed =>
    have hsplit := spaces
    rw [List.all_append, Bool.and_eq_true] at hsplit
    have hq : q ∉ "class".toList := by
      intro hm
      obtain ⟨-, -, -, -, hdouble, hsingle⟩ := isAttributeName_class.2 q hm
      simp [Style.isQuote, hdouble, hsingle] at isQuote
    have hne : 'c' ≠ q := fun e => hq (e ▸ List.mem_cons_self)
    have hlead : 'c' ∉ front ++ '=' :: (behind ++ [q]) := by
      simp [not_mem_of_all_isSpace (c := 'c') rfl hsplit.1, not_mem_of_all_isSpace (c := 'c') rfl hsplit.2, hne]
    have hcut : (front ++ '=' :: (behind ++ [q])) ++ (v ++ q :: t) =
        before ++ ("class".toList ++ (left ++ '=' :: (right ++ quote :: (value ++ quote :: rest)))) := by
      rw [← h]
      simp [AttributeValue.text]
    obtain ⟨before, rfl, hin⟩ := exists_behind rfl hlead hcut
    rcases append_eq_append_cases hin with ⟨x, rfl, hx⟩ | ⟨x, hx, rfl, hclass⟩
    · obtain ⟨x, rfl, ht'⟩ := exists_behind (p := [q]) (c := 'c') rfl (by simpa using hne) hx
      exact Or.inl ⟨x, by simp [AttributeValue.text], ht'⟩
    · refine Or.inr ?_
      rcases append_eq_append_cases hclass with ⟨w, rfl, hw⟩ | ⟨w, hw, hclass, ht'⟩
      · exact ⟨front, behind, q, before, w, spaces, isQuote, closed, rfl, by simp, hw.symm⟩
      · -- the closing quote is no letter
        obtain ⟨d, w, rfl⟩ := List.exists_cons_of_ne_nil hw
        obtain ⟨rfl, -⟩ := List.cons.inj ht'
        exact absurd (hclass ▸ by simp) hq

end

inductive PlaceIn (attributes : List HtmlAttribute) (ending before left right : List Char) (quote : Char)
    (value rest : List Char) : Prop
  /-- It ends the name of an attribute, and goes on with its value. -/
  | name (l r : List HtmlAttribute) (a : HtmlAttribute) (p : List Char) {spaces isQuote closed}
    (hlist : attributes = l ++ a :: r)
    (hvalue : a.value = .quoted left right quote value spaces isQuote closed) (hname : a.name = p ++ "class".toList)
    (hbefore : before = HtmlAttribute.texts l ++ (a.gap ++ p)) (hrest : rest = HtmlAttribute.texts r ++ ending)
  /-- It begins in the value of an attribute. -/
  | value (l r : List HtmlAttribute) (a : HtmlAttribute) (front behind : List Char) (q : Char) (u v : List Char)
    {spaces isQuote closed} (hlist : attributes = l ++ a :: r)
    (hvalue : a.value = .quoted front behind q (u ++ ("class".toList ++ v)) spaces isQuote closed)
    (hbefore : before = HtmlAttribute.texts l ++ (a.gap ++ (a.name ++ (front ++ '=' :: (behind ++ q :: u)))))
    (hrest : v ++ q :: (HtmlAttribute.texts r ++ ending) =
      left ++ '=' :: (right ++ quote :: (value ++ quote :: rest)))

section
variable {attributes : List HtmlAttribute} {ending before left right value rest : List Char} {quote : Char}

theorem PlaceIn.cons (a : HtmlAttribute) (h : PlaceIn attributes ending before left right quote value rest) :
    PlaceIn (a :: attributes) ending (a.text ++ before) left right quote value rest := by
  cases h with
  | name l r b p hlist hvalue hname hbefore hrest =>
    refine .name (a :: l) r b p (by rw [hlist]; rfl) hvalue hname ?_ hrest
    rw [hbefore, HtmlAttribute.texts_cons, List.append_assoc]
  | value l r b front behind q u v hlist hvalue hbefore hrest =>
    refine .value (a :: l) r b front behind q u v (by rw [hlist]; rfl) hvalue ?_ hrest
    rw [hbefore, HtmlAttribute.texts_cons, List.append_assoc]

def isLetterPart (c : Char) : Bool := isNamePart c && !isBlank c

theorem isLetterPart_of_mem {name : List Char} (h : IsAttributeName name) {c : Char} (hc : c ∈ name) :
    isLetterPart c = true := by
  rw [isLetterPart, isNamePart_of_mem h hc, (h.2 c hc).1]
  rfl

theorem head?_letterPart {blanks : List Char} (h : blanks.all isBlank = true) (t : List Char) :
    (blanks ++ '=' :: t).head?.all (!isLetterPart ·) = true := by
  cases blanks with
  | nil => rfl
  | cons c blanks =>
    have hc : isBlank c = true := List.all_eq_true.mp h c List.mem_cons_self
    simp [isLetterPart, hc]

theorem AttributeValue.head?_letterPart (avalue : AttributeValue) {t : List Char} (ht : IsBehind t) :
    (avalue.text ++ t).head?.all (!isLetterPart ·) = true := by
  cases avalue with
  | none =>
    cases t with
    | nil => rfl
    | cons c t =>
      have hc : isSeparator c = true := by simpa using ht.head
      simp [text, isLetterPart, isNamePart, hc]
  | bare before behind value spaces =>
    rw [text, List.append_assoc]
    exact Style.head?_letterPart (blanks_around spaces).1 _
  | quoted before behind q value spaces =>
    rw [text, List.append_assoc]
    exact Style.head?_letterPart (blanks_around spaces).1 _

theorem placeIn (hend : IsEnding ending) (hblanks : (left ++ right).all isBlank = true)
    (hquote : isQuote quote = true) (hclosed : quote ∉ value) (h : HtmlAttribute.texts attributes ++ ending =
      before ++ ("class".toList ++ (left ++ '=' :: (right ++ quote :: (value ++ quote :: rest))))) :
    PlaceIn attributes ending before left right quote value rest := by
  induction attributes generalizing before with
  | nil =>
    obtain ⟨spaces, hspaces, hending⟩ := hend.exists_spaces
    have hc : 'c' ∈ ending := by
      have hmem : 'c' ∈ HtmlAttribute.texts [] ++ ending := by
        rw [h]
        simp
      simpa [HtmlAttribute.texts] using hmem
    have hspace : 'c' ∉ spaces := fun hm => absurd (List.all_eq_true.mp hspaces _ hm) (by decide)
    rcases hending with rfl | rfl
    · exact absurd hc hspace
    · exact absurd hc (by simpa using hspace)
  | cons a attributes ih =>
    have hbehind : IsBehind (HtmlAttribute.texts attributes ++ ending) := isBehind_texts hend
    have hgap : 'c' ∉ a.gap := fun hm => absurd (List.all_eq_true.mp a.spaces _ hm) (by decide)
    have hcut : a.gap ++ (a.name ++ (a.value.text ++ (HtmlAttribute.texts attributes ++ ending))) =
        before ++ ("class".toList ++ (left ++ '=' :: (right ++ quote :: (value ++ quote :: rest)))) := by
      rw [← h, HtmlAttribute.texts_cons, HtmlAttribute.text]
      simp
    obtain ⟨before, rfl, hin⟩ := exists_behind rfl hgap hcut
    rcases append_eq_append_cases hin with ⟨before, rfl, hlater⟩ | ⟨y, hy, hname, hhere⟩
    · rcases AttributeValue.place_cases hbehind hblanks hquote hlater with ⟨x, rfl, hx⟩ | hvalue
      · have hlater := (ih hx).cons a
        rwa [HtmlAttribute.text, List.append_assoc, List.append_assoc] at hlater
      · obtain ⟨front, behind, q, u, v, spaces, isQuote, closed, hvalue, rfl, hrest⟩ := hvalue
        exact .value [] attributes a front behind q u v rfl hvalue rfl hrest
    · obtain ⟨rfl, hvalue⟩ : y = "class".toList ∧ a.value.text ++ (HtmlAttribute.texts attributes ++ ending) =
          left ++ '=' :: (right ++ quote :: (value ++ quote :: rest)) := by
        rw [List.all_append, Bool.and_eq_true] at hblanks
        have hparts : ∀ c ∈ y, isLetterPart c = true :=
          fun c hc => isLetterPart_of_mem a.isName (hname ▸ List.mem_append_right before hc)
        have hletters : ∀ c ∈ "class".toList, isLetterPart c = true :=
          fun c hc => isLetterPart_of_mem isAttributeName_class hc
        obtain ⟨htake, hdrop⟩ := takeWhile_append_of_head hparts (a.value.head?_letterPart hbehind)
        obtain ⟨htake', hdrop'⟩ := takeWhile_append_of_head hletters (head?_letterPart hblanks.1 _)
        rw [← hhere] at htake hdrop
        exact ⟨htake.symm.trans htake', hdrop.symm.trans hdrop'⟩
      obtain ⟨spaces, isQuote, closed, hvalue, hrest⟩ :=
        AttributeValue.eq_quoted hbehind hblanks hquote hclosed hvalue
      exact .name [] attributes a before rfl hvalue hname rfl hrest

end

end ComponentSite.Style
