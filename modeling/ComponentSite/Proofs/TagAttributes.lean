/-
  ComponentSite.Proofs.TagAttributes — quoted attributes, as tag rewriting and style scoping
  read them.

  An attribute is a name and a value in quotes of either kind, which may hold anything but
  its own quote. Style scoping skips the value between its quotes and reads the tag whole
  (`tagOrComment?_attributes`). Tag rewriting does not know quotes: the first `>` ends the
  opening tag, also within a value. So it replaces the tag, and nothing else, exactly if no
  value holds a `>` (`attributes_replaced_iff`).
-/
import ComponentSite.Proofs.PlacedIncludes
import ComponentSite.Proofs.TagReading

namespace ComponentSite
open Text ComponentTag

def IsAttributeName (name : List Char) : Prop :=
  name ≠ [] ∧ ∀ c ∈ name, isBlank c = false ∧ c ≠ '/' ∧ c ≠ '>' ∧ c ≠ '=' ∧ c ≠ '\x22' ∧ c ≠ '\x27'

instance (name : List Char) : Decidable (IsAttributeName name) :=
  decidable_of_iff (name ≠ [] ∧ (name.all fun c => !isBlank c && !"/>=\x22\x27".toList.contains c) = true)
    (by simp [IsAttributeName])

structure QuotedAttribute where
  name : List Char
  quote : Char
  value : List Char
  isName : IsAttributeName name
  isQuote : quote = '\x22' ∨ quote = '\x27'
  closed : quote ∉ value

namespace QuotedAttribute

def text (a : QuotedAttribute) : List Char := ' ' :: a.name ++ '=' :: a.quote :: a.value ++ [a.quote]

def texts (attributes : List QuotedAttribute) : List Char := attributes.flatMap text

variable (a : QuotedAttribute) (attributes : List QuotedAttribute)

/-- Of the angle brackets only the closing one matters, and it can be in a value only. -/
theorem mem_text_iff : '>' ∈ a.text ↔ '>' ∈ a.value := by
  have hname : '>' ∉ a.name := fun hm => (a.isName.2 _ hm).2.2.1 rfl
  have hquote : '>' ≠ a.quote := by
    rcases a.isQuote with h | h <;> rw [h] <;> decide
  simp [text, hname, hquote]

theorem mem_texts_iff : '>' ∈ texts attributes ↔ ∃ a ∈ attributes, '>' ∈ a.value := by
  simp only [texts, List.mem_flatMap, mem_text_iff]

theorem head?_texts : (texts attributes).head?.all isBlank = true := by
  cases attributes with
  | nil => rfl
  | cons a attributes => rfl

end QuotedAttribute

/-! ## Style scoping -/

namespace Style
open QuotedAttribute

theorem openQuote_value {q : Char} {value : List Char} (h : q ∉ value) : openQuote (some q) value = some (some q) := by
  induction value with
  | nil => rfl
  | cons c value ih =>
    rw [List.mem_cons, not_or] at h
    have hstep : quoteStep (some q) c = some (some q) := by simp [quoteStep, Ne.symm h.1]
    rw [openQuote_cons, hstep]
    exact ih h.2

theorem openQuote_text (a : QuotedAttribute) : openQuote none a.text = some none := by
  have hplain : ∀ c ∈ ' ' :: a.name ++ ['='], c ≠ '>' ∧ c ≠ '\x22' ∧ c ≠ '\x27' := by
    intro c hc
    rcases List.mem_append.mp hc with hc | hc
    · rcases List.mem_cons.mp hc with rfl | hc
      · decide
      · obtain ⟨-, -, hgt, -, hdouble, hsingle⟩ := a.isName.2 c hc
        exact ⟨hgt, hdouble, hsingle⟩
    · rw [List.mem_singleton.mp hc]
      decide
  have hopen : quoteStep none a.quote = some (some a.quote) := by
    rcases a.isQuote with h | h <;> rw [h] <;> rfl
  have hclose : quoteStep (some a.quote) a.quote = some none := by simp [quoteStep]
  have hcut : a.text = (' ' :: a.name ++ ['=']) ++ a.quote :: (a.value ++ [a.quote]) := by simp [text]
  rw [hcut, openQuote_append, openQuote_plain hplain, Option.bind_some, openQuote_cons, hopen, Option.bind_some,
    openQuote_append, openQuote_value a.closed, Option.bind_some, openQuote_cons, hclose]
  rfl

/-- A tag can have quoted attributes, whatever their values are. -/
theorem areTagAttributes_texts (selfClosing : Bool) (attributes : List QuotedAttribute) :
    AreTagAttributes selfClosing (texts attributes) where
  head := by
    cases attributes with
    | nil => rfl
    | cons a attributes => rfl
  quotes := by
    induction attributes with
    | nil => rfl
    | cons a attributes ih =>
      rw [texts, List.flatMap_cons, openQuote_append, openQuote_text]
      exact ih
  last := by
    rintro - hlast
    rcases List.eq_nil_or_concat attributes with rfl | ⟨init, a, rfl⟩
    · cases hlast
    · have hquote : a.quote ≠ '/' := by
        rcases a.isQuote with h | h <;> rw [h] <;> decide
      have hcut : texts (init.concat a) = (texts init ++ ' ' :: a.name ++ '=' :: a.quote :: a.value) ++ [a.quote] := by
        simp [texts, text]
      rw [hcut, List.getLast?_concat] at hlast
      exact hquote (Option.some.inj hlast)

/-- Style scoping reads a tag with quoted attributes whole, whatever the values are. -/
theorem tagOrComment?_attributes {name : List Char} (hname : isElementName name = true)
    (attributes : List QuotedAttribute) (rest : List Char) :
    tagOrComment? ('<' :: name ++ texts attributes ++ ['/', '>'] ++ rest) =
      some (.tag false name (texts attributes) true, rest) := by
  have hcut : '<' :: name ++ texts attributes ++ ['/', '>'] ++ rest =
      (MarkupPiece.tag false name (texts attributes) true).text ++ rest := by simp [MarkupPiece.text]
  rw [hcut, tagOrComment?_tag false hname (areTagAttributes_texts true attributes)]

end Style

/-! ## Tag rewriting -/

namespace ComponentTag
open QuotedAttribute

variable {name replacement after : List Char}

/-- `after` is all of the text, or what a bracket stands in front of. -/
def EndsWith (after s : List Char) : Prop := s = after ∨ '>' :: after <:+ s

/-- What is left behind a tag ends as the text does, if it ends with text behind a bracket. -/
theorem endsWith_of_tag (hafter : '<' ∉ after) {front tag rest s : List Char} (htag : '>' ∉ tag)
    (hs : s = front ++ '<' :: (tag ++ '>' :: rest)) (h : '>' :: after <:+ s) : EndsWith after rest := by
  obtain ⟨u, e⟩ := h
  have e : (front ++ '<' :: tag) ++ '>' :: rest = u ++ '>' :: after := by rw [e, hs]; simp
  rcases List.append_eq_append_iff.mp e with ⟨a, -, ha⟩ | ⟨b, hb, hrest⟩
  · cases a with
    | nil => exact Or.inl (List.cons.inj ha).2
    | cons x a => exact Or.inr ⟨a, (List.cons.inj ha).2.symm⟩
  · cases b with
    | nil => exact Or.inl (List.cons.inj hrest).2.symm
    | cons x b =>
      -- the bracket in front of `after` would be one of the tag
      obtain ⟨rfl, rfl⟩ := List.cons.inj hrest
      rcases List.append_eq_append_iff.mp hb with ⟨a, -, ha⟩ | ⟨a, -, ha⟩
      · cases a with
        | nil => cases ha
        | cons y a =>
          obtain ⟨rfl, rfl⟩ := List.cons.inj ha
          exact absurd (by simp) htag
      · cases a with
        | nil => cases ha
        | cons y a =>
          obtain ⟨rfl, rfl⟩ := List.cons.inj ha
          exact absurd (by simp) hafter

theorem endsWith_of_element (hname : '>' ∉ name) (hafter : '<' ∉ after) {s rest : List Char}
    (he : element? name s = some rest) (h : '>' :: after <:+ s) : EndsWith after rest := by
  obtain ⟨inner, body, hinner, hs, hkind⟩ := element?_eq_some he
  rcases hkind with ⟨-, hclosing⟩ | ⟨-, rfl⟩
  · obtain ⟨front, t, rfl, ht⟩ := exists_of_afterClosingTag? hclosing
    obtain ⟨blanks, hblanks, rfl⟩ := closingTag?_eq_some ht
    have hgt : '>' ∉ '/' :: name ++ blanks := by simp [hname, not_mem_of_isBlank (c := '>') rfl hblanks]
    have hs : s = ('<' :: name ++ inner ++ '>' :: front) ++ '<' :: ('/' :: name ++ blanks ++ '>' :: rest) := by
      rw [hs]
      simp
    exact endsWith_of_tag hafter hgt hs h
  · have hgt : '>' ∉ name ++ inner := by simp [hname, hinner]
    have hs : s = [] ++ '<' :: (name ++ inner ++ '>' :: body) := by
      rw [hs]
      simp
    exact endsWith_of_tag hafter hgt hs h

/-- A pass keeps the end of the text, and puts what it puts in front of it. -/
theorem exists_replaceIn_endsWith (replacement : List Char) (hname : '>' ∉ name)
    (hafter : '<' ∉ after) {s : List Char} (h : EndsWith after s) :
    ∃ t, (replaceIn name replacement s).1 = t ++ after ∧
      (0 < (replaceIn name replacement s).2 → replacement.length ≤ t.length) := by
  have hkept : replaceIn name replacement after = (after, 0) := replaceIn_of_not_mem hafter
  induction s using passInduction name with
  | nil =>
    rcases h with rfl | h
    · exact ⟨[], by rw [hkept]; rfl, by rw [hkept]; exact fun h => absurd h (Nat.lt_irrefl 0)⟩
    · cases List.suffix_nil.mp h
  | element c r rest he ih =>
    have h : '>' :: after <:+ c :: r := by
      refine h.resolve_left ?_
      rintro rfl
      have hc : c ≠ '<' := fun e => hafter (e ▸ List.mem_cons_self)
      rw [element?_eq_none hc] at he
      cases he
    obtain ⟨t, ht, -⟩ := ih (endsWith_of_element hname hafter he h)
    rw [replaceIn_element he]
    exact ⟨replacement ++ t, by rw [ht, List.append_assoc], fun _ => by simp⟩
  | char c r he ih =>
    rcases h with rfl | h
    · exact ⟨[], by rw [hkept]; rfl, by rw [hkept]; exact fun h => absurd h (Nat.lt_irrefl 0)⟩
    · have hr : EndsWith after r := by
        rcases List.suffix_cons_iff.mp h with e | h
        · exact Or.inl (List.cons.inj e).2.symm
        · exact Or.inr h
      obtain ⟨t, ht, hle⟩ := ih hr
      rw [replaceIn_char he]
      refine ⟨c :: t, by rw [ht, List.cons_append], fun hpos => ?_⟩
      exact Nat.le_succ_of_le (hle hpos)

theorem replaceIn_of_count {s : List Char} (h : (replaceIn name replacement s).2 = 0) :
    (replaceIn name replacement s).1 = s := by
  induction s using passInduction name with
  | nil => rw [replaceIn]
  | element c r rest he ih =>
    rw [replaceIn_element he] at h
    cases h
  | char c r he ih =>
    rw [replaceIn_char he] at h ⊢
    exact congrArg (c :: ·) (ih h)

/-- A tag whose attributes hold a bracket is not what a pass replaces. -/
theorem not_replaced_of_bracket (hname : IsTagName name) {attributes : List Char} (hgt : '>' ∈ attributes)
    (hafter : '<' ∉ after) :
    replaceIn name replacement ('<' :: name ++ attributes ++ ['/', '>'] ++ after) ≠ (replacement ++ after, 1) := by
  intro e
  have hname' : '>' ∉ name := fun hm => (not_blank_of_endsTagName (hname.2 _ hm).2).2.2 rfl
  have hbehind : '>' :: after <:+ '<' :: name ++ attributes ++ ['/', '>'] ++ after :=
    ⟨'<' :: name ++ attributes ++ ['/'], by simp⟩
  have hcut : '<' :: name ++ attributes ++ ['/', '>'] ++ after =
      '<' :: (name ++ attributes ++ ['/', '>'] ++ after) := by simp
  rw [hcut] at e hbehind
  cases he : element? name ('<' :: (name ++ attributes ++ ['/', '>'] ++ after)) with
  | none =>
    -- the bracket of the tag stays in front of the replacement
    have hr : EndsWith after (name ++ attributes ++ ['/', '>'] ++ after) :=
      Or.inr ⟨name ++ attributes ++ ['/'], by simp⟩
    obtain ⟨t, ht, hle⟩ := exists_replaceIn_endsWith replacement hname' hafter hr
    rw [replaceIn_char he, ht] at e
    obtain ⟨htext, hcount⟩ := Prod.mk.inj e
    have hlength := congrArg List.length (List.append_cancel_right ((List.cons_append).trans htext))
    have hle := hle (by rw [show _ = 1 from hcount]; exact Nat.one_pos)
    rw [List.length_cons] at hlength
    omega
  | some rest =>
    have hrest := endsWith_of_element hname' hafter he hbehind
    rw [replaceIn_element he] at e
    obtain ⟨htext, hcount⟩ := Prod.mk.inj e
    have hrest : rest = after := by
      rw [← List.append_cancel_left htext]
      exact (replaceIn_of_count (Nat.succ.inj hcount)).symm
    subst hrest
    obtain ⟨inner, body, hinner, hs, hkind⟩ := element?_eq_some he
    rcases hkind with ⟨-, hclosing⟩ | ⟨-, rfl⟩
    · -- a closing tag does not end with a slash
      obtain ⟨front, t, rfl, ht⟩ := exists_of_afterClosingTag? hclosing
      obtain ⟨blanks, hblanks, rfl⟩ := closingTag?_eq_some ht
      have htags : ('<' :: name ++ attributes ++ ['/']) ++ '>' :: rest =
          ('<' :: name ++ inner ++ '>' :: front ++ ['<', '/'] ++ (name ++ blanks)) ++ '>' :: rest := by
        simpa using hs
      have hlast := congrArg List.getLast? (List.append_cancel_right htags)
      rw [List.getLast?_concat, List.getLast?_append_of_ne_nil _ (by simp [hname.1])] at hlast
      rcases List.mem_append.mp (List.mem_of_getLast? hlast.symm) with hm | hm
      · exact (not_blank_of_endsTagName (hname.2 _ hm).2).2.1 rfl
      · exact not_mem_of_isBlank rfl hblanks hm
    · have htags : (attributes ++ ['/']) ++ '>' :: body = inner ++ '>' :: body := by simpa using hs
      exact hinner (List.append_cancel_right htags ▸ List.mem_append_left _ hgt)

end ComponentTag

/-- A tag with quoted attributes is replaced as a whole, and alone, exactly if no value holds a
    closing bracket. Style scoping reads it whole in any case. -/
theorem attributes_replaced_iff {name : String} (hname : IsTagName name.toList) (attributes : List QuotedAttribute)
    (replacement : String) {before after : String} (hbefore : '<' ∉ before.toList) (hafter : '<' ∉ after.toList) :
    let tag := '<' :: name.toList ++ QuotedAttribute.texts attributes ++ ['/', '>']
    (ComponentTag.replace name (before ++ String.ofList tag ++ after) replacement =
      (before ++ replacement ++ after, 1) ↔
        ∀ a ∈ attributes, '>' ∉ a.value) ∧
      (Style.isElementName name.toList = true →
        Style.tagOrComment? (tag ++ after.toList) =
          some (.tag false name.toList (QuotedAttribute.texts attributes) true, after.toList)) := by
  intro tag
  have hpass : ComponentTag.replace name (before ++ String.ofList tag ++ after) replacement =
      (String.ofList (before.toList ++ (replaceIn name.toList replacement.toList (tag ++ after.toList)).1),
        (replaceIn name.toList replacement.toList (tag ++ after.toList)).2) := by
    rw [ComponentTag.replace, String.toList_append, String.toList_append, String.toList_ofList, List.append_assoc,
      replaceIn_chars hbefore]
  have hwhole : ComponentTag.replace name (before ++ String.ofList tag ++ after) replacement =
      (before ++ replacement ++ after, 1) ↔
      replaceIn name.toList replacement.toList (tag ++ after.toList) = (replacement.toList ++ after.toList, 1) := by
    rw [hpass, Prod.mk.injEq, Prod.ext_iff, ← String.toList_inj]
    simp
  refine ⟨hwhole.trans ⟨fun e a ha hgt => ?_, fun h => ?_⟩, fun hstyle => ?_⟩
  · exact not_replaced_of_bracket hname ((QuotedAttribute.mem_texts_iff attributes).mpr ⟨a, ha, hgt⟩) hafter e
  · have hgt : '>' ∉ QuotedAttribute.texts attributes := fun hm => by
      obtain ⟨a, ha, hgt⟩ := (QuotedAttribute.mem_texts_iff attributes).mp hm
      exact h a ha hgt
    have helement := element?_selfClosing name.toList (QuotedAttribute.head?_texts attributes) hgt after.toList
    simp only [tag, List.cons_append] at helement ⊢
    rw [replaceIn_element helement, replaceIn_of_not_mem hafter]
  · exact Style.tagOrComment?_attributes hstyle attributes after.toList

/-- Values with a slash, an opening bracket and a quote of the other kind, between texts. -/
theorem attributes_replaced_of_mixed_values :
    let attributes : List QuotedAttribute :=
      [⟨"href".toList, '\x22', "/a\x27b<c/".toList, by decide, Or.inl rfl, by decide⟩,
        ⟨"@x".toList, '\x27', "\x22\x22".toList, by decide, Or.inr rfl, by decide⟩]
    let tag := '<' :: "Card".toList ++ QuotedAttribute.texts attributes ++ ['/', '>']
    String.ofList tag = "<Card href=\x22/a\x27b<c/\x22 @x=\x27\x22\x22\x27/>" ∧
      ComponentTag.replace "Card" ("a > " ++ String.ofList tag ++ " b") "x" = ("a > x b", 1) := by
  intro attributes tag
  refine ⟨by decide, ?_⟩
  exact ((attributes_replaced_iff (show IsTagName "Card".toList by decide) attributes "x"
    (show '<' ∉ "a > ".toList by decide) (show '<' ∉ " b".toList by decide)).1).mpr (by decide)

/-- A tag with an arrow in a value is left as it is, and of one with a tag in a value the end
    is left. -/
theorem bracket_in_value_tears_tag :
    let arrow : QuotedAttribute := ⟨"on".toList, '\x22', "() => x".toList, by decide, Or.inl rfl, by decide⟩
    let shown : QuotedAttribute := ⟨"a".toList, '\x22', "<br/>".toList, by decide, Or.inl rfl, by decide⟩
    ComponentTag.replace "Card" (String.ofList ('<' :: "Card".toList ++ arrow.text ++ ['/', '>'])) "x" =
        ("<Card on=\x22() => x\x22/>", 0) ∧
      ComponentTag.replace "Card" (String.ofList ('<' :: "Card".toList ++ shown.text ++ ['/', '>'])) "x" =
        ("x\x22/>", 1) := by
  intro arrow shown
  constructor <;> decide +kernel

end ComponentSite
