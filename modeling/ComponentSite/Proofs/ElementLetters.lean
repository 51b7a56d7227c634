/-
  ComponentSite.Proofs.ElementLetters — what the names of a custom element are spelled with.

  Capitalising words changes capitals only. Whatever the walk has met before, it goes on with
  the ASCII letters and digits of the rest in order, and nothing else (`sameLetters_pascalFrom`);
  the white space that is trimmed off first holds none of them (`filter_trim`). So the class
  name has the letters and digits of the tag (`lowered_className`).

  The tag comes from the lower case of what shows of the source. In Unicode one character may
  have two in its lower case, and two characters beyond ASCII have a small ASCII letter there
  (`LowersTo`). The tag is that text, with a dash for whatever is no ASCII letter or digit
  (`flatMap_tagChars`), trimmed. No ASCII capital is left in it, so a tag has no case
  (`lowered_of_isTagChar`).

  Hence the names of every source are legal (`names_spelled`): the class name is an identifier,
  because no reserved word begins with a capital G (`isClassIdentifier_of_alphanum`).
-/
import ComponentSite.Proofs.ElementClashes

namespace ComponentSite

namespace Text

/-! ## Capitalised words -/

def SameLetter (d c : Char) : Prop := d.isAlphanum = true ∧ d.toLower = c.toLower

/-- A letter that is raised, lowered or kept is the same letter. -/
theorem sameLetter_recased (raise afterCapital : Bool) {c : Char} (h : c.isAlpha = true) :
    SameLetter (if raise then c.toUpper else if afterCapital then c.toLower else c) c := by
  split
  · refine ⟨?_, Char.toLower_toUpper_eq_toLower c⟩
    rw [Char.isAlphanum, Char.isAlpha_toUpper_eq_isAlpha, h, Bool.true_or]
  · split
    · refine ⟨?_, Char.toLower_toLower_eq_toLower c⟩
      rw [Char.isAlphanum, Char.isAlpha_toLower_eq_isAlpha, h, Bool.true_or]
    · exact ⟨by rw [Char.isAlphanum, h, Bool.true_or], rfl⟩

/-- In every state, the walk goes on with the letters and digits of the rest. -/
theorem sameLetters_pascalFrom (raise afterCapital : Bool) (s : List Char) :
    List.Forall₂ SameLetter (pascalFrom raise afterCapital s) (s.filter Char.isAlphanum) := by
  induction s generalizing raise afterCapital with
  | nil => exact .nil
  | cons c s ih =>
    -- The state decides the case of a letter, but not which characters stay, so the rest may be
    -- walked in any state.
    rw [pascalFrom]
    by_cases halpha : c.isAlpha = true
    · have hkept : c.isAlphanum = true := by rw [Char.isAlphanum, halpha, Bool.true_or]
      rw [if_pos halpha, List.filter_cons_of_pos hkept]
      exact .cons (sameLetter_recased raise afterCapital halpha) (ih _ _)
    · rw [if_neg halpha]
      by_cases hdigit : c.isDigit = true
      · have hkept : c.isAlphanum = true := by rw [Char.isAlphanum, hdigit, Bool.or_true]
        rw [if_pos hdigit, List.filter_cons_of_pos hkept]
        exact .cons ⟨hkept, rfl⟩ (ih _ _)
      · have hgone : ¬ c.isAlphanum = true := by simp [Char.isAlphanum, halpha, hdigit]
        rw [if_neg hdigit, List.filter_cons_of_neg hgone]
        exact ih _ _

theorem filter_dropWhile {p q : Char → Bool} (h : ∀ c, p c = true → q c = false) (s : List Char) :
    (s.dropWhile p).filter q = s.filter q := by
  have hdropped : (s.takeWhile p).filter q = [] :=
    List.filter_eq_nil_iff.mpr fun c hc => by simp [h c (List.mem_takeWhile_imp hc)]
  calc (s.dropWhile p).filter q
    _ = (s.takeWhile p).filter q ++ (s.dropWhile p).filter q := by rw [hdropped, List.nil_append]
    _ = s.filter q := by rw [← List.filter_append, List.takeWhile_append_dropWhile]

theorem not_isAlphanum_of_isBlank {c : Char} (h : isBlank c = true) : c.isAlphanum = false := by
  refine Bool.eq_false_iff.mpr fun halnum => ?_
  have hname : Style.isMarkupNameChar c = true := by rw [Style.isMarkupNameChar, halnum, Bool.true_or]
  simp [isBlank_of_isMarkupNameChar hname] at h

theorem filter_trim (s : List Char) : (trim s).filter Char.isAlphanum = s.filter Char.isAlphanum := by
  have hblank : ∀ c, isBlank c = true → c.isAlphanum = false := fun _ => not_isAlphanum_of_isBlank
  rw [trim, trimEnd, List.filter_reverse, filter_dropWhile hblank, List.filter_reverse, List.reverse_reverse,
    trimStart, filter_dropWhile hblank]

theorem sameLetters_pascalCase (s : String) :
    List.Forall₂ SameLetter (pascalCase s).toList (s.toList.filter Char.isAlphanum) := by
  rw [pascalCase, String.toList_ofList, ← filter_trim]
  exact sameLetters_pascalFrom true false _

theorem letters_pascalCase (s : String) : (pascalCase s).toList.all Char.isAlphanum = true ∧
    lowered (pascalCase s).toList = lowered (s.toList.filter Char.isAlphanum) := by
  obtain ⟨hletters, hsame⟩ := (List.forall₂_and_left _ _).mp (sameLetters_pascalCase s)
  refine ⟨List.all_eq_true.mpr hletters, ?_⟩
  rw [lowered, lowered, ← List.forall₂_eq_eq_eq, List.forall₂_map_left_iff, List.forall₂_map_right_iff]
  exact hsame

end Text

namespace CustomElement
open ComponentSite.Path
open Style (isTagChar)

variable {c : Char} {s low : List Char}

/-! ## Lower case -/

/-- The lower case of a character in Unicode, as far as ASCII shows in it. -/
inductive LowersTo : Char → List Char → Prop
  | ascii {c : Char} (h : c.toNat < 0x80) : LowersTo c [c.toLower]
  /-- The Kelvin sign is a `k`. -/
  | kelvin : LowersTo '\u212A' ['k']
  /-- The dotted capital I is an `i` and a combining dot. -/
  | dotted : LowersTo '\u0130' ['i', '\u0307']
  /-- Whatever else is beyond ASCII stays there. Which character it becomes may depend on its
      place, as for the sigma. -/
  | beyond {c d : Char} (hc : 0x80 ≤ c.toNat) (hkelvin : c ≠ '\u212A') (hdotted : c ≠ '\u0130')
      (hd : 0x80 ≤ d.toNat) : LowersTo c [d]

inductive IsLowerCase : List Char → List Char → Prop
  | nil : IsLowerCase [] []
  | cons {c : Char} {front s low : List Char} (hc : LowersTo c front) (hs : IsLowerCase s low) :
      IsLowerCase (c :: s) (front ++ low)

def dashed (c : Char) : Char := if c.isAlphanum then c else '-'

theorem not_isAlphanum_of_beyond (h : 0x80 ≤ c.toNat) : c.isAlphanum = false := by
  have habove : ∀ d : Char, d.toNat < 0x80 → ¬ c.val ≤ d.val := fun d hd hcd =>
    Nat.not_le_of_lt (Nat.lt_of_lt_of_le hd h) (UInt32.le_iff_toNat_le.mp hcd)
  refine Bool.eq_false_iff.mpr fun halnum => ?_
  simp only [Char.isAlphanum, Char.isAlpha, Char.isUpper, Char.isLower, Char.isDigit, Bool.or_eq_true,
    Bool.and_eq_true, decide_eq_true_eq] at halnum
  rcases halnum with (halnum | halnum) | halnum
  · exact habove 'Z' (by decide) halnum.2
  · exact habove 'z' (by decide) halnum.2
  · exact habove '9' (by decide) halnum.2

theorem exists_lowersTo (c : Char) : ∃ front, LowersTo c front := by
  by_cases hc : c.toNat < 0x80
  · exact ⟨_, .ascii hc⟩
  · by_cases hkelvin : c = '\u212A'
    · exact hkelvin ▸ ⟨_, .kelvin⟩
    · by_cases hdotted : c = '\u0130'
      · exact hdotted ▸ ⟨_, .dotted⟩
      · have hc : 0x80 ≤ c.toNat := Nat.le_of_not_lt hc
        exact ⟨[c], .beyond hc hkelvin hdotted hc⟩

theorem exists_isLowerCase (s : List Char) : ∃ low, IsLowerCase s low := by
  induction s with
  | nil => exact ⟨[], .nil⟩
  | cons c s ih =>
    obtain ⟨front, hc⟩ := exists_lowersTo c
    obtain ⟨low, hs⟩ := ih
    exact ⟨front ++ low, .cons hc hs⟩

theorem isLowerCase_of_ascii (h : s.all (·.toNat < 0x80) = true) : IsLowerCase s (Text.lowered s) := by
  induction s with
  | nil => exact .nil
  | cons c s ih =>
    obtain ⟨hc, hs⟩ := Bool.and_eq_true_iff.mp h
    exact .cons (.ascii (of_decide_eq_true hc)) (ih hs)

theorem tagChars_of_ne (hkelvin : c ≠ '\u212A') (hdotted : c ≠ '\u0130') :
    tagChars c = if c.isAlphanum then [c.toLower] else ['-'] := by
  have hnat : ∀ d : Char, c ≠ d → ¬ (c.toNat == d.toNat) = true := fun d hne h =>
    hne (Char.toNat_inj.mp (eq_of_beq h))
  have hkelvin : ¬ (c.toNat == 0x212A) = true := hnat _ hkelvin
  have hdotted : ¬ (c.toNat == 0x130) = true := hnat _ hdotted
  unfold tagChars
  rw [if_neg hkelvin, if_neg hdotted]

theorem tagChars_of_lowersTo (h : LowersTo c low) : tagChars c = low.map dashed := by
  cases h with
  | ascii hc =>
    have hne : ∀ d : Char, 0x80 ≤ d.toNat → c ≠ d := by
      rintro d hd rfl
      exact absurd hc (Nat.not_lt_of_le hd)
    rw [tagChars_of_ne (hne _ (by decide)) (hne _ (by decide)), List.map_singleton, dashed]
    split
    · rename_i halnum
      rw [if_pos (isAlphanum_toLower halnum)]
    · rename_i halnum
      have hsame : c.toLower = c := Char.toLower_eq_of_not_isUpper fun hupper => by
        simp [Char.isAlphanum, Char.isAlpha, hupper] at halnum
      rw [hsame, if_neg halnum]
  | kelvin => decide
  | dotted => decide
  | beyond hc hkelvin hdotted hd =>
    rw [tagChars_of_ne hkelvin hdotted, List.map_singleton, dashed, not_isAlphanum_of_beyond hc,
      not_isAlphanum_of_beyond hd]
    rfl

/-- The tag is spelled as the lower case, with dashes. -/
theorem flatMap_tagChars (h : IsLowerCase s low) : s.flatMap tagChars = low.map dashed := by
  induction h with
  | nil => rfl
  | cons hc _ ih => rw [List.flatMap_cons, tagChars_of_lowersTo hc, ih, List.map_append]

theorem toList_tag (s : List Char) : (ofStem s).tag.toList = "goo-".toList ++ trimDashes (s.flatMap tagChars) := by
  simp [ofStem]

theorem all_trimDashes (s : List Char) : (trimDashes (s.flatMap tagChars)).all isTagChar = true :=
  List.all_eq_true.mpr fun _ => isTagChar_of_mem_trimDashes

theorem lowered_of_isTagChar (h : s.all isTagChar = true) : Text.lowered s = s := by
  unfold Text.lowered
  conv_rhs => rw [← List.map_id s]
  exact List.map_congr_left fun c hc => toLower_of_isTagChar (List.all_eq_true.mp h c hc)

/-- The class name has the letters and digits of the tag. -/
theorem lowered_className (s : List Char) :
    Text.lowered (ofStem s).className.toList = (ofStem s).tag.toList.filter Char.isAlphanum := by
  have hchars : (ofStem s).tag.toList.all isTagChar = true := by
    rw [toList_tag, List.all_append, all_trimDashes, Bool.and_true]
    decide
  have hletters : ((ofStem s).tag.toList.filter Char.isAlphanum).all isTagChar = true :=
    List.all_eq_true.mpr fun c hc => List.all_eq_true.mp hchars c (List.mem_of_mem_filter hc)
  calc Text.lowered (ofStem s).className.toList
    _ = Text.lowered ((ofStem s).tag.toList.filter Char.isAlphanum) := (Text.letters_pascalCase (ofStem s).tag).2
    _ = (ofStem s).tag.toList.filter Char.isAlphanum := lowered_of_isTagChar hletters

/-! ## Identifiers -/

def reservedWords : List String := [
  "arguments", "await", "break", "case", "catch", "class", "const", "continue", "debugger", "default", "delete",
  "do", "else", "enum", "eval", "export", "extends", "false", "finally", "for", "function", "if", "implements",
  "import", "in", "instanceof", "interface", "let", "new", "null", "package", "private", "protected", "public",
  "return", "static", "super", "switch", "this", "throw", "true", "try", "typeof", "var", "void", "while", "with",
  "yield"]

/-- A script can declare a class of this name, which is written in ASCII. -/
structure IsClassIdentifier (name : String) : Prop where
  head : name.toList.head?.any (fun c => c.isAlpha || c == '$' || c == '_') = true
  chars : name.toList.all (fun c => c.isAlphanum || c == '$' || c == '_') = true
  free : name ∉ reservedWords

theorem isClassIdentifier_of_alphanum {name : String} {rest : List Char} (hname : name.toList = 'G' :: rest)
    (h : name.toList.all Char.isAlphanum = true) : IsClassIdentifier name := by
  have hwords : ∀ word ∈ reservedWords, word.toList.head? ≠ some 'G' := by decide
  have hfirst : name.toList.head? = some 'G' := by rw [hname, List.head?_cons]
  refine ⟨by rw [hfirst]; rfl, List.all_eq_true.mpr fun c hc => ?_, fun hmem => hwords name hmem hfirst⟩
  rw [List.all_eq_true.mp h c hc]
  rfl

/-! ## Names -/

/-- The tag of every source is `goo-` and then the lower case of what shows of the source, with a
    dash for whatever is no ASCII letter or digit and without the dashes at its ends; so it is made
    of small letters, digits and dashes. The class name begins with `Goo`, is an identifier of ASCII
    letters and digits, and spells the letters and digits of the tag, in order and up to case.
    Capitalising the words of any text keeps exactly its ASCII letters and digits, in order and up
    to case. -/
theorem names_spelled (path appDir : Path) (text : String) :
    let element := forPath path appDir
    (∃ low, IsLowerCase (shown appDir path) low) ∧
      (∀ low, IsLowerCase (shown appDir path) low →
        element.tag.toList = "goo-".toList ++ trimDashes (low.map dashed)) ∧
      (∃ rest, element.tag.toList = "goo-".toList ++ rest ∧ rest.all isTagChar = true) ∧
      (∃ rest, element.className.toList = "Goo".toList ++ rest) ∧
      element.className.toList.all Char.isAlphanum = true ∧ IsClassIdentifier element.className ∧
      Text.lowered element.className.toList = element.tag.toList.filter Char.isAlphanum ∧
      (Text.pascalCase text).toList.all Char.isAlphanum = true ∧
      Text.lowered (Text.pascalCase text).toList = Text.lowered (text.toList.filter Char.isAlphanum) := by
  intro element
  have htag : element.tag.toList = "goo-".toList ++ trimDashes ((shown appDir path).flatMap tagChars) :=
    toList_tag (shown appDir path)
  have hclass : element.className.toList = "Goo".toList ++ (words (shown appDir path)).map capital :=
    toList_className (shown appDir path)
  have hchars : element.className.toList.all Char.isAlphanum = true := (Text.letters_pascalCase element.tag).1
  refine ⟨exists_isLowerCase _, fun low hlow => ?_, ⟨_, htag, all_trimDashes _⟩, ⟨_, hclass⟩, hchars,
    isClassIdentifier_of_alphanum hclass hchars, lowered_className _, Text.letters_pascalCase text⟩
  rw [htag, flatMap_tagChars hlow]

/-- Two letters from beyond ASCII show in the names of this source. -/
theorem names_of_dotted_capital :
    let path : Path := ⟨"app/\u0130\u212A/Nav_Bar2.goo"⟩
    let low := "i\u0307k/nav_bar2".toList
    IsLowerCase (shown ⟨"app"⟩ path) low ∧ (forPath path ⟨"app"⟩).tag = "goo-i-k-nav-bar2" ∧
      Text.lowered (forPath path ⟨"app"⟩).className.toList = "gooiknavbar2".toList := by
  intro path low
  have hlow : IsLowerCase (shown ⟨"app"⟩ path) low := by
    have hshown : shown ⟨"app"⟩ path = '\u0130' :: '\u212A' :: "/Nav_Bar2".toList := by decide
    rw [hshown]
    exact .cons .dotted (.cons .kelvin (isLowerCase_of_ascii (by decide)))
  obtain ⟨-, htag, -, -, -, -, hclass, -⟩ := names_spelled path ⟨"app"⟩ ""
  have hspelled : (forPath path ⟨"app"⟩).tag = "goo-i-k-nav-bar2" :=
    String.toList_injective ((htag low hlow).trans (by decide))
  refine ⟨hlow, hspelled, ?_⟩
  rw [hclass, hspelled]
  decide

end CustomElement

end ComponentSite
