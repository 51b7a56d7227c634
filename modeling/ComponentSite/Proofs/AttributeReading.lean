/-
  ComponentSite.Proofs.AttributeReading — the attributes of a tag, as a browser reads them.

  An attribute is a name, alone or with a value behind an equals sign: in quotes up to the next
  one of the kind, or without quotes up to white space. The text between the name of a tag and
  its end is read attribute by attribute (`readAttributes`). Attributes that are written behind
  white space are read as they are, whatever follows them (`readAttributes_texts`). Of a name
  that is there twice, in any letter case, the first one counts (`valueOf`).
-/
import ComponentSite.Proofs.Occurrences
import ComponentSite.Proofs.TagAttributes

namespace ComponentSite.Style
open Text

/-! ## Reading -/

/-- White space between attributes, around their equals signs, and between classes. -/
def isSpace (c : Char) : Bool := c == ' ' || c == '\t' || c == '\n' || c == '\x0c' || c == '\r'

def isQuote (c : Char) : Bool := c == '\x22' || c == '\x27'

def isSeparator (c : Char) : Bool := isSpace c || c == '/'

def isNamePart (c : Char) : Bool := !isSeparator c && c != '>' && c != '='

def isBarePart (c : Char) : Bool := !isSpace c && c != '>'

/-- The value behind a name and the text behind it, if its quote is closed. A name without an equals sign has the
    empty value. -/
def readValue (s : List Char) : Option (List Char × List Char) :=
  match s.dropWhile isSpace with
  | '=' :: r =>
    match r.dropWhile isSpace with
    | c :: r =>
      if isQuote c then breakOn [c] r else some ((c :: r).takeWhile isBarePart, (c :: r).dropWhile isBarePart)
    | [] => some ([], [])
  | r => some ([], r)

theorem readValue_length {s value rest : List Char} (h : readValue s = some (value, rest)) :
    rest.length ≤ s.length := by
  have hs := (List.dropWhile_suffix (l := s) isSpace).length_le
  unfold readValue at h
  split at h
  · rename_i r hr
    have hr' := (List.dropWhile_suffix (l := r) isSpace).length_le
    rw [hr, List.length_cons] at hs
    split at h
    · rename_i c t hc
      rw [hc, List.length_cons] at hr'
      split at h
      · have ht := congrArg List.length (breakOn_append h)
        simp only [List.length_append] at ht
        omega
      · cases h
        have ht := (List.dropWhile_suffix (l := c :: t) isBarePart).length_le
        rw [List.length_cons] at ht
        omega
    · cases h
      exact Nat.zero_le _
  · cases h
    exact hs

/-- The names and values in a text that ends with its tag, or in front of the `>` that ends it. -/
def readAttributes (s : List Char) : List (List Char × List Char) :=
  match hs : s.dropWhile isSeparator with
  | [] => []
  | c :: r =>
    if c == '>' then []
    else
      match hv : readValue (r.dropWhile isNamePart) with
      | none => []
      | some (value, rest) =>
        have : rest.length < s.length := by
          have h₁ := (List.dropWhile_suffix (l := s) isSeparator).length_le
          have h₂ := (List.dropWhile_suffix (l := r) isNamePart).length_le
          have h₃ := readValue_length hv
          rw [hs, List.length_cons] at h₁
          omega
        (c :: r.takeWhile isNamePart, value) :: readAttributes rest
termination_by s.length

theorem readAttributes_eq (s : List Char) : readAttributes s =
    match s.dropWhile isSeparator with
    | [] => []
    | c :: r =>
      if c == '>' then []
      else (readValue (r.dropWhile isNamePart)).elim [] fun (value, rest) =>
        (c :: r.takeWhile isNamePart, value) :: readAttributes rest := by
  rw [readAttributes]
  split
  · rename_i h
    rw [h]
  · rename_i c r h
    conv => rhs; rw [h]
    dsimp only
    split
    · rfl
    · split
      · rename_i hv
        rw [hv]
        rfl
      · rename_i hv
        rw [hv]
        rfl

def valueOf (name : List Char) (attributes : List (List Char × List Char)) : Option (List Char) :=
  (attributes.find? fun a => lowered a.1 == lowered name).map (·.2)

/-- The classes that a value names. -/
def tokens (value : List Char) : List (List Char) := (value.splitOnP isSpace).filter (!·.isEmpty)

/-! ## Attributes -/

/-- What stands behind a name: nothing, or an equals sign with a value, which has no white space in it if it has no
    quotes. -/
inductive AttributeValue
  | none
  | bare (before behind value : List Char) (spaces : (before ++ behind).all isSpace = true) (nonempty : value ≠ [])
    (isBare : (value.all fun c => isBarePart c && !isQuote c) = true)
  | quoted (before behind : List Char) (quote : Char) (value : List Char)
    (spaces : (before ++ behind).all isSpace = true) (isQuote : isQuote quote = true) (closed : quote ∉ value)

namespace AttributeValue

def text : AttributeValue → List Char
  | none => []
  | bare before behind value .. => before ++ '=' :: (behind ++ value)
  | quoted before behind quote value .. => before ++ '=' :: (behind ++ quote :: (value ++ [quote]))

def value : AttributeValue → List Char
  | none => []
  | bare _ _ value .. => value
  | quoted _ _ _ value .. => value

def IsBare : AttributeValue → Prop
  | bare .. => True
  | _ => False

instance : (v : AttributeValue) → Decidable v.IsBare
  | none => .isFalse id
  | bare .. => .isTrue trivial
  | quoted .. => .isFalse id

end AttributeValue

structure HtmlAttribute where
  gap : List Char
  name : List Char
  value : AttributeValue
  nonempty : gap ≠ []
  spaces : gap.all isSpace = true
  isName : IsAttributeName name

namespace HtmlAttribute

def text (a : HtmlAttribute) : List Char := a.gap ++ (a.name ++ a.value.text)

def texts (attributes : List HtmlAttribute) : List Char := attributes.flatMap text

/-- The name and the value as they are read. -/
def read (a : HtmlAttribute) : List Char × List Char := (a.name, a.value.value)

end HtmlAttribute

def IsEnding (ending : List Char) : Prop := ending.dropWhile isSpace = [] ∨ ending.dropWhile isSpace = ['/']

/-- Attributes with names of their own, and white space and perhaps a slash behind them. The slash is apart from a
    value without quotes, of which it would be a part. -/
structure AttributeList where
  attributes : List HtmlAttribute
  ending : List Char
  isEnd : IsEnding ending
  apart : ∀ a ∈ attributes.getLast?, a.value.IsBare → ending ≠ ['/']
  distinct : (attributes.map fun a => lowered a.name).Nodup

namespace AttributeList

def text (list : AttributeList) : List Char := HtmlAttribute.texts list.attributes ++ list.ending

end AttributeList

/-! ## Attributes are read as they are -/

theorem isBlank_of_isSpace {c : Char} (h : isSpace c = true) : isBlank c = true := by
  simp only [isSpace, Bool.or_eq_true, beq_iff_eq] at h
  rcases h with (((rfl | rfl) | rfl) | rfl) | rfl <;> decide

theorem isSpace_of_not_isBlank {c : Char} (h : isBlank c = false) : isSpace c = false :=
  Bool.eq_false_iff.mpr fun hs => Bool.noConfusion (h.symm.trans (isBlank_of_isSpace hs))

theorem IsEnding.exists_spaces {ending : List Char} (h : IsEnding ending) :
    ∃ spaces, spaces.all isSpace = true ∧ (ending = spaces ∨ ending = spaces ++ ['/']) := by
  have hcut : ending = ending.takeWhile isSpace ++ ending.dropWhile isSpace := List.takeWhile_append_dropWhile.symm
  refine ⟨ending.takeWhile isSpace, List.all_takeWhile, ?_⟩
  rcases h with h | h
  · exact Or.inl (by rwa [h, List.append_nil] at hcut)
  · exact Or.inr (by rwa [h] at hcut)

theorem isNamePart_of_mem {name : List Char} (h : IsAttributeName name) {c : Char} (hc : c ∈ name) :
    isNamePart c = true := by
  obtain ⟨hblank, hslash, hgt, heq, -, -⟩ := h.2 c hc
  simp [isNamePart, isSeparator, isSpace_of_not_isBlank hblank, hslash, hgt, heq]

theorem isAttributeName_class : IsAttributeName "class".toList := by decide

/-- What may stand behind an attribute, so that it ends there. -/
def AttributeValue.EndsBefore : AttributeValue → List Char → Prop
  | none, t => t.head?.all isSeparator = true ∧ (t.dropWhile isSpace).head? ≠ some '='
  | bare .., t => t.head?.all isSpace = true
  | quoted .., _ => True

section
variable {gap name before behind t : List Char} {q : Char}

theorem dropWhile_isSpace {s : List Char} (hs : s.all isSpace = true) (t : List Char) :
    (s ++ t).dropWhile isSpace = t.dropWhile isSpace :=
  List.dropWhile_append_of_pos (List.all_eq_true.mp hs)

theorem readValue_behind (h : (before ++ behind).all isSpace = true) (t : List Char) :
    readValue (before ++ '=' :: (behind ++ t)) = readValue ('=' :: t) := by
  rw [List.all_append, Bool.and_eq_true] at h
  unfold readValue
  rw [dropWhile_isSpace h.1]
  simp only [List.dropWhile_cons_of_neg (by decide : ¬ isSpace '=' = true), dropWhile_isSpace h.2]

theorem readValue_quoted (hq : isQuote q = true) (t : List Char) : readValue ('=' :: q :: t) = breakOn [q] t := by
  have hspace : ¬ isSpace q = true := by
    simp only [isQuote, Bool.or_eq_true, beq_iff_eq] at hq
    rcases hq with rfl | rfl <;> decide
  unfold readValue
  simp only [List.dropWhile_cons_of_neg (by decide : ¬ isSpace '=' = true), List.dropWhile_cons_of_neg hspace,
    if_pos hq]

theorem readValue_bare {c : Char} (hc : isSpace c = false) (hq : isQuote c = false) (t : List Char) :
    readValue ('=' :: c :: t) = some ((c :: t).takeWhile isBarePart, (c :: t).dropWhile isBarePart) := by
  unfold readValue
  simp only [List.dropWhile_cons_of_neg (by decide : ¬ isSpace '=' = true),
    List.dropWhile_cons_of_neg (ne_true_of_eq_false hc), if_neg (ne_true_of_eq_false hq)]

theorem readValue_none (h : (t.dropWhile isSpace).head? ≠ some '=') :
    readValue t = some ([], t.dropWhile isSpace) := by
  unfold readValue
  split
  · rename_i r hr
    rw [hr] at h
    exact absurd rfl h
  · rfl

theorem head?_equals (h : (before ++ behind).all isSpace = true) (t : List Char) :
    (before ++ '=' :: t).head?.all (!isNamePart ·) = true := by
  cases before with
  | nil => rfl
  | cons c before =>
    have hc : isSpace c = true := List.all_eq_true.mp h c (by simp)
    simp [isNamePart, isSeparator, hc]

theorem readAttributes_name (hgap : gap.all isSpace = true) (hname : IsAttributeName name)
    (ht : t.head?.all (!isNamePart ·) = true) :
    readAttributes (gap ++ (name ++ t)) =
      (readValue t).elim [] fun (value, rest) => (name, value) :: readAttributes rest := by
  obtain ⟨hne, hparts⟩ := And.intro hname.1 fun c hc => isNamePart_of_mem (c := c) hname hc
  obtain ⟨c, r, rfl⟩ := List.exists_cons_of_ne_nil hne
  obtain ⟨hc, hr⟩ := List.forall_mem_cons.mp hparts
  have hsep : ¬ isSeparator c = true ∧ ¬ (c == '>') = true := by
    simp only [isNamePart, Bool.and_eq_true, Bool.not_eq_true', bne_iff_ne] at hc
    exact ⟨ne_true_of_eq_false hc.1.1, by simpa using hc.1.2⟩
  have hskip : (gap ++ (c :: r ++ t)).dropWhile isSeparator = c :: (r ++ t) := by
    rw [List.dropWhile_append_of_pos fun d hd => ?_, List.cons_append, List.dropWhile_cons_of_neg hsep.1]
    rw [isSeparator, List.all_eq_true.mp hgap d hd, Bool.true_or]
  obtain ⟨htake, hdrop⟩ := takeWhile_append_of_head hr ht
  rw [readAttributes_eq, hskip]
  simp only [if_neg hsep.2, htake, hdrop]

/-- A quoted value ends at the next quote, and without one the tag is not read to its end. -/
theorem readAttributes_quoted (hgap : gap.all isSpace = true) (hname : IsAttributeName name)
    (hspaces : (before ++ behind).all isSpace = true) (hq : isQuote q = true) (t : List Char) :
    readAttributes (gap ++ (name ++ (before ++ '=' :: (behind ++ q :: t)))) =
      (breakOn [q] t).elim [] fun (value, rest) => (name, value) :: readAttributes rest := by
  rw [readAttributes_name hgap hname (head?_equals hspaces _), readValue_behind hspaces, readValue_quoted hq]

theorem readAttributes_dropWhile (t : List Char) : readAttributes (t.dropWhile isSpace) = readAttributes t := by
  have hskip : (t.dropWhile isSpace).dropWhile isSeparator = t.dropWhile isSeparator := by
    conv => rhs; rw [← List.takeWhile_append_dropWhile (p := isSpace) (l := t)]
    refine (List.dropWhile_append_of_pos fun c hc => ?_).symm
    rw [isSeparator, List.all_eq_true.mp List.all_takeWhile c hc, Bool.true_or]
  rw [readAttributes_eq, readAttributes_eq t, hskip]

end

variable {t : List Char}

/-- An attribute is read as it is where what is behind it does not belong to it. -/
theorem readAttributes_text (a : HtmlAttribute) (ht : a.value.EndsBefore t) :
    readAttributes (a.text ++ t) = a.read :: readAttributes t := by
  obtain ⟨gap, name, value, _, hgap, hname⟩ := a
  rw [HtmlAttribute.text, List.append_assoc, List.append_assoc]
  cases value with
  | none =>
    have hparts : t.head?.all (!isNamePart ·) = true := by
      cases t with
      | nil => rfl
      | cons c t =>
        have hc : isSeparator c = true := by simpa using ht.1
        simp [isNamePart, hc]
    rw [AttributeValue.text, List.nil_append, readAttributes_name hgap hname hparts, readValue_none ht.2]
    exact congrArg _ (readAttributes_dropWhile t)
  | bare before behind value spaces nonempty isBare =>
    obtain ⟨c, r, rfl⟩ := List.exists_cons_of_ne_nil nonempty
    have hall : ∀ d ∈ c :: r, isBarePart d = true ∧ isQuote d = false := by simpa [List.all_eq_true] using isBare
    have hspace : isSpace c = false := by
      have hc := (hall c List.mem_cons_self).1
      simp only [isBarePart, Bool.and_eq_true, Bool.not_eq_true'] at hc
      exact hc.1
    -- a value without quotes goes on up to white space or the end of the tag
    have hends : t.head?.all (!isBarePart ·) = true := by
      cases t with
      | nil => rfl
      | cons d t =>
        have hd : isSpace d = true := by simpa [AttributeValue.EndsBefore] using ht
        simp [isBarePart, hd]
    obtain ⟨htake, hdrop⟩ := takeWhile_append_of_head (fun d hd => (hall d hd).1) hends
    have hcut : (AttributeValue.bare before behind (c :: r) spaces nonempty isBare).text ++ t =
        before ++ '=' :: (behind ++ c :: (r ++ t)) := by simp [AttributeValue.text]
    rw [hcut, readAttributes_name hgap hname (head?_equals spaces _), readValue_behind spaces,
      readValue_bare hspace (hall c List.mem_cons_self).2, ← List.cons_append, htake, hdrop]
    rfl
  | quoted before behind quote value spaces isQuote closed =>
    have hcut : (AttributeValue.quoted before behind quote value spaces isQuote closed).text ++ t =
        before ++ '=' :: (behind ++ quote :: (value ++ ([quote] ++ t))) := by simp [AttributeValue.text]
    have hfound : breakOn [quote] (value ++ ([quote] ++ t)) = some (value, t) :=
      breakOn_char_eq_some_iff.mpr ⟨rfl, closed⟩
    rw [hcut, readAttributes_quoted hgap hname spaces isQuote, hfound]
    rfl

namespace HtmlAttribute

theorem texts_cons (a : HtmlAttribute) (attributes : List HtmlAttribute) :
    texts (a :: attributes) = a.text ++ texts attributes :=
  List.flatMap_cons

theorem texts_append (l r : List HtmlAttribute) : texts (l ++ r) = texts l ++ texts r := List.flatMap_append

end HtmlAttribute

/-- An attribute ends before another one, whatever is behind the name of that. -/
theorem endsBefore_name (value : AttributeValue) (a : HtmlAttribute) (t : List Char) :
    value.EndsBefore (a.gap ++ (a.name ++ t)) := by
  obtain ⟨gap, name, _, hne, hgap, hname⟩ := a
  obtain ⟨c, gap, rfl⟩ := List.exists_cons_of_ne_nil hne
  have hc : isSpace c = true := List.all_eq_true.mp hgap c List.mem_cons_self
  cases value with
  | none =>
    refine ⟨by simp [isSeparator, hc], ?_⟩
    rw [dropWhile_isSpace hgap]
    obtain ⟨d, name, rfl⟩ := List.exists_cons_of_ne_nil hname.1
    obtain ⟨hblank, -, -, heq, -⟩ := hname.2 d List.mem_cons_self
    rw [List.cons_append, List.dropWhile_cons_of_neg (ne_true_of_eq_false (isSpace_of_not_isBlank hblank))]
    simpa using heq
  | bare => simp [AttributeValue.EndsBefore, hc]
  | quoted => trivial

theorem endsBefore_text (value : AttributeValue) (a : HtmlAttribute) (t : List Char) :
    value.EndsBefore (a.text ++ t) := by
  rw [HtmlAttribute.text, List.append_assoc, List.append_assoc]
  exact endsBefore_name value a _

/-- Attributes are read in turn in front of another one. -/
theorem readAttributes_before (l : List HtmlAttribute) (a : HtmlAttribute) (t : List Char) :
    readAttributes (HtmlAttribute.texts l ++ (a.gap ++ (a.name ++ t))) =
      l.map (·.read) ++ readAttributes (a.gap ++ (a.name ++ t)) := by
  induction l with
  | nil => rfl
  | cons b l ih =>
    have hends : b.value.EndsBefore (HtmlAttribute.texts l ++ (a.gap ++ (a.name ++ t))) := by
      cases l with
      | nil => exact endsBefore_name b.value a t
      | cons c l =>
        rw [HtmlAttribute.texts_cons, List.append_assoc]
        exact endsBefore_text b.value c _
    rw [HtmlAttribute.texts_cons, List.append_assoc, readAttributes_text b hends, ih]
    rfl

section
variable {attributes : List HtmlAttribute} {ending : List Char}

theorem endsBefore_ending (hend : IsEnding ending) {value : AttributeValue}
    (h : value.IsBare → ending ≠ ['/']) : value.EndsBefore ending := by
  have hhead : ending.head?.all isSeparator = true ∧ (ending ≠ ['/'] → ending.head?.all isSpace = true) := by
    cases ending with
    | nil => exact ⟨rfl, fun _ => rfl⟩
    | cons c s =>
      by_cases hc : isSpace c = true
      · exact ⟨by simp [isSeparator, hc], fun _ => by simpa using hc⟩
      · rw [IsEnding, List.dropWhile_cons_of_neg hc] at hend
        rcases hend with hend | hend
        · cases hend
        · obtain ⟨rfl, rfl⟩ := List.cons.inj hend
          exact ⟨rfl, fun hne => absurd rfl hne⟩
  cases value with
  | none =>
    refine ⟨hhead.1, ?_⟩
    rcases hend with e | e <;> rw [e] <;> simp
  | bare => exact hhead.2 (h trivial)
  | quoted => trivial

theorem readAttributes_ending (hend : IsEnding ending) : readAttributes ending = [] := by
  rw [← readAttributes_dropWhile, readAttributes_eq]
  rcases hend with e | e <;> rw [e] <;> rfl

theorem readAttributes_texts (hend : IsEnding ending)
    (hapart : ∀ a ∈ attributes.getLast?, a.value.IsBare → ending ≠ ['/']) :
    readAttributes (HtmlAttribute.texts attributes ++ ending) = attributes.map (·.read) := by
  induction attributes with
  | nil => exact readAttributes_ending hend
  | cons a attributes ih =>
    cases attributes with
    | nil =>
      have hends : a.value.EndsBefore ending := endsBefore_ending hend (hapart a rfl)
      have halone : HtmlAttribute.texts [a] ++ ending = a.text ++ ending := by simp [HtmlAttribute.texts]
      rw [halone, readAttributes_text a hends, readAttributes_ending hend]
      rfl
    | cons b attributes =>
      have hends : a.value.EndsBefore (HtmlAttribute.texts (b :: attributes) ++ ending) := by
        rw [HtmlAttribute.texts_cons, List.append_assoc]
        exact endsBefore_text a.value b _
      rw [HtmlAttribute.texts_cons, List.append_assoc, readAttributes_text a hends,
        ih fun c hc => hapart c (by rwa [List.getLast?_cons_cons])]
      rfl

end

theorem AttributeList.readAttributes_text (list : AttributeList) :
    readAttributes list.text = list.attributes.map (·.read) :=
  readAttributes_texts list.isEnd list.apart

/-! ## Values and classes -/

section
variable {name other value value' : List Char} {front back : List (List Char × List Char)}

theorem valueOf_append : valueOf name (front ++ back) = (valueOf name front).or (valueOf name back) := by
  rw [valueOf, List.find?_append, valueOf, valueOf]
  cases List.find? (fun a => lowered a.1 == lowered name) front <;> rfl

theorem valueOf_cons_self (h : lowered other = lowered name) :
    valueOf name ((other, value) :: back) = some value := by
  rw [valueOf, List.find?_cons_of_pos (by simpa using h)]
  rfl

theorem valueOf_cons_of_ne (h : lowered other ≠ lowered name) :
    valueOf name ((other, value) :: back) = valueOf name back := by
  rw [valueOf, List.find?_cons_of_neg (by simpa using h)]
  rfl

theorem valueOf_eq_none (h : ∀ a ∈ front, lowered a.1 ≠ lowered name) : valueOf name front = none := by
  rw [valueOf, List.find?_eq_none.mpr (by simpa using h)]
  rfl

theorem valueOf_first (h : ∀ a ∈ front, lowered a.1 ≠ lowered name) :
    valueOf name (front ++ (name, value) :: back) = some value := by
  rw [valueOf_append, valueOf_eq_none h, valueOf_cons_self rfl]
  rfl

end

theorem flatten_tokens (value : List Char) : (tokens value).flatten = value.filter (!isSpace ·) := by
  rw [tokens, List.flatten_filter_not_isEmpty]
  induction value with
  | nil => rfl
  | cons c value ih =>
    obtain ⟨piece, pieces, h⟩ := List.exists_cons_of_ne_nil (List.splitOnP_ne_nil isSpace value)
    rw [List.splitOnP_cons_eq_if_modifyHead]
    rw [h] at ih ⊢
    by_cases hc : isSpace c = true
    · simpa [hc] using ih
    · simpa [hc] using ih

theorem tokens_eq_nil_iff {value : List Char} : tokens value = [] ↔ value.all isSpace = true := by
  have hflat := flatten_tokens value
  constructor
  · intro h
    rw [h] at hflat
    simpa using List.filter_eq_nil_iff.mp hflat.symm
  · intro h
    rw [List.filter_eq_nil_iff.mpr (by simpa using h)] at hflat
    refine List.eq_nil_iff_forall_not_mem.mpr fun t ht => ?_
    have hne := (List.mem_filter.mp ht).2
    rw [List.flatten_eq_nil_iff.mp hflat t ht] at hne
    cases hne

theorem tokens_append (value value' : List Char) :
    tokens (value ++ ' ' :: value') = tokens value ++ tokens value' := by
  rw [tokens, List.splitOnP_append_cons value value' rfl, List.filter_append, tokens, tokens]

theorem tokens_of_word {word : List Char} (hne : word ≠ []) (h : ∀ c ∈ word, isSpace c = false) :
    tokens word = [word] := by
  rw [tokens, List.splitOnP_eq_singleton h]
  cases word with
  | nil => exact absurd rfl hne
  | cons c word => rfl

end ComponentSite.Style
