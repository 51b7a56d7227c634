/-
  ComponentSite.Proofs.LayoutPoints — where a layout gets its insertion points.

  A layout that has its anchors in order (`Anchored.Of`) gets the points of the styles
  right before the end of its head, those of the content right after the start of its
  body and those of the scripts right before the last end of its body
  (`withPoints_anchored`). Each insertion looks for its anchor in the text that the one
  before left; no point holds an angle bracket, and none completes the start of one.
-/
import ComponentSite.Layout
import ComponentSite.Proofs.TemplateReading

namespace ComponentSite.Layout
open Text

structure Anchored where
  start : List Char
  headEnd : List Char
  between : List Char
  bodyStart : List Char
  inside : List Char
  bodyEnd : List Char
  rest : List Char

namespace Anchored

/-- The anchors are those of the layout: the first end of a head, after it the first start
    of a body, and after that the last end of a body. -/
structure Of (a : Anchored) (layout : List Char) : Prop where
  head : cutFirst (closingTag? "head") layout =
    some (a.start, a.headEnd, a.between ++ a.bodyStart ++ a.inside ++ a.bodyEnd ++ a.rest)
  body : cutFirst bodyTag? layout =
    some (a.start ++ a.headEnd ++ a.between, a.bodyStart, a.inside ++ a.bodyEnd ++ a.rest)
  last : cutLast (closingTag? "body") layout =
    some (a.start ++ a.headEnd ++ a.between ++ a.bodyStart ++ a.inside, a.bodyEnd, a.rest)

instance (a : Anchored) (layout : List Char) : Decidable (a.Of layout) :=
  decidable_of_iff (_ ∧ _ ∧ _) ⟨fun h => ⟨h.1, h.2.1, h.2.2⟩, fun h => ⟨h.head, h.body, h.last⟩⟩

def text (a : Anchored) : List Char :=
  a.start ++ a.headEnd ++ a.between ++ a.bodyStart ++ a.inside ++ a.bodyEnd ++ a.rest

/-- Each character, and something before the end of the head, after the start of the body and
    before the last end of the body. -/
def fillWith {α : Type} (char : Char → α) (a : Anchored) (styles content scripts : List α) : List α :=
  a.start.map char ++ styles ++ a.headEnd.map char ++ a.between.map char ++ a.bodyStart.map char ++ content ++
    a.inside.map char ++ scripts ++ a.bodyEnd.map char ++ a.rest.map char

def fill (a : Anchored) (styles content scripts : List Char) : List Char := a.fillWith id styles content scripts

/-- What becomes of a filling, character by character and text by text. -/
theorem flatMap_fillWith {α β : Type} {char : Char → α} {f : α → List β} {g : Char → List β}
    (hchar : ∀ c, f (char c) = g c)
    {a : Anchored} {styles content scripts : List α} {styles' content' scripts' : List Char}
    (hstyles : styles.flatMap f = styles'.flatMap g) (hcontent : content.flatMap f = content'.flatMap g)
    (hscripts : scripts.flatMap f = scripts'.flatMap g) :
    (a.fillWith char styles content scripts).flatMap f = (a.fill styles' content' scripts').flatMap g := by
  have hmap : ∀ s : List Char, (s.map char).flatMap f = (s.map id).flatMap g := fun s => by
    rw [List.flatMap_map, List.map_id]
    exact congrArg (s.flatMap ·) (funext hchar)
  unfold fill fillWith
  simp only [List.flatMap_append, hmap, hstyles, hcontent, hscripts]

theorem mem_fillWith {α : Type} {char : Char → α} {a : Anchored} {styles content scripts : List α} {t : α}
    (ht : t ∈ a.fillWith char styles content scripts) :
    (∃ c ∈ a.text, t = char c) ∨ t ∈ styles ∨ t ∈ content ∨ t ∈ scripts := by
  have hmap : ∀ s : List Char, s ⊆ a.text → t ∈ s.map char → ∃ c ∈ a.text, t = char c := by
    intro s hs ht
    obtain ⟨c, hc, rfl⟩ := List.mem_map.mp ht
    exact ⟨c, hs hc, rfl⟩
  unfold fillWith at ht
  simp only [List.mem_append] at ht
  rcases ht with ((((((((ht | ht) | ht) | ht) | ht) | ht) | ht) | ht) | ht) | ht
  · exact Or.inl (hmap _ (fun c hc => by simp [text, hc]) ht)
  · exact Or.inr (Or.inl ht)
  · exact Or.inl (hmap _ (fun c hc => by simp [text, hc]) ht)
  · exact Or.inl (hmap _ (fun c hc => by simp [text, hc]) ht)
  · exact Or.inl (hmap _ (fun c hc => by simp [text, hc]) ht)
  · exact Or.inr (Or.inr (Or.inl ht))
  · exact Or.inl (hmap _ (fun c hc => by simp [text, hc]) ht)
  · exact Or.inr (Or.inr (Or.inr ht))
  · exact Or.inl (hmap _ (fun c hc => by simp [text, hc]) ht)
  · exact Or.inl (hmap _ (fun c hc => by simp [text, hc]) ht)

end Anchored

/-! ## Cuts -/

section Cut

variable {pattern? : List Char → Option (List Char × List Char)} {s t before found rest : List Char}

theorem exists_of_cutFirst (h : cutFirst pattern? s = some (before, found, rest)) :
    ∃ t, s = before ++ t ∧ t ≠ [] ∧ pattern? t = some (found, rest) ∧
      ∀ v, v ≠ [] → v <:+ before → pattern? (v ++ t) = none := by
  induction s generalizing before with
  | nil => cases h
  | cons c r ih =>
    unfold cutFirst at h
    split at h
    · rename_i hp
      cases h
      refine ⟨c :: r, rfl, List.cons_ne_nil c r, hp, fun v hv hs => ?_⟩
      exact absurd (List.suffix_nil.mp hs) hv
    · rename_i hp
      obtain ⟨⟨b, f, r'⟩, hf, he⟩ := Option.map_eq_some_iff.mp h
      simp only [Prod.mk.injEq] at he
      obtain ⟨rfl, rfl, rfl⟩ := he
      obtain ⟨t, rfl, hne, ht, hnone⟩ := ih hf
      refine ⟨t, rfl, hne, ht, fun v hv hs => ?_⟩
      rcases List.suffix_cons_iff.mp hs with rfl | hs
      · exact hp
      · exact hnone v hv hs

theorem cutFirst_append (ht : pattern? t = some (found, rest)) (hne : t ≠ [])
    (h : ∀ v, v ≠ [] → v <:+ before → pattern? (v ++ t) = none) :
    cutFirst pattern? (before ++ t) = some (before, found, rest) := by
  induction before with
  | nil =>
    obtain ⟨c, t, rfl⟩ := List.exists_cons_of_ne_nil hne
    rw [List.nil_append, cutFirst, ht]
  | cons c before ih =>
    rw [List.cons_append, cutFirst]
    have hc := h (c :: before) (List.cons_ne_nil c before) List.suffix_rfl
    rw [List.cons_append] at hc
    rw [hc, ih fun v hv hs => h v hv (hs.trans (List.suffix_cons c before))]
    rfl

theorem exists_of_cutLast (h : cutLast pattern? s = some (before, found, rest)) :
    ∃ c t, s = before ++ c :: t ∧ pattern? (c :: t) = some (found, rest) ∧ cutLast pattern? t = none := by
  induction s generalizing before with
  | nil => cases h
  | cons c r ih =>
    unfold cutLast at h
    split at h
    · rename_i b f r' hf
      cases h
      obtain ⟨d, t, rfl, ht, hnone⟩ := ih hf
      exact ⟨d, t, rfl, ht, hnone⟩
    · rename_i hnone
      obtain ⟨⟨f, r'⟩, hf, he⟩ := Option.map_eq_some_iff.mp h
      cases he
      exact ⟨c, r, rfl, hf, hnone⟩

theorem cutLast_append {c : Char} {t : List Char} (ht : pattern? (c :: t) = some (found, rest))
    (hnone : cutLast pattern? t = none) (before : List Char) :
    cutLast pattern? (before ++ c :: t) = some (before, found, rest) := by
  induction before with
  | nil => rw [List.nil_append, cutLast, hnone, ht]; rfl
  | cons d before ih => rw [List.cons_append, cutLast, ih]

end Cut

/-! ## Tags in any letter case -/

theorem eq_of_toLower {c : Char} (h : c.toLower = '<') : c = '<' := by
  unfold Char.toLower at h
  split at h
  · rename_i hu
    have h1 := UInt32.le_iff_toNat_le.mp hu.1
    have h2 := UInt32.le_iff_toNat_le.mp hu.2
    have hv := congrArg (fun d : Char => d.val.toNat) h
    simp only [UInt32.toNat_add, UInt32.toNat_sub] at hv h1 h2
    simp at hv h1 h2
    omega
  · exact h

theorem restAnyCase?_append {lead s after : List Char} (h : restAnyCase? lead s = some after) :
    ∃ found, s = found ++ after ∧ found.map Char.toLower = lead := by
  unfold restAnyCase? at h
  split at h
  · rename_i he
    cases h
    exact ⟨s.take lead.length, (List.take_append_drop ..).symm, eq_of_beq he⟩
  · cases h

theorem restAnyCase?_of_ne {c : Char} (hc : c ≠ '<') (lead r : List Char) :
    restAnyCase? ('<' :: lead) (c :: r) = none := by
  cases h : restAnyCase? ('<' :: lead) (c :: r) with
  | none => rfl
  | some after =>
    obtain ⟨found, hs, hf⟩ := restAnyCase?_append h
    cases found with
    | nil => cases hf
    | cons d found =>
      obtain ⟨rfl, _⟩ := List.cons.inj hs
      exact absurd (eq_of_toLower (List.cons.inj hf).1) hc

theorem take_found (found rest : List Char) : (found ++ rest).take ((found ++ rest).length - rest.length) = found := by
  rw [List.length_append, Nat.add_sub_cancel]
  exact List.take_left

theorem closingTag?_eq_some {name : String} {s found rest : List Char} (h : closingTag? name s = some (found, rest)) :
    ∃ inner, found = '<' :: (inner ++ ['>']) ∧ s = found ++ rest := by
  obtain ⟨after, ha, h⟩ := Option.bind_eq_some_iff.mp h
  obtain ⟨r, hr, h⟩ := Option.bind_eq_some_iff.mp h
  cases h
  obtain ⟨lead, rfl, hlead⟩ := restAnyCase?_append ha
  have hafter : after = after.takeWhile isBlank ++ trimStart after := List.takeWhile_append_dropWhile.symm
  rw [rest?_eq_some hr] at hafter
  obtain ⟨c, lead, rfl⟩ : ∃ c l, lead = c :: l := by
    cases lead with
    | nil => cases hlead
    | cons c l => exact ⟨c, l, rfl⟩
  have hc : c = '<' := eq_of_toLower (List.cons.inj hlead).1
  have hs : c :: lead ++ after = ('<' :: ((lead ++ after.takeWhile isBlank) ++ ['>'])) ++ rest := by
    rw [hc]
    conv => lhs; rw [hafter]
    simp
  rw [hs, take_found]
  exact ⟨lead ++ after.takeWhile isBlank, rfl, rfl⟩

theorem bodyTag?_append {s found rest : List Char} (h : bodyTag? s = some (found, rest)) : s = found ++ rest := by
  obtain ⟨after, ha, h⟩ := Option.bind_eq_some_iff.mp h
  split at h
  · cases h
  · split at h
    · rename_i d r hd
      obtain ⟨lead, rfl, _⟩ := restAnyCase?_append ha
      have hafter : after = after.takeWhile (· != '>') ++ d :: r := by
        rw [← hd]; exact List.takeWhile_append_dropWhile.symm
      have hs : lead ++ after = (lead ++ after.takeWhile (· != '>') ++ [d]) ++ r := by
        conv => lhs; rw [hafter]
        simp
      cases h
      rw [hs, take_found]
    · cases h

theorem closingTag?_of_ne (name : String) {c : Char} (hc : c ≠ '<') (r : List Char) :
    closingTag? name (c :: r) = none := by
  have hnone : restAnyCase? ("</".toList ++ name.toList) (c :: r) = none := restAnyCase?_of_ne hc _ r
  rw [closingTag?, hnone]
  rfl

theorem bodyTag?_of_ne {c : Char} (hc : c ≠ '<') (r : List Char) : bodyTag? (c :: r) = none := by
  have : restAnyCase? "<body".toList (c :: r) = none := by
    rw [show "<body".toList = '<' :: "body".toList by decide]
    exact restAnyCase?_of_ne hc _ r
  unfold bodyTag?
  rw [this]
  rfl

theorem restAnyCase?_brace {w y : List Char} (h : w.length < 5) :
    restAnyCase? "<body".toList (w ++ '\x7b' :: y) = none := by
  cases hr : restAnyCase? "<body".toList (w ++ '\x7b' :: y) with
  | none => rfl
  | some after =>
    obtain ⟨found, hs, hf⟩ := restAnyCase?_append hr
    have hlen : found.length = 5 := by
      rw [← List.length_map, hf]
      decide
    have hfound : found = w ++ ('\x7b' :: y).take (5 - w.length) := by
      have := congrArg (List.take 5) hs
      rw [List.take_append, List.take_left' hlen, List.take_of_length_le (Nat.le_of_lt h)] at this
      exact this.symm
    obtain ⟨k, hk⟩ : ∃ k, 5 - w.length = k + 1 := ⟨5 - w.length - 1, by omega⟩
    have hbrace : '\x7b' ∈ found := by
      rw [hfound, hk]
      exact List.mem_append_right _ List.mem_cons_self
    have : Char.toLower '\x7b' ∈ "<body".toList := hf ▸ List.mem_map_of_mem hbrace
    exact absurd this (by decide)

/-- Where no body starts before a tag, none does before a brace. -/
theorem bodyTag?_before_brace {w x y : List Char} (h : bodyTag? (w ++ '<' :: x) = none) (hx : '>' ∈ x) :
    bodyTag? (w ++ '\x7b' :: y) = none := by
  by_cases hlong : 5 ≤ w.length
  · -- what is compared with the name is the same in both texts, and so is the character after it
    have hlead : "<body".toList = ['<', 'b', 'o', 'd', 'y'] := by decide
    have htake : ∀ z : List Char, (w ++ z).take 5 = w.take 5 := fun z => List.take_append_of_le_length hlong
    have hdrop : ∀ z : List Char, (w ++ z).drop 5 = w.drop 5 ++ z := fun z => List.drop_append_of_le_length hlong
    unfold bodyTag? restAnyCase? at h ⊢
    simp only [hlead, List.length_cons, List.length_nil, Nat.zero_add, Nat.reduceAdd, htake, hdrop] at h ⊢
    by_cases hname : (w.take 5).map Char.toLower == ['<', 'b', 'o', 'd', 'y']
    · simp only [hname, if_true, Option.bind_eq_bind, Option.bind_some] at h ⊢
      have hend : (w.drop 5 ++ '<' :: x).dropWhile (· != '>') ≠ [] := by
        intro he
        have := List.dropWhile_eq_nil_iff.mp he '>' (List.mem_append_right _ (List.mem_cons_of_mem _ hx))
        exact absurd this (by decide)
      split at h
      · rename_i hword
        cases hw : w.drop 5 with
        | nil =>
          rw [hw, List.nil_append, List.head?_cons] at hword
          exact absurd hword (show ¬ isWord '<' = true by decide)
        | cons c r =>
          rw [hw] at hword
          exact if_pos hword
      · split at h
        · cases h
        · rename_i he
          exact absurd he hend
    · simp only [hname, if_false, Bool.false_eq_true]
      rfl
  · unfold bodyTag?
    rw [restAnyCase?_brace (Nat.lt_of_not_le hlong)]
    rfl

/-! ## Insertion points -/

open Template (Token)

def pointTokens (kind : FragmentKind) (classes : List String) : List Token :=
  classes.flatMap fun scopeClass => [.point (kind.nameFor scopeClass), .char '\n']

theorem toList_insertionPoint (kind : FragmentKind) (scopeClass : String) :
    (insertionPoint kind scopeClass).toList = (Token.point (kind.nameFor scopeClass)).source := by
  simp [insertionPoint, Token.source, Template.openingTag, Template.closingTag, String.toList_append]

theorem toList_pointLines (kind : FragmentKind) (classes : List String) :
    (pointLines kind classes).toList = Token.written (pointTokens kind classes) := by
  rw [pointLines, String.toList_join, List.flatMap_map, pointTokens, Token.written, List.flatMap_assoc]
  refine congrArg (List.flatMap · classes) (funext fun scopeClass => ?_)
  rw [String.toList_append, toList_insertionPoint]
  rfl

theorem not_mem_pointLines (kind : FragmentKind) {classes : List String} (h : ∀ c ∈ classes, IsPlain c.toList) :
    '<' ∉ (pointLines kind classes).toList := by
  rw [toList_pointLines]
  intro hmem
  obtain ⟨t, ht, hmem⟩ := List.mem_flatMap.mp hmem
  obtain ⟨c, hc, ht⟩ := List.mem_flatMap.mp ht
  have hname := (Composition.not_mem_of_isPlain (kind.isPlain_nameFor (h c hc))).2
  rcases List.mem_cons.mp ht with rfl | ht
  · simp [Token.source, Template.openingTag, Template.closingTag, hname] at hmem
  · obtain rfl := List.mem_singleton.mp ht
    simp [Token.source] at hmem

/-! ## The layout with its points -/

theorem suffix_append_cases {v x y : List Char} (h : v <:+ x ++ y) : v <:+ y ∨ ∃ w, w ≠ [] ∧ w <:+ x ∧ v = w ++ y := by
  obtain ⟨u, hu⟩ := h
  rcases List.append_eq_append_iff.mp hu with ⟨w, rfl, rfl⟩ | ⟨w, rfl, rfl⟩
  · by_cases hw : w = []
    · exact Or.inl (by simp [hw])
    · exact Or.inr ⟨w, hw, List.suffix_append u w, rfl⟩
  · exact Or.inl (List.suffix_append w v)

variable {layout : String} {a : Anchored}

theorem Anchored.Of.text_eq (h : a.Of layout.toList) : a.text = layout.toList := by
  obtain ⟨t, ht, _, hbody, _⟩ := exists_of_cutFirst h.body
  rw [ht, bodyTag?_append hbody]
  simp [text]

/-- The points of the styles move the start of the body, but bring none in front of it. -/
theorem cutFirst_bodyTag?_styles (h : a.Of layout.toList) {styles : List Char} (hbrace : ∃ y, styles = '\x7b' :: y)
    (hangle : '<' ∉ styles) :
    cutFirst bodyTag? (a.start ++ styles ++ a.headEnd ++ a.between ++ a.bodyStart ++
      (a.inside ++ a.bodyEnd ++ a.rest)) =
      some (a.start ++ styles ++ a.headEnd ++ a.between, a.bodyStart, a.inside ++ a.bodyEnd ++ a.rest) := by
  obtain ⟨t, _, _, htag, _⟩ := exists_of_cutFirst h.head
  obtain ⟨inner, hhead, _⟩ := closingTag?_eq_some htag
  obtain ⟨t, _, hne, hbody, hnone⟩ := exists_of_cutFirst h.body
  obtain rfl := bodyTag?_append hbody
  rw [List.append_assoc _ a.bodyStart]
  refine cutFirst_append hbody hne fun v hv hs => ?_
  rw [List.append_assoc, List.append_assoc] at hs
  rw [List.append_assoc] at hnone
  rcases suffix_append_cases hs with hs | ⟨w, hw, hstart, rfl⟩
  · rcases suffix_append_cases hs with hs | ⟨w, hw, hin, rfl⟩
    · exact hnone v hv (hs.trans (List.suffix_append a.start _))
    · obtain ⟨c, w, rfl⟩ := List.exists_cons_of_ne_nil hw
      refine bodyTag?_of_ne ?_ _
      rintro rfl
      exact hangle (hin.subset List.mem_cons_self)
  · have hold := hnone (w ++ (a.headEnd ++ a.between)) (by simp [hw]) (List.suffix_append_self_iff.mpr hstart)
    obtain ⟨y, rfl⟩ := hbrace
    rw [hhead, List.append_assoc, List.append_assoc, List.cons_append] at hold
    rw [List.append_assoc, List.append_assoc, List.cons_append]
    exact bodyTag?_before_brace hold (by simp)

/-- The points stand next to the anchors of the layout. -/
theorem withPoints_anchored (h : a.Of layout.toList) {pageClass : String} {classes : List String}
    (hplain : ∀ c ∈ pageClass :: classes, IsPlain c.toList) :
    (withPoints layout pageClass classes).toList =
      a.fill (pointLines .style (pageClass :: classes)).toList ('\n' :: (pointLines .content [pageClass]).toList)
        (pointLines .script (pageClass :: classes)).toList := by
  have hstyles : ∃ y, (pointLines .style (pageClass :: classes)).toList = '\x7b' :: y := by
    rw [toList_pointLines]
    exact ⟨_, rfl⟩
  have hangle := not_mem_pointLines .style hplain
  unfold withPoints Anchored.fill Anchored.fillWith
  simp only [String.toList_ofList, List.map_id]
  generalize (pointLines .style (pageClass :: classes)).toList = styles at hstyles hangle
  generalize (pointLines .content [pageClass]).toList = content
  generalize (pointLines .script (pageClass :: classes)).toList = scripts
  have hbody := cutFirst_bodyTag?_styles h hstyles hangle
  obtain ⟨c, t, _, hend, hlast⟩ := exists_of_cutLast h.last
  obtain ⟨_, _, hct⟩ := closingTag?_eq_some hend
  have hone : insertStyles styles layout.toList =
      a.start ++ styles ++ a.headEnd ++ a.between ++ a.bodyStart ++ (a.inside ++ a.bodyEnd ++ a.rest) := by
    unfold insertStyles
    simp [h.head]
  have htwo : insertContent content (insertStyles styles layout.toList) =
      (a.start ++ styles ++ a.headEnd ++ a.between ++ a.bodyStart ++ '\n' :: content ++ a.inside) ++ c :: t := by
    rw [hone, hct]
    unfold insertContent
    rw [hbody]
    simp
  rw [htwo]
  unfold insertScripts
  rw [cutLast_append hend hlast]

end ComponentSite.Layout
