/-
  ComponentSite.Proofs.ScopedAgain — stylesheets that are scoped already.

  The mark behind a tag name begins with a dot, so the selector is a bare one no longer. A
  mark without commas, semicolons, braces, slashes and stars leaves every comment, prelude,
  selector and block where it was (`Marked`), so the marked text is that of the same sheet
  with no bare selector in it (`wellFormed_marked`). Scoping it again, to whatever class,
  changes nothing (`scoped_again`).
-/
import ComponentSite.Proofs.SelectorMarks

namespace ComponentSite.Style
open Text

/-! ## Marks behind tag names -/

/-- The characters that end a part of a sheet, or stand in the marks of a comment. -/
def dividesSheet (c : Char) : Bool := c == ',' || c == ';' || c == '\x7b' || c == '\x7d' || c == '/' || c == '*'

/-- `t` is `s` with the mark behind some characters of tag names. -/
inductive Marked (mark : List Char) : List Char → List Char → Prop
  | nil : Marked mark [] []
  | keep (c : Char) {s t : List Char} : Marked mark s t → Marked mark (c :: s) (c :: t)
  | insert {c : Char} {s t : List Char} : isTagChar c = true → Marked mark s t → Marked mark (c :: s) (c :: (mark ++ t))

theorem dividesSheet_of_isTagChar {c : Char} (h : isTagChar c = true) : dividesSheet c = false := by
  have hne : ∀ d, isTagChar d = false → c ≠ d := fun d hd e => Bool.noConfusion (hd.symm.trans (e ▸ h))
  simp [dividesSheet, hne ',' (by decide), hne ';' (by decide), hne '\x7b' (by decide), hne '\x7d' (by decide),
    hne '/' (by decide), hne '*' (by decide)]

theorem ne_of_not_divides {c d : Char} (hc : dividesSheet c = false) (hd : dividesSheet d = true) : c ≠ d :=
  fun e => Bool.noConfusion (hd.symm.trans (e ▸ hc))

/-- Between a character that divides nothing and what stands behind it no comment begins or ends. -/
theorem Zone.next_of_not_divides {c : Char} (h : dividesSheet c = false) (z : Zone) (d : Option Char) :
    z.next c d = if z = .closing then .code else z := by
  have hslash := ne_of_not_divides h (show dividesSheet '/' = true by decide)
  have hstar := ne_of_not_divides h (show dividesSheet '*' = true by decide)
  cases z <;> simp [next, hslash, hstar]

theorem endsPrelude_of_not_divides {c : Char} (h : dividesSheet c = false) : endsPrelude c = false := by
  simp [endsPrelude, ne_of_not_divides h (show dividesSheet '\x7b' = true by decide),
    ne_of_not_divides h (show dividesSheet ';' = true by decide)]

theorem braceStep_of_not_divides {c : Char} (h : dividesSheet c = false) (depth : Nat) :
    braceStep depth c = some depth := by
  simp [braceStep, ne_of_not_divides h (show dividesSheet '\x7b' = true by decide),
    ne_of_not_divides h (show dividesSheet '\x7d' = true by decide)]

section
variable {mark : List Char} (hmark : ∀ c ∈ mark, dividesSheet c = false)
include hmark

/-- A mark is read in the zone it stands in, and left in the same. -/
theorem zone_mark {z : Zone} (hz : z ≠ .closing) (t : List Char) :
    z.behind (mark ++ t) = z.behind t ∧ (Unended z (mark ++ t) ↔ Unended z t) := by
  induction mark with
  | nil => exact ⟨rfl, Iff.rfl⟩
  | cons m mark ih =>
    obtain ⟨hm, hmark⟩ := List.forall_mem_cons.mp hmark
    obtain ⟨hbehind, hunended⟩ := ih hmark
    have hnext : z.next m (mark ++ t).head? = z := by rw [Zone.next_of_not_divides hm, if_neg hz]
    rw [List.cons_append, Zone.behind, Unended, hnext]
    exact ⟨hbehind, fun h => hunended.mp h.2, fun h => ⟨fun _ => endsPrelude_of_not_divides hm, hunended.mpr h⟩⟩

theorem openBraces_mark (depth : Nat) (t : List Char) : openBraces depth (mark ++ t) = openBraces depth t := by
  induction mark with
  | nil => rfl
  | cons m mark ih =>
    obtain ⟨hm, hmark⟩ := List.forall_mem_cons.mp hmark
    rw [List.cons_append, openBraces_cons, braceStep_of_not_divides hm]
    exact ih hmark

end

namespace Marked

variable {mark s t s' t' : List Char}

theorem refl (s : List Char) : Marked mark s s := by
  induction s with
  | nil => exact .nil
  | cons c s ih => exact .keep c ih

theorem append (h : Marked mark s t) (h' : Marked mark s' t') : Marked mark (s ++ s') (t ++ t') := by
  induction h with
  | nil => exact h'
  | keep c _ ih => exact .keep c ih
  | insert hc _ ih =>
    rw [List.cons_append, List.cons_append, List.append_assoc]
    exact .insert hc ih

theorem tag {tag : List Char} (h : IsTag tag) (mark : List Char) : Marked mark tag (tag ++ mark) := by
  have hall := List.all_eq_true.mp h.2
  obtain ⟨c, r, rfl, -, -⟩ := h.exists_cons
  clear h
  induction r generalizing c with
  | nil => simpa using insert (hall c List.mem_cons_self) (.refl [])
  | cons d r ih => exact .keep c (ih d fun e he => hall e (List.mem_cons_of_mem c he))

theorem head?_eq (h : Marked mark s t) : t.head? = s.head? := by
  cases h <;> rfl

theorem eq_nil_iff (h : Marked mark s t) : t = [] ↔ s = [] := by
  rw [← List.head?_eq_none_iff, h.head?_eq, List.head?_eq_none_iff]

theorem isAtRule_eq (h : Marked mark s t) : isAtRule t = isAtRule s := by
  unfold isAtRule
  induction h with
  | nil => rfl
  | keep c _ ih =>
    by_cases hc : isBlank c = true
    · rwa [trimStart_cons_of_isBlank hc, trimStart_cons_of_isBlank hc]
    · rw [trimStart_cons_of_not_isBlank (eq_false_of_ne_true hc),
        trimStart_cons_of_not_isBlank (eq_false_of_ne_true hc)]
      rfl
  | insert hc _ _ =>
    rw [trimStart_cons_of_not_isBlank (isBlank_of_isTagChar hc),
      trimStart_cons_of_not_isBlank (isBlank_of_isTagChar hc)]
    rfl

/-- A character that the mark does not hold stands at the end if it did so before. -/
theorem getLast?_eq (h : Marked mark s t) {c : Char} (hc : c ∉ mark) (hlast : t.getLast? = some c) :
    s.getLast? = some c := by
  induction h with
  | nil => exact hlast
  | @keep d s t h ih =>
    cases t with
    | nil => rwa [h.eq_nil_iff.mp rfl]
    | cons e t =>
      obtain ⟨e', s, rfl⟩ := List.exists_cons_of_ne_nil fun hs => List.cons_ne_nil e t (h.eq_nil_iff.mpr hs)
      rw [List.getLast?_cons_cons] at hlast ⊢
      exact ih hlast
  | @insert d s t hd h ih =>
    cases t with
    | nil =>
      obtain rfl := h.eq_nil_iff.mp rfl
      rw [List.append_nil] at hlast
      rcases List.mem_cons.mp (List.mem_of_getLast? hlast) with rfl | hmem
      · rfl
      · exact absurd hmem hc
    | cons e t =>
      obtain ⟨e', s, rfl⟩ := List.exists_cons_of_ne_nil fun hs => List.cons_ne_nil e t (h.eq_nil_iff.mpr hs)
      rw [← List.cons_append, List.getLast?_append_of_ne_nil _ (List.cons_ne_nil e t)] at hlast
      rw [List.getLast?_cons_cons]
      exact ih hlast

section
variable (hmark : ∀ c ∈ mark, dividesSheet c = false)
include hmark

/-- Comments begin and end where they did, and so does the prelude. -/
theorem zone (h : Marked mark s t) (z : Zone) : z.behind t = z.behind s ∧ (Unended z t ↔ Unended z s) := by
  induction h generalizing z with
  | nil => exact ⟨rfl, Iff.rfl⟩
  | keep c h ih =>
    rw [Zone.behind, Zone.behind, Unended, Unended, h.head?_eq]
    exact ⟨(ih _).1, and_congr_right fun _ => (ih _).2⟩
  | @insert c s t hc h ih =>
    have hdivides := dividesSheet_of_isTagChar hc
    rw [Zone.behind, Zone.behind, Unended, Unended, Zone.next_of_not_divides hdivides,
      Zone.next_of_not_divides hdivides]
    have hz : (if z = .closing then .code else z) ≠ .closing := by
      split
      · decide
      · assumption
    obtain ⟨hbehind, hunended⟩ := zone_mark hmark hz t
    exact ⟨hbehind.trans (ih _).1, and_congr_right fun _ => hunended.trans (ih _).2⟩

theorem isPrelude_iff (h : Marked mark s t) : IsPrelude t ↔ IsPrelude s := by
  rw [IsPrelude, IsPrelude, (h.zone hmark .code).1, (h.zone hmark .code).2]

theorem openBraces_eq (h : Marked mark s t) (depth : Nat) : openBraces depth t = openBraces depth s := by
  induction h generalizing depth with
  | nil => rfl
  | keep c _ ih =>
    rw [openBraces_cons, openBraces_cons]
    exact congrArg _ (funext ih)
  | insert hc _ ih =>
    rw [openBraces_cons, openBraces_cons, braceStep_of_not_divides (dividesSheet_of_isTagChar hc)]
    exact (openBraces_mark hmark depth _).trans (ih depth)

end

end Marked

/-! ## Marked selectors -/

/-- A tag name with a dot behind it begins no bare selector. -/
theorem not_bareTag_of_dot {lead tag rest lead' tag' tail : List Char} (hlead : lead.all isBlank = true)
    (htag : IsTag tag)
    (e : lead ++ tag ++ '.' :: rest = lead' ++ tag' ++ tail) : ¬ BareTag lead' tag' tail := by
  intro h
  have hdot : ('.' :: rest).head?.all (!isTagChar ·) = true := Option.all_some.trans (by decide)
  have htail := tail_unique hlead h.lead htag h.tag hdot h.ends_tag e
  exact h.head?_tail_ne (congrArg List.head? htail.symm)

namespace Selector

def marked (mark : List Char) : Selector → Selector
  | bare lead tag tail => other (lead ++ tag ++ mark ++ tail)
  | other s => other s

theorem textWith_marked (mark m : List Char) (s : Selector) : (s.marked mark).textWith m = s.textWith mark := by
  cases s <;> rfl

theorem tag?_marked (mark : List Char) (s : Selector) : (s.marked mark).tag? = none := by
  cases s <;> rfl

theorem marked_text {s : Selector} (h : s.WellFormed) (mark : List Char) : Marked mark s.text (s.textWith mark) := by
  cases s with
  | bare lead tag tail =>
    rw [text, textWith, textWith, List.append_nil, List.append_assoc lead tag mark]
    exact ((Marked.refl lead).append (.tag h.2.tag mark)).append (.refl tail)
  | other s => exact .refl s

theorem wellFormed_marked {s : Selector} (h : s.WellFormed) {cls : List Char} (hcls : ',' ∉ cls) :
    (s.marked ('.' :: cls)).WellFormed := by
  obtain ⟨hcomma, hkind⟩ := h
  cases s with
  | bare lead tag tail =>
    refine ⟨?_, fun lead' tag' tail' e => ?_⟩
    · rw [text, textWith, List.append_nil] at hcomma
      rw [text, textWith_marked, textWith]
      simp only [List.mem_append, List.mem_cons, not_or] at hcomma ⊢
      exact ⟨⟨hcomma.1, by decide, hcls⟩, hcomma.2⟩
    · have hdot : lead ++ tag ++ '.' :: (cls ++ tail) = lead' ++ tag' ++ tail' := by
        rw [← e]
        simp
      exact not_bareTag_of_dot hkind.lead hkind.tag hdot
  | other s => exact ⟨hcomma, hkind⟩

theorem listWith_marked (mark m : List Char) (selectors : List Selector) :
    listWith m (selectors.map (marked mark)) = listWith mark selectors := by
  simp only [listWith, List.map_map, Function.comp_def, textWith_marked]

theorem marked_listWith {selectors : List Selector} (h : ∀ s ∈ selectors, s.WellFormed) (mark : List Char) :
    Marked mark (listWith [] selectors) (listWith mark selectors) := by
  induction selectors with
  | nil => exact .nil
  | cons s rest ih =>
    obtain ⟨hs, hrest⟩ := List.forall_mem_cons.mp h
    have hs := marked_text hs mark
    cases rest with
    | nil => simpa [listWith, text] using hs
    | cons s' rest =>
      have hlist := hs.append ((Marked.refl [',']).append (ih hrest))
      simpa [listWith, text, List.intercalate_cons_cons] using hlist

end Selector

/-! ## Marked sheets -/

namespace Sheet

def marked (mark : List Char) : Sheet → Sheet
  | last prelude => last prelude
  | statement prelude rest => statement prelude (rest.marked mark)
  | rule selectors block rest => rule (selectors.map (Selector.marked mark)) block (rest.marked mark)
  | atRule prelude block rest => atRule prelude block (rest.marked mark)
  | group prelude body closed rest => group prelude (body.marked mark) closed (rest.marked mark)

theorem textWith_marked (mark m : List Char) (sheet : Sheet) :
    (sheet.marked mark).textWith m = sheet.textWith mark := by
  induction sheet <;> simp_all [marked, textWith, Selector.listWith_marked]

theorem tags_marked (mark : List Char) (sheet : Sheet) : (sheet.marked mark).tags = [] := by
  induction sheet <;> simp_all [marked, tags, Selector.tag?_marked]

theorem marked_text {sheet : Sheet} (h : sheet.WellFormed) (mark : List Char) :
    Marked mark sheet.text (sheet.textWith mark) := by
  induction sheet with
  | last prelude => exact .refl prelude
  | statement prelude rest ih => exact (Marked.refl prelude).append (.keep ';' (ih h.2))
  | rule selectors block rest ih =>
    exact ((Selector.marked_listWith h.1.2 mark).append (.refl block)).append (ih h.2.2.2)
  | atRule prelude block rest ih => exact ((Marked.refl prelude).append (.refl block)).append (ih h.2.2)
  | group prelude body closed rest ihbody ihrest =>
    have hgroup := ((Marked.refl prelude).append (.keep '\x7b' ((ihbody h.2.2.1).append (.refl (brace closed))))).append
      (ihrest h.2.2.2)
    simpa [text, textWith] using hgroup

theorem text_marked (mark : List Char) (sheet : Sheet) : (sheet.marked mark).text = sheet.textWith mark :=
  textWith_marked mark [] sheet

variable {cls : List Char}

theorem isBlock_marked {block : List Char} {rest : Sheet} (hrest : rest.WellFormed) (h : IsBlock block rest.text) :
    IsBlock block (rest.marked ('.' :: cls)).text := by
  rcases h with hclosed | ⟨hnil, hopen⟩
  · exact Or.inl hclosed
  · exact Or.inr ⟨by rw [text_marked, (marked_text hrest _).eq_nil_iff, hnil], hopen⟩

section
variable (hcls : ∀ c ∈ cls, dividesSheet c = false)
include hcls

/-- The braces of a group are those it had. -/
theorem isBlock_group {body rest : Sheet} {closed : Bool} (hbody : body.WellFormed) (hrest : rest.WellFormed)
    (h : IsBlock ('\x7b' :: body.text ++ brace closed) rest.text)
    (hlast : closed = false → body.text.getLast? ≠ some '\x7d') :
    IsBlock ('\x7b' :: (body.marked ('.' :: cls)).text ++ brace closed) (rest.marked ('.' :: cls)).text := by
  have hmark : ∀ c ∈ '.' :: cls, dividesSheet c = false := List.forall_mem_cons.mpr ⟨by decide, hcls⟩
  have hmarked := marked_text hbody ('.' :: cls)
  rw [text_marked]
  rcases h with ⟨inner, e, h⟩ | ⟨hnil, inner, n, e, h⟩
  · have e : body.text ++ brace closed = inner ++ ['\x7d'] := (List.cons.inj e).2
    cases closed with
    | false =>
      rw [brace, if_neg Bool.false_ne_true, List.append_nil] at e
      exact absurd (by rw [e, List.getLast?_concat]) (hlast rfl)
    | true =>
      obtain rfl := List.append_cancel_right e
      exact Or.inl ⟨_, rfl, by rw [hmarked.openBraces_eq hmark, h]⟩
  · obtain rfl : body.text ++ brace closed = inner := (List.cons.inj e).2
    refine Or.inr ⟨by rw [text_marked, (marked_text hrest _).eq_nil_iff, hnil], _, n, rfl, ?_⟩
    exact ((hmarked.append (.refl (brace closed))).openBraces_eq hmark 0).trans h

/-- The marked text is that of a sheet again, with no bare selector. -/
theorem wellFormed_marked {sheet : Sheet} (h : sheet.WellFormed) : (sheet.marked ('.' :: cls)).WellFormed := by
  have hmark : ∀ c ∈ '.' :: cls, dividesSheet c = false := List.forall_mem_cons.mpr ⟨by decide, hcls⟩
  have hcomma : ',' ∉ cls := fun hmem => absurd (hcls _ hmem) (by decide)
  have hbrace : '\x7d' ∉ '.' :: cls := fun hmem => absurd (hmark _ hmem) (by decide)
  induction sheet with
  | last prelude => exact h
  | statement prelude rest ih => exact ⟨h.1, ih h.2⟩
  | rule selectors block rest ih =>
    obtain ⟨⟨hne, hselectors⟩, ⟨hprelude, hat⟩, hblock, hrest⟩ := h
    have hlist := Selector.marked_listWith hselectors ('.' :: cls)
    refine ⟨⟨by simpa using hne, ?_⟩, ?_, isBlock_marked hrest hblock, ih hrest⟩
    · intro s' hs'
      obtain ⟨s, hs, rfl⟩ := List.mem_map.mp hs'
      exact Selector.wellFormed_marked (hselectors s hs) hcomma
    · rw [Selector.listWith_marked]
      exact ⟨(hlist.isPrelude_iff hmark).mpr hprelude, hlist.isAtRule_eq.trans hat⟩
  | atRule prelude block rest ih =>
    obtain ⟨hprelude, hblock, hrest⟩ := h
    exact ⟨hprelude, isBlock_marked hrest hblock, ih hrest⟩
  | group prelude body closed rest ihbody ihrest =>
    obtain ⟨hprelude, ⟨hblock, hlast⟩, hbody, hrest⟩ := h
    refine ⟨hprelude, ⟨isBlock_group hcls hbody hrest hblock hlast, fun hclosed e => hlast hclosed ?_⟩,
      ihbody hbody, ihrest hrest⟩
    rw [text_marked] at e
    exact (marked_text hbody _).getLast?_eq hbrace e

end

end Sheet

/-- A stylesheet scoped to a class that divides no sheet, such as one of letters, digits and dashes, has no
    bare selector left. Scoping it again, with any markup and to any class, leaves both as they are and
    reports no tags. -/
theorem scoped_again {scopeClass : String} (h : ∀ c ∈ scopeClass.toList, dividesSheet c = false)
    (style markup : String) :
    let once := (scope style markup scopeClass).style
    (∀ sheet : Sheet, sheet.WellFormed → sheet.text = once.toList → sheet.tags = []) ∧
      ∀ otherMarkup otherClass : String,
        scope once otherMarkup otherClass = { style := once, markup := otherMarkup, scopedTags := [] } := by
  intro once
  obtain ⟨sheet, hsheet, htext⟩ := Sheet.exists_sheet style.toList
  have hscoped : once.toList = (sheet.marked ('.' :: scopeClass.toList)).text := by
    simp only [once, scope, ← htext, Sheet.scopeRules_text hsheet, Sheet.text_marked, String.toList_ofList]
  have hagain : ∀ cls, scopeRules cls once.toList = (once.toList, []) := by
    intro cls
    rw [hscoped, Sheet.scopeRules_text (Sheet.wellFormed_marked h hsheet), Sheet.textWith_marked, Sheet.tags_marked,
      Sheet.text_marked]
  refine ⟨fun other hother e => ?_, fun otherMarkup otherClass => ?_⟩
  · have htags := congrArg Prod.snd (hagain [])
    rwa [← e, Sheet.scopeRules_text hother] at htags
  · simp only [scope, hagain]
    simp [markRootElements, sortedOnce]

/-- A comment with a word in it that is marked, a list in a media query, and a rule left open. -/
theorem scoped_again_of_media_query :
    let once := (scope "/* a, b */p \x7b\x7d@media print\x7bh1:hover, ul li \x7by\x7d\x7dp\x7b" "" "goo-1").style
    once = "/* a, b.goo-1 */p \x7b\x7d@media print\x7bh1.goo-1:hover, ul.goo-1 li \x7by\x7d\x7dp.goo-1\x7b" ∧
      scope once "<p>x</p>" "s" = { style := once, markup := "<p>x</p>", scopedTags := [] } := by
  intro once
  have hall : "goo-1".toList.all (!dividesSheet ·) = true := by decide
  have hplain : ∀ c ∈ "goo-1".toList, dividesSheet c = false := fun c hc => by simpa using List.all_eq_true.mp hall c hc
  exact ⟨by decide +kernel, (scoped_again hplain _ _).2 "<p>x</p>" "s"⟩

end ComponentSite.Style
