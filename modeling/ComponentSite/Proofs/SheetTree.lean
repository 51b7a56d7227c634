/-
  ComponentSite.Proofs.SheetTree — stylesheets as trees, and what scoping inserts into them.

  A sheet is a run of statements: rules with selectors in front of a block, at-rules, and
  groups, the at-rules whose block holds a sheet again. Every text is that of a sheet, also
  one with braces or comments left open (`exists_sheet`). Scoping inserts the class behind
  the tag names of bare selectors, which are those it reports, and leaves everything else as
  it is (`scopeRules_text`, `scoped_inserts`).

  What kind of rule it is, is told by the first character of the prelude that is no white
  space. A comment in front of an at-rule therefore makes its prelude a list of selectors
  (`comment_hides_at_rule`).
-/
import ComponentSite.Proofs.PathKey
import ComponentSite.Proofs.StyleStatements

namespace ComponentSite.Style
open Text

/-! ## Selectors -/

def IsTag (tag : List Char) : Prop := tag.head?.any Char.isLower = true ∧ tag.all isTagChar = true

instance (tag : List Char) : Decidable (IsTag tag) := instDecidableAnd

theorem IsTag.exists_cons {tag : List Char} (h : IsTag tag) :
    ∃ c r, tag = c :: r ∧ c.isLower = true ∧ isTagChar c = true := by
  obtain ⟨hhead, hall⟩ := h
  cases tag with
  | nil => exact Bool.noConfusion hhead
  | cons c r => exact ⟨c, r, rfl, hhead, List.all_eq_true.mp hall c List.mem_cons_self⟩

theorem endsCompound_of_isTagChar {c : Char} (h : isTagChar c = true) : endsCompound c = false := by
  have hne : ∀ d, isTagChar d = false → c ≠ d := fun d hd e => Bool.noConfusion (hd.symm.trans (e ▸ h))
  simp [endsCompound, isBlank_of_isTagChar h, hne '>' (by decide), hne '+' (by decide), hne '~' (by decide)]

/-- Pseudo-classes do not go on with the tag in front of them. -/
theorem isPseudos_head {pseudos : List Char} (h : isPseudos .outside pseudos = true) :
    pseudos.head?.all (!isTagChar ·) = true := by
  cases pseudos with
  | nil => rfl
  | cons c r =>
    by_cases hc : c = ':'
    · subst hc
      rfl
    · simp [isPseudos, PseudoState.next?, hc] at h

theorem bareTag?_eq_some {compound tag pseudos : List Char} :
    bareTag? compound = some (tag, pseudos) ↔
      compound = tag ++ pseudos ∧ IsTag tag ∧ isPseudos .outside pseudos = true := by
  constructor
  · intro h
    cases compound with
    | nil => cases h
    | cons c r =>
      simp only [bareTag?, Option.ite_none_right_eq_some, Bool.and_eq_true, Option.some.injEq, Prod.mk.injEq] at h
      obtain ⟨⟨hc, hpseudos⟩, rfl, rfl⟩ := h
      have hhead : isTagChar c = true := by simp [isTagChar, hc]
      exact ⟨List.takeWhile_append_dropWhile.symm, ⟨by simp [hhead, hc], List.all_takeWhile⟩, hpseudos⟩
  · rintro ⟨rfl, htag, hpseudos⟩
    obtain ⟨htake, hdrop⟩ := takeWhile_append_of_head (List.all_eq_true.mp htag.2) (isPseudos_head hpseudos)
    obtain ⟨c, r, rfl, hc, -⟩ := htag.exists_cons
    simp only [bareTag?, List.cons_append] at htake hdrop ⊢
    rw [htake, hdrop, hc, hpseudos]
    rfl

/-- Behind white space a lower-case tag name, and behind that pseudo-classes at most, up to white
    space or a combinator. -/
structure BareTag (lead tag tail : List Char) : Prop where
  lead : lead.all isBlank = true
  tag : IsTag tag
  tail : ∃ pseudos rest, tail = pseudos ++ rest ∧ isPseudos .outside pseudos = true ∧
    pseudos.all (!endsCompound ·) = true ∧ rest.head?.all endsCompound = true

/-- The class goes behind the bare tag a selector begins with. -/
theorem BareTag.scopeSelector_text {lead tag tail : List Char} (h : BareTag lead tag tail) (cls : List Char) :
    scopeSelector cls (lead ++ tag ++ tail) = (lead ++ tag ++ '.' :: cls ++ tail, some tag) := by
  obtain ⟨pseudos, rest, rfl, hpseudos, hall, hrest⟩ := h.tail
  have hbare : bareTag? (tag ++ pseudos) = some (tag, pseudos) := bareTag?_eq_some.mpr ⟨rfl, h.tag, hpseudos⟩
  have hbody : (tag ++ pseudos ++ rest).head?.all (!isBlank ·) = true := by
    obtain ⟨c, r, rfl, -, hc⟩ := h.tag.exists_cons
    simp [isBlank_of_isTagChar hc]
  have hcompound : ∀ c ∈ tag ++ pseudos, (!endsCompound c) = true := by
    intro c hc
    rcases List.mem_append.mp hc with hc | hc
    · rw [endsCompound_of_isTagChar (List.all_eq_true.mp h.tag.2 c hc)]
      rfl
    · exact List.all_eq_true.mp hall c hc
  obtain ⟨hlead, htrim⟩ := takeWhile_append_of_head (List.all_eq_true.mp h.lead) hbody
  obtain ⟨htake, hdrop⟩ := takeWhile_append_of_head hcompound (t := rest) (by simpa using hrest)
  have htext : lead ++ tag ++ (pseudos ++ rest) = lead ++ (tag ++ pseudos ++ rest) := by simp
  simp only [scopeSelector, htext, hlead, trimStart, htrim, htake, hdrop, hbare]
  simp

/-- A selector that begins with none is left as it is. -/
theorem bareTag_or_unscoped (s : List Char) :
    (∃ lead tag tail, s = lead ++ tag ++ tail ∧ BareTag lead tag tail) ∨ ∀ cls, scopeSelector cls s = (s, none) := by
  cases hbare : bareTag? ((trimStart s).takeWhile (!endsCompound ·)) with
  | none => exact Or.inr fun cls => by simp only [scopeSelector, hbare]
  | some found =>
    left
    obtain ⟨tag, pseudos⟩ := found
    obtain ⟨hcompound, htag, hpseudos⟩ := bareTag?_eq_some.mp hbare
    have hall : (tag ++ pseudos).all (!endsCompound ·) = true := hcompound ▸ List.all_takeWhile
    have hrest : ((trimStart s).dropWhile (!endsCompound ·)).head?.all endsCompound = true := by
      have hhead := List.head?_dropWhile_not (!endsCompound ·) (trimStart s)
      cases e : ((trimStart s).dropWhile (!endsCompound ·)).head? with
      | none => rfl
      | some c => simpa [e] using hhead
    refine ⟨s.takeWhile isBlank, tag, pseudos ++ (trimStart s).dropWhile (!endsCompound ·),
      ?_, List.all_takeWhile, htag, pseudos, _, rfl, hpseudos, ?_, hrest⟩
    · rw [List.append_assoc, ← List.append_assoc tag, ← hcompound, List.takeWhile_append_dropWhile]
      exact List.takeWhile_append_dropWhile.symm
    · exact (Bool.and_eq_true_iff.mp (List.all_append ▸ hall)).2

inductive Selector
  | bare (lead tag tail : List Char)
  | other (s : List Char)

namespace Selector

def textWith (mark : List Char) : Selector → List Char
  | bare lead tag tail => lead ++ tag ++ mark ++ tail
  | other s => s

def text (s : Selector) : List Char := s.textWith []

def tag? : Selector → Option (List Char)
  | bare _ tag _ => some tag
  | other _ => none

def WellFormed (s : Selector) : Prop :=
  ',' ∉ s.text ∧
    match s with
    | bare lead tag tail => BareTag lead tag tail
    | other s => ∀ lead tag tail, s = lead ++ tag ++ tail → ¬ BareTag lead tag tail

theorem scopeSelector_text {s : Selector} (h : s.WellFormed) (cls : List Char) :
    scopeSelector cls s.text = (s.textWith ('.' :: cls), s.tag?) := by
  obtain ⟨-, h⟩ := h
  cases s with
  | bare lead tag tail =>
    rw [text, textWith, List.append_nil]
    exact BareTag.scopeSelector_text h cls
  | other s =>
    rcases bareTag_or_unscoped s with ⟨lead, tag, tail, e, hbare⟩ | hsame
    · exact absurd hbare (h lead tag tail e)
    · exact hsame cls

theorem exists_text {s : List Char} (h : ',' ∉ s) : ∃ selector : Selector, selector.WellFormed ∧ selector.text = s := by
  by_cases hbare : ∃ lead tag tail, s = lead ++ tag ++ tail ∧ BareTag lead tag tail
  · obtain ⟨lead, tag, tail, rfl, hbare⟩ := hbare
    have htext : (bare lead tag tail).text = lead ++ tag ++ tail := by rw [text, textWith, List.append_nil]
    exact ⟨bare lead tag tail, ⟨htext ▸ h, hbare⟩, htext⟩
  · exact ⟨other s, ⟨h, fun lead tag tail e hb => hbare ⟨lead, tag, tail, e, hb⟩⟩, rfl⟩

def listWith (mark : List Char) (selectors : List Selector) : List Char :=
  [','].intercalate (selectors.map (textWith mark))

theorem splitOn_listWith {selectors : List Selector} (hne : selectors ≠ []) (h : ∀ s ∈ selectors, s.WellFormed) :
    (listWith [] selectors).splitOn ',' = selectors.map text := by
  refine List.splitOn_intercalate ',' ?_ (by simpa using hne)
  rintro l hl
  obtain ⟨s, hs, rfl⟩ := List.mem_map.mp hl
  exact (h s hs).1

theorem scopeSelectorList_text {selectors : List Selector} (hne : selectors ≠ []) (h : ∀ s ∈ selectors, s.WellFormed)
    (cls : List Char) :
    scopeSelectorList cls (listWith [] selectors) = (listWith ('.' :: cls) selectors, selectors.filterMap tag?) := by
  have hscoped : (selectors.map text).map (scopeSelector cls) = selectors.map fun s =>
      (s.textWith ('.' :: cls), s.tag?) := by
    rw [List.map_map]
    exact List.map_congr_left fun s hs => scopeSelector_text (h s hs) cls
  rw [scopeSelectorList, splitOn_listWith hne h, hscoped]
  simp [listWith, List.filterMap_map, Function.comp_def]

theorem exists_list (prelude : List Char) :
    ∃ selectors : List Selector, selectors ≠ [] ∧ (∀ s ∈ selectors, s.WellFormed) ∧
      listWith [] selectors = prelude := by
  have hpieces : ∀ pieces : List (List Char), (∀ piece ∈ pieces, ',' ∉ piece) →
      ∃ selectors : List Selector, (∀ s ∈ selectors, s.WellFormed) ∧ selectors.map text = pieces := by
    intro pieces h
    induction pieces with
    | nil => exact ⟨[], by simp, rfl⟩
    | cons piece pieces ih =>
      obtain ⟨hpiece, hpieces⟩ := List.forall_mem_cons.mp h
      obtain ⟨s, hs, rfl⟩ := exists_text hpiece
      obtain ⟨selectors, hselectors, rfl⟩ := ih hpieces
      exact ⟨s :: selectors, List.forall_mem_cons.mpr ⟨hs, hselectors⟩, rfl⟩
  obtain ⟨selectors, h, htexts⟩ := hpieces (prelude.splitOn ',') fun _ => Path.not_mem_of_mem_splitOn
  refine ⟨selectors, ?_, h, ?_⟩
  · rintro rfl
    exact List.splitOn_ne_nil ',' prelude htexts.symm
  · have hjoin : [','].intercalate (prelude.splitOn ',') = prelude := List.intercalate_splitOn ','
    rw [← hjoin, ← htexts]
    rfl

end Selector

/-! ## Sheets -/

/-- The block is closed, or all there is. -/
def IsBlock (block after : List Char) : Prop :=
  (∃ inner, block = '\x7b' :: inner ++ ['\x7d'] ∧ openBraces 0 inner = some 0) ∨
    after = [] ∧ ∃ inner n, block = '\x7b' :: inner ∧ openBraces 0 inner = some n

theorem IsBlock.exists_cons {block after : List Char} (h : IsBlock block after) : ∃ inner, block = '\x7b' :: inner := by
  rcases h with ⟨inner, rfl, -⟩ | ⟨-, inner, n, rfl, -⟩
  · exact ⟨inner ++ ['\x7d'], rfl⟩
  · exact ⟨inner, rfl⟩

theorem IsBlock.takeBlock {block after : List Char} (h : IsBlock block after) :
    takeBlock 0 (block ++ after) = (block, after) := by
  rcases h with ⟨inner, rfl, h⟩ | ⟨rfl, inner, n, rfl, h⟩
  · rw [List.append_assoc]
    exact takeBlock_closed h after
  · rw [List.append_nil]
    exact takeBlock_unclosed h

theorem exists_isBlock (r : List Char) : ∃ block after, '\x7b' :: r = block ++ after ∧ IsBlock block after := by
  rcases closed_or_open 0 r with ⟨inner, after, rfl, h⟩ | ⟨n, h⟩
  · exact ⟨'\x7b' :: inner ++ ['\x7d'], after, by simp, Or.inl ⟨inner, rfl, h⟩⟩
  · exact ⟨'\x7b' :: r, [], by simp, Or.inr ⟨rfl, r, n, rfl, h⟩⟩

/-- A stylesheet. Behind the last statement there may be a prelude that nothing ends. -/
inductive Sheet
  | last (prelude : List Char)
  | statement (prelude : List Char) (rest : Sheet)
  | rule (selectors : List Selector) (block : List Char) (rest : Sheet)
  | atRule (prelude block : List Char) (rest : Sheet)
  | group (prelude : List Char) (body : Sheet) (closed : Bool) (rest : Sheet)

namespace Sheet

def brace (closed : Bool) : List Char := if closed then ['\x7d'] else []

def textWith (mark : List Char) : Sheet → List Char
  | last prelude => prelude
  | statement prelude rest => prelude ++ ';' :: rest.textWith mark
  | rule selectors block rest => Selector.listWith mark selectors ++ block ++ rest.textWith mark
  | atRule prelude block rest => prelude ++ block ++ rest.textWith mark
  | group prelude body closed rest => prelude ++ '\x7b' :: body.textWith mark ++ brace closed ++ rest.textWith mark

def text (sheet : Sheet) : List Char := sheet.textWith []

def tags : Sheet → List (List Char)
  | last _ => []
  | statement _ rest => rest.tags
  | rule selectors _ rest => selectors.filterMap Selector.tag? ++ rest.tags
  | atRule _ _ rest => rest.tags
  | group _ body _ rest => body.tags ++ rest.tags

def WellFormed : Sheet → Prop
  | last prelude => Unended .code prelude
  | statement prelude rest => IsPrelude prelude ∧ rest.WellFormed
  | rule selectors block rest =>
    (selectors ≠ [] ∧ (∀ s ∈ selectors, s.WellFormed)) ∧
      (IsPrelude (Selector.listWith [] selectors) ∧ isAtRule (Selector.listWith [] selectors) = false) ∧
      IsBlock block rest.text ∧ rest.WellFormed
  | atRule prelude block rest =>
    (IsPrelude prelude ∧ isAtRule prelude = true ∧ isNestingRule prelude = false) ∧
      IsBlock block rest.text ∧ rest.WellFormed
  | group prelude body closed rest =>
    (IsPrelude prelude ∧ isAtRule prelude = true ∧ isNestingRule prelude = true) ∧
      (IsBlock ('\x7b' :: body.text ++ brace closed) rest.text ∧ (closed = false → body.text.getLast? ≠ some '\x7d')) ∧
      body.WellFormed ∧ rest.WellFormed

theorem blockBody_brace {body : List Char} {closed : Bool} (h : closed = false → body.getLast? ≠ some '\x7d') :
    blockBody ('\x7b' :: body ++ brace closed) = body ∧ blockEnd ('\x7b' :: body ++ brace closed) = brace closed := by
  cases closed with
  | true => exact blockBody_closed body
  | false => constructor <;> simp [blockBody, blockEnd, brace, h rfl]

theorem exists_body (inner : List Char) :
    ∃ body closed, inner = body ++ brace closed ∧ (closed = false → body.getLast? ≠ some '\x7d') := by
  by_cases h : inner.getLast? = some '\x7d'
  · obtain ⟨body, rfl⟩ := List.getLast?_eq_some_iff.mp h
    exact ⟨body, true, rfl, nofun⟩
  · exact ⟨inner, false, (List.append_nil inner).symm, fun _ => h⟩

theorem scopeRules_prelude {prelude block after : List Char} (hprelude : IsPrelude prelude)
    (hblock : IsBlock block after)
    (cls : List Char) :
    scopeRules cls (prelude ++ block ++ after) =
      ((scopeRule cls prelude block).1 ++ (scopeRules cls after).1,
        (scopeRule cls prelude block).2 ++ (scopeRules cls after).2) := by
  obtain ⟨hp, hz⟩ := hprelude
  have htake := hblock.takeBlock
  obtain ⟨inner, rfl⟩ := hblock.exists_cons
  rw [List.cons_append] at htake
  rw [List.append_assoc, List.cons_append, scopeRules_block (takePrelude_ended hp hz (by decide) _) (by decide), htake]

/-- Scoping marks the bare tags of a sheet with the class, and reports them. -/
theorem scopeRules_text {sheet : Sheet} (h : sheet.WellFormed) (cls : List Char) :
    scopeRules cls sheet.text = (sheet.textWith ('.' :: cls), sheet.tags) := by
  induction sheet with
  | last prelude => exact scopeRules_end (takePrelude_of_unended h)
  | statement prelude rest ih =>
    obtain ⟨⟨hp, hz⟩, hrest⟩ := h
    rw [text, textWith, scopeRules_semicolon (takePrelude_ended hp hz (by decide) _), ← text, ih hrest]
    rfl
  | rule selectors block rest ih =>
    obtain ⟨⟨hne, hselectors⟩, ⟨hprelude, hat⟩, hblock, hrest⟩ := h
    rw [text, textWith, ← text, scopeRules_prelude hprelude hblock, ih hrest, scopeRule, hat,
      Selector.scopeSelectorList_text hne hselectors]
    rfl
  | atRule prelude block rest ih =>
    obtain ⟨⟨hprelude, hat, hnesting⟩, hblock, hrest⟩ := h
    rw [text, textWith, ← text, scopeRules_prelude hprelude hblock, ih hrest, scopeRule, hat, hnesting]
    rfl
  | group prelude body closed rest ihbody ihrest =>
    obtain ⟨⟨hprelude, hat, hnesting⟩, ⟨hblock, hclosed⟩, hbody, hrest⟩ := h
    obtain ⟨hinner, hend⟩ := blockBody_brace hclosed
    have hcut : (group prelude body closed rest).text =
        prelude ++ ('\x7b' :: body.text ++ brace closed) ++ rest.text := by
      simp [text, textWith]
    rw [hcut, scopeRules_prelude hprelude hblock, ihrest hrest, scopeRule, hat,
      hnesting, if_pos rfl, if_pos rfl, hinner, hend, ihbody hbody]
    rfl

/-- Every text is that of a sheet. -/
theorem exists_sheet (css : List Char) : ∃ sheet : Sheet, sheet.WellFormed ∧ sheet.text = css := by
  induction hn : css.length using Nat.strongRecOn generalizing css with
  | _ n ih =>
    rcases htake : takePrelude .code css with ⟨prelude, after⟩
    obtain ⟨hp, hafter⟩ := takePrelude_eq htake
    have hcss : css = prelude ++ after := by simpa [htake] using (takePrelude_append .code css).symm
    subst hcss hn
    rcases hafter with rfl | ⟨c, r, rfl, hc, hz⟩
    · exact ⟨last prelude, hp, by rw [text, textWith, List.append_nil]⟩
    · have hprelude : IsPrelude prelude := ⟨hp, hz⟩
      obtain rfl | rfl : c = '\x7b' ∨ c = ';' := by simpa [endsPrelude] using hc
      · obtain ⟨block, after, e, hblock⟩ := exists_isBlock r
        obtain ⟨inner, rfl⟩ := hblock.exists_cons
        have hlength := congrArg List.length e
        simp only [List.length_cons, List.length_append] at hlength
        obtain ⟨rest, hrest, rfl⟩ := ih _ (by simp; omega) after rfl
        rw [e]
        by_cases hat : isAtRule prelude = true
        · by_cases hnesting : isNestingRule prelude = true
          · obtain ⟨body, closed, rfl, hclosed⟩ := exists_body inner
            simp only [List.length_append] at hlength
            obtain ⟨sheet, hsheet, rfl⟩ := ih _ (by simp; omega) body rfl
            exact ⟨group prelude sheet closed rest, ⟨⟨hprelude, hat, hnesting⟩, ⟨hblock, hclosed⟩, hsheet, hrest⟩,
              by simp [text, textWith]⟩
          · exact ⟨atRule prelude _ rest, ⟨⟨hprelude, hat, eq_false_of_ne_true hnesting⟩, hblock, hrest⟩,
              by simp [text, textWith]⟩
        · obtain ⟨selectors, hne, hselectors, rfl⟩ := Selector.exists_list prelude
          exact ⟨rule selectors _ rest, ⟨⟨hne, hselectors⟩, ⟨hprelude, eq_false_of_ne_true hat⟩, hblock, hrest⟩,
            by simp [text, textWith]⟩
      · obtain ⟨rest, hrest, rfl⟩ := ih _ (by simp; omega) r rfl
        exact ⟨statement prelude rest, ⟨hprelude, hrest⟩, rfl⟩

end Sheet

/-- Scoping a stylesheet inserts the class behind the bare tags of its rules, which are the tags
    reported, and leaves every other character in its place. -/
theorem scoped_inserts (style markup scopeClass : String) :
    (∃ sheet : Sheet, sheet.WellFormed ∧ sheet.text = style.toList) ∧
      ∀ sheet : Sheet, sheet.WellFormed → sheet.text = style.toList →
        (scope style markup scopeClass).style = String.ofList (sheet.textWith ('.' :: scopeClass.toList)) ∧
          ∀ tag, tag ∈ (scope style markup scopeClass).scopedTags ↔ tag.toList ∈ sheet.tags := by
  refine ⟨Sheet.exists_sheet style.toList, fun sheet hsheet htext => ?_⟩
  have hscoped : scopeRules scopeClass.toList style.toList =
      (sheet.textWith ('.' :: scopeClass.toList), sheet.tags) := by
    rw [← htext, Sheet.scopeRules_text hsheet]
  refine ⟨?_, fun tag => ?_⟩
  · simp only [scope, hscoped]
  · rw [mem_scopedTags, hscoped]

/-- A rule in a media query, and a font behind it that is left open. -/
theorem scoped_inserts_in_media_query :
    let sheet : Sheet := .statement "@import a".toList (.group "@media print".toList
      (.rule [.bare [] "p".toList ":hover > a".toList, .bare [' '] "h1".toList []] "\x7by\x7d".toList (.last []))
      true (.atRule "@font-face ".toList "\x7bb \x7b\x7d".toList (.last [])))
    sheet.WellFormed ∧ sheet.text =
      "@import a;@media print\x7bp:hover > a, h1\x7by\x7d\x7d@font-face \x7bb \x7b\x7d".toList ∧
      (scope (String.ofList sheet.text) "" "s").style =
        "@import a;@media print\x7bp.s:hover > a, h1.s\x7by\x7d\x7d@font-face \x7bb \x7b\x7d" ∧
      "h1" ∈ (scope (String.ofList sheet.text) "" "s").scopedTags := by
  intro sheet
  have himport : IsPlainPrelude "@import a".toList := isPlainPrelude_of_not_mem (by decide) (by decide) (by decide)
  have hmedia : IsPlainPrelude "@media print".toList := isPlainPrelude_of_not_mem (by decide) (by decide) (by decide)
  have hfont : IsPlainPrelude "@font-face ".toList := isPlainPrelude_of_not_mem (by decide) (by decide) (by decide)
  have hlist : IsPlainPrelude "p:hover > a, h1".toList := isPlainPrelude_of_not_mem (by decide) (by decide) (by decide)
  have hp : BareTag [] "p".toList ":hover > a".toList :=
    ⟨rfl, by decide, ":hover".toList, " > a".toList, rfl, by decide, by decide, by decide⟩
  have hh1 : BareTag [' '] "h1".toList [] := ⟨by decide, by decide, [], [], rfl, by decide, by decide, by decide⟩
  have hselectors : ∀ s ∈ [Selector.bare [] "p".toList ":hover > a".toList, .bare [' '] "h1".toList []], s.WellFormed :=
    List.forall_mem_cons.mpr ⟨⟨by decide, hp⟩, List.forall_mem_singleton.mpr ⟨by decide, hh1⟩⟩
  have hrule : (Sheet.rule [.bare [] "p".toList ":hover > a".toList, .bare [' '] "h1".toList []] "\x7by\x7d".toList
      (.last [])).WellFormed :=
    ⟨⟨List.cons_ne_nil _ _, hselectors⟩, ⟨hlist.isPrelude, by decide⟩, Or.inl ⟨['y'], rfl, by decide⟩, trivial⟩
  have hopen : IsBlock "\x7bb \x7b\x7d".toList [] := Or.inr ⟨rfl, "b \x7b\x7d".toList, 0, rfl, by decide⟩
  have hsheet : sheet.WellFormed :=
    ⟨himport.isPrelude, ⟨hmedia.isPrelude, by decide, by decide⟩,
      ⟨Or.inl ⟨_, rfl, by decide⟩, nofun⟩, hrule, ⟨hfont.isPrelude, by decide, by decide⟩, hopen, trivial⟩
  obtain ⟨hstyle, htags⟩ := (scoped_inserts (String.ofList sheet.text) "" "s").2 sheet hsheet String.toList_ofList.symm
  exact ⟨hsheet, by decide, hstyle.trans (by decide +kernel), (htags "h1").mpr (by decide)⟩

/-- Behind a comment an at-rule is read as selectors, and behind a comma so is the comment itself. -/
theorem comment_hides_at_rule :
    (scope "/* c */ @media screen, print \x7b \x7d" "" "s").style = "/* c */ @media screen, print.s \x7b \x7d" ∧
      "print" ∈ (scope "/* c */ @media screen, print \x7b \x7d" "" "s").scopedTags ∧
      (scope "/* a, b */ p \x7b \x7d" "" "s").style = "/* a, b.s */ p \x7b \x7d" := by
  refine ⟨by decide +kernel, ?_, by decide +kernel⟩
  rw [mem_scopedTags]
  decide +kernel

end ComponentSite.Style
