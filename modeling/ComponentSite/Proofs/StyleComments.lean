/-
  ComponentSite.Proofs.StyleComments — a comment between two statements.

  A comment is stepped over while a prelude is read, so that nothing in it counts
  (`zone_commented`), but it stays in front of the prelude, and the prelude is then read from
  its slash on. So it is never that of an at-rule, the first selector behind the comment is
  never a bare one, and behind a comma the words of the comment are selectors themselves.
  Behind complete statements a comment changes nothing exactly if none of that matters
  (`BearsComment`, `comment_kept_iff`); otherwise it disables rules (`comment_disables_rule`).

  The star that opens a comment may be the one that closes it: a comment that begins with a
  slash ends there.
-/
import ComponentSite.Proofs.SelectorMarks

namespace ComponentSite.Style
open Text

/-! ## Reading over a comment -/

def commented (c : List Char) : List Char := "/*".toList ++ c ++ "*/".toList

theorem zone_comment {body : List Char} (h : Lacks ['*', '/'] body) (s : List Char) :
    Zone.comment.behind (body ++ '*' :: '/' :: s) = Zone.code.behind s ∧
      (Unended .comment (body ++ '*' :: '/' :: s) ↔ Unended .code s) := by
  induction body with
  | nil => simp [Zone.behind, Zone.next, Unended]
  | cons c body ih =>
    have hnext : Zone.comment.next c (body ++ '*' :: '/' :: s).head? = .comment := by
      refine if_neg fun hends => ?_
      obtain ⟨hc, hhead⟩ := (Bool.and_eq_true _ _).mp hends
      rw [eq_of_beq hc] at h
      cases body with
      | nil => exact absurd hhead (by simp)
      | cons d body =>
        have hd : d = '/' := by simpa using hhead
        exact h ⟨[], body, by rw [hd]; rfl⟩
    rw [List.cons_append, Zone.behind, Unended, hnext]
    obtain ⟨hbehind, hunended⟩ := ih (h.of_part (List.suffix_cons c body).isInfix)
    exact ⟨hbehind, fun h => hunended.mp h.2, fun h => ⟨fun e => absurd e (by decide), hunended.mpr h⟩⟩

section
variable {c : List Char} (hc : Lacks ['*', '/'] c) (hslash : c.head? ≠ some '/')
include hc hslash

/-- Behind a comment a prelude is read as without it. -/
theorem zone_commented (s : List Char) :
    Zone.code.behind (commented c ++ s) = Zone.code.behind s ∧
      (Unended .code (commented c ++ s) ↔ Unended .code s) := by
  have hbody : Lacks ['*', '/'] ('*' :: c) := by
    rintro ⟨u, v, e⟩
    cases u with
    | nil =>
      obtain ⟨-, rfl⟩ := List.cons.inj e
      exact hslash rfl
    | cons d u => exact hc ⟨u, v, (List.cons.inj e).2⟩
  have hcut : commented c ++ s = '/' :: ('*' :: c ++ '*' :: '/' :: s) := by simp [commented]
  obtain ⟨hbehind, hunended⟩ := zone_comment hbody s
  have hnext : Zone.code.next '/' ('*' :: c ++ '*' :: '/' :: s).head? = .comment := rfl
  rw [hcut, Zone.behind, Unended, hnext]
  exact ⟨hbehind, fun h => hunended.mp h.2, fun h => ⟨fun _ => by decide, hunended.mpr h⟩⟩

theorem isPrelude_commented {p : List Char} (h : IsPrelude p) : IsPrelude (commented c ++ p) := by
  obtain ⟨hbehind, hunended⟩ := zone_commented hc hslash p
  exact ⟨hunended.mpr h.1, hbehind.trans h.2⟩

end

theorem isAtRule_commented (c p : List Char) : isAtRule (commented c ++ p) = false := by
  have hcut : commented c ++ p = '/' :: ('*' :: c ++ '*' :: '/' :: p) := by simp [commented]
  rw [isAtRule, hcut, trimStart_cons_of_not_isBlank (by decide)]
  rfl

/-! ## What is qualified behind a comment -/

theorem getLast?_commented (c : List Char) : (commented c).getLast? = some '/' := by
  rw [commented, List.getLast?_append_of_ne_nil _ (by decide)]
  rfl

/-- A first mark behind a comment and one selector stands in the comment. -/
theorem first_mark_in_comment {c s u tag v : List Char} (hs : ',' ∉ s) (e : commented c ++ s = u ++ tag ++ v)
    (hu : StartsSelector u) (htag : IsTag tag) : ∃ k, commented c = u ++ tag ++ k ∧ v = k ++ s ∧ k ≠ [] := by
  obtain ⟨front, lead, rfl, hlead, hfront⟩ := hu
  have hfront : ∀ d, front.getLast? = some d → d = ',' := fun d hd => by simpa [hd] using hfront
  have hname : '/' ∉ lead ++ tag := by
    rw [List.mem_append, not_or]
    exact ⟨not_mem_of_isBlank (by decide) hlead, fun hmem => absurd (List.all_eq_true.mp htag.2 _ hmem) (by decide)⟩
  have hslash : ∀ {r k : List Char}, commented c = r ++ k → k ≠ [] → '/' ∈ k := by
    intro r k hcut hk
    refine List.mem_of_getLast? ?_
    rw [← List.getLast?_append_of_ne_nil r hk, ← hcut, getLast?_commented]
  rw [List.append_assoc front] at e ⊢
  rcases List.append_eq_append_iff.mp e with ⟨m, hm, rfl⟩ | ⟨k, hk, rfl⟩
  · exfalso
    rcases List.append_eq_append_iff.mp hm with ⟨k, hk, hrest⟩ | ⟨k, rfl, hrest⟩
    · -- the slash that ends the comment would be one of the tag, or of the white space in front of it
      cases k with
      | nil => exact absurd (hfront '/' (by rw [← List.append_nil front, ← hk, getLast?_commented])) (by decide)
      | cons d k => exact hname (hrest ▸ List.mem_append_left m (hslash hk (List.cons_ne_nil d k)))
    · -- a comma would stand in the selector, or end the comment
      cases k with
      | nil => exact absurd (hfront '/' (by rw [List.append_nil, getLast?_commented])) (by decide)
      | cons d k =>
        obtain ⟨x, hx⟩ := Option.isSome_iff_exists.mp (List.getLast?_isSome.mpr (List.cons_ne_nil d k))
        have hcomma := hfront x (by rw [List.getLast?_append_of_ne_nil _ (List.cons_ne_nil d k), hx])
        have hmem := List.mem_of_getLast? hx
        rw [hcomma] at hmem
        exact hs (List.mem_append_left v (hrest ▸ List.mem_append_left _ hmem))
  · refine ⟨k, hk, rfl, ?_⟩
    rintro rfl
    rw [List.append_nil] at hk
    obtain ⟨d, r, rfl, -, -⟩ := htag.exists_cons
    exact hname (hslash hk (by simp))

/-- The first selector behind a comment is left as it is. So it is scoped as without the comment if it is
    no bare one and no word of the comment is a selector. -/
theorem scopeSelectorList_comment_iff {s : Selector} (h : s.WellFormed) (c cls : List Char) :
    (scopeSelectorList cls (commented c ++ s.text)).1 = commented c ++ s.textWith ('.' :: cls) ↔
      s.tag? = none ∧ NoneBare (commented c ++ s.text) := by
  rw [noneBare_iff]
  constructor
  · intro e
    by_cases htags : qualifiedTags (commented c ++ s.text) = []
    · refine ⟨?_, htags⟩
      rw [scopeSelectorList_of_no_tags htags] at e
      cases s with
      | bare lead tag tail =>
        have hlength := congrArg List.length (List.append_cancel_left e)
        simp only [Selector.text, Selector.textWith, List.length_append, List.length_cons, List.length_nil] at hlength
        omega
      | other s => rfl
    · exfalso
      obtain ⟨u, tag, v, w, hu, hw, hstarts, htag, hv⟩ := exists_first_mark htags cls
      obtain ⟨k, hk, rfl, hne⟩ := first_mark_in_comment h.1 hu hstarts htag
      rw [hw, hk, List.append_assoc (u ++ tag) k] at e
      have hhead : some '.' = (k ++ s.textWith ('.' :: cls)).head? := congrArg List.head? (List.append_cancel_left e)
      obtain ⟨d, k, rfl⟩ := List.exists_cons_of_ne_nil hne
      exact hv hhead.symm
  · rintro ⟨htag, htags⟩
    rw [scopeSelectorList_of_no_tags htags]
    cases s with
    | bare lead tag tail => cases htag
    | other s => rfl

theorem scopeSelectorList_rest {rest : List Selector} (h : ∀ s ∈ rest, s.WellFormed) (cls a : List Char) :
    scopeSelectorList cls (a ++ rest.flatMap fun t => ',' :: t.textWith []) =
      ((scopeSelectorList cls a).1 ++ (rest.flatMap fun t => ',' :: t.textWith ('.' :: cls)),
        qualifiedTags a ++ rest.filterMap Selector.tag?) := by
  cases rest with
  | nil => simp [← scopeSelectorList_tags cls a]
  | cons s rest =>
    have hcut : ∀ mark, ((s :: rest).flatMap fun t => ',' :: t.textWith mark) =
        ',' :: Selector.listWith mark (s :: rest) :=
      fun mark => by simp [Selector.listWith_cons]
    rw [hcut, hcut, scopeSelectorList_append, Selector.scopeSelectorList_text (List.cons_ne_nil s rest) h,
      qualifiedTags_listWith (List.cons_ne_nil s rest) h]

theorem Selector.length_listWith (mark : List Char) (selectors : List Selector) :
    (listWith mark selectors).length =
      (listWith [] selectors).length + (selectors.filterMap tag?).length * mark.length := by
  have hselector : ∀ s : Selector, (s.textWith mark).length =
      (s.textWith []).length + s.tag?.toList.length * mark.length := by
    intro s
    cases s with
    | bare lead tag tail =>
      simp only [textWith, tag?, Option.toList_some, List.length_append, List.length_nil, List.length_singleton]
      omega
    | other s => simp [textWith, tag?]
  have htags : ∀ (s : Selector) (rest : List Selector),
      ((s :: rest).filterMap tag?).length = s.tag?.toList.length + (rest.filterMap tag?).length := by
    intro s rest
    cases s with
    | bare lead tag tail => simp [tag?, Nat.add_comm]
    | other s => rw [List.filterMap_cons_none rfl, tag?, Option.toList_none, List.length_nil, Nat.zero_add]
  have hrest : ∀ rest : List Selector, (rest.flatMap fun t => ',' :: t.textWith mark).length =
      (rest.flatMap fun t => ',' :: t.textWith []).length + (rest.filterMap tag?).length * mark.length := by
    intro rest
    induction rest with
    | nil => simp
    | cons s rest ih =>
      simp only [List.flatMap_cons, List.length_append, List.length_cons, htags, hselector s, ih, Nat.add_mul]
      omega
  cases selectors with
  | nil => simp [listWith]
  | cons s rest =>
    simp only [listWith_cons, List.length_append, htags, hselector s, hrest, Nat.add_mul]
    omega

theorem scopeSelectorList_commented {s : Selector} {rest : List Selector} (h : ∀ s ∈ rest, s.WellFormed)
    (c cls : List Char) :
    scopeSelectorList cls (commented c ++ Selector.listWith [] (s :: rest)) =
      ((scopeSelectorList cls (commented c ++ s.text)).1 ++ (rest.flatMap fun t => ',' :: t.textWith ('.' :: cls)),
        qualifiedTags (commented c ++ s.text) ++ rest.filterMap Selector.tag?) := by
  rw [Selector.listWith_cons, ← List.append_assoc, scopeSelectorList_rest h]
  rfl

namespace Sheet

/-- A mark stands behind each tag that is reported, and nowhere else. -/
theorem length_textWith (mark : List Char) (sheet : Sheet) :
    (sheet.textWith mark).length = sheet.text.length + sheet.tags.length * mark.length := by
  induction sheet with
  | last prelude => simp [text, textWith, tags]
  | statement prelude rest ih =>
    simp only [text, textWith, tags, List.length_append, List.length_cons] at ih ⊢
    omega
  | rule selectors block rest ih =>
    simp only [text, textWith, tags, List.length_append, Selector.length_listWith mark, Nat.add_mul] at ih ⊢
    omega
  | atRule prelude block rest ih =>
    simp only [text, textWith, tags, List.length_append] at ih ⊢
    omega
  | group prelude body closed rest ihbody ihrest =>
    simp only [text, textWith, tags, List.length_append, List.length_cons, Nat.add_mul] at ihbody ihrest ⊢
    omega

theorem textWith_eq_iff {mark : List Char} (hmark : mark ≠ []) {sheet : Sheet} :
    sheet.textWith mark = sheet.text ↔ sheet.tags = [] := by
  constructor
  · intro h
    have hlength := sheet.length_textWith mark
    rw [h] at hlength
    have hzero : sheet.tags.length * mark.length = 0 := by omega
    rcases Nat.mul_eq_zero.mp hzero with htags | hnil
    · exact List.length_eq_zero_iff.mp htags
    · exact absurd (List.length_eq_zero_iff.mp hnil) hmark
  · intro h
    induction sheet with
    | last prelude => rfl
    | statement prelude rest ih => simp only [text, textWith] at ih ⊢; rw [ih h]
    | rule selectors block rest ih =>
      obtain ⟨hnone, hrest⟩ := List.append_eq_nil_iff.mp h
      simp only [text, textWith] at ih ⊢
      rw [ih hrest, Selector.listWith_of_no_tags hnone]
    | atRule prelude block rest ih => simp only [text, textWith] at ih ⊢; rw [ih h]
    | group prelude body closed rest ihbody ihrest =>
      obtain ⟨hbody, hrest⟩ := List.append_eq_nil_iff.mp h
      simp only [text, textWith] at ihbody ihrest ⊢
      rw [ihbody hbody, ihrest hrest]

/-- What comes first in the sheet is scoped as it is without the comment in front of it. -/
def BearsComment (comment : List Char) : Sheet → Prop
  | last _ => True
  | statement _ _ => True
  | rule selectors _ _ => ∀ s ∈ selectors.head?, s.tag? = none ∧ NoneBare (comment ++ s.text)
  | atRule prelude _ _ => NoneBare (comment ++ prelude)
  | group prelude body _ _ => NoneBare (comment ++ prelude) ∧ body.tags = []

section
variable {c : List Char} (hc : Lacks ['*', '/'] c) (hslash : c.head? ≠ some '/')
include hc hslash

/-- Behind a comment every prelude is read as a list of selectors. -/
theorem scopeRules_commented {prelude block : List Char} {rest : Sheet} (hprelude : IsPrelude prelude)
    (hblock : IsBlock block rest.text) (hrest : rest.WellFormed) (cls : List Char) :
    scopeRules cls (commented c ++ (prelude ++ block ++ rest.text)) =
      ((scopeSelectorList cls (commented c ++ prelude)).1 ++ block ++ rest.textWith ('.' :: cls),
        qualifiedTags (commented c ++ prelude) ++ rest.tags) := by
  have hcut : commented c ++ (prelude ++ block ++ rest.text) = commented c ++ prelude ++ block ++ rest.text := by simp
  rw [hcut, scopeRules_prelude (isPrelude_commented hc hslash hprelude) hblock, scopeRules_text hrest, scopeRule,
    isAtRule_commented, if_neg Bool.false_ne_true, scopeSelectorList_tags]

theorem scopeRules_of_bearsComment {sheet : Sheet} (h : sheet.WellFormed) (hbears : sheet.BearsComment (commented c))
    (cls : List Char) :
    scopeRules cls (commented c ++ sheet.text) = (commented c ++ sheet.textWith ('.' :: cls), sheet.tags) := by
  cases sheet with
  | last prelude =>
    have hlast : (last (commented c ++ prelude)).WellFormed := (zone_commented hc hslash prelude).2.mpr h
    exact scopeRules_text hlast cls
  | statement prelude rest =>
    have hstatement : (statement (commented c ++ prelude) rest).WellFormed := ⟨isPrelude_commented hc hslash h.1, h.2⟩
    have hrun := scopeRules_text hstatement cls
    simpa [text, textWith, tags] using hrun
  | rule selectors block rest =>
    obtain ⟨⟨hne, hselectors⟩, ⟨hprelude, -⟩, hblock, hrest⟩ := h
    obtain ⟨s, selectors, rfl⟩ := List.exists_cons_of_ne_nil hne
    obtain ⟨hs, hselectors⟩ := List.forall_mem_cons.mp hselectors
    obtain ⟨hnone, htags⟩ := hbears s rfl
    have hfirst := (scopeSelectorList_comment_iff hs c cls).mpr ⟨hnone, htags⟩
    have hrun := scopeRules_commented hc hslash hprelude hblock hrest cls
    rw [← scopeSelectorList_tags cls, scopeSelectorList_commented hselectors, hfirst, noneBare_iff.mp htags] at hrun
    simpa [text, textWith, tags, Selector.listWith_cons, List.filterMap_cons_none hnone] using hrun
  | atRule prelude block rest =>
    obtain ⟨⟨hprelude, -⟩, hblock, hrest⟩ := h
    have hrun := scopeRules_commented hc hslash hprelude hblock hrest cls
    have hnone := noneBare_iff.mp hbears
    rw [scopeSelectorList_of_no_tags hnone, hnone] at hrun
    simpa [text, textWith, tags] using hrun
  | group prelude body closed rest =>
    obtain ⟨⟨hprelude, -⟩, ⟨hblock, -⟩, hbody, hrest⟩ := h
    obtain ⟨hnone, htags⟩ := hbears
    have hnone := noneBare_iff.mp hnone
    have hrun := scopeRules_commented hc hslash hprelude hblock hrest cls
    -- the block is text to the rule that the at-rule is read as, so nothing in it may be marked
    have hsame : body.textWith ('.' :: cls) = body.text := (textWith_eq_iff (List.cons_ne_nil '.' cls)).mpr htags
    rw [scopeSelectorList_of_no_tags hnone, hnone] at hrun
    simpa [text, textWith, tags, htags, hsame] using hrun

theorem bearsComment_of_scopeRules {sheet : Sheet} (h : sheet.WellFormed) {cls : List Char}
    (e : (scopeRules cls (commented c ++ sheet.text)).1 = commented c ++ sheet.textWith ('.' :: cls)) :
    sheet.BearsComment (commented c) := by
  cases sheet with
  | last prelude => trivial
  | statement prelude rest => trivial
  | rule selectors block rest =>
    obtain ⟨⟨hne, hselectors⟩, ⟨hprelude, -⟩, hblock, hrest⟩ := h
    obtain ⟨s, selectors, rfl⟩ := List.exists_cons_of_ne_nil hne
    obtain ⟨hs, hselectors⟩ := List.forall_mem_cons.mp hselectors
    have hrun := scopeRules_commented hc hslash hprelude hblock hrest cls
    rw [scopeSelectorList_commented hselectors] at hrun
    have e := (congrArg Prod.fst hrun).symm.trans e
    simp only [textWith, Selector.listWith_cons, ← List.append_assoc, List.append_cancel_right_eq] at e
    rintro t ht
    obtain rfl : s = t := Option.some.inj ht
    exact (scopeSelectorList_comment_iff hs c cls).mp e
  | atRule prelude block rest =>
    obtain ⟨⟨hprelude, -⟩, hblock, hrest⟩ := h
    have e := (congrArg Prod.fst (scopeRules_commented hc hslash hprelude hblock hrest cls)).symm.trans e
    have e : (scopeSelectorList cls (commented c ++ prelude)).1 ++ (block ++ rest.textWith ('.' :: cls)) =
        commented c ++ prelude ++ (block ++ rest.textWith ('.' :: cls)) := by
      simpa only [textWith, List.append_assoc] using e
    obtain ⟨inner, rfl⟩ := hblock.exists_cons
    exact noneBare_of_append_eq e (by simp)
  | group prelude body closed rest =>
    obtain ⟨⟨hprelude, -⟩, ⟨hblock, -⟩, hbody, hrest⟩ := h
    have hcut : (group prelude body closed rest).text =
        prelude ++ ('\x7b' :: body.text ++ brace closed) ++ rest.text := by
      simp [text, textWith]
    rw [hcut] at e
    have e := (congrArg Prod.fst (scopeRules_commented hc hslash hprelude hblock hrest cls)).symm.trans e
    have e : (scopeSelectorList cls (commented c ++ prelude)).1 ++
        ('\x7b' :: body.text ++ brace closed ++ rest.textWith ('.' :: cls)) =
        commented c ++ prelude ++
          ('\x7b' :: body.textWith ('.' :: cls) ++ brace closed ++ rest.textWith ('.' :: cls)) := by
      simpa only [textWith, List.append_assoc] using e
    have hnone := noneBare_of_append_eq e (by simp)
    rw [scopeSelectorList_of_no_tags (noneBare_iff.mp hnone)] at e
    have hbodies := List.append_cancel_right (List.append_cancel_right (List.append_cancel_left e))
    exact ⟨hnone, (textWith_eq_iff (List.cons_ne_nil '.' cls)).mp (List.cons.inj hbodies).2.symm⟩

end

end Sheet

/-- A comment behind complete statements is kept and what follows is scoped as without it, exactly if what
    follows bears a comment. -/
theorem comment_kept_iff {statements : List Statement} (h : ∀ s ∈ statements, s.Complete) {c : String}
    (hc : Lacks ['*', '/'] c.toList) (hslash : c.toList.head? ≠ some '/') (b markup scopeClass : String) :
    let a := String.ofList (statements.flatMap Statement.text)
    let comment := "/*" ++ c ++ "*/"
    (∃ sheet : Sheet, sheet.WellFormed ∧ sheet.text = b.toList) ∧
      ∀ sheet : Sheet, sheet.WellFormed → sheet.text = b.toList →
        ((scope (a ++ comment ++ b) markup scopeClass).style =
              (scope a markup scopeClass).style ++ comment ++ (scope b markup scopeClass).style ∧
            (scope (a ++ comment ++ b) markup scopeClass).scopedTags = (scope (a ++ b) markup scopeClass).scopedTags ↔
          sheet.BearsComment comment.toList) := by
  intro a comment
  refine ⟨Sheet.exists_sheet b.toList, fun sheet hsheet htext => ?_⟩
  have hcomment : comment.toList = commented c.toList := by simp [comment, commented]
  have hrun := Statement.scopeRules_run h scopeClass.toList
  have ha := hrun []
  rw [List.append_nil, scopeRules_nil, List.append_nil, List.append_nil] at ha
  have hab : (a ++ b).toList = statements.flatMap Statement.text ++ sheet.text := by
    rw [String.toList_append, String.toList_ofList, htext]
  have hall : (a ++ comment ++ b).toList = statements.flatMap Statement.text ++ (commented c.toList ++ sheet.text) := by
    rw [String.toList_append, String.toList_append, String.toList_ofList, hcomment, htext, List.append_assoc]
  have hb := Sheet.scopeRules_text hsheet scopeClass.toList
  rw [hcomment]
  constructor
  · rintro ⟨hstyle, -⟩
    have hstyle := congrArg String.toList hstyle
    simp only [scope, hall, hrun, a, String.toList_ofList, ha, ← htext, hb, String.toList_append, hcomment,
      List.append_assoc] at hstyle
    exact Sheet.bearsComment_of_scopeRules hc hslash hsheet (List.append_cancel_left hstyle)
  · intro hbears
    have hkept := Sheet.scopeRules_of_bearsComment hc hslash hsheet hbears scopeClass.toList
    constructor
    · refine String.toList_injective ?_
      simp only [scope, hall, hrun, a, String.toList_ofList, ha, ← htext, hb, hkept, String.toList_append, hcomment,
        List.append_assoc]
    · simp only [scope, hall, hab, hrun, hb, hkept]

/-- A comment with a semicolon and a brace in it, between an import and a rule that begins with a class. -/
theorem comment_kept_before_class :
    let statements : List Statement := [.semicolon "@import a".toList]
    let sheet : Sheet :=
      .rule [.other ".a".toList, .bare [' '] "h1".toList ":hover".toList] "\x7bx\x7d".toList (.last [])
    let a := String.ofList (statements.flatMap Statement.text)
    (∀ s ∈ statements, s.Complete) ∧ sheet.WellFormed ∧ sheet.BearsComment "/*p;,.a \x7b*/".toList ∧
      (scope (a ++ ("/*" ++ "p;,.a \x7b" ++ "*/") ++ ".a, h1:hover\x7bx\x7d") "<h1/>" "s").style =
        "@import a;/*p;,.a \x7b*/.a, h1.s:hover\x7bx\x7d" := by
  intro statements sheet a
  have himport : IsPlainPrelude "@import a".toList := isPlainPrelude_of_not_mem (by decide) (by decide) (by decide)
  have hcomplete : ∀ s ∈ statements, s.Complete := List.forall_mem_singleton.mpr himport
  have hlist : IsPlainPrelude ".a, h1:hover".toList := isPlainPrelude_of_not_mem (by decide) (by decide) (by decide)
  have hh1 : BareTag [' '] "h1".toList ":hover".toList :=
    ⟨by decide, by decide, ":hover".toList, [], rfl, by decide, by decide, by decide⟩
  have hselectors : ∀ s ∈ [Selector.other ".a".toList, .bare [' '] "h1".toList ":hover".toList], s.WellFormed :=
    List.forall_mem_cons.mpr ⟨Selector.wellFormed_other (by decide) (by decide),
      List.forall_mem_singleton.mpr ⟨by decide, hh1⟩⟩
  have hsheet : sheet.WellFormed :=
    ⟨⟨List.cons_ne_nil _ _, hselectors⟩, ⟨hlist.isPrelude, by decide⟩, Or.inl ⟨['x'], rfl, by decide⟩, trivial⟩
  have hbears : sheet.BearsComment "/*p;,.a \x7b*/".toList := by
    rintro s hs
    obtain rfl := Option.some.inj hs
    exact ⟨rfl, by decide⟩
  have hlacks : Lacks ['*', '/'] "p;,.a \x7b".toList :=
    fun h => absurd (h.subset (List.mem_cons_self (a := '*'))) (by decide)
  have hkept := ((comment_kept_iff hcomplete hlacks
    (by decide) ".a, h1:hover\x7bx\x7d" "<h1/>" "s").2 sheet hsheet (by decide)).mpr hbears
  exact ⟨hcomplete, hsheet, hbears, hkept.1.trans (by decide +kernel)⟩

/-- A comment disables the rule behind it, and one that begins with a slash all that follow. Behind a
    comma its words are qualified. -/
theorem comment_disables_rule :
    (scope " p \x7b \x7d" "" "s").style = " p.s \x7b \x7d" ∧
      (scope "/* c */ p \x7b \x7d" "" "s").style = "/* c */ p \x7b \x7d" ∧
      "p" ∈ (scope " p \x7b \x7d" "" "s").scopedTags ∧ "p" ∉ (scope "/* c */ p \x7b \x7d" "" "s").scopedTags ∧
      (scope "/* a, b */ .c \x7b \x7d" "" "s").style = "/* a, b.s */ .c \x7b \x7d" ∧
      (scope "/*/\x7b*/.c \x7b \x7d p \x7b \x7d" "" "s").style = "/*/\x7b*/.c \x7b \x7d p \x7b \x7d" := by
  simp only [mem_scopedTags]
  refine ⟨by decide +kernel, by decide +kernel, by decide +kernel, by decide +kernel,
    by decide +kernel, by decide +kernel⟩

end ComponentSite.Style
