/-
  ComponentSite.Proofs.SelectorArguments — tags with pseudo-classes, and the arguments of
  these.

  A selector of a list is a tag name, pseudo-classes and pseudo-elements with or without an
  argument in parentheses, and the rest, which begins with white space or a combinator. The
  grammar of bare tags admits any argument, and reads all of them (`isPseudos_texts`). But a
  list is cut at commas and a selector at white space and combinators before that, also where
  these stand in parentheses (`exists_cut`). So each tag is qualified, and nothing else,
  exactly if no argument holds one of these and behind no comma of a rest there is a bare
  tag (`listed_qualified_iff`).
-/
import ComponentSite.Proofs.SelectorMarks
import Mathlib.Data.List.TakeWhile

namespace ComponentSite.Style
open Text

/-! ## Pseudo-classes -/

structure PseudoClass where
  isElement : Bool
  name : List Char
  argument : Option (List Char)
  deriving DecidableEq, Repr

def cutsCompound (c : Char) : Bool := c == ',' || endsCompound c

theorem not_cuts_of_isPseudoNameChar {c : Char} (h : isPseudoNameChar c = true) : cutsCompound c = false := by
  have hne : ∀ d, isPseudoNameChar d = false → c ≠ d := fun d hd e => Bool.noConfusion (hd.symm.trans (e ▸ h))
  have hname : isMarkupNameChar c = true := by
    rcases (Bool.or_eq_true _ _).mp h with h | h
    · simp [isMarkupNameChar, Char.isAlphanum, h]
    · simp [isMarkupNameChar, h]
  have hblank := isBlank_of_isMarkupNameChar hname
  simp [cutsCompound, endsCompound, hblank, hne ',' (by decide), hne '>' (by decide),
    hne '+' (by decide), hne '~' (by decide)]

namespace PseudoClass

def opening (p : PseudoClass) : List Char := (if p.isElement then [':', ':'] else [':']) ++ p.name

def text (p : PseudoClass) : List Char := p.opening ++ p.argument.elim [] fun a => '(' :: a ++ [')']

def texts (pseudos : List PseudoClass) : List Char := pseudos.flatMap text

def WellFormed (p : PseudoClass) : Prop :=
  (p.name ≠ [] ∧ p.name.all isPseudoNameChar = true) ∧ ∀ a ∈ p.argument, ')' ∉ a

/-- The argument holds nothing that ends a compound or a selector. -/
def Plain (p : PseudoClass) : Prop := ∀ a ∈ p.argument, ∀ c ∈ a, cutsCompound c = false

instance (p : PseudoClass) : Decidable p.WellFormed := inferInstanceAs (Decidable (_ ∧ _))
instance (p : PseudoClass) : Decidable p.Plain :=
  decidable_of_iff (∀ a ∈ p.argument, a.all (!cutsCompound ·) = true) (by simp [Plain])

variable {p : PseudoClass} {pseudos : List PseudoClass} {state : PseudoState}

def Ready (state : PseudoState) : Prop := state = .outside ∨ state = .name

theorem isPseudos_name {name : List Char} (h : name.all isPseudoNameChar = true) (r : List Char) :
    isPseudos .name (name ++ r) = isPseudos .name r := by
  induction name with
  | nil => rfl
  | cons c name ih =>
    obtain ⟨hc, hname⟩ := (Bool.and_eq_true _ _).mp h
    simp only [List.cons_append, isPseudos, PseudoState.next?, hc, if_true]
    exact ih hname

theorem isPseudos_opening (h : p.WellFormed) (hstate : Ready state) (r : List Char) :
    isPseudos state (p.opening ++ r) = isPseudos .name r := by
  obtain ⟨⟨hne, hall⟩, -⟩ := h
  obtain ⟨c, name, hname⟩ := List.exists_cons_of_ne_nil hne
  rw [hname] at hall
  obtain ⟨hc, hrest⟩ := (Bool.and_eq_true _ _).mp hall
  have hcolon : c ≠ ':' := by rintro rfl; exact absurd hc (by decide)
  have hrest := isPseudos_name hrest r
  unfold opening
  rw [hname]
  rcases hstate with rfl | rfl <;> cases p.isElement <;>
    simpa [isPseudos, PseudoState.next?, hc, hcolon, show isPseudoNameChar ':' = false by decide] using hrest

theorem isPseudos_argument {a : List Char} (h : ')' ∉ a) (r : List Char) :
    isPseudos .name ('(' :: a) = false ∧ isPseudos .name ('(' :: a ++ ')' :: r) = isPseudos .outside r := by
  have hall : isPseudos .arguments a = false ∧ isPseudos .arguments (a ++ ')' :: r) = isPseudos .outside r := by
    induction a with
    | nil => exact ⟨rfl, rfl⟩
    | cons c a ih =>
      rw [List.mem_cons, not_or] at h
      have hc : (c == ')') = false := by simpa using Ne.symm h.1
      simp only [List.cons_append, isPseudos, PseudoState.next?, hc]
      exact ih h.2
  exact hall

theorem isPseudos_text (h : p.WellFormed) (hstate : Ready state) :
    ∃ next, Ready next ∧ ∀ r, isPseudos state (p.text ++ r) = isPseudos next r := by
  unfold text
  cases ha : p.argument with
  | none => exact ⟨.name, Or.inr rfl, fun r => by simpa using isPseudos_opening h hstate r⟩
  | some a =>
    refine ⟨.outside, Or.inl rfl, fun r => ?_⟩
    rw [List.append_assoc, isPseudos_opening h hstate]
    simpa using (isPseudos_argument (h.2 a ha) r).2

theorem isPseudos_texts (h : ∀ p ∈ pseudos, p.WellFormed) (hstate : Ready state) :
    isPseudos state (texts pseudos) = true := by
  induction pseudos generalizing state with
  | nil => rcases hstate with rfl | rfl <;> rfl
  | cons p pseudos ih =>
    obtain ⟨hp, hpseudos⟩ := List.forall_mem_cons.mp h
    obtain ⟨next, hnext, hread⟩ := isPseudos_text hp hstate
    rw [texts, List.flatMap_cons, hread]
    exact ih hpseudos hnext

theorem head?_text (p : PseudoClass) (r : List Char) : (p.text ++ r).head? = some ':' := by
  unfold text opening
  cases p.isElement <;> rfl

theorem not_cuts_opening (h : p.WellFormed) : ∀ c ∈ p.opening, cutsCompound c = false := by
  intro c hc
  rcases List.mem_append.mp hc with hc | hc
  · have hcolon : c = ':' := by
      split at hc <;> simpa using hc
    rw [hcolon]
    decide
  · exact not_cuts_of_isPseudoNameChar (List.all_eq_true.mp h.1.2 c hc)

theorem not_cuts_text (h : p.WellFormed) (hplain : p.Plain) : ∀ c ∈ p.text, cutsCompound c = false := by
  intro c hc
  rcases List.mem_append.mp hc with hc | hc
  · exact not_cuts_opening h c hc
  · cases ha : p.argument with
    | none => simp [ha] at hc
    | some a =>
      have hc : c = '(' ∨ c ∈ a ∨ c = ')' := by simpa [ha] using hc
      rcases hc with rfl | hc | rfl
      · decide
      · exact hplain a ha c hc
      · decide

/-- A run without plain arguments is cut in one of them. -/
theorem exists_cut (h : ∀ p ∈ pseudos, p.WellFormed) (hplain : ¬ ∀ p ∈ pseudos, p.Plain) (hstate : Ready state) :
    ∃ before d after, texts pseudos = before ++ d :: after ∧ cutsCompound d = true ∧
      (∀ c ∈ before, cutsCompound c = false) ∧
      isPseudos state before = false ∧ before.head? = some ':' := by
  induction pseudos generalizing state with
  | nil => exact absurd nofun hplain
  | cons p pseudos ih =>
    obtain ⟨hp, hpseudos⟩ := List.forall_mem_cons.mp h
    by_cases hfirst : p.Plain
    · have hlater : ¬ ∀ p ∈ pseudos, p.Plain := fun hall => hplain (List.forall_mem_cons.mpr ⟨hfirst, hall⟩)
      obtain ⟨next, hnext, hread⟩ := isPseudos_text hp hstate
      obtain ⟨before, d, after, hcut, hd, hbefore, hfalse, -⟩ := ih hpseudos hlater hnext
      refine ⟨p.text ++ before, d, after, ?_, hd, ?_, (hread before).trans hfalse, head?_text p before⟩
      · rw [texts, List.flatMap_cons, ← texts, hcut, List.append_assoc]
      · exact fun c hc => (List.mem_append.mp hc).elim (not_cuts_text hp hfirst c) (hbefore c)
    · simp only [Plain, not_forall, Bool.not_eq_false] at hfirst
      obtain ⟨a, ha, c, hc, hcuts⟩ := hfirst
      obtain ⟨d, hfind⟩ := Option.isSome_iff_exists.mp (List.find?_isSome.mpr ⟨c, hc, hcuts⟩)
      obtain ⟨hd, front, back, rfl, hfront⟩ := List.find?_eq_some_iff_append.mp hfind
      have hclosing : ')' ∉ front := fun hmem => hp.2 _ ha (List.mem_append_left _ hmem)
      refine ⟨p.opening ++ '(' :: front, d, back ++ ')' :: texts pseudos, ?_, hd, ?_, ?_, ?_⟩
      · have hargument : p.argument = some (front ++ d :: back) := ha
        rw [texts, List.flatMap_cons, ← texts, text, hargument]
        simp
      · intro c hc
        rcases List.mem_append.mp hc with hc | hc
        · exact not_cuts_opening hp c hc
        · rcases List.mem_cons.mp hc with rfl | hc
          · decide
          · simpa using hfront c hc
      · rw [isPseudos_opening hp hstate]
        exact (isPseudos_argument hclosing []).1
      · unfold opening
        cases p.isElement <;> rfl

end PseudoClass

/-! ## Cut compounds -/

theorem comma_not_mem_append {lead tag t : List Char} (hlead : lead.all isBlank = true)
    (htag : IsTag tag) (h : ',' ∉ t) :
    ',' ∉ lead ++ tag ++ t := by
  have hname : ',' ∉ tag := fun hmem => absurd (List.all_eq_true.mp htag.2 _ hmem) (by decide)
  simp only [List.mem_append, not_or]
  exact ⟨⟨not_mem_of_isBlank (by decide) hlead, hname⟩, h⟩

/-- A compound that ends within an argument is no bare tag. -/
theorem not_isBare_of_cut {lead tag before rest : List Char} (hlead : lead.all isBlank = true) (htag : IsTag tag)
    (hbefore : ∀ c ∈ before, cutsCompound c = false) (hread : isPseudos .outside before = false)
    (hhead : before.head? = some ':') (hrest : rest.head?.all endsCompound = true) :
    ¬ IsBare (lead ++ tag ++ (before ++ rest)) := by
  rintro ⟨lead', tag', tail, e, hbare⟩
  have hcolon : (before ++ rest).head?.all (!isTagChar ·) = true := by
    rw [List.head?_append, hhead]
    exact Option.all_some.trans (by decide)
  have htail := tail_unique hlead hbare.lead htag hbare.tag hcolon hbare.ends_tag e
  obtain ⟨pseudos, rest', rfl, hread', hall, hrest'⟩ := hbare.tail
  have hends : ∀ c ∈ before, (!endsCompound c) = true := fun c hc => by
    rw [(Bool.or_eq_false_iff.mp (hbefore c hc)).2]
    rfl
  have hcompound := (takeWhile_append_of_head hends (by simpa using hrest)).1
  rw [htail, (takeWhile_append_of_head (List.all_eq_true.mp hall) (by simpa using hrest')).1] at hcompound
  exact Bool.noConfusion (hread.symm.trans (hcompound ▸ hread'))

/-! ## Selectors of a list -/

structure TagSelector where
  lead : List Char
  tag : List Char
  pseudos : List PseudoClass
  rest : List Char
  deriving DecidableEq, Repr

def behindComma (s : List Char) : List Char := (s.dropWhile (· != ',')).tail

theorem comma_cases (s : List Char) :
    (',' ∉ s ∧ behindComma s = []) ∨ ∃ front, ',' ∉ front ∧ s = front ++ ',' :: behindComma s := by
  unfold behindComma
  by_cases h : ',' ∈ s
  · obtain ⟨front, back, rfl, hfront⟩ := List.eq_append_cons_of_mem h
    have hne : ∀ c ∈ front, (c != ',') = true := fun c hc => bne_iff_ne.mpr (ne_of_mem_of_not_mem hc hfront)
    rw [(takeWhile_append_of_head hne (t := ',' :: back) (by simp)).2]
    exact Or.inr ⟨front, hfront, rfl⟩
  · have hnil : s.dropWhile (· != ',') = [] := by
      exact List.dropWhile_eq_nil_iff.mpr fun c hc => bne_iff_ne.mpr (ne_of_mem_of_not_mem hc h)
    exact Or.inl ⟨h, by rw [hnil]; rfl⟩

namespace TagSelector

def textWith (mark : List Char) (s : TagSelector) : List Char :=
  s.lead ++ s.tag ++ mark ++ PseudoClass.texts s.pseudos ++ s.rest

def listWith (mark : List Char) (selectors : List TagSelector) : List Char :=
  [','].intercalate (selectors.map (textWith mark))

def WellFormed (s : TagSelector) : Prop :=
  s.lead.all isBlank = true ∧ IsTag s.tag ∧ (∀ p ∈ s.pseudos, p.WellFormed) ∧ s.rest.head?.all endsCompound = true

/-- The arguments are plain, and so is what stands behind commas in the rest. -/
def Plain (s : TagSelector) : Prop := (∀ p ∈ s.pseudos, p.Plain) ∧ NoneBare (behindComma s.rest)

instance (s : TagSelector) : Decidable s.WellFormed := inferInstanceAs (Decidable (_ ∧ _ ∧ (∀ p ∈ _, _) ∧ _))
instance (s : TagSelector) : Decidable s.Plain := inferInstanceAs (Decidable ((∀ p ∈ _, _) ∧ _))

variable {s : TagSelector} {front : List Char}

section
variable (h : s.WellFormed) (hplain : ∀ p ∈ s.pseudos, p.Plain)
include h hplain

theorem comma_not_mem (hfront : ',' ∉ front) : ',' ∉ s.lead ++ s.tag ++ (PseudoClass.texts s.pseudos ++ front) := by
  refine comma_not_mem_append h.1 h.2.1 ?_
  have htexts : ',' ∉ PseudoClass.texts s.pseudos := by
    intro hmem
    obtain ⟨p, hp, hmem⟩ := List.mem_flatMap.mp hmem
    exact absurd (PseudoClass.not_cuts_text (h.2.2.1 p hp) (hplain p hp) ',' hmem) (by decide)
  exact fun hmem => (List.mem_append.mp hmem).elim htexts hfront

/-- With plain arguments the tag is a bare one. -/
theorem bareTag (hfront : front.head?.all endsCompound = true) :
    BareTag s.lead s.tag (PseudoClass.texts s.pseudos ++ front) := by
  obtain ⟨hlead, htag, hpseudos, -⟩ := h
  refine ⟨hlead, htag, _, front, rfl, PseudoClass.isPseudos_texts hpseudos (Or.inl rfl), ?_, hfront⟩
  refine List.all_eq_true.mpr fun c hc => ?_
  obtain ⟨p, hp, hc⟩ := List.mem_flatMap.mp hc
  have hcuts := PseudoClass.not_cuts_text (hpseudos p hp) (hplain p hp) c hc
  rw [(Bool.or_eq_false_iff.mp hcuts).2]
  rfl

end

/-- The tag is qualified, and behind a comma of the rest what is a bare tag there. -/
theorem scopeSelectorList_textWith (h : s.WellFormed) (hplain : ∀ p ∈ s.pseudos, p.Plain) (cls : List Char) :
    (',' ∉ s.rest ∧ behindComma s.rest = [] ∧ scopeSelectorList cls (s.textWith []) =
      (s.textWith ('.' :: cls), [s.tag])) ∨
      ∃ front, s.rest = front ++ ',' :: behindComma s.rest ∧
        scopeSelectorList cls (s.textWith []) =
          (s.lead ++ s.tag ++ '.' :: cls ++ (PseudoClass.texts s.pseudos ++ front) ++
              ',' :: (scopeSelectorList cls (behindComma s.rest)).1,
            s.tag :: qualifiedTags (behindComma s.rest)) := by
  have hends := h.2.2.2
  have hcut : s.textWith [] = s.lead ++ s.tag ++ (PseudoClass.texts s.pseudos ++ s.rest) := by simp [textWith]
  rcases comma_cases s.rest with ⟨hcomma, hnil⟩ | ⟨front, hcomma, hrest⟩
  · left
    refine ⟨hcomma, hnil, ?_⟩
    rw [hcut, scopeSelectorList_of_not_mem (comma_not_mem h hplain hcomma), (bareTag h hplain hends).scopeSelector_text]
    simp [textWith]
  · right
    refine ⟨front, hrest, ?_⟩
    have hfront : front.head?.all endsCompound = true := by
      rw [hrest] at hends
      cases front with
      | nil => rfl
      | cons c front => exact hends
    have hcut : s.textWith [] = s.lead ++ s.tag ++ (PseudoClass.texts s.pseudos ++ front) ++
        ',' :: behindComma s.rest := by
      rw [hcut]
      nth_rewrite 1 [hrest]
      simp
    rw [hcut, scopeSelectorList_first (comma_not_mem h hplain hcomma), (bareTag h hplain hfront).scopeSelector_text]
    rfl

theorem scopeSelectorList_of_plain (h : s.WellFormed) (hplain : s.Plain) (cls : List Char) :
    scopeSelectorList cls (s.textWith []) = (s.textWith ('.' :: cls), [s.tag]) := by
  rcases scopeSelectorList_textWith h hplain.1 cls with ⟨-, -, hscoped⟩ | ⟨front, hrest, hscoped⟩
  · exact hscoped
  · have hnone := noneBare_iff.mp hplain.2
    rw [hscoped, scopeSelectorList_of_no_tags hnone, hnone, textWith]
    nth_rewrite 2 [hrest]
    simp

/-- No mark is put in front of a pseudo-class that is cut in its argument. -/
theorem exists_of_not_plain (h : s.WellFormed) (hplain : ¬ ∀ p ∈ s.pseudos, p.Plain) (cls : List Char) :
    ∃ w, (scopeSelectorList cls (s.textWith [])).1 = s.lead ++ s.tag ++ ':' :: w := by
  obtain ⟨hlead, htag, hpseudos, -⟩ := h
  obtain ⟨before, d, after, htexts, hd, hbefore, hread, hhead⟩ := PseudoClass.exists_cut hpseudos hplain (Or.inl rfl)
  have hcut : s.textWith [] = s.lead ++ s.tag ++ (before ++ (d :: after ++ s.rest)) := by simp [textWith, htexts]
  -- what is read as the first selector ends with `before`, or goes on with the end of a compound
  have hnot : ∀ front back, d :: after ++ s.rest = front ++ back → ',' ∉ front →
      ',' ∉ s.lead ++ s.tag ++ (before ++ front) ∧ ¬ IsBare (s.lead ++ s.tag ++ (before ++ front)) := by
    intro front back e hfront
    have hcomma : ',' ∉ before ++ front := fun hmem =>
      (List.mem_append.mp hmem).elim (fun hmem => absurd (hbefore _ hmem) (by decide)) hfront
    refine ⟨comma_not_mem_append hlead htag hcomma, not_isBare_of_cut hlead htag hbefore hread hhead ?_⟩
    cases front with
    | nil => rfl
    | cons c front =>
      obtain ⟨rfl, -⟩ := List.cons.inj e
      have hne : d ≠ ',' := fun e => hfront (e ▸ List.mem_cons_self)
      simpa [cutsCompound, hne] using hd
  obtain ⟨w, rfl⟩ := List.head?_eq_some_iff.mp hhead
  rcases comma_cases (d :: after ++ s.rest) with ⟨hcomma, -⟩ | ⟨front, hcomma, hfront⟩
  · obtain ⟨hno, hbare⟩ := hnot _ [] (List.append_nil _).symm hcomma
    refine ⟨w ++ (d :: after ++ s.rest), ?_⟩
    rw [hcut, scopeSelectorList_of_not_mem hno, scopeSelector_of_not_isBare hbare]
    rfl
  · obtain ⟨hno, hbare⟩ := hnot front _ hfront hcomma
    have hlist : s.textWith [] = s.lead ++ s.tag ++ (':' :: w ++ front) ++ ',' :: behindComma
        (d :: after ++ s.rest) := by
      rw [hcut]
      nth_rewrite 1 [hfront]
      simp
    refine ⟨w ++ front ++ ',' :: (scopeSelectorList cls (behindComma (d :: after ++ s.rest))).1, ?_⟩
    rw [hlist, scopeSelectorList_first hno, scopeSelector_of_not_isBare hbare]
    simp

/-- A selector that is scoped with a mark behind its tag only, up to a text that begins with no dot, is a plain
    one. -/
theorem plain_of_append_eq (h : s.WellFormed) {cls r r' : List Char}
    (e : (scopeSelectorList cls (s.textWith [])).1 ++ r = s.textWith ('.' :: cls) ++ r')
    (hr : r'.head? ≠ some '.') : s.Plain := by
  by_cases hplain : ∀ p ∈ s.pseudos, p.Plain
  · refine ⟨hplain, ?_⟩
    rcases scopeSelectorList_textWith h hplain cls with ⟨-, hnil, -⟩ | ⟨front, hrest, hscoped⟩
    · rw [hnil]
      decide
    · have hcut : s.textWith ('.' :: cls) =
          s.lead ++ s.tag ++ '.' :: cls ++ (PseudoClass.texts s.pseudos ++ front) ++ ',' :: behindComma s.rest := by
        rw [textWith]
        nth_rewrite 1 [hrest]
        simp
      rw [hscoped, hcut] at e
      simp only [List.append_assoc, List.cons_append, List.append_cancel_left_eq, List.cons.injEq, true_and] at e
      exact noneBare_of_append_eq e hr
  · obtain ⟨w, hw⟩ := exists_of_not_plain h hplain cls
    have hcut : s.textWith ('.' :: cls) ++ r' =
        s.lead ++ s.tag ++ '.' :: (cls ++ PseudoClass.texts s.pseudos ++ s.rest ++ r') := by
      simp [textWith]
    rw [hw, hcut, List.append_assoc] at e
    exact absurd (List.cons.inj (List.append_cancel_left e)).1 (by decide)

/-! ## Lists -/

theorem listWith_cons_cons (mark : List Char) (s s' : TagSelector) (rest : List TagSelector) :
    listWith mark (s :: s' :: rest) = s.textWith mark ++ ',' :: listWith mark (s' :: rest) := by
  simp [listWith, List.intercalate_cons_cons]

theorem listWith_singleton (mark : List Char) (s : TagSelector) : listWith mark [s] = s.textWith mark := by
  simp [listWith]

variable {selectors : List TagSelector}

theorem scopeSelectorList_listWith (h : ∀ s ∈ selectors, s.WellFormed) (hplain : ∀ s ∈ selectors, s.Plain)
    (cls : List Char) :
    scopeSelectorList cls (listWith [] selectors) = (listWith ('.' :: cls) selectors, selectors.map tag) := by
  induction selectors with
  | nil => rfl
  | cons s rest ih =>
    obtain ⟨hs, hrest⟩ := List.forall_mem_cons.mp h
    obtain ⟨hs', hrest'⟩ := List.forall_mem_cons.mp hplain
    have hfirst := scopeSelectorList_of_plain hs hs' cls
    cases rest with
    | nil => rw [listWith_singleton, listWith_singleton, hfirst, List.map_singleton]
    | cons s' rest =>
      have ih := ih hrest hrest'
      rw [listWith_cons_cons, listWith_cons_cons, scopeSelectorList_append, hfirst, ih, ← scopeSelectorList_tags cls,
        ← scopeSelectorList_tags cls, hfirst, ih]
      rfl

theorem plain_of_listWith_eq (h : ∀ s ∈ selectors, s.WellFormed) {cls r : List Char} (hr : r.head? ≠ some '.')
    (e : (scopeSelectorList cls (listWith [] selectors)).1 ++ r = listWith ('.' :: cls) selectors ++ r) :
    ∀ s ∈ selectors, s.Plain := by
  induction selectors with
  | nil => exact nofun
  | cons s rest ih =>
    obtain ⟨hs, hrest⟩ := List.forall_mem_cons.mp h
    cases rest with
    | nil =>
      rw [listWith_singleton, listWith_singleton] at e
      exact List.forall_mem_singleton.mpr (plain_of_append_eq hs e hr)
    | cons s' rest =>
      rw [listWith_cons_cons, listWith_cons_cons, scopeSelectorList_append, List.append_assoc, List.append_assoc] at e
      have hplain : s.Plain := plain_of_append_eq hs e (by simp)
      rw [scopeSelectorList_of_plain hs hplain] at e
      exact List.forall_mem_cons.mpr ⟨hplain, ih hrest (List.cons.inj (List.append_cancel_left e)).2⟩

theorem isAtRule_listWith (h : ∀ s ∈ selectors, s.WellFormed) (mark : List Char) :
    isAtRule (listWith mark selectors) = false := by
  cases selectors with
  | nil => rfl
  | cons s rest =>
    obtain ⟨hlead, htag, -⟩ := h s List.mem_cons_self
    obtain ⟨c, name, hname, hc, hc'⟩ := htag.exists_cons
    obtain ⟨t, ht⟩ : ∃ t, listWith mark (s :: rest) = s.lead ++ c :: t := by
      cases rest with
      | nil =>
        refine ⟨name ++ mark ++ PseudoClass.texts s.pseudos ++ s.rest, ?_⟩
        rw [listWith_singleton, textWith, hname]
        simp
      | cons s' rest =>
        refine ⟨name ++ mark ++ PseudoClass.texts s.pseudos ++ s.rest ++ ',' :: listWith mark (s' :: rest), ?_⟩
        rw [listWith_cons_cons, textWith, hname]
        simp
    have htrim := (takeWhile_append_of_head (List.all_eq_true.mp hlead) (t := c :: t)
      (by simp [isBlank_of_isTagChar hc'])).2
    have hat : c ≠ '@' := by rintro rfl; exact absurd hc (by decide)
    rw [isAtRule, ht, trimStart, htrim]
    simpa using hat

theorem scopeRules_listWith (h : ∀ s ∈ selectors, s.WellFormed) (hprelude : IsPrelude (listWith [] selectors))
    {block : List Char}
    (hblock : IsBlock block []) (cls : List Char) :
    scopeRules cls (listWith [] selectors ++ block) =
      ((scopeSelectorList cls (listWith [] selectors)).1 ++ block,
        (scopeSelectorList cls (listWith [] selectors)).2) := by
  have hrun := Sheet.scopeRules_prelude hprelude hblock cls
  rw [List.append_nil, scopeRules_nil, List.append_nil, List.append_nil, scopeRule, isAtRule_listWith h] at hrun
  exact hrun

end TagSelector

/-- Each tag of a list of selectors is qualified, nothing else is, and these tags are reported, exactly if all
    selectors are plain. -/
theorem listed_qualified_iff {selectors : List TagSelector} (h : ∀ s ∈ selectors, s.WellFormed)
    (hprelude : IsPrelude (TagSelector.listWith [] selectors)) {block : List Char}
    (hblock : IsBlock block []) (markup scopeClass : String) :
    let scoping := scope (String.ofList (TagSelector.listWith [] selectors ++ block)) markup scopeClass
    (scoping.style = String.ofList (TagSelector.listWith ('.' :: scopeClass.toList) selectors ++ block) ∧
        ∀ name, name ∈ scoping.scopedTags ↔ name.toList ∈ selectors.map TagSelector.tag) ↔
      ∀ s ∈ selectors, s.Plain := by
  intro scoping
  have hrun := TagSelector.scopeRules_listWith h hprelude hblock scopeClass.toList
  have hstyle : scoping.style =
      String.ofList ((scopeSelectorList scopeClass.toList (TagSelector.listWith [] selectors)).1 ++ block) := by
    simp only [scoping, scope, String.toList_ofList, hrun]
  have htags : ∀ name, name ∈ scoping.scopedTags ↔
      name.toList ∈ (scopeSelectorList scopeClass.toList (TagSelector.listWith [] selectors)).2 := by
    intro name
    rw [mem_scopedTags, String.toList_ofList, hrun]
  constructor
  · rintro ⟨e, -⟩
    obtain ⟨inner, rfl⟩ := hblock.exists_cons
    exact TagSelector.plain_of_listWith_eq h (r := '\x7b' :: inner) (by simp)
      (String.ofList_injective (hstyle.symm.trans e))
  · intro hplain
    have hscoped := TagSelector.scopeSelectorList_listWith h hplain scopeClass.toList
    exact ⟨by rw [hstyle, hscoped], fun name => by rw [htags, hscoped]⟩

/-- A pseudo-element behind a pseudo-class with an argument, and a rest with a list in parentheses. -/
theorem listed_qualified_of_plain_arguments :
    let selectors : List TagSelector :=
      [⟨[], "li".toList, [⟨false, "nth-child".toList, some "2n".toList⟩, ⟨true, "before".toList, none⟩], []⟩,
        ⟨[' '], "h1".toList, [⟨false, "hover".toList, none⟩], " > a:is(.b, .c)".toList⟩]
    (∀ s ∈ selectors, s.WellFormed ∧ s.Plain) ∧
      (scope "li:nth-child(2n)::before, h1:hover > a:is(.b, .c)\x7bx\x7d" "" "s").style =
        "li.s:nth-child(2n)::before, h1.s:hover > a:is(.b, .c)\x7bx\x7d" ∧
      "h1" ∈ (scope "li:nth-child(2n)::before, h1:hover > a:is(.b, .c)\x7bx\x7d" "" "s").scopedTags := by
  intro selectors
  have hwell : ∀ s ∈ selectors, s.WellFormed ∧ s.Plain := by decide
  have hlist : IsPlainPrelude (TagSelector.listWith [] selectors) :=
    isPlainPrelude_of_not_mem (by decide) (by decide) (by decide)
  have hblock : IsBlock "\x7bx\x7d".toList [] := Or.inl ⟨['x'], rfl, by decide⟩
  obtain ⟨hstyle, htags⟩ := (listed_qualified_iff (fun s hs => (hwell s hs).1) hlist.isPrelude hblock "" "s").mpr
    fun s hs => (hwell s hs).2
  exact ⟨hwell, hstyle.trans (by decide +kernel), (htags "h1").mpr (by decide)⟩

/-- White space in an argument hides the tag, and so does a comma, behind which a bare tag of the argument is
    qualified instead. -/
theorem argument_hides_tag :
    (scope "li:nth-child(2n + 1) \x7b \x7d" "" "s").style = "li:nth-child(2n + 1) \x7b \x7d" ∧
      "li" ∉ (scope "li:nth-child(2n + 1) \x7b \x7d" "" "s").scopedTags ∧
      (scope "p:is(a, b, c) \x7b \x7d" "" "s").style = "p:is(a, b.s, c) \x7b \x7d" ∧
      "p" ∉ (scope "p:is(a, b, c) \x7b \x7d" "" "s").scopedTags ∧
        "b" ∈ (scope "p:is(a, b, c) \x7b \x7d" "" "s").scopedTags := by
  simp only [mem_scopedTags]
  refine ⟨by decide +kernel, by decide +kernel, by decide +kernel, by decide +kernel, by decide +kernel⟩

end ComponentSite.Style
