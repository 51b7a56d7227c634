/-
  ComponentSite.Proofs.NestedElements — a pass over elements of one component that lie in
  each other.

  The elements of a name are nested to any depth (`Markup.Nests`). A pass that has found an
  opening tag drops everything up to the next closing tag of the name, even if that belongs
  to an element further in; what follows it is gone over again, and the closing tags that
  are met there stay. So a pass leaves `Markup.afterPass` (`replaceIn_nested`). Elements
  that are one tag may lie anywhere, but each outermost element goes as a whole, and no tag
  of the name is left, exactly if no element of two tags lies in another
  (`nested_replaced_iff`).
-/
import ComponentSite.Proofs.ComponentNames

namespace ComponentSite
open Text ComponentTag

namespace Markup

/-! ## Elements in each other -/

/-- Text, tags of other names, and elements of this name in each other to any depth. -/
def Nests (name : String) : Markup → Prop
  | nil => True
  | chars s rest => '<' ∉ s ∧ rest.Nests name
  | tag _ other attributes rest =>
    IsTagName other ∧ other ≠ name.toList ∧ attributes.head?.all endsTagName = true ∧ '<' ∉ attributes ∧ rest.Nests name
  | single n attributes rest => n = name ∧ AreAttributes attributes ∧ rest.Nests name
  | pair n attributes inner blanks rest =>
    n = name ∧ AreAttributes attributes ∧ attributes.getLast? ≠ some '/' ∧ blanks.all isBlank = true ∧
      inner.Nests name ∧ rest.Nests name

instance decidableNests (name : String) : (m : Markup) → Decidable (m.Nests name)
  | nil => .isTrue trivial
  | chars s rest =>
    have := decidableNests name rest
    inferInstanceAs (Decidable ('<' ∉ s ∧ rest.Nests name))
  | tag _ _ _ rest =>
    have := decidableNests name rest
    inferInstanceAs (Decidable (_ ∧ _ ∧ _ ∧ _ ∧ rest.Nests name))
  | single _ _ rest =>
    have := decidableNests name rest
    inferInstanceAs (Decidable (_ ∧ _ ∧ rest.Nests name))
  | pair _ _ inner _ rest =>
    have := decidableNests name inner
    have := decidableNests name rest
    inferInstanceAs (Decidable (_ ∧ _ ∧ _ ∧ _ ∧ inner.Nests name ∧ rest.Nests name))

def hasPair : Markup → Bool
  | nil => false
  | chars _ rest => rest.hasPair
  | tag _ _ _ rest => rest.hasPair
  | single _ _ rest => rest.hasPair
  | pair .. => true

/-- No element of two tags lies in another. -/
def PairsApart : Markup → Prop
  | nil => True
  | chars _ rest => rest.PairsApart
  | tag _ _ _ rest => rest.PairsApart
  | single _ _ rest => rest.PairsApart
  | pair _ _ inner _ rest => inner.hasPair = false ∧ rest.PairsApart

instance decidablePairsApart : (m : Markup) → Decidable m.PairsApart
  | nil => .isTrue trivial
  | chars _ rest => decidablePairsApart rest
  | tag _ _ _ rest => decidablePairsApart rest
  | single _ _ rest => decidablePairsApart rest
  | pair _ _ inner _ rest =>
    have := decidablePairsApart rest
    inferInstanceAs (Decidable (inner.hasPair = false ∧ rest.PairsApart))

/-! ## What a pass leaves -/

def closingTag (name : String) (blanks : List Char) : List Char := '<' :: '/' :: name.toList ++ blanks ++ ['>']

/-- What a pass leaves of a markup of elements of its name. While it is `dropping`, behind an
    opening tag, nothing stays up to the next closing tag; then it is over with dropping, so
    that further closing tags stay. -/
def afterPass (replacement : List Char) : (dropping : Bool) → Markup → List Char
  | _, nil => []
  | dropping, chars s rest => (if dropping then [] else s) ++ rest.afterPass replacement dropping
  | dropping, tag closing name attributes rest =>
    (if dropping then [] else '<' :: ((if closing then ['/'] else []) ++ name ++ attributes ++ ['>'])) ++
      rest.afterPass replacement dropping
  | dropping, single _ _ rest => (if dropping then [] else replacement) ++ rest.afterPass replacement dropping
  | dropping, pair name _ inner blanks rest =>
    (if dropping then [] else replacement) ++ inner.afterPass replacement true ++
      (if inner.hasPair then closingTag name blanks else []) ++ rest.afterPass replacement false

def passCount : (dropping : Bool) → Markup → Nat
  | _, nil => 0
  | dropping, chars _ rest => rest.passCount dropping
  | dropping, tag _ _ _ rest => rest.passCount dropping
  | dropping, single _ _ rest => (if dropping then 0 else 1) + rest.passCount dropping
  | dropping, pair _ _ inner _ rest => (if dropping then 0 else 1) + inner.passCount true + rest.passCount false

variable {name : String} {replacement : List Char}

/-- A pass leaves that of a markup in front of any text. The second part is of a markup behind
    an opening tag: what it leaves depends on whether an element in it has taken the next
    closing tag. -/
structure PassesOver (name : String) (replacement : List Char) (m : Markup) : Prop where
  keeping : ∀ s, replaceIn name.toList replacement (m.text ++ s) =
    (m.afterPass replacement false ++ (replaceIn name.toList replacement s).1,
      m.passCount false + (replaceIn name.toList replacement s).2)
  dropping : ∀ blanks s, blanks.all isBlank = true →
    ∃ t, afterClosingTag? name.toList (m.text ++ (closingTag name blanks ++ s)) = some t ∧
      replaceIn name.toList replacement t =
        (m.afterPass replacement true ++ (if m.hasPair then closingTag name blanks else []) ++
            (replaceIn name.toList replacement s).1,
          m.passCount true + (replaceIn name.toList replacement s).2)

theorem pass_closingTag (replacement : List Char) (hname : IsTagName name.toList)
    {blanks : List Char} (hblanks : blanks.all isBlank = true)
    (s : List Char) :
    afterClosingTag? name.toList (closingTag name blanks ++ s) = some s ∧
      replaceIn name.toList replacement (closingTag name blanks ++ s) =
        (closingTag name blanks ++ (replaceIn name.toList replacement s).1,
          (replaceIn name.toList replacement s).2) := by
  constructor
  · have := closingTag?_self name.toList hblanks s
    rw [List.cons_append, List.cons_append, List.cons_append] at this
    rw [closingTag, List.cons_append, List.cons_append, List.cons_append, afterClosingTag?, this]
  · have hlt : '<' ∉ '/' :: name.toList ++ blanks ++ ['>'] := by
      simp [hname.not_mem, not_mem_of_isBlank (c := '<') rfl hblanks]
    exact replaceIn_tag replacement hlt (element?_closing hname _)

namespace PassesOver

theorem nil (hname : IsTagName name.toList) : PassesOver name replacement nil where
  keeping s := by simp [text, textWith, afterPass, passCount]
  dropping blanks s hblanks := by
    refine ⟨s, (pass_closingTag replacement hname hblanks s).1, ?_⟩
    simp [afterPass, passCount, hasPair]

variable {rest : Markup} (h : PassesOver name replacement rest)
include h

theorem chars {s : List Char} (hs : '<' ∉ s) : PassesOver name replacement (chars s rest) where
  keeping t := by
    rw [text, textWith, List.append_assoc, replaceIn_chars hs, ← text, h.keeping t]
    simp [afterPass, passCount]
  dropping blanks t hblanks := by
    rw [text, textWith, List.append_assoc, afterClosingTag?_append hs]
    exact h.dropping blanks t hblanks

theorem tag (hname : IsTagName name.toList) {other attributes : List Char} (hother : IsTagName other)
    (hne : other ≠ name.toList) (hends : attributes.head?.all endsTagName = true) (hlt : '<' ∉ attributes)
    (closing : Bool) : PassesOver name replacement (tag closing other attributes rest) where
  keeping s := by
    rw [text, textWith, List.append_assoc, replaceIn_otherTag hname hother hne hends hlt, ← text, h.keeping s]
    simp [afterPass, passCount]
  dropping blanks s hblanks := by
    rw [text, textWith, List.append_assoc, afterClosingTag?_otherTag hname hother hne hends hlt]
    exact h.dropping blanks s hblanks

theorem single (hname : IsTagName name.toList) {attributes : List Char} (hattr : AreAttributes attributes) :
    PassesOver name replacement (single name attributes rest) where
  keeping s := by
    have helement := element?_single name.toList hattr (rest.text ++ s)
    rw [text, textWith, List.append_assoc, Option.getD_none, ← text]
    rw [List.cons_append, List.cons_append, List.cons_append] at helement ⊢
    rw [replaceIn_element helement, h.keeping s]
    simp [afterPass, passCount]
    omega
  dropping blanks s hblanks := by
    obtain ⟨t, ht, hpass⟩ := h.dropping blanks s hblanks
    refine ⟨t, ?_, by rw [hpass, afterPass, passCount, if_pos rfl, if_pos rfl, List.nil_append, Nat.zero_add]; rfl⟩
    rw [text, textWith, List.append_assoc, Option.getD_none, List.append_assoc ('<' :: name.toList),
      afterClosingTag?_opening _ hname (by simp [hattr.2.1])]
    exact ht

theorem pair (hname : IsTagName name.toList) {attributes blanks : List Char} (hattr : AreAttributes attributes)
    (hlast : attributes.getLast? ≠ some '/') (hblanks : blanks.all isBlank = true) {inner : Markup}
    (hinner : PassesOver name replacement inner) :
    PassesOver name replacement (pair name attributes inner blanks rest) := by
  have hcut : ∀ s, (Markup.pair name attributes inner blanks rest).text ++ s =
      '<' :: name.toList ++ attributes ++ ['>'] ++ (inner.text ++ (closingTag name blanks ++ (rest.text ++ s))) := by
    intro s
    simp [text, textWith, closingTag]
  constructor
  · intro s
    obtain ⟨t, ht, hpass⟩ := hinner.dropping blanks (rest.text ++ s) hblanks
    have helement := element?_pair hattr hlast ht
    rw [hcut]
    rw [List.cons_append, List.cons_append, List.cons_append] at helement ⊢
    rw [replaceIn_element helement, hpass, h.keeping s]
    simp [afterPass, passCount]
    omega
  · intro blanks' s hblanks'
    obtain ⟨t, ht, hpass⟩ := hinner.dropping blanks (rest.text ++ (closingTag name blanks' ++ s)) hblanks
    refine ⟨t, ?_, ?_⟩
    · rw [hcut, List.append_assoc ('<' :: name.toList), afterClosingTag?_opening _ hname (by simp [hattr.2.1]), ht]
    · rw [hpass, h.keeping, (pass_closingTag replacement hname hblanks' s).2]
      simp [afterPass, passCount, hasPair]
      omega

end PassesOver

/-- A pass over a markup with elements in each other. -/
theorem replaceIn_nested (replacement : List Char) (hname : IsTagName name.toList) {m : Markup} (hm : m.Nests name) :
    PassesOver name replacement m := by
  induction m with
  | nil => exact .nil hname
  | chars s rest ih => exact (ih hm.2).chars hm.1
  | tag closing other attributes rest ih =>
    obtain ⟨hother, hne, hends, hlt, hrest⟩ := hm
    exact (ih hrest).tag hname hother hne hends hlt closing
  | single n attributes rest ih =>
    obtain ⟨rfl, hattr, hrest⟩ := hm
    exact (ih hrest).single hname hattr
  | pair n attributes inner blanks rest ihInner ihRest =>
    obtain ⟨rfl, hattr, hlast, hblanks, hinner, hrest⟩ := hm
    exact (ihRest hrest).pair hname hattr hlast hblanks (ihInner hinner)

/-! ## What is left of the tags -/

/-- No opening or closing tag of the name begins in the text. -/
def Untagged (name : String) (s : List Char) : Prop :=
  ∀ (closing : Bool) (c : Char), endsTagName c = true →
    Lacks ('<' :: (if closing then ['/'] else []) ++ name.toList ++ [c]) s

theorem Untagged.append {p s : List Char} (hp : '<' ∉ p) (h : Untagged name s) : Untagged name (p ++ s) := by
  intro closing c hc hi
  rcases List.infix_append_iff_ne_nil.mp hi with hi | hi | ⟨t₁, t₂, h1, h2, e, hs, hpre⟩
  · exact hp (hi.subset (by simp))
  · exact h closing c hc hi
  · obtain ⟨x, t₁, rfl⟩ := List.exists_cons_of_ne_nil h1
    rw [List.cons_append, List.cons_append] at e
    obtain ⟨rfl, -⟩ := List.cons.inj e
    exact hp (hs.subset List.mem_cons_self)

theorem eq_of_tagName {a b : List Char} (ha : IsTagName a) (hb : IsTagName b) {c d : Char} (hc : endsTagName c = true)
    (hd : endsTagName d = true) {x y : List Char} (e : a ++ c :: x = b ++ d :: y) : b = a := by
  by_contra hne
  obtain ⟨c', r, e', hc'⟩ := rest?_tagName ha hb hne hd (e ▸ rest?_append a (c :: x))
  obtain ⟨rfl, -⟩ := List.cons.inj e'
  exact Bool.noConfusion (hc.symm.trans hc')

theorem ne_slash_of_tagName {a : List Char} (ha : IsTagName a) (x y : List Char) : a ++ x ≠ '/' :: y := by
  obtain ⟨c, r, rfl⟩ := List.exists_cons_of_ne_nil ha.1
  intro e
  exact (not_blank_of_endsTagName (ha.2 c List.mem_cons_self).2).2.1 (List.cons.inj e).1

theorem Untagged.tag (hname : IsTagName name.toList) {other attributes : List Char} (hother : IsTagName other)
    (hne : other ≠ name.toList) (hends : attributes.head?.all endsTagName = true) (hlt : '<' ∉ attributes)
    (closing : Bool) {s : List Char} (h : Untagged name s) :
    Untagged name ('<' :: ((if closing then ['/'] else []) ++ other ++ attributes ++ ['>']) ++ s) := by
  have hp : '<' ∉ (if closing then ['/'] else []) ++ other ++ attributes ++ ['>'] := by
    cases closing <;> simp [hother.not_mem, hlt]
  intro closing' c hc hi
  rw [List.cons_append] at hi
  rcases List.infix_cons_iff.mp hi with ⟨t, e⟩ | hi
  · obtain ⟨d, u, he, hd⟩ := exists_append_eq_cons hends (x := '>') (by decide) s
    have e : (if closing' then ['/'] else []) ++ (name.toList ++ c :: t) =
        (if closing then ['/'] else []) ++ (other ++ d :: u) := by
      simpa [← he] using e
    cases closing' <;> cases closing
    · exact hne (eq_of_tagName hname hother hc hd e)
    · exact ne_slash_of_tagName hname _ _ e
    · exact ne_slash_of_tagName hother _ _ e.symm
    · exact hne (eq_of_tagName hname hother hc hd (List.cons.inj e).2)
  · exact h.append hp closing' c hc hi

/-- With each outermost element replaced no tag of it is left. -/
theorem untagged_expand (hname : IsTagName name.toList) (hreplacement : '<' ∉ replacement) {m : Markup}
    (hm : m.Nests name) : Untagged name (m.expand fun _ => replacement) := by
  unfold expand
  induction m with
  | nil =>
    intro closing c hc hi
    cases List.infix_nil.mp hi
  | chars s rest ih =>
    rw [fill, List.map_id]
    exact (ih hm.2).append hm.1
  | tag closing other attributes rest ih =>
    obtain ⟨hother, hne, hends, hlt, hrest⟩ := hm
    rw [fill, List.map_id]
    exact (ih hrest).tag hname hother hne hends hlt closing
  | single n attributes rest ih => exact (ih hm.2.2).append hreplacement
  | pair n attributes inner blanks rest _ ih => exact (ih hm.2.2.2.2.2).append hreplacement

/-! ## Elements of two tags apart from each other -/

/-- Nothing is kept behind an opening tag if no element there has a closing one. -/
theorem afterPass_dropping (replacement : List Char) {m : Markup} (h : m.hasPair = false) :
    m.afterPass replacement true = [] ∧ m.passCount true = 0 := by
  induction m with
  | nil => exact ⟨rfl, rfl⟩
  | chars s rest ih => exact ih h
  | tag closing other attributes rest ih => exact ih h
  | single n attributes rest ih => exact ⟨(ih h).1, by rw [passCount, (ih h).2]; rfl⟩
  | pair n attributes inner blanks rest => cases h

/-- Apart from each other, elements go as a whole. -/
theorem afterPass_of_apart (replacement : List Char) {m : Markup} (h : m.PairsApart) :
    m.afterPass replacement false = (m.expand fun _ => replacement) ∧ m.passCount false = m.outermost.length := by
  unfold expand
  induction m with
  | nil => exact ⟨rfl, rfl⟩
  | chars s rest ih => simp [afterPass, passCount, fill, outermost, ih h]
  | tag closing other attributes rest ih => simp [afterPass, passCount, fill, outermost, ih h]
  | single n attributes rest ih => simp [afterPass, passCount, fill, outermost, ih h, Nat.add_comm]
  | pair n attributes inner blanks rest _ ih =>
    obtain ⟨hinner, hrest⟩ := h
    obtain ⟨hnone, hzero⟩ := afterPass_dropping replacement hinner
    simp [afterPass, passCount, fill, outermost, ih hrest, hinner, hnone, hzero, Nat.add_comm]

/-- Otherwise a closing tag is left. -/
theorem exists_closingTag_left (replacement : List Char) {m : Markup} (hm : m.Nests name) (h : ¬ m.PairsApart) :
    ∃ blanks, blanks.all isBlank = true ∧ closingTag name blanks <:+: m.afterPass replacement false := by
  induction m with
  | nil => exact absurd trivial h
  | chars s rest ih =>
    obtain ⟨blanks, hblanks, hi⟩ := ih hm.2 h
    exact ⟨blanks, hblanks, hi.trans (List.suffix_append _ _).isInfix⟩
  | tag closing other attributes rest ih =>
    obtain ⟨blanks, hblanks, hi⟩ := ih hm.2.2.2.2 h
    exact ⟨blanks, hblanks, hi.trans (List.suffix_append _ _).isInfix⟩
  | single n attributes rest ih =>
    obtain ⟨blanks, hblanks, hi⟩ := ih hm.2.2 h
    exact ⟨blanks, hblanks, hi.trans (List.suffix_append _ _).isInfix⟩
  | pair n attributes inner blanks rest _ ih =>
    obtain ⟨rfl, -, -, hblanks, -, hrest⟩ := hm
    cases hinner : inner.hasPair with
    | true =>
      refine ⟨blanks, hblanks, ?_⟩
      rw [afterPass, hinner, if_pos rfl]
      exact (List.suffix_append _ _).isInfix.trans (List.prefix_append _ _).isInfix
    | false =>
      obtain ⟨blanks', hblanks', hi⟩ := ih hrest fun hapart => h ⟨hinner, hapart⟩
      exact ⟨blanks', hblanks', hi.trans (List.suffix_append _ _).isInfix⟩

theorem not_untagged_of_closingTag {blanks s : List Char} (hblanks : blanks.all isBlank = true)
    (h : closingTag name blanks <:+: s) : ¬ Untagged name s := by
  intro hfree
  obtain ⟨c, r, e, hc⟩ : ∃ c r, blanks ++ ['>'] = c :: r ∧ endsTagName c = true :=
    exists_append_eq_cons (ends_of_isBlank hblanks) (by decide) []
  refine hfree true c hc (List.IsInfix.trans ?_ h)
  exact ⟨[], r, by simp [closingTag, e]⟩

/-- A pass over elements in each other, exactly; every outermost one goes as a whole if and only
    if no element of two tags lies in another, and no tag of the name is left then only. -/
theorem nested_replaced_iff {replacement : String} (hname : IsTagName name.toList)
    (hreplacement : '<' ∉ replacement.toList)
    {m : Markup} (hm : m.Nests name) :
    let result := ComponentTag.replace name (String.ofList m.text) replacement
    result = (String.ofList (m.afterPass replacement.toList false), m.passCount false) ∧
      (result = (String.ofList (m.expand fun _ => replacement.toList), m.outermost.length) ↔ m.PairsApart) ∧
      (Untagged name result.1.toList ↔ m.PairsApart) := by
  intro result
  have hresult : result = (String.ofList (m.afterPass replacement.toList false), m.passCount false) := by
    have hpass := (replaceIn_nested replacement.toList hname hm).keeping []
    have hnil : replaceIn name.toList replacement.toList [] = ([], 0) := by rw [replaceIn]
    rw [hnil, List.append_nil, List.append_nil] at hpass
    simp only [result, ComponentTag.replace, String.toList_ofList, hpass]
    rfl
  have hwhole : m.PairsApart → result = (String.ofList (m.expand fun _ => replacement.toList), m.outermost.length) := by
    intro hapart
    obtain ⟨htext, hcount⟩ := afterPass_of_apart replacement.toList hapart
    rw [hresult, htext, hcount]
  have huntagged := untagged_expand hname hreplacement hm
  have hleft : Untagged name result.1.toList → m.PairsApart := by
    intro hfree
    by_contra hapart
    obtain ⟨blanks, hblanks, hi⟩ := exists_closingTag_left replacement.toList hm hapart
    refine not_untagged_of_closingTag hblanks hi ?_
    rwa [hresult, String.toList_ofList] at hfree
  refine ⟨hresult, ⟨fun e => hleft ?_, hwhole⟩, hleft, fun hapart => ?_⟩
  · rwa [e, String.toList_ofList]
  · rwa [hwhole hapart, String.toList_ofList]

/-- Self-closing elements in a pair, and a pair beside it. -/
theorem nested_replaced_around_single :
    let m : Markup := .tag false "main".toList [] (.pair "Card" [] (.chars "a".toList (.single "Card" [' ']
      (.tag false "br".toList ['/'] .nil))) [' '] (.pair "Card" [' '] .nil [] (.tag true "main".toList [] .nil)))
    m.text = "<main><Card>a<Card /><br/></Card ><Card ></Card></main>".toList ∧ m.PairsApart ∧
      ComponentTag.replace "Card" (String.ofList m.text) "x" = ("<main>xx</main>", 2) := by
  intro m
  have hm : m.Nests "Card" := by decide
  have hapart : m.PairsApart := by decide
  refine ⟨by decide, hapart, ?_⟩
  rw [((nested_replaced_iff (by decide) (by decide) hm).2.1).mpr hapart]
  decide

/-- Of a card in a card the end of the outer one stays, with its closing tag. -/
theorem nested_pair_leaves_tag :
    let m : Markup := .pair "Card" [] (.chars "a".toList (.pair "Card" [] (.chars "b".toList .nil) []
      (.chars "c".toList .nil))) [] .nil
    m.Nests "Card" ∧ m.text = "<Card>a<Card>b</Card>c</Card>".toList ∧
      String.ofList (m.expand fun _ => "x".toList) = "x" ∧ m.outermost.length = 1 ∧
      ComponentTag.replace "Card" (String.ofList m.text) "x" = ("xc</Card>", 1) ∧
        ¬ Untagged "Card" "xc</Card>".toList := by
  refine ⟨by decide, by decide, by decide, by decide, by decide +kernel, ?_⟩
  exact not_untagged_of_closingTag List.all_nil (show closingTag "Card" [] <:+: _ from ⟨"xc".toList, [], by decide⟩)

end Markup

end ComponentSite
