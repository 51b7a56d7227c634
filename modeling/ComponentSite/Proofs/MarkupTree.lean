/-
  ComponentSite.Proofs.MarkupTree — markup with well-nested component elements, and what
  tag rewriting makes of it.

  A markup is characters, tags and component elements in turn. A pass for a name finds
  exactly the elements of that name that stand in no other of them, whatever the passes
  before put in place of others (`replaceIn_textWith`): the name of a tag ends where it
  can, and the first closing tag of a name is the one of the element. So all passes
  together put one text in the place of each outermost element (`replaceAll_text`).
-/
import ComponentSite.Proofs.TagPasses
import Mathlib.Data.List.Induction

namespace ComponentSite
open Text

/-! ## Markup -/

inductive Markup
  | nil
  | chars (s : List Char) (rest : Markup)
  /-- A tag that belongs to no component. -/
  | tag (closing : Bool) (name attributes : List Char) (rest : Markup)
  /-- A component element that is one tag. -/
  | single (name : String) (attributes : List Char) (rest : Markup)
  /-- A component element of two tags; `blanks` stand in the closing one. -/
  | pair (name : String) (attributes : List Char) (inner : Markup) (blanks : List Char) (rest : Markup)
  deriving DecidableEq, Repr

def endsTagName (c : Char) : Bool := isBlank c || c == '/' || c == '>'

def IsTagName (name : List Char) : Prop := name ≠ [] ∧ ∀ c ∈ name, c ≠ '<' ∧ endsTagName c = false

instance (name : List Char) : Decidable (IsTagName name) :=
  decidable_of_iff (name ≠ [] ∧ (name.all fun c => c != '<' && !endsTagName c) = true) (by simp [IsTagName])

/-- Attributes of a component element: white space comes first, and no angle bracket. -/
def AreAttributes (s : List Char) : Prop := s.head?.all isBlank = true ∧ '<' ∉ s ∧ '>' ∉ s

instance (s : List Char) : Decidable (AreAttributes s) := inferInstanceAs (Decidable (_ ∧ _ ∧ _))

namespace Markup

def textWith (put : String → Option (List Char)) : Markup → List Char
  | nil => []
  | chars s rest => s ++ rest.textWith put
  | tag closing name attributes rest =>
    '<' :: ((if closing then ['/'] else []) ++ name ++ attributes ++ ['>']) ++ rest.textWith put
  | single name attributes rest =>
    (put name).getD ('<' :: name.toList ++ attributes ++ ['/', '>']) ++ rest.textWith put
  | pair name attributes inner blanks rest =>
    (put name).getD ('<' :: name.toList ++ attributes ++ ['>'] ++ inner.textWith put ++
      ('<' :: '/' :: name.toList ++ blanks ++ ['>'])) ++ rest.textWith put

def text (m : Markup) : List Char := m.textWith fun _ => none

def elements : Markup → List String
  | nil => []
  | chars _ rest => rest.elements
  | tag _ _ _ rest => rest.elements
  | single name _ rest => name :: rest.elements
  | pair name _ inner _ rest => name :: (inner.elements ++ rest.elements)

/-- The names of the component elements that lie in no other. -/
def outermost : Markup → List String
  | nil => []
  | chars _ rest => rest.outermost
  | tag _ _ _ rest => rest.outermost
  | single name _ rest => name :: rest.outermost
  | pair name _ _ _ rest => name :: rest.outermost

def fill {α : Type} (char : Char → α) (inside : String → List α) : Markup → List α
  | nil => []
  | chars s rest => s.map char ++ rest.fill char inside
  | tag closing name attributes rest =>
    ('<' :: ((if closing then ['/'] else []) ++ name ++ attributes ++ ['>'])).map char ++ rest.fill char inside
  | single name _ rest => inside name ++ rest.fill char inside
  | pair name _ _ _ rest => inside name ++ rest.fill char inside

/-- The markup with a text in place of each outermost element. -/
def expand (inside : String → List Char) (m : Markup) : List Char := m.fill id inside

/-- Characters, tags whose names are none of `names`, and component elements of which none
    lies in another of its name. -/
def WellFormed (names : List String) : Markup → Prop
  | nil => True
  | chars s rest => '<' ∉ s ∧ rest.WellFormed names
  | tag _ name attributes rest =>
    IsTagName name ∧ String.ofList name ∉ names ∧ attributes.head?.all endsTagName = true ∧ '<' ∉ attributes ∧
      rest.WellFormed names
  | single _ attributes rest => AreAttributes attributes ∧ rest.WellFormed names
  | pair name attributes inner blanks rest =>
    AreAttributes attributes ∧ attributes.getLast? ≠ some '/' ∧ blanks.all isBlank = true ∧ name ∉ inner.elements ∧
      inner.WellFormed names ∧ rest.WellFormed names

instance decidableWellFormed (names : List String) : (m : Markup) → Decidable (m.WellFormed names)
  | nil => .isTrue trivial
  | chars s rest =>
    have := decidableWellFormed names rest
    inferInstanceAs (Decidable ('<' ∉ s ∧ rest.WellFormed names))
  | tag _ _ _ rest =>
    have := decidableWellFormed names rest
    inferInstanceAs (Decidable (_ ∧ _ ∧ _ ∧ _ ∧ rest.WellFormed names))
  | single _ _ rest =>
    have := decidableWellFormed names rest
    inferInstanceAs (Decidable (_ ∧ rest.WellFormed names))
  | pair _ _ inner _ rest =>
    have := decidableWellFormed names inner
    have := decidableWellFormed names rest
    inferInstanceAs (Decidable (_ ∧ _ ∧ _ ∧ _ ∧ inner.WellFormed names ∧ rest.WellFormed names))

end Markup

/-! ## Names of tags -/

theorem IsTagName.not_mem {name : List Char} (h : IsTagName name) : '<' ∉ name := fun hm => (h.2 _ hm).1 rfl

/-- A text that starts with one name and the end of it starts with another only if that is
    shorter, and then a letter of the first name follows. -/
theorem rest?_tagName {name other after e : List Char} {d : Char} (hname : IsTagName name) (hother : IsTagName other)
    (hne : other ≠ name) (hd : endsTagName d = true) (h : rest? name (other ++ d :: e) = some after) :
    ∃ c r, after = c :: r ∧ endsTagName c = false := by
  rcases List.append_eq_append_iff.mp (rest?_eq_some h) with ⟨x, rfl, hx⟩ | ⟨x, rfl, hx⟩
  · cases x with
    | nil => exact absurd (List.append_nil _).symm hne
    | cons c x =>
      obtain ⟨rfl, _⟩ := List.cons.inj hx
      have := (hname.2 d (by simp)).2
      rw [hd] at this
      cases this
  · cases x with
    | nil => exact absurd (List.append_nil _) hne
    | cons c x => exact ⟨c, x ++ d :: e, hx, (hother.2 c (by simp)).2⟩

theorem not_blank_of_endsTagName {c : Char} (h : endsTagName c = false) : isBlank c = false ∧ c ≠ '/' ∧ c ≠ '>' := by
  simp only [endsTagName, Bool.or_eq_false_iff, beq_eq_false_iff_ne] at h
  exact ⟨h.1.1, h.1.2, h.2⟩

theorem endsTagName_of_isBlank {c : Char} (h : isBlank c = true) : endsTagName c = true := by simp [endsTagName, h]

theorem exists_append_eq_cons {p : Char → Bool} {l : List Char} (h : l.head?.all p = true) {x : Char} (hx : p x = true)
    (t : List Char) : ∃ d e, l ++ x :: t = d :: e ∧ p d = true := by
  cases l with
  | nil => exact ⟨x, t, rfl, hx⟩
  | cons c r => exact ⟨c, r ++ x :: t, rfl, by simpa using h⟩

namespace ComponentTag

variable {name other : List Char}

theorem element?_of_ne (hname : IsTagName name) (hother : IsTagName other) (hne : other ≠ name) {d : Char}
    (hd : endsTagName d = true) (e : List Char) : element? name ('<' :: (other ++ d :: e)) = none := by
  have hcut : rest? ('<' :: name) ('<' :: (other ++ d :: e)) = rest? name (other ++ d :: e) := by
    rw [rest?, if_pos (beq_self_eq_true _)]
  unfold element?
  rw [hcut]
  cases hr : rest? name (other ++ d :: e) with
  | none => rfl
  | some after =>
    obtain ⟨c, r, rfl, hc⟩ := rest?_tagName hname hother hne hd hr
    obtain ⟨hblank, hslash, hclose⟩ := not_blank_of_endsTagName hc
    have hin : (c :: r).takeWhile (· != '>') = c :: r.takeWhile (· != '>') := by
      rw [List.takeWhile_cons_of_pos (by simpa using hclose)]
    simp only [Option.bind_eq_bind, Option.bind_some, hin]
    have hopens : opensPair (c :: r.takeWhile (· != '>')) = false := by simp [opensPair, hblank]
    have hcloses : closesItself (c :: r.takeWhile (· != '>')) = false := by
      unfold closesItself
      split
      · rename_i e
        exact absurd (List.cons.inj e).1 hslash
      · rename_i e
        obtain ⟨rfl, _⟩ := List.cons.inj e
        simp [hblank]
      · rfl
    rw [hopens, hcloses]
    split <;> rfl

theorem element?_closing (hname : IsTagName name) (e : List Char) : element? name ('<' :: '/' :: e) = none := by
  obtain ⟨c, r, rfl⟩ := List.exists_cons_of_ne_nil hname.1
  have hc := (not_blank_of_endsTagName (hname.2 c (by simp)).2).2.1
  unfold element?
  rw [rest?, if_pos (beq_self_eq_true _), rest?, if_neg (by simpa using hc)]
  rfl

theorem closingTag?_eq_none {c : Char} (h : c ≠ '<') (r : List Char) : closingTag? name (c :: r) = none := by
  have : rest? ("</".toList ++ name) (c :: r) = none := by
    rw [show "</".toList = ['<', '/'] by decide, List.cons_append, rest?, if_neg (by simpa using h.symm)]
  unfold closingTag?
  rw [this]
  rfl

theorem closingTag?_of_opening {c : Char} (h : c ≠ '/') (r : List Char) : closingTag? name ('<' :: c :: r) = none := by
  have : rest? ("</".toList ++ name) ('<' :: c :: r) = none := by
    rw [show "</".toList = ['<', '/'] by decide, List.cons_append, List.cons_append, rest?,
      if_pos (beq_self_eq_true _), rest?, if_neg (by simpa using h.symm)]
  unfold closingTag?
  rw [this]
  rfl

theorem closingTag?_tagName (name : List Char) (hother : IsTagName other) (e : List Char) :
    closingTag? name ('<' :: (other ++ e)) = none := by
  obtain ⟨c, r, rfl⟩ := List.exists_cons_of_ne_nil hother.1
  exact closingTag?_of_opening (not_blank_of_endsTagName (hother.2 c List.mem_cons_self).2).2.1 _

/-- A tag that starts no element stays. -/
theorem replaceIn_tag (replacement : List Char) {p s : List Char} (hp : '<' ∉ p)
    (h : element? name ('<' :: (p ++ s)) = none) :
    replaceIn name replacement ('<' :: p ++ s) =
      ('<' :: p ++ (replaceIn name replacement s).1, (replaceIn name replacement s).2) := by
  rw [List.cons_append, replaceIn_char h, replaceIn_chars hp, List.cons_append]

theorem closingTag?_of_ne (hname : IsTagName name) (hother : IsTagName other) (hne : other ≠ name) {d : Char}
    (hd : endsTagName d = true) (e : List Char) : closingTag? name ('<' :: '/' :: (other ++ d :: e)) = none := by
  have hcut : rest? ("</".toList ++ name) ('<' :: '/' :: (other ++ d :: e)) = rest? name (other ++ d :: e) := by
    rw [show "</".toList = ['<', '/'] by decide, List.cons_append, List.cons_append, rest?,
      if_pos (beq_self_eq_true _), rest?, if_pos (beq_self_eq_true _), List.nil_append]
  unfold closingTag?
  rw [hcut]
  cases hr : rest? name (other ++ d :: e) with
  | none => rfl
  | some after =>
    obtain ⟨c, r, rfl, hc⟩ := rest?_tagName hname hother hne hd hr
    obtain ⟨hblank, _, hclose⟩ := not_blank_of_endsTagName hc
    rw [Option.bind_some, trimStart_cons_of_not_isBlank hblank, rest?, if_neg (by simpa using hclose.symm)]

theorem afterClosingTag?_append {p : List Char} (h : '<' ∉ p) (s : List Char) :
    afterClosingTag? name (p ++ s) = afterClosingTag? name s := by
  induction p with
  | nil => rfl
  | cons c p ih =>
    rw [List.mem_cons, not_or] at h
    rw [List.cons_append, afterClosingTag?, closingTag?_eq_none (Ne.symm h.1), ih h.2]

/-- A tag that is not the closing one is passed over. -/
theorem afterClosingTag?_skip {p s : List Char} (hp : '<' ∉ p) (h : closingTag? name ('<' :: (p ++ s)) = none) :
    afterClosingTag? name ('<' :: p ++ s) = afterClosingTag? name s := by
  rw [List.cons_append, afterClosingTag?, h, afterClosingTag?_append hp]

theorem afterClosingTag?_opening (name : List Char) (hother : IsTagName other) {behind : List Char} (hlt : '<' ∉ behind)
    (s : List Char) : afterClosingTag? name ('<' :: other ++ behind ++ s) = afterClosingTag? name s := by
  have hp : '<' ∉ other ++ behind := by simp [hother.not_mem, hlt]
  rw [List.cons_append]
  refine afterClosingTag?_skip hp ?_
  rw [List.append_assoc]
  exact closingTag?_tagName name hother _

section OtherTag

variable (hname : IsTagName name) (hother : IsTagName other) (hne : other ≠ name) {attributes : List Char}
  (hends : attributes.head?.all endsTagName = true) (hlt : '<' ∉ attributes) (closing : Bool) (s : List Char)
include hname hother hne hends

/-- The tag of another name is no element of this one, and no closing tag of it. -/
theorem otherTag_eq_none :
    element? name ('<' :: ((if closing then ['/'] else []) ++ other ++ attributes ++ ['>'] ++ s)) = none ∧
      closingTag? name ('<' :: ((if closing then ['/'] else []) ++ other ++ attributes ++ ['>'] ++ s)) = none := by
  obtain ⟨d, e, he, hd⟩ := exists_append_eq_cons hends (x := '>') (by decide) s
  have hcut : ∀ mark : List Char, mark ++ other ++ attributes ++ ['>'] ++ s = mark ++ (other ++ d :: e) := by
    simp [← he]
  rw [hcut]
  cases closing with
  | true => exact ⟨element?_closing hname _, closingTag?_of_ne hname hother hne hd e⟩
  | false => exact ⟨element?_of_ne hname hother hne hd e, closingTag?_tagName _ hother _⟩

include hlt

theorem afterClosingTag?_otherTag :
    afterClosingTag? name ('<' :: ((if closing then ['/'] else []) ++ other ++ attributes ++ ['>']) ++ s) =
      afterClosingTag? name s := by
  refine afterClosingTag?_skip ?_ (otherTag_eq_none hname hother hne hends closing s).2
  cases closing <;> simp [hother.not_mem, hlt]

theorem replaceIn_otherTag (replacement : List Char) :
    replaceIn name replacement ('<' :: ((if closing then ['/'] else []) ++ other ++ attributes ++ ['>']) ++ s) =
      ('<' :: ((if closing then ['/'] else []) ++ other ++ attributes ++ ['>']) ++ (replaceIn name replacement s).1,
        (replaceIn name replacement s).2) := by
  refine replaceIn_tag replacement ?_ (otherTag_eq_none hname hother hne hends closing s).1
  cases closing <;> simp [hother.not_mem, hlt]

end OtherTag

theorem closingTag?_self (name : List Char) {blanks : List Char} (hb : blanks.all isBlank = true) (s : List Char) :
    closingTag? name ('<' :: '/' :: name ++ blanks ++ ['>'] ++ s) = some s := by
  have hcut : '<' :: '/' :: name ++ blanks ++ ['>'] ++ s = ("</".toList ++ name) ++ (blanks ++ '>' :: s) := by simp
  have htrim : trimStart (blanks ++ '>' :: s) = '>' :: s :=
    (takeWhile_append_of_head (List.all_eq_true.mp hb) (t := '>' :: s) rfl).2
  unfold closingTag?
  rw [hcut, rest?_append, Option.bind_some, htrim, rest?, if_pos (beq_self_eq_true _), rest?]

theorem takeWhile_attributes {attributes : List Char} (h : '>' ∉ attributes) (s : List Char) :
    (attributes ++ '>' :: s).takeWhile (· != '>') = attributes ∧
      (attributes ++ '>' :: s).dropWhile (· != '>') = '>' :: s := by
  have hall : ∀ c ∈ attributes, (c != '>') = true := fun c hc => by
    rw [bne_iff_ne]
    rintro rfl
    exact h hc
  exact takeWhile_append_of_head hall rfl

theorem closesItself_slash {attributes : List Char} (h : attributes.head?.all isBlank = true) :
    opensPair (attributes ++ ['/']) = false ∧ closesItself (attributes ++ ['/']) = true := by
  cases attributes with
  | nil => exact ⟨by decide, by decide⟩
  | cons c r =>
    have hc : isBlank c = true := by simpa using h
    constructor
    · simp [opensPair, isBlank]
    · rw [List.cons_append]
      unfold closesItself
      split
      · rfl
      · rename_i e
        obtain ⟨rfl, rfl⟩ := List.cons.inj e
        simp [hc]
      · rename_i e
        cases e

theorem opensPair_attributes {attributes : List Char} (h : attributes.head?.all isBlank = true)
    (hlast : attributes.getLast? ≠ some '/') : opensPair attributes = true := by
  cases attributes with
  | nil => rfl
  | cons c r =>
    have hc : isBlank c = true := by simpa using h
    have hr : r.getLast? ≠ some '/' := by
      cases r with
      | nil => simp
      | cons d r => rwa [List.getLast?_cons_cons] at hlast
    simp [opensPair, hc, bne_iff_ne.mpr hr]

theorem element?_selfClosing (name : List Char) {attributes : List Char} (hblank : attributes.head?.all isBlank = true)
    (hgt : '>' ∉ attributes) (s : List Char) :
    element? name ('<' :: name ++ attributes ++ ['/', '>'] ++ s) = some s := by
  have hgt : '>' ∉ attributes ++ ['/'] := by simpa using hgt
  have hcut : '<' :: name ++ attributes ++ ['/', '>'] ++ s = ('<' :: name) ++ (attributes ++ ['/'] ++ '>' :: s) := by
    simp
  obtain ⟨htake, hdrop⟩ := takeWhile_attributes hgt s
  obtain ⟨hopens, hcloses⟩ := closesItself_slash hblank
  unfold element?
  simp only [hcut, rest?_append, Option.bind_eq_bind, Option.bind_some, htake, hdrop, hopens, hcloses]
  rfl

theorem element?_single (name : List Char) {attributes : List Char} (h : AreAttributes attributes) (s : List Char) :
    element? name ('<' :: name ++ attributes ++ ['/', '>'] ++ s) = some s :=
  element?_selfClosing name h.1 h.2.2 s

theorem element?_pair {attributes : List Char} (h : AreAttributes attributes) (hlast : attributes.getLast? ≠ some '/')
    {body rest : List Char} (hbody : afterClosingTag? name body = some rest) :
    element? name ('<' :: name ++ attributes ++ ['>'] ++ body) = some rest := by
  have hcut : '<' :: name ++ attributes ++ ['>'] ++ body = ('<' :: name) ++ (attributes ++ '>' :: body) := by simp
  obtain ⟨htake, hdrop⟩ := takeWhile_attributes h.2.2 body
  unfold element?
  simp only [hcut, rest?_append, Option.bind_eq_bind, Option.bind_some, htake, hdrop,
    opensPair_attributes h.1 hlast, if_true, hbody]

end ComponentTag

/-! ## A pass over a markup -/

def putAlso (put : String → Option (List Char)) (name : String) (replacement : List Char) :
    String → Option (List Char) :=
  fun n => (put n).or (if n = name then some replacement else none)

section
variable {put : String → Option (List Char)} {name n : String}

theorem putAlso_of_some {t : List Char} (h : put n = some t) (replacement : List Char) :
    putAlso put name replacement n = some t := by
  rw [putAlso, h, Option.some_or]

theorem putAlso_self (h : put name = none) (replacement : List Char) :
    putAlso put name replacement name = some replacement := by
  rw [putAlso, h, Option.none_or, if_pos rfl]

theorem putAlso_of_ne (h : put n = none) (hne : n ≠ name) (replacement : List Char) :
    putAlso put name replacement n = none := by
  rw [putAlso, h, Option.none_or, if_neg hne]

end

/-- Without angle brackets a text may be put in for some more names. -/
theorem not_mem_of_or {put : String → Option (List Char)} {replacement : List Char}
    (hput : ∀ n s, put n = some s → '<' ∉ s)
    (hreplacement : '<' ∉ replacement) (P : String → Prop) [DecidablePred P] :
    ∀ n s, (put n).or (if P n then some replacement else none) = some s → '<' ∉ s := by
  intro n s hs
  rcases Option.or_eq_some_iff.mp hs with hs | ⟨_, hs⟩
  · exact hput n s hs
  · split at hs
    · cases hs
      exact hreplacement
    · cases hs

theorem AreAttributes.ends {attributes : List Char} (h : AreAttributes attributes) :
    attributes.head?.all endsTagName = true := by
  cases attributes with
  | nil => rfl
  | cons c r => exact endsTagName_of_isBlank (by simpa using h.1)

theorem ends_append {s t : List Char} (hs : s.head?.all endsTagName = true) (ht : t.head?.all endsTagName = true) :
    (s ++ t).head?.all endsTagName = true := by
  cases s with
  | nil => exact ht
  | cons c s => exact hs

theorem ends_of_isBlank {blanks : List Char} (h : blanks.all isBlank = true) : blanks.head?.all endsTagName = true := by
  cases blanks with
  | nil => rfl
  | cons c r => exact endsTagName_of_isBlank (List.all_eq_true.mp h c List.mem_cons_self)

namespace Markup
open ComponentTag

variable {names : List String} {put : String → Option (List Char)} {name : String}
  (hname : IsTagName name.toList) (hmem : name ∈ names) (hput : ∀ n s, put n = some s → '<' ∉ s)
include hname hmem hput

/-- A markup without elements of a name holds no closing tag of it. -/
theorem afterClosingTag?_textWith {m : Markup} (hm : m.WellFormed names) (hel : ∀ n ∈ m.elements, IsTagName n.toList)
    (hout : name ∉ m.elements) (s : List Char) :
    afterClosingTag? name.toList (m.textWith put ++ s) = afterClosingTag? name.toList s := by
  induction m generalizing s with
  | nil => rfl
  | chars u rest ih =>
    rw [textWith, List.append_assoc, afterClosingTag?_append hm.1, ih hm.2 hel hout]
  | tag closing tname attributes rest ih =>
    obtain ⟨htag, hnot, hends, hlt, hrest⟩ := hm
    have hne : tname ≠ name.toList := by
      rintro rfl
      exact hnot (by simpa using hmem)
    rw [textWith, List.append_assoc, afterClosingTag?_otherTag hname htag hne hends hlt, ih hrest hel hout]
  | single n attributes rest ih =>
    obtain ⟨hattr, hrest⟩ := hm
    rw [elements, List.mem_cons, not_or] at hout
    have hn := hel n List.mem_cons_self
    have ih := ih hrest (fun k hk => hel k (List.mem_cons_of_mem _ hk)) hout.2 s
    rw [textWith, List.append_assoc]
    cases hp : put n with
    | some t => rw [Option.getD_some, afterClosingTag?_append (hput n t hp), ih]
    | none =>
      rw [Option.getD_none, List.append_assoc ('<' :: n.toList),
        afterClosingTag?_opening _ hn (by simp [hattr.2.1]), ih]
  | pair n attributes inner blanks rest ihInner ihRest =>
    obtain ⟨hattr, hlast, hblanks, hnested, hinner, hrest⟩ := hm
    rw [elements, List.mem_cons, List.mem_append, not_or, not_or] at hout
    have hn := hel n List.mem_cons_self
    have ihInner := ihInner hinner (fun k hk => hel k (List.mem_cons_of_mem _ (List.mem_append_left _ hk))) hout.2.1
    have ihRest := ihRest hrest (fun k hk => hel k (List.mem_cons_of_mem _ (List.mem_append_right _ hk))) hout.2.2 s
    rw [textWith, List.append_assoc]
    cases hp : put n with
    | some t => rw [Option.getD_some, afterClosingTag?_append (hput n t hp), ihRest]
    | none =>
      have hne : n.toList ≠ name.toList := fun e => hout.1 (String.toList_injective e.symm)
      have hclose := afterClosingTag?_otherTag hname hn hne (ends_of_isBlank hblanks)
        (not_mem_of_isBlank rfl hblanks) true
        (rest.textWith put ++ s)
      rw [Option.getD_none, List.append_assoc _ _ (rest.textWith put ++ s), List.append_assoc _ (inner.textWith put),
        List.append_assoc ('<' :: n.toList), afterClosingTag?_opening _ hn (by simp [hattr.2.1]),
        ihInner, ← ihRest, ← hclose]
      rfl

/-- A pair of tags around a markup without elements of its name is an element. -/
theorem element?_around {attributes blanks : List Char} {inner : Markup} (hattr : AreAttributes attributes)
    (hlast : attributes.getLast? ≠ some '/') (hblanks : blanks.all isBlank = true) (hinner : inner.WellFormed names)
    (hel : ∀ n ∈ inner.elements, IsTagName n.toList) (hout : name ∉ inner.elements) (s : List Char) :
    element? name.toList ('<' :: name.toList ++ attributes ++ ['>'] ++ inner.textWith put ++
      ('<' :: '/' :: name.toList ++ blanks ++ ['>']) ++ s) = some s := by
  have hclosing := closingTag?_self name.toList hblanks s
  have hbody : afterClosingTag? name.toList (inner.textWith put ++
      ('<' :: '/' :: name.toList ++ blanks ++ ['>'] ++ s)) = some s := by
    rw [afterClosingTag?_textWith hname hmem hput hinner hel hout]
    rw [List.cons_append, List.cons_append, List.cons_append] at hclosing ⊢
    rw [afterClosingTag?, hclosing]
  have hpair := element?_pair hattr hlast hbody
  rwa [← List.append_assoc, ← List.append_assoc] at hpair

/-- A pass puts its text in place of the elements of its name. -/
theorem replaceIn_textWith (replacement : List Char) {m : Markup} (hm : m.WellFormed names)
    (hel : ∀ n ∈ m.elements, IsTagName n.toList) (s : List Char) :
    (replaceIn name.toList replacement (m.textWith put ++ s)).1 =
      m.textWith (putAlso put name replacement) ++ (replaceIn name.toList replacement s).1 := by
  induction m generalizing s with
  | nil => rfl
  | chars u rest ih =>
    rw [textWith, textWith, List.append_assoc, replaceIn_append hm.1, ih hm.2 hel, List.append_assoc]
  | tag closing tname attributes rest ih =>
    obtain ⟨htag, hnot, hends, hlt, hrest⟩ := hm
    have hne : tname ≠ name.toList := by
      rintro rfl
      exact hnot (by simpa using hmem)
    rw [textWith, textWith, List.append_assoc _ (rest.textWith put),
      replaceIn_otherTag hname htag hne hends hlt, ih hrest hel, List.append_assoc _ (rest.textWith _)]
  | single n attributes rest ih =>
    obtain ⟨hattr, hrest⟩ := hm
    have hn := hel n List.mem_cons_self
    have ih := ih hrest (fun k hk => hel k (List.mem_cons_of_mem _ hk)) s
    rw [textWith, textWith, List.append_assoc _ (rest.textWith put), List.append_assoc _ (rest.textWith _)]
    cases hp : put n with
    | some t => rw [putAlso_of_some hp, Option.getD_some, replaceIn_append (hput n t hp), ih]
    | none =>
      by_cases hne : n = name
      · subst hne
        have helement := element?_single n.toList hattr (rest.textWith put ++ s)
        rw [putAlso_self hp, Option.getD_none, Option.getD_some]
        simp only [List.append_assoc, List.cons_append] at helement ⊢
        rw [replaceIn_of_element helement, ih]
      · have hne : n.toList ≠ name.toList := fun e => hne (String.toList_injective e)
        have hends : (attributes ++ ['/']).head?.all endsTagName = true := ends_append hattr.ends rfl
        have hskip := replaceIn_otherTag hname hn hne hends (by simp [hattr.2.1]) false
          (rest.textWith put ++ s) replacement
        rw [putAlso_of_ne hp (fun e => hne (e ▸ rfl)), Option.getD_none, ← ih]
        simpa using congrArg Prod.fst hskip
  | pair n attributes inner blanks rest ihInner ihRest =>
    obtain ⟨hattr, hlast, hblanks, hnested, hinner, hrest⟩ := hm
    have hn := hel n List.mem_cons_self
    have helInner := fun k hk => hel k (List.mem_cons_of_mem _ (List.mem_append_left _ hk))
    have ihInner := ihInner hinner helInner
    have ihRest := ihRest hrest (fun k hk => hel k (List.mem_cons_of_mem _ (List.mem_append_right _ hk))) s
    rw [textWith, textWith, List.append_assoc _ (rest.textWith put), List.append_assoc _ (rest.textWith _)]
    cases hp : put n with
    | some t => rw [putAlso_of_some hp, Option.getD_some, Option.getD_some, replaceIn_append (hput n t hp), ihRest]
    | none =>
      by_cases hne : n = name
      · subst hne
        have helement := element?_around hname hmem hput hattr hlast hblanks hinner helInner hnested
          (rest.textWith put ++ s)
        rw [putAlso_self hp, Option.getD_none, Option.getD_some]
        simp only [List.append_assoc, List.cons_append] at helement ⊢
        rw [replaceIn_of_element helement, ihRest]
      · have hne : n.toList ≠ name.toList := fun e => hne (String.toList_injective e)
        -- both tags of another element stay, and the pass goes on between them
        have hclose : (replaceIn name.toList replacement ('<' :: ('/' :: n.toList ++ blanks ++ ['>']) ++
            (rest.textWith put ++ s))).1 = '<' :: ('/' :: n.toList ++ blanks ++ ['>']) ++
            (replaceIn name.toList replacement (rest.textWith put ++ s)).1 :=
          congrArg Prod.fst (replaceIn_otherTag hname hn hne (ends_of_isBlank hblanks)
            (not_mem_of_isBlank rfl hblanks) true _ _)
        have hopen := congrArg Prod.fst (replaceIn_otherTag hname hn hne hattr.ends hattr.2.1 false
          (inner.textWith put ++ ('<' :: ('/' :: n.toList ++ blanks ++ ['>']) ++ (rest.textWith put ++ s))) replacement)
        rw [ihInner, hclose, ihRest] at hopen
        rw [putAlso_of_ne hp (fun e => hne (e ▸ rfl)), Option.getD_none, Option.getD_none]
        simpa using hopen

end Markup

/-! ## Outermost elements -/

namespace Markup

/-- Where every outermost element is replaced, nothing else shows of the elements. -/
theorem textWith_eq_expand {put : String → Option (List Char)} {inside : String → List Char} {m : Markup}
    (h : ∀ n ∈ m.outermost, put n = some (inside n)) : m.textWith put = m.expand inside := by
  unfold expand
  induction m with
  | nil => rfl
  | chars s rest ih => rw [textWith, fill, ih h, List.map_id]
  | tag closing name attributes rest ih => rw [textWith, fill, ih h, List.map_id]
  | single name attributes rest ih =>
    rw [textWith, fill, h name List.mem_cons_self, ih fun n hn => h n (List.mem_cons_of_mem _ hn)]
    rfl
  | pair name attributes inner blanks rest _ ih =>
    rw [textWith, fill, h name List.mem_cons_self, ih fun n hn => h n (List.mem_cons_of_mem _ hn)]
    rfl

theorem flatMap_fill {α β : Type} {char : Char → α} {inside : String → List α} {f : α → List β} {g : Char → List β}
    {inside' : String → List Char} {m : Markup} (hchar : ∀ c, f (char c) = g c)
    (hinside : ∀ n ∈ m.outermost, (inside n).flatMap f = (inside' n).flatMap g) :
    (m.fill char inside).flatMap f = (m.expand inside').flatMap g := by
  have hmap : ∀ s : List Char, (s.map char).flatMap f = (s.map id).flatMap g := fun s => by
    rw [List.flatMap_map, List.map_id]
    exact congrArg (s.flatMap ·) (funext hchar)
  unfold expand
  induction m with
  | nil => rfl
  | chars s rest ih => rw [fill, fill, List.flatMap_append, List.flatMap_append, hmap, ih hinside]
  | tag closing name attributes rest ih => rw [fill, fill, List.flatMap_append, List.flatMap_append, hmap, ih hinside]
  | single name attributes rest ih =>
    rw [fill, fill, List.flatMap_append, List.flatMap_append, hinside name List.mem_cons_self,
      ih fun n hn => hinside n (List.mem_cons_of_mem _ hn)]
  | pair name attributes inner blanks rest _ ih =>
    rw [fill, fill, List.flatMap_append, List.flatMap_append, hinside name List.mem_cons_self,
      ih fun n hn => hinside n (List.mem_cons_of_mem _ hn)]

theorem expand_congr {inside inside' : String → List Char} {m : Markup} (h : ∀ n ∈ m.outermost, inside n = inside' n) :
    m.expand inside = m.expand inside' := by
  have : (m.expand inside).flatMap (fun c => [c]) = (m.expand inside').flatMap fun c => [c] :=
    flatMap_fill (fun _ => rfl) fun n hn => by rw [h n hn]
  rwa [List.flatMap_singleton', List.flatMap_singleton'] at this

theorem outermost_subset (m : Markup) : m.outermost ⊆ m.elements := by
  induction m with
  | nil => exact List.Subset.refl _
  | chars s rest ih => exact ih
  | tag closing name attributes rest ih => exact ih
  | single name attributes rest ih => exact List.cons_subset_cons name ih
  | pair name attributes inner blanks rest _ ih =>
    exact List.cons_subset_cons name (List.subset_append_of_subset_right _ ih)

/-- A filling holds characters of the text and what was put in for outermost elements. -/
theorem mem_fill {α : Type} {char : Char → α} {inside : String → List α} {m : Markup}
    {a : α} (ha : a ∈ m.fill char inside) :
    (∃ c ∈ m.text, a = char c) ∨ ∃ n ∈ m.outermost, a ∈ inside n := by
  have hchars : ∀ s : List Char, a ∈ s.map char → ∀ t, ∃ c ∈ s ++ t, a = char c := by
    intro s hs t
    obtain ⟨c, hc, rfl⟩ := List.mem_map.mp hs
    exact ⟨c, List.mem_append_left t hc, rfl⟩
  have hrest : ∀ {rest : Markup} (s : List Char),
      ((∃ c ∈ rest.text, a = char c) ∨ ∃ n ∈ rest.outermost, a ∈ inside n) →
      (∃ c ∈ s ++ rest.text, a = char c) ∨ ∃ n ∈ rest.outermost, a ∈ inside n := by
    rintro rest s (⟨c, hc, rfl⟩ | h)
    · exact Or.inl ⟨c, List.mem_append_right s hc, rfl⟩
    · exact Or.inr h
  induction m with
  | nil => cases ha
  | chars s rest ih =>
    rcases List.mem_append.mp ha with ha | ha
    · exact Or.inl (hchars s ha _)
    · exact hrest s (ih ha)
  | tag closing name attributes rest ih =>
    rcases List.mem_append.mp ha with ha | ha
    · exact Or.inl (hchars _ ha _)
    · exact hrest _ (ih ha)
  | single name attributes rest ih =>
    rcases List.mem_append.mp ha with ha | ha
    · exact Or.inr ⟨name, List.mem_cons_self, ha⟩
    · exact (hrest _ (ih ha)).imp_right fun ⟨n, hn, ha⟩ => ⟨n, List.mem_cons_of_mem _ hn, ha⟩
  | pair name attributes inner blanks rest _ ih =>
    rcases List.mem_append.mp ha with ha | ha
    · exact Or.inr ⟨name, List.mem_cons_self, ha⟩
    · exact (hrest _ (ih ha)).imp_right fun ⟨n, hn, ha⟩ => ⟨n, List.mem_cons_of_mem _ hn, ha⟩

/-- Nothing is written without a character. -/
theorem expand_of_text_eq_nil {m : Markup} (h : m.text = []) (inside : String → List Char) : m.expand inside = [] := by
  induction m with
  | nil => rfl
  | chars s rest ih =>
    obtain ⟨rfl, hrest⟩ := List.append_eq_nil_iff.mp h
    exact ih hrest
  | tag closing name attributes rest => cases (List.append_eq_nil_iff.mp h).1
  | single name attributes rest => cases (List.append_eq_nil_iff.mp h).1
  | pair name attributes inner blanks rest => cases (List.append_eq_nil_iff.mp h).1

end Markup

/-! ## White space at the ends -/

/-- What a text is up to white space. -/
def Text.withoutBlanks (s : List Char) : List Char := s.filter fun c => !isBlank c

theorem Text.withoutBlanks_append (s t : List Char) : withoutBlanks (s ++ t) = withoutBlanks s ++ withoutBlanks t :=
  List.filter_append ..

theorem Text.flatMap_withoutBlanks (s : List Char) : (s.flatMap fun c => withoutBlanks [c]) = withoutBlanks s := by
  induction s with
  | nil => rfl
  | cons c s ih =>
    rw [List.flatMap_cons, ih]
    exact (withoutBlanks_append [c] s).symm

theorem Text.withoutBlanks_cons {c : Char} (h : isBlank c = true) (s : List Char) :
    withoutBlanks (c :: s) = withoutBlanks s := by
  simp [withoutBlanks, h]

namespace Markup

/-- The same tags and elements, with other white space between them at most. -/
structure Alike (m m' : Markup) : Prop where
  elements : m'.elements = m.elements
  outermost : m'.outermost = m.outermost
  wellFormed : ∀ names, m.WellFormed names → m'.WellFormed names
  expand : ∀ inside, withoutBlanks (m'.expand inside) = withoutBlanks (m.expand inside)

theorem Alike.refl (m : Markup) : m.Alike m := ⟨rfl, rfl, fun _ h => h, fun _ => rfl⟩

theorem Alike.trans {m m' m'' : Markup} (h : m.Alike m') (h' : m'.Alike m'') : m.Alike m'' :=
  ⟨h'.elements.trans h.elements, h'.outermost.trans h.outermost,
    fun names hm => h'.wellFormed names (h.wellFormed names hm),
    fun inside => (h'.expand inside).trans (h.expand inside)⟩

variable {rest rest' : Markup} (h : rest.Alike rest')
include h

theorem Alike.chars {s s' : List Char} (hs : withoutBlanks s' = withoutBlanks s) (hlt : '<' ∉ s → '<' ∉ s') :
    (chars s rest).Alike (chars s' rest') where
  elements := h.elements
  outermost := h.outermost
  wellFormed names hm := ⟨hlt hm.1, h.wellFormed names hm.2⟩
  expand inside := by
    have := h.expand inside
    simp only [Markup.expand, fill, withoutBlanks_append, List.map_id] at this ⊢
    rw [this, hs]

theorem Alike.tag (closing : Bool) (name attributes : List Char) :
    (tag closing name attributes rest).Alike (tag closing name attributes rest') where
  elements := h.elements
  outermost := h.outermost
  wellFormed names hm := ⟨hm.1, hm.2.1, hm.2.2.1, hm.2.2.2.1, h.wellFormed names hm.2.2.2.2⟩
  expand inside := by
    have := h.expand inside
    simp only [Markup.expand, fill, withoutBlanks_append] at this ⊢
    rw [this]

theorem Alike.single (name : String) (attributes : List Char) :
    (single name attributes rest).Alike (single name attributes rest') where
  elements := congrArg (name :: ·) h.elements
  outermost := congrArg (name :: ·) h.outermost
  wellFormed names hm := ⟨hm.1, h.wellFormed names hm.2⟩
  expand inside := by
    have := h.expand inside
    simp only [Markup.expand, fill, withoutBlanks_append] at this ⊢
    rw [this]

theorem Alike.pair (name : String) (attributes : List Char) (inner : Markup) (blanks : List Char) :
    (pair name attributes inner blanks rest).Alike (pair name attributes inner blanks rest') where
  elements := congrArg (fun names => name :: (inner.elements ++ names)) h.elements
  outermost := congrArg (name :: ·) h.outermost
  wellFormed names hm := ⟨hm.1, hm.2.1, hm.2.2.1, hm.2.2.2.1, hm.2.2.2.2.1, h.wellFormed names hm.2.2.2.2.2⟩
  expand inside := by
    have := h.expand inside
    simp only [Markup.expand, fill, withoutBlanks_append] at this ⊢
    rw [this]

omit h

/-- White space in front may go. -/
theorem exists_alike_tail {b : Char} (hb : isBlank b = true) {m : Markup} {s : List Char} (hm : m.text = b :: s) :
    ∃ m', m'.text = s ∧ m.Alike m' := by
  have hlt : '<' ≠ b := by
    rintro rfl
    exact absurd hb (by decide)
  induction m with
  | nil => cases hm
  | chars u rest ih =>
    cases u with
    | nil =>
      obtain ⟨rest', htext, hrest⟩ := ih hm
      exact ⟨chars [] rest', htext, hrest.chars rfl fun h => h⟩
    | cons c u =>
      obtain ⟨rfl, rfl⟩ := List.cons.inj hm
      exact ⟨chars u rest, rfl, (Alike.refl rest).chars (withoutBlanks_cons hb u).symm
        fun h hu => h (List.mem_cons_of_mem _ hu)⟩
  | tag => exact absurd (List.cons.inj hm).1 hlt
  | single => exact absurd (List.cons.inj hm).1 hlt
  | pair => exact absurd (List.cons.inj hm).1 hlt

/-- The last character of two texts, of which the first may be a tag. -/
theorem append_eq_concat {x r s : List Char} {b : Char} (e : x ++ r = s ++ [b]) :
    r = [] ∧ x = s ++ [b] ∨ ∃ t, r = t ++ [b] ∧ s = x ++ t := by
  rcases List.eq_nil_or_concat r with rfl | ⟨t, c, rfl⟩
  · exact Or.inl ⟨rfl, by simpa using e⟩
  · rw [List.concat_eq_append, ← List.append_assoc] at e
    obtain ⟨rfl, hc⟩ := List.append_inj' e rfl
    exact Or.inr ⟨t, by rw [List.concat_eq_append, hc], rfl⟩

/-- After a tag the last character belongs to what follows, unless it is no white space. -/
theorem exists_concat_of_tag {x r s : List Char} {b : Char} (hb : isBlank b = true) (hx : x.getLast? = some '>')
    (e : x ++ r = s ++ [b]) : ∃ t, r = t ++ [b] ∧ s = x ++ t := by
  rcases append_eq_concat e with ⟨_, rfl⟩ | h
  · rw [List.getLast?_concat] at hx
    cases hx
    exact absurd hb (by decide)
  · exact h

/-- White space at the end may go. -/
theorem exists_alike_dropLast {b : Char} (hb : isBlank b = true) {m : Markup} {s : List Char} (hm : m.text = s ++ [b]) :
    ∃ m', m'.text = s ∧ m.Alike m' := by
  induction m generalizing s with
  | nil => exact absurd hm.symm (List.append_ne_nil_of_right_ne_nil _ (List.cons_ne_nil _ _))
  | chars u rest ih =>
    rcases append_eq_concat hm with ⟨hrest, rfl⟩ | ⟨t, hrest, rfl⟩
    · refine ⟨chars s rest, ?_, (Alike.refl rest).chars ?_ fun h hs => h (List.mem_append_left _ hs)⟩
      · show s ++ rest.text = s
        rw [text, hrest, List.append_nil]
      · rw [withoutBlanks_append, withoutBlanks_cons hb]
        exact (List.append_nil _).symm
    · obtain ⟨rest', htext, hrest⟩ := ih hrest
      exact ⟨chars u rest', congrArg (u ++ ·) htext, hrest.chars rfl fun h => h⟩
  | tag closing name attributes rest ih =>
    obtain ⟨t, hrest, rfl⟩ := exists_concat_of_tag hb (by simp [List.getLast?_cons, List.getLast?_append]) hm
    obtain ⟨rest', htext, hrest⟩ := ih hrest
    exact ⟨tag closing name attributes rest', congrArg (_ ++ ·) htext, hrest.tag closing name attributes⟩
  | single name attributes rest ih =>
    obtain ⟨t, hrest, rfl⟩ := exists_concat_of_tag hb (by simp [List.getLast?_cons, List.getLast?_append]) hm
    obtain ⟨rest', htext, hrest⟩ := ih hrest
    exact ⟨single name attributes rest', congrArg (_ ++ ·) htext, hrest.single name attributes⟩
  | pair name attributes inner blanks rest _ ih =>
    obtain ⟨t, hrest, rfl⟩ := exists_concat_of_tag hb (by simp [List.getLast?_cons, List.getLast?_append]) hm
    obtain ⟨rest', htext, hrest⟩ := ih hrest
    exact ⟨pair name attributes inner blanks rest', congrArg (_ ++ ·) htext, hrest.pair name attributes inner blanks⟩

theorem exists_alike_trimStart {m : Markup} {s : List Char} (hm : m.text = s) :
    ∃ m', m'.text = trimStart s ∧ m.Alike m' := by
  induction s generalizing m with
  | nil => exact ⟨m, hm, .refl m⟩
  | cons c s ih =>
    cases hc : isBlank c with
    | false => exact ⟨m, by rw [hm, trimStart_cons_of_not_isBlank hc], .refl m⟩
    | true =>
      obtain ⟨m', hm', h⟩ := exists_alike_tail hc hm
      obtain ⟨m'', hm'', h'⟩ := ih hm'
      exact ⟨m'', by rw [hm'', trimStart_cons_of_isBlank hc], h.trans h'⟩

theorem exists_alike_trimEnd {m : Markup} {s : List Char} (hm : m.text = s) :
    ∃ m', m'.text = trimEnd s ∧ m.Alike m' := by
  induction s using List.reverseRecOn generalizing m with
  | nil => exact ⟨m, hm, .refl m⟩
  | append_singleton s c ih =>
    have hend : trimEnd (s ++ [c]) = (trimStart (c :: s.reverse)).reverse := by
      rw [trimEnd, List.reverse_append, List.reverse_singleton, List.singleton_append]
      rfl
    cases hc : isBlank c with
    | false =>
      refine ⟨m, ?_, .refl m⟩
      rw [hm, hend, trimStart_cons_of_not_isBlank hc, List.reverse_cons, List.reverse_reverse]
    | true =>
      obtain ⟨m', hm', h⟩ := exists_alike_dropLast hc hm
      obtain ⟨m'', hm'', h'⟩ := ih hm'
      refine ⟨m'', ?_, h.trans h'⟩
      rw [hm'', hend, trimStart_cons_of_isBlank hc]
      rfl

/-- Trimming leaves a markup alike. -/
theorem exists_alike_trim (m : Markup) : ∃ m', m'.text = trim m.text ∧ m.Alike m' := by
  obtain ⟨m', hm', h⟩ := exists_alike_trimStart (rfl : m.text = m.text)
  obtain ⟨m'', hm'', h'⟩ := exists_alike_trimEnd hm'
  exact ⟨m'', hm'', h.trans h'⟩

end Markup

/-! ## All passes -/

namespace Composition

def puts (targets : List Component) (name : String) : Option (List Char) :=
  (targets.find? (·.names.contains name)).map fun t => (includeFor t).toList

variable {names : List String} {put : String → Option (List Char)} {m : Markup}

theorem replaceElements_textWith {t : Component} (hm : m.WellFormed names) (hel : ∀ n ∈ m.elements, IsTagName n.toList)
    (hput : ∀ n s, put n = some s → '<' ∉ s) (hnames : ∀ n ∈ t.names, IsTagName n.toList ∧ n ∈ names)
    (hinclude : '<' ∉ (includeFor t).toList) :
    replaceElements (String.ofList (m.textWith put)) t = String.ofList (m.textWith fun n =>
      (put n).or (if n ∈ t.names then some (includeFor t).toList else none)) := by
  unfold replaceElements
  generalize t.names = ns at hnames
  induction ns generalizing put with
  | nil => simp
  | cons name ns ih =>
    obtain ⟨hname, hmem⟩ := hnames name List.mem_cons_self
    have hpass := Markup.replaceIn_textWith hname hmem hput (includeFor t).toList hm hel []
    have hnil : (ComponentTag.replaceIn name.toList (includeFor t).toList []).1 = [] := by rw [ComponentTag.replaceIn]
    rw [hnil, List.append_nil, List.append_nil] at hpass
    rw [List.foldl_cons, ComponentTag.replace, String.toList_ofList]
    simp only [hpass]
    have hput' : ∀ n s, putAlso put name (includeFor t).toList n = some s → '<' ∉ s :=
      not_mem_of_or hput hinclude (· = name)
    rw [ih hput' fun n hn => hnames n (List.mem_cons_of_mem _ hn)]
    congr 2
    funext n
    by_cases hn : n = name
    · simp [putAlso, hn]
    · simp [putAlso, hn]

/-- The passes for all components put in what each of them does for its names. -/
theorem replaceAll_textWith {targets : List Component} (hm : m.WellFormed names)
    (hel : ∀ n ∈ m.elements, IsTagName n.toList) (hput : ∀ n s, put n = some s → '<' ∉ s)
    (hnames : ∀ t ∈ targets, ∀ n ∈ t.names, IsTagName n.toList ∧ n ∈ names)
    (hinclude : ∀ t ∈ targets, '<' ∉ (includeFor t).toList) :
    replaceAll targets (String.ofList (m.textWith put)) =
      String.ofList (m.textWith fun n => (put n).or (puts targets n)) := by
  induction targets generalizing put with
  | nil => simp [replaceAll, puts]
  | cons t targets ih =>
    have ht := List.mem_cons_self (a := t) (l := targets)
    rw [replaceAll, List.foldl_cons, replaceElements_textWith hm hel hput (hnames t ht) (hinclude t ht)]
    refine (ih (not_mem_of_or hput (hinclude t ht) (· ∈ t.names)) (fun t ht => hnames t (List.mem_cons_of_mem _ ht))
      fun t ht => hinclude t (List.mem_cons_of_mem _ ht)).trans ?_
    congr 2
    funext n
    by_cases hn : n ∈ t.names <;> simp [puts, hn]

theorem replaceAll_text {targets : List Component} {inside : String → List Char} (hm : m.WellFormed names)
    (hel : ∀ n ∈ m.elements, IsTagName n.toList) (hnames : ∀ t ∈ targets, ∀ n ∈ t.names, IsTagName n.toList ∧ n ∈ names)
    (hinclude : ∀ t ∈ targets, '<' ∉ (includeFor t).toList)
    (hinside : ∀ n ∈ m.outermost, puts targets n = some (inside n)) :
    (replaceAll targets (String.ofList m.text)).toList = m.expand inside := by
  rw [Markup.text, replaceAll_textWith hm hel (by simp) hnames hinclude, String.toList_ofList]
  exact Markup.textWith_eq_expand fun n hn => by rw [Option.none_or, hinside n hn]

theorem puts_eq {targets : List Component} {t : Component} {n : String} (ht : t ∈ targets) (hn : n ∈ t.names)
    (hunique : ∀ u ∈ targets, n ∈ u.names → u = t) : puts targets n = some (includeFor t).toList := by
  unfold puts
  cases hf : targets.find? (·.names.contains n) with
  | none => exact absurd (List.contains_iff_mem.mpr hn) (List.find?_eq_none.mp hf t ht)
  | some u =>
    rw [hunique u (List.mem_of_find?_eq_some hf) (List.contains_iff_mem.mp (by simpa using List.find?_some hf))]
    rfl

end Composition

end ComponentSite
