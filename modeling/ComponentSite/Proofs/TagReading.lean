/-
  ComponentSite.Proofs.TagReading — tags and comments that are read as one piece of markup.

  The attributes of a tag are read from quote to quote: what stands between two quotes is
  skipped, and only outside of them a `>` ends the tag (`takeAttributes_of_open`). So a
  tag with its quotes closed is read whole (`tagOrComment?_tag`), and so is a comment up to
  the first mark that closes one (`tagOrComment?_comment`).
-/
import ComponentSite.Proofs.ContentText

namespace ComponentSite
open Text

namespace Text

/-- A needle with a mark at its end, which it holds there only, stands behind a text that lacks it: it cannot begin
    in the text and end behind it. -/
theorem breakOn_of_lacks {needle s : List Char} {mark : Char} (hmark : mark ∉ needle) (h : Lacks (needle ++ [mark]) s)
    (rest : List Char) : breakOn (needle ++ [mark]) (s ++ ((needle ++ [mark]) ++ rest)) = some (s, rest) := by
  induction s with
  | nil =>
    obtain ⟨d, t, e⟩ : ∃ d t, needle ++ [mark] = d :: t := List.exists_cons_of_ne_nil (by simp)
    rw [e, List.nil_append, List.cons_append, breakOn, ← List.cons_append, rest?_append]
  | cons c s ih =>
    have hnone : rest? (needle ++ [mark]) (c :: (s ++ ((needle ++ [mark]) ++ rest))) = none := by
      refine Option.eq_none_iff_forall_ne_some.mpr fun after hafter => ?_
      have hcut : (needle ++ [mark]) ++ after = (c :: s) ++ ((needle ++ [mark]) ++ rest) := (rest?_eq_some hafter).symm
      rcases Nat.lt_or_ge needle.length (c :: s).length with hin | hout
      · exact h (List.prefix_of_prefix_length_le ⟨after, hcut⟩ ⟨_, rfl⟩ (by simpa using Nat.le_of_lt_succ hin)).isInfix
      · -- the mark would stand in the needle behind the text
        have hat : ((needle ++ [mark]) ++ after)[needle.length]? = some mark := by simp
        have hshort : needle.length - (c :: s).length < needle.length := Nat.sub_lt_self (Nat.succ_pos _) hout
        rw [hcut, List.getElem?_append_right hout, List.append_assoc, List.getElem?_append_left hshort] at hat
        exact hmark (List.mem_of_getElem? hat)
    rw [List.cons_append, breakOn, hnone, ih (h.of_part (List.suffix_cons c s).isInfix)]
    rfl

end Text

namespace Style

/-! ## Attributes -/

def before (p : List Char) : List Char × Bool × List Char → List Char × Bool × List Char :=
  fun (attributes, selfClosing, rest) => (p ++ attributes, selfClosing, rest)

/-- The quote that is open behind a character; none if the character ends the tag. -/
def quoteStep : Option Char → Char → Option (Option Char)
  | none, c => if c == '>' then none else some (if c == '\x22' || c == '\x27' then some c else none)
  | some q, c => some (if c == q then none else some q)

def openQuote (quote : Option Char) (s : List Char) : Option (Option Char) := s.foldlM quoteStep quote

theorem openQuote_cons (quote : Option Char) (c : Char) (s : List Char) :
    openQuote quote (c :: s) = (quoteStep quote c).bind (openQuote · s) := List.foldlM_cons

theorem openQuote_append (quote : Option Char) (s t : List Char) :
    openQuote quote (s ++ t) = (openQuote quote s).bind (openQuote · t) := List.foldlM_append

theorem openQuote_plain {p : List Char} (h : ∀ c ∈ p, c ≠ '>' ∧ c ≠ '\x22' ∧ c ≠ '\x27') :
    openQuote none p = some none := by
  induction p with
  | nil => rfl
  | cons c p ih =>
    obtain ⟨⟨hgt, hdouble, hsingle⟩, hp⟩ := List.forall_mem_cons.mp h
    have hstep : quoteStep none c = some none := by simp [quoteStep, hgt, hdouble, hsingle]
    rw [openQuote_cons, hstep]
    exact ih hp

theorem takeAttributes_cons {quote next : Option Char} {c : Char} (h : quoteStep quote c = some next) {r : List Char}
    (hslash : quote = none → c = '/' → r.head? ≠ some '>') :
    takeAttributes quote (c :: r) = (takeAttributes next r).map (before [c]) := by
  cases quote with
  | none =>
    have hgt : c ≠ '>' := by
      rintro rfl
      cases h
    have hend : ¬ (c == '/' && r.head? == some '>') = true := fun hends =>
      hslash rfl (eq_of_beq (Bool.and_eq_true_iff.mp hends).1) (eq_of_beq (Bool.and_eq_true_iff.mp hends).2)
    simp only [quoteStep, beq_iff_eq, hgt, if_false, Option.some.injEq] at h
    rw [takeAttributes, if_neg (by simpa using hgt), if_neg hend, ← h]
    rfl
  | some q =>
    obtain rfl := Option.some.inj h
    rfl

/-- Attributes are read on as long as no `>` stands outside of quotes. -/
theorem takeAttributes_of_open {quote next : Option Char} {s t : List Char} (h : openQuote quote s = some next)
    (hslash : s.getLast? = some '/' → t.head? ≠ some '>') :
    takeAttributes quote (s ++ t) = (takeAttributes next t).map (before s) := by
  induction s generalizing quote with
  | nil =>
    cases h
    exact Option.map_id'.symm
  | cons c s ih =>
    rw [openQuote_cons] at h
    obtain ⟨quote', hstep, h⟩ := Option.bind_eq_some_iff.mp h
    have hrest : s.getLast? = some '/' → t.head? ≠ some '>' := by
      intro hs
      refine hslash ?_
      cases s with
      | nil => cases hs
      | cons d s => rwa [List.getLast?_cons_cons]
    have hfirst : quote = none → c = '/' → (s ++ t).head? ≠ some '>' := by
      rintro rfl rfl
      obtain rfl : none = quote' := Option.some.inj hstep
      cases s with
      | nil => exact hslash rfl
      | cons d s =>
        rintro hd
        obtain rfl : d = '>' := Option.some.inj hd
        cases h
    rw [List.cons_append, takeAttributes_cons hstep hfirst, ih h hrest, Option.map_map]
    rfl

/-- Attributes that a tag ends behind: they do not go on with its name, every quote is closed, `>` stands in
    quotes only, and there is no slash at the end of a tag that does not close itself. -/
structure AreTagAttributes (selfClosing : Bool) (s : List Char) : Prop where
  head : s.head?.all (!isMarkupNameChar ·) = true
  quotes : openQuote none s = some none
  last : selfClosing = false → s.getLast? ≠ some '/'

instance (selfClosing : Bool) (s : List Char) : Decidable (AreTagAttributes selfClosing s) :=
  decidable_of_iff (s.head?.all (!isMarkupNameChar ·) = true ∧ openQuote none s = some none ∧
      (selfClosing = false → s.getLast? ≠ some '/'))
    ⟨fun h => ⟨h.1, h.2.1, h.2.2⟩, fun h => ⟨h.head, h.quotes, h.last⟩⟩

theorem areTagAttributes_of_isBlank {blanks : List Char} (h : blanks.all isBlank = true) :
    AreTagAttributes false blanks where
  head := by
    cases blanks with
    | nil => rfl
    | cons c blanks =>
      have hc : isBlank c = true := List.all_eq_true.mp h c List.mem_cons_self
      have hname : isMarkupNameChar c = false :=
        Bool.eq_false_iff.mpr fun hname => Bool.noConfusion (hc.symm.trans (isBlank_of_isMarkupNameChar hname))
      simp [hname]
  quotes := openQuote_plain fun c hc =>
    ⟨fun e => not_mem_of_isBlank (c := '>') rfl h (e ▸ hc), fun e => not_mem_of_isBlank (c := '\x22') rfl h (e ▸ hc),
      fun e => not_mem_of_isBlank (c := '\x27') rfl h (e ▸ hc)⟩
  last := fun _ hlast => not_mem_of_isBlank (c := '/') rfl h (List.mem_of_getLast? hlast)

theorem takeAttributes_end {selfClosing : Bool} {attributes : List Char} (h : AreTagAttributes selfClosing attributes)
    (rest : List Char) :
    takeAttributes none (attributes ++ ((if selfClosing then ['/'] else []) ++ '>' :: rest)) =
      some (attributes, selfClosing, rest) := by
  cases selfClosing with
  | false =>
    rw [takeAttributes_of_open h.quotes fun hlast => absurd hlast (h.last rfl)]
    simp [takeAttributes, before]
  | true =>
    rw [takeAttributes_of_open h.quotes fun _ => by simp]
    simp [takeAttributes, before]

/-! ## Tags and comments -/

def isElementName : List Char → Bool
  | [] => false
  | c :: r => c.isAlpha && r.all isMarkupNameChar

theorem tagOrComment?_tag (closing : Bool) {name : List Char} (hname : isElementName name = true) {selfClosing : Bool}
    {attributes : List Char} (h : AreTagAttributes selfClosing attributes) (rest : List Char) :
    tagOrComment? ((MarkupPiece.tag closing name attributes selfClosing).text ++ rest) =
      some (.tag closing name attributes selfClosing, rest) := by
  obtain ⟨c, r, rfl⟩ : ∃ c r, name = c :: r := List.exists_cons_of_ne_nil (by rintro rfl; cases hname)
  obtain ⟨hc, hr⟩ := (Bool.and_eq_true _ _).mp hname
  have hne : c ≠ '!' ∧ c ≠ '/' := by
    constructor <;> rintro rfl <;> exact absurd hc (by decide)
  have hall : ∀ d ∈ c :: r, isMarkupNameChar d = true :=
    List.forall_mem_cons.mpr ⟨by rw [isMarkupNameChar, Char.isAlphanum, hc]; rfl, List.all_eq_true.mp hr⟩
  have hends : (attributes ++ ((if selfClosing then ['/'] else []) ++ '>' :: rest)).head?.all
      (!isMarkupNameChar ·) = true := by
    have hhead := h.head
    cases attributes with
    | nil => cases selfClosing <;> rfl
    | cons d attributes => exact hhead
  obtain ⟨htake, hdrop⟩ := takeWhile_append_of_head hall hends
  have hbody : tagBody? closing (c :: (r ++ (attributes ++ ((if selfClosing then ['/'] else []) ++ '>' :: rest)))) =
      some (.tag closing (c :: r) attributes selfClosing, rest) := by
    unfold tagBody?
    simp only [hc, if_true]
    rw [← List.cons_append, htake, hdrop, takeAttributes_end h]
    rfl
  have hopen : "<!--".toList = ['<', '!', '-', '-'] := by decide
  unfold tagOrComment?
  cases closing with
  | false =>
    have hcut : (MarkupPiece.tag false (c :: r) attributes selfClosing).text ++ rest =
        '<' :: c :: (r ++ (attributes ++ ((if selfClosing then ['/'] else []) ++ '>' :: rest))) := by
      simp [MarkupPiece.text]
    rw [hcut, hopen, rest?_cons_self, rest?_of_ne (Ne.symm hne.1), Option.bind_none]
    split
    · rename_i e
      cases e
    · split
      · rename_i e
        exact absurd (List.cons.inj (List.cons.inj e).2).1 hne.2
      · rename_i e
        rw [← (List.cons.inj e).2, hbody]
      · rename_i hno
        exact absurd rfl (hno _)
  | true =>
    have hcut : (MarkupPiece.tag true (c :: r) attributes selfClosing).text ++ rest =
        '<' :: '/' :: c :: (r ++ (attributes ++ ((if selfClosing then ['/'] else []) ++ '>' :: rest))) := by
      simp [MarkupPiece.text]
    rw [hcut, hopen, rest?_cons_self, rest?_of_ne (by decide), Option.bind_none]
    exact hbody

/-- A comment ends with the first mark behind it that ends one. -/
theorem tagOrComment?_comment {body : List Char} (h : Lacks "-->".toList body) (rest : List Char) :
    tagOrComment? ((MarkupPiece.comment body).text ++ rest) = some (.comment body, rest) := by
  have hmark : "-->".toList = ['-', '-'] ++ ['>'] := by decide
  have hcut : (MarkupPiece.comment body).text ++ rest = "<!--".toList ++ (body ++ ("-->".toList ++ rest)) := by
    simp [MarkupPiece.text]
  rw [hmark] at h
  have hbody : (rest? "<!--".toList ("<!--".toList ++ (body ++ ("-->".toList ++ rest)))).bind (breakOn "-->".toList) =
      some (body, rest) := by
    rw [rest?_append, hmark]
    exact breakOn_of_lacks (by decide) h rest
  unfold tagOrComment?
  rw [hcut, hbody]

theorem tagOrComment?_of_ne {c : Char} (h : c ≠ '<') (r : List Char) : tagOrComment? (c :: r) = none := by
  have hopen : "<!--".toList = ['<', '!', '-', '-'] := by decide
  unfold tagOrComment?
  rw [hopen, rest?_of_ne (Ne.symm h), Option.bind_none]
  split
  · rename_i e
    cases e
  · split
    · rename_i e
      exact absurd (List.cons.inj e).1 h
    · rename_i e
      exact absurd (List.cons.inj e).1 h
    · rfl

end Style

end ComponentSite
