/-
  ComponentSite.Proofs.TemplateTags — the tags that composing a page writes, read again.

  Three tags stand in the templates of a page: the use of a content, the insertion point
  of a fragment, which is opened and closed at once, and the raw block around a script or
  style. Each is read as what it was written for (`tag?_use`, `tag?_opening`,
  `tag?_closing`, `rawOpening?_raw`): no reading that is tried before fits its mark,
  and behind a plain name the closing braces are no argument.
-/
import ComponentSite.Proofs.ClassName
import ComponentSite.Template.Read
import Mathlib.Data.List.TakeWhile

namespace ComponentSite.Template
open Text

def nameCall (name : String) : Call := ⟨⟨name, none⟩, [], [], []⟩

/-! ## What a text does not start with -/

theorem skipSpace_of_not {c : Char} (h : isTagSpace c = false) (r : List Char) : skipSpace (c :: r) = c :: r := by
  simp [skipSpace, h]

theorem word?_of_not {p : Char → Bool} {c : Char} (h : p c = false) (r : List Char) : word? p (c :: r) = none := by
  simp [word?, h]

theorem reference?_of_not {c : Char} (h : isNameChar c = false) (hc : c ≠ '@' ∧ c ≠ '.' ∧ c ≠ '[') (r : List Char) :
    reference? (c :: r) = none := by
  have ht : c ≠ 't' := by
    rintro rfl
    exact absurd h (by decide)
  have hskip : skipOne ["this/", "this.", "./"] (c :: r) = c :: r := by
    have h1 : "this/".toList = 't' :: "his/".toList := by decide
    have h2 : "this.".toList = 't' :: "his.".toList := by decide
    have h3 : "./".toList = '.' :: "/".toList := by decide
    simp only [skipOne, List.findSome?, h1, h2, h3, rest?_of_ne (Ne.symm ht), rest?_of_ne (Ne.symm hc.2.1)]
    rfl
  have hroot : rest? "@root".toList (c :: r) = none := by
    have h1 : "@root".toList = '@' :: "root".toList := by decide
    rw [h1, rest?_of_ne (Ne.symm hc.1)]
  have hkey : key? (c :: r) = none := by
    unfold key?
    split
    · rename_i e
      exact absurd (List.cons.inj e).1 hc.2.2
    · rw [word?_of_not h]
      rfl
  have hups : ups (c :: r).length (c :: r) = (0, c :: r) := by
    have h1 : "..".toList = '.' :: ".".toList := by decide
    rw [List.length_cons, ups, h1, rest?_of_ne (Ne.symm hc.2.1)]
    rfl
  unfold reference?
  simp only [hskip, hroot]
  split
  · rename_i e
    exact absurd (List.cons.inj e).1 hc.1
  · simp only [Option.bind_none, hups, hkey]
    rfl

theorem valueCall?_of_not {c : Char} (h : isNameChar c = false) (hc : c ≠ '@' ∧ c ≠ '.' ∧ c ≠ '[') (hp : c ≠ '(')
    (r : List Char) : valueCall? (c :: r) = none := by
  have hparens : inParens? (nesting (c :: r)) (c :: r) = none := by
    rw [show nesting (c :: r) = (4 * (c :: r).length + 3) + 1 from rfl, inParens?]
    intro r' e
    exact hp (List.cons.inj e).1
  have hbare : bareCall? (c :: r) = none := by
    unfold bareCall?
    simp only [hparens, reference?_of_not h hc]
    rfl
  unfold valueCall?
  simp only [word?_of_not h, hbare]
  rfl

theorem tilde_of_not {c : Char} (h : isTagSpace c = false) (ht : c ≠ '~') (r : List Char) :
    tilde (c :: r) = (false, c :: r) := by
  unfold tilde
  rw [skipSpace_of_not h]
  split
  · rename_i e
    exact absurd (List.cons.inj e).1 ht
  · rfl

section Marked

variable {α : Type} {m c : Char} {mark : String} (hmark : mark.toList = [m])
    (inner? : List Char → Option (α × List Char))
include hmark

theorem marked?_of_ne (h : m ≠ c) (r : List Char) : marked? mark inner? (c :: r) = none := by
  unfold marked?
  rw [hmark, rest?_of_ne h]
  rfl

theorem marked?_self (r : List Char) : marked? mark inner? (m :: r) = inner? (skipSpace r) := by
  unfold marked?
  rw [hmark, rest?, if_pos (beq_self_eq_true m), rest?]
  rfl

end Marked

/-! ## Closing braces end the arguments -/

section Close

variable (r : List Char)

theorem literalEnd?_close : literalEnd? ('\x7d' :: r) = none := by
  have h1 : "null".toList = 'n' :: "ull".toList := by decide
  have h2 : "true".toList = 't' :: "rue".toList := by decide
  have h3 : "false".toList = 'f' :: "alse".toList := by decide
  have hconst : afterConstant? "null" ('\x7d' :: r) = none ∧ afterConstant? "true" ('\x7d' :: r) = none ∧
      afterConstant? "false" ('\x7d' :: r) = none := by
    unfold afterConstant?
    rw [h1, h2, h3, rest?_of_ne (by decide), rest?_of_ne (by decide), rest?_of_ne (by decide)]
    exact ⟨rfl, rfl, rfl⟩
  have hnumber : afterNumber? ('\x7d' :: r) = none := by
    have hword : word? Char.isDigit ('\x7d' :: r) = none := word?_of_not (by decide) r
    unfold afterNumber?
    split
    · rename_i e
      cases e
    · simp only [hword]
      rfl
  unfold literalEnd?
  rw [afterLiteral?]
  · rw [hnumber, hconst.1, hconst.2.1, hconst.2.2]
    rfl
  · intro s e
    cases e
  · intro s e
    cases e

theorem isKeyword_close : isKeyword ('\x7d' :: r) = false := by
  have h1 : "as".toList = ['a', 's'] := by decide
  have h2 : "else".toList = ['e', 'l', 's', 'e'] := by decide
  unfold isKeyword
  simp only [h1, h2]
  rw [rest?_of_ne (by decide), rest?_of_ne (by decide)]
  rfl

theorem param?_close (fuel : Nat) : param? fuel ('\x7d' :: r) = none := by
  cases fuel with
  | zero => rfl
  | succ fuel =>
    rw [param?, isKeyword_close, literalEnd?_close, reference?_of_not (by decide) (by decide)]
    cases fuel with
    | zero => rfl
    | succ fuel => rfl

theorem arguments_close (fuel : Nat) : arguments fuel ('\x7d' :: r) = ([], '\x7d' :: r) := by
  cases fuel with
  | zero => rfl
  | succ fuel =>
    have : argument? fuel ('\x7d' :: r) = none := by
      cases fuel with
      | zero => rfl
      | succ fuel =>
        rw [argument?, skipSpace_of_not (by decide)]
        rw [word?_of_not (by decide), param?_close]
        rfl
    rw [arguments, this]

theorem binds?_close : binds? ('\x7d' :: r) = none := by
  have h : "as".toList = ['a', 's'] := by decide
  unfold binds? token?
  rw [skipSpace_of_not (by decide), h, rest?_of_ne (by decide)]
  rfl

def inBraces (s : List Char) : List Char := '\x7b' :: '\x7b' :: s

theorem rest?_inBraces (s : List Char) : rest? openBraces.toList (inBraces s) = some s := by
  have h : openBraces.toList = ['\x7b', '\x7b'] := by decide
  rw [h]
  rfl

theorem token?_close : token? closeBraces ('\x7d' :: '\x7d' :: r) = some r := by
  have h : closeBraces.toList = ['\x7d', '\x7d'] := by decide
  rw [token?, skipSpace_of_not (by decide), h]
  rfl

theorem between?_inBraces {α : Type} {inner? : List Char → Option (α × List Char)} {c : Char}
    (hc : isTagSpace c = false) (ht : c ≠ '~') {s : List Char} {a : α}
    (h : inner? (c :: s) = some (a, '\x7d' :: '\x7d' :: r)) :
    between? openBraces closeBraces inner? (inBraces (c :: s)) = some (a, ⟨false, false⟩, r) := by
  unfold between?
  simp only [rest?_inBraces, Option.bind_eq_bind, Option.bind_some, tilde_of_not hc ht, skipSpace_of_not hc, h]
  rw [tilde_of_not (by decide) (by decide)]
  simp only [token?_close, Option.bind_some]
  rfl

theorem between?_eq_none {α : Type} {inner? : List Char → Option (α × List Char)} {c : Char}
    (hc : isTagSpace c = false) (ht : c ≠ '~') {s : List Char} (h : inner? (c :: s) = none) :
    between? openBraces closeBraces inner? (inBraces (c :: s)) = none := by
  unfold between?
  simp only [rest?_inBraces, Option.bind_eq_bind, Option.bind_some, tilde_of_not hc ht, skipSpace_of_not hc, h]
  rfl

end Close

/-! ## Plain names -/

section Plain

open Style (isMarkupNameChar)

theorem isPlainNameChar_of_isMarkupNameChar {c : Char} (h : isMarkupNameChar c = true) : isPlainNameChar c = true := by
  simp only [isMarkupNameChar, isPlainNameChar, Bool.or_eq_true] at h ⊢
  rcases h with h | h
  · exact Or.inl (Or.inl (Or.inl h))
  · exact Or.inl (Or.inr h)

theorem word?_append {p : Char → Bool} {name : List Char} (hne : name ≠ []) (hp : ∀ c ∈ name, p c = true) {c : Char}
    (hc : p c = false) (r : List Char) : word? p (name ++ c :: r) = some (name, c :: r) := by
  obtain ⟨htake, hdrop⟩ := takeWhile_append_of_head hp (t := c :: r) (by simp [hc])
  unfold word?
  rw [htake, hdrop]
  simp [hne]

variable {name : List Char} (hne : name ≠ []) (h : IsPlain name)
include h

theorem isTemplateNameChar_of_mem {c : Char} (hc : c ∈ name) : isTemplateNameChar c = true := by
  simp [isTemplateNameChar, isPlainNameChar_of_isMarkupNameChar (h c hc)]

theorem skipSpace_plain (r : List Char) : skipSpace (name ++ '\x7d' :: r) = name ++ '\x7d' :: r := by
  cases name with
  | nil => exact skipSpace_of_not (by decide) r
  | cons c name =>
    refine skipSpace_of_not ?_ (name ++ '\x7d' :: r)
    have hc := h c List.mem_cons_self
    cases hs : isTagSpace c with
    | false => rfl
    | true =>
      simp only [isTagSpace, Bool.or_eq_true, beq_iff_eq] at hs
      rcases hs with ((rfl | rfl) | rfl) | rfl <;> exact absurd hc (by decide)

theorem skipSpace_space_plain (r : List Char) : skipSpace (' ' :: (name ++ '\x7d' :: r)) = name ++ '\x7d' :: r := by
  rw [show skipSpace (' ' :: (name ++ '\x7d' :: r)) = skipSpace (name ++ '\x7d' :: r) from rfl, skipSpace_plain h r]

include hne

theorem partialCall?_plain (r : List Char) :
    partialCall? (name ++ '\x7d' :: r) = some (nameCall (String.ofList name), '\x7d' :: r) := by
  unfold partialCall? templateName?
  rw [word?_append hne (fun _ => isTemplateNameChar_of_mem h) (by decide)]
  simp only [Option.bind_eq_bind]
  show (some (_, '\x7d' :: r)).bind _ = _
  simp only [Option.bind_some, arguments_close]
  rfl

theorem closingName?_plain (r : List Char) : closingName? (name ++ '\x7d' :: r) = some (name, '\x7d' :: r) := by
  have hchars : ∀ c ∈ name, (isNameChar c || isTemplateNameChar c) = true := fun c hc => by
    rw [isTemplateNameChar_of_mem h hc, Bool.or_true]
  unfold closingName?
  rw [word?_append hne hchars (by decide)]
  rfl

theorem isTemplateName_plain : isTemplateName name = true := by
  have hword : word? isTemplateNameChar name = some (name, []) := by
    have hchars : ∀ c ∈ name, isTemplateNameChar c = true := fun _ => isTemplateNameChar_of_mem h
    unfold word?
    rw [List.takeWhile_eq_self_iff.mpr hchars, List.dropWhile_eq_nil_iff.mpr hchars]
    simp [hne]
  unfold isTemplateName templateName?
  rw [hword]
  rfl

end Plain

/-! ## The marks of a use, an opening and a closing -/

def IsMark (c : Char) : Prop := c = '>' ∨ c = '#' ∨ c = '/'

theorem IsMark.not_space {c : Char} (h : IsMark c) : isTagSpace c = false := by
  rcases h with rfl | rfl | rfl <;> rfl

theorem IsMark.ne {c d : Char} (h : IsMark c) (hd : d ≠ '>' ∧ d ≠ '#' ∧ d ≠ '/') : d ≠ c := by
  rcases h with rfl | rfl | rfl
  · exact hd.1
  · exact hd.2.1
  · exact hd.2.2

section Mark

variable {c : Char} (h : IsMark c) (s : List Char)
include h

theorem comment?_mark : comment? (inBraces (c :: s)) = none := by
  have hm : (openBraces ++ "!").toList = ['\x7b', '\x7b', '!'] := by decide
  have : rest? (openBraces ++ "!").toList (inBraces (c :: s)) = none := by
    rw [hm]
    exact rest?_of_ne (h.ne (by decide)) [] s
  unfold comment?
  rw [this]
  rfl

theorem else?_mark : else? (c :: s) = none := by
  have hm : "else".toList = 'e' :: "lse".toList := by decide
  unfold else?
  rw [hm, rest?_of_ne (h.ne (by decide)), rest?_of_ne (h.ne (by decide))]
  rfl

theorem valueCall?_mark : valueCall? (c :: s) = none := by
  rcases h with rfl | rfl | rfl <;> exact valueCall?_of_not (by decide) (by decide) (by decide) s

theorem plainValue?_mark : plainValue? (inBraces (c :: s)) = none := by
  have hspace := h.not_space
  have htilde : c ≠ '~' := (h.ne (by decide)).symm
  have hthree : between? "\x7b\x7b\x7b" "\x7d\x7d\x7d" valueCall? (inBraces (c :: s)) = none := by
    have hm : "\x7b\x7b\x7b".toList = ['\x7b', '\x7b', '\x7b'] := by decide
    have : rest? "\x7b\x7b\x7b".toList (inBraces (c :: s)) = none := by
      rw [hm]
      exact rest?_of_ne (h.ne (by decide)) [] s
    unfold between?
    rw [this]
    rfl
  have hbrace : ∀ inner? : List Char → Option (Call × List Char), marked? "\x7b" inner? (c :: s) = none := fun inner? =>
    marked?_of_ne (m := '\x7b') (by decide) inner? (h.ne (by decide)) s
  have hand : ∀ inner? : List Char → Option (Call × List Char), marked? "&" inner? (c :: s) = none := fun inner? =>
    marked?_of_ne (m := '&') (by decide) inner? (h.ne (by decide)) s
  unfold plainValue?
  simp only [hthree, between?_eq_none hspace htilde (hbrace _), between?_eq_none hspace htilde (hand _)]
  rfl

/-- A marked tag is none of those that are tried first. -/
theorem tag?_mark : tag? (inBraces (c :: s)) =
    let inside (inner? : List Char → Option (Tag × List Char)) : Option (Tag × Tildes × List Char) :=
      between? openBraces closeBraces inner? (inBraces (c :: s))
    let call (mark : String) (call? : List Char → Option (Call × List Char)) (tag : Call → Tag) (r : List Char) :
        Option (Tag × List Char) := (marked? mark call? r).map fun (c, r) => (tag c, r)
    inside (marked? "#" (call "*" blockCall? (.openBlock .decorator)))
      <|> inside (marked? "#" (call ">" partialCall? (.openBlock .partialUse)))
      <|> inside (call "#" blockCall? (.openBlock .helper))
      <|> inside (call "*" blockCall? .decorator)
      <|> inside (call ">" partialCall? .partialUse)
      <|> inside (fun r => (marked? "/" closingName? r).map fun (w, r) => (.close (String.ofList w), r)) := by
  have hspace := h.not_space
  have htilde : c ≠ '~' := (h.ne (by decide)).symm
  unfold tag?
  simp only [comment?_mark h, plainValue?_mark h]
  rw [between?_eq_none hspace htilde (by rw [else?_mark h]; rfl),
    between?_eq_none hspace htilde (by rw [valueCall?_mark h]; rfl)]
  rfl

end Mark

/-! ## The tags -/

def useTag (name : List Char) : List Char := '\x7b' :: '\x7b' :: '>' :: ' ' :: name ++ ['\x7d', '\x7d']

def openingTag (name : List Char) : List Char := '\x7b' :: '\x7b' :: '#' :: '>' :: ' ' :: name ++ ['\x7d', '\x7d']

def closingTag (name : List Char) : List Char := '\x7b' :: '\x7b' :: '/' :: name ++ ['\x7d', '\x7d']

section Tags

variable {name : List Char} (hne : name ≠ []) (h : IsPlain name) (r : List Char)
include hne h

theorem tag?_use : tag? (useTag name ++ r) = some (.partialUse (nameCall (String.ofList name)), ⟨false, false⟩, r) := by
  have hcut : useTag name ++ r = inBraces ('>' :: ' ' :: (name ++ '\x7d' :: '\x7d' :: r)) := by simp [useTag, inBraces]
  have hmark : marked? ">" partialCall? ('>' :: ' ' :: (name ++ '\x7d' :: '\x7d' :: r)) =
      some (nameCall (String.ofList name), '\x7d' :: '\x7d' :: r) := by
    rw [marked?_self (m := '>') (by decide), skipSpace_space_plain h, partialCall?_plain hne h]
  have hother : ∀ {m : Char} {mark : String} {α : Type} (inner? : List Char → Option (α × List Char)),
      mark.toList = [m] →
      m ≠ '>' → marked? mark inner? ('>' :: ' ' :: (name ++ '\x7d' :: '\x7d' :: r)) = none :=
    fun inner? hm hne => marked?_of_ne hm inner? hne _
  rw [hcut, tag?_mark (Or.inl rfl)]
  simp only
  rw [between?_eq_none (by decide) (by decide) (hother (m := '#') _ (by decide) (by decide)),
    between?_eq_none (by decide) (by decide) (hother (m := '#') _ (by decide) (by decide)),
    between?_eq_none (by decide) (by decide) (by rw [hother (m := '#') _ (by decide) (by decide)]; rfl),
    between?_eq_none (by decide) (by decide) (by rw [hother (m := '*') _ (by decide) (by decide)]; rfl),
    between?_inBraces r (by decide) (by decide) (by rw [hmark]; rfl)]
  rfl

theorem tag?_opening :
    tag? (openingTag name ++ r) = some (.openBlock .partialUse (nameCall (String.ofList name)), ⟨false, false⟩, r) := by
  have hcut : openingTag name ++ r = inBraces ('#' :: '>' :: ' ' :: (name ++ '\x7d' :: '\x7d' :: r)) := by
    simp [openingTag, inBraces]
  have hmark : marked? ">" partialCall? ('>' :: ' ' :: (name ++ '\x7d' :: '\x7d' :: r)) =
      some (nameCall (String.ofList name), '\x7d' :: '\x7d' :: r) := by
    rw [marked?_self (m := '>') (by decide), skipSpace_space_plain h, partialCall?_plain hne h]
  have hstar : ∀ inner? : List Char → Option (Call × List Char),
      marked? "*" inner? ('>' :: ' ' :: (name ++ '\x7d' :: '\x7d' :: r)) = none := fun inner? =>
    marked?_of_ne (m := '*') (by decide) inner? (by decide) _
  have hhash : ∀ inner? : List Char → Option (Tag × List Char),
      marked? "#" inner? ('#' :: '>' :: ' ' :: (name ++ '\x7d' :: '\x7d' :: r)) =
        inner? ('>' :: ' ' :: (name ++ '\x7d' :: '\x7d' :: r)) := fun inner? => by
    rw [marked?_self (m := '#') (by decide), skipSpace_of_not (by decide)]
  rw [hcut, tag?_mark (Or.inr (Or.inl rfl))]
  simp only
  rw [between?_eq_none (by decide) (by decide) (by rw [hhash, hstar]; rfl),
    between?_inBraces r (by decide) (by decide) (by rw [hhash, hmark]; rfl)]
  rfl

theorem tag?_closing : tag? (closingTag name ++ r) = some (.close (String.ofList name), ⟨false, false⟩, r) := by
  have hcut : closingTag name ++ r = inBraces ('/' :: (name ++ '\x7d' :: '\x7d' :: r)) := by simp [closingTag, inBraces]
  have hmark : marked? "/" closingName? ('/' :: (name ++ '\x7d' :: '\x7d' :: r)) =
      some (name, '\x7d' :: '\x7d' :: r) := by
    rw [marked?_self (m := '/') (by decide), skipSpace_plain h, closingName?_plain hne h]
  have hother : ∀ {m : Char} {mark : String} {α : Type} (inner? : List Char → Option (α × List Char)),
      mark.toList = [m] →
      m ≠ '/' → marked? mark inner? ('/' :: (name ++ '\x7d' :: '\x7d' :: r)) = none :=
    fun inner? hm hne => marked?_of_ne hm inner? hne _
  rw [hcut, tag?_mark (Or.inr (Or.inr rfl))]
  simp only
  rw [between?_eq_none (by decide) (by decide) (hother (m := '#') _ (by decide) (by decide)),
    between?_eq_none (by decide) (by decide) (hother (m := '#') _ (by decide) (by decide)),
    between?_eq_none (by decide) (by decide) (by rw [hother (m := '#') _ (by decide) (by decide)]; rfl),
    between?_eq_none (by decide) (by decide) (by rw [hother (m := '*') _ (by decide) (by decide)]; rfl),
    between?_eq_none (by decide) (by decide) (by rw [hother (m := '>') _ (by decide) (by decide)]; rfl),
    between?_inBraces r (by decide) (by decide) (by rw [hmark]; rfl)]
  rfl

end Tags

/-! ## Raw blocks -/

section Raw

def rawTag : List Char := "\x7b\x7b\x7b\x7braw\x7d\x7d\x7d\x7d".toList

def rawEndTag : List Char := "\x7b\x7b\x7b\x7b/raw\x7d\x7d\x7d\x7d".toList

variable (r : List Char)

theorem blockCall?_raw : blockCall? ('r' :: 'a' :: 'w' :: '\x7d' :: r) = some (nameCall "raw", '\x7d' :: r) := by
  have hword : word? isNameChar (['r', 'a', 'w'] ++ '\x7d' :: r) = some (['r', 'a', 'w'], '\x7d' :: r) :=
    word?_append (by decide) (List.all_eq_true.mp (by decide)) (by decide) r
  rw [List.cons_append, List.cons_append, List.cons_append, List.nil_append] at hword
  unfold blockCall?
  simp only [hword, Option.bind_eq_bind, Option.bind_some, arguments_close, binds?_close]
  rfl

theorem rawOpening?_raw : rawOpening? (rawTag ++ r) = some (nameCall "raw", ⟨false, false⟩, r) := by
  have ho : "\x7b\x7b\x7b\x7b".toList = ['\x7b', '\x7b', '\x7b', '\x7b'] := by decide
  have hc : "\x7d\x7d\x7d\x7d".toList = ['\x7d', '\x7d', '\x7d', '\x7d'] := by decide
  have htag : rawTag = ['\x7b', '\x7b', '\x7b', '\x7b', 'r', 'a', 'w', '\x7d', '\x7d', '\x7d', '\x7d'] := by decide
  have hopen : rest? "\x7b\x7b\x7b\x7b".toList (rawTag ++ r) =
      some ('r' :: 'a' :: 'w' :: '\x7d' :: '\x7d' :: '\x7d' :: '\x7d' :: r) := by
    rw [htag, ho]
    rfl
  have hclose : token? "\x7d\x7d\x7d\x7d" ('\x7d' :: '\x7d' :: '\x7d' :: '\x7d' :: r) = some r := by
    rw [token?, skipSpace_of_not (by decide), hc]
    rfl
  unfold rawOpening? between?
  simp only [hopen, Option.bind_eq_bind, Option.bind_some]
  rw [tilde_of_not (by decide) (by decide)]
  simp only [skipSpace_of_not (c := 'r') (by decide), blockCall?_raw, Option.bind_some]
  rw [tilde_of_not (by decide) (by decide)]
  simp only [hclose, Option.bind_some]
  rfl

theorem rawClosing?_raw : rawClosing? rawEndTag = some ("raw", ⟨false, false⟩, []) := by
  decide +kernel

/-- The tags of names open no raw block. -/
theorem rawOpening?_mark {c : Char} (h : IsMark c) : rawOpening? (inBraces (c :: r)) = none := by
  have ho : "\x7b\x7b\x7b\x7b".toList = ['\x7b', '\x7b', '\x7b', '\x7b'] := by decide
  have : rest? "\x7b\x7b\x7b\x7b".toList (inBraces (c :: r)) = none := by
    rw [ho]
    exact rest?_of_ne (h.ne (by decide)) _ r
  unfold rawOpening? between?
  rw [this]
  rfl

end Raw

end ComponentSite.Template
