/-
  ComponentSite.Proofs.ImportLine — an import line is read as it was written.

  A line is an import clause and a path in quotes, with white space around them and a
  semicolon and a comment behind them. The clause is a run of bindings with commas and braces
  between them, in any grouping. It holds no quote, so the first `from` with a quote behind it is
  the one that was written, whatever the names and the comment are (`splitClause_append`), and
  what its marks divide is its bindings (`items_text`). So the line imports its path and the
  component names that it binds, or it binds none and is refused (`scan_written`).
-/
import ComponentSite.Imports
import ComponentSite.Proofs.Occurrences
import Mathlib.Data.List.TakeWhile

namespace ComponentSite.Imports
open Text

/-! ## Lines -/

def isClauseMark (c : Char) : Bool := c == ',' || c == '\x7b' || c == '\x7d'

def divides (c : Char) : Bool := isBlank c || isClauseMark c

/-- Nothing that divides a clause or ends it. -/
def IsIdentifier (name : List Char) : Prop := name ≠ [] ∧ ∀ c ∈ name, divides c = false ∧ isQuote c = false

instance (name : List Char) : Decidable (IsIdentifier name) :=
  decidable_of_iff (name ≠ [] ∧ (name.all fun c => !divides c && !isQuote c) = true) (by simp [IsIdentifier])

inductive Binding
  | plain (name : List Char)
  | renamed (name bound : List Char)
  deriving DecidableEq, Repr

namespace Binding

def text : Binding → List Char
  | plain name => name
  | renamed name bound => name ++ " as ".toList ++ bound

def bound : Binding → List Char
  | plain name => name
  | renamed _ bound => bound

def IsSound : Binding → Prop
  | plain name => IsIdentifier name
  | renamed name bound => IsIdentifier name ∧ IsIdentifier bound

instance decidableIsSound : (b : Binding) → Decidable b.IsSound
  | plain name => inferInstanceAs (Decidable (IsIdentifier name))
  | renamed _ _ => inferInstanceAs (Decidable (_ ∧ _))

end Binding

structure Clause where
  lead : List Char
  bindings : List (Binding × List Char)
  deriving DecidableEq, Repr

namespace Clause

def textOf (bindings : List (Binding × List Char)) : List Char := bindings.flatMap fun b => b.1.text ++ b.2

def text (c : Clause) : List Char := c.lead ++ textOf c.bindings

def names (c : Clause) : List String :=
  ((c.bindings.map (·.1.bound)).filter isComponentName).map String.ofList

/-- Two bindings have a mark between them. White space at the ends belongs to the line. -/
structure WellFormed (c : Clause) : Prop where
  sound : ∀ b ∈ c.bindings, b.1.IsSound
  lead : c.lead.all divides = true
  behind : ∀ b ∈ c.bindings, b.2.all divides = true
  apart : ∀ b ∈ c.bindings.dropLast, b.2.any isClauseMark = true
  head : c.text.head?.any (!isBlank ·) = true
  last : c.text.getLast?.any (!isBlank ·) = true

end Clause

inductive LineComment
  | none
  | line (text : List Char)
  | block (text blanks : List Char)
  deriving DecidableEq, Repr

def LineComment.text : LineComment → List Char
  | none => []
  | line text => '/' :: '/' :: text
  | block text blanks => '/' :: '*' :: text ++ "*/".toList ++ blanks

def LineComment.blanks : LineComment → List Char
  | block _ blanks => blanks
  | _ => []

structure ImportLine where
  indent : List Char := []
  afterImport : List Char := [' ']
  clause : Clause
  beforeFrom : List Char := [' ']
  afterFrom : List Char := [' ']
  quote : Char
  path : List Char
  afterPath : List Char := []
  semicolon : Bool
  beforeComment : List Char := []
  comment : LineComment := .none
  deriving DecidableEq, Repr

namespace ImportLine

def tail (l : ImportLine) : List Char :=
  l.afterPath ++ (if l.semicolon then [';'] else []) ++ l.beforeComment ++ l.comment.text

def text (l : ImportLine) : List Char :=
  l.indent ++ "import".toList ++ l.afterImport ++ l.clause.text ++ l.beforeFrom ++ "from".toList ++ l.afterFrom ++
    l.quote :: l.path ++ l.quote :: l.tail

structure WellFormed (l : ImportLine) : Prop where
  clause : l.clause.WellFormed
  blanks : (l.indent ++ l.afterImport ++ l.beforeFrom ++ l.afterFrom ++ l.afterPath ++ l.beforeComment ++
    l.comment.blanks).all isBlank = true
  apart : l.afterImport ≠ [] ∧ l.beforeFrom ≠ [] ∧ l.afterFrom ≠ []
  quote : isQuote l.quote = true
  path : l.path ≠ [] ∧ ∀ c ∈ l.path, isQuote c = false
  oneLine : '\n' ∉ l.text

end ImportLine

/-! ## The path -/

section
variable {blanks : List Char} (h : blanks.all isBlank = true)
include h

theorem trimStart_blanks (s : List Char) : trimStart (blanks ++ s) = trimStart s :=
  List.dropWhile_append_of_pos (List.all_eq_true.mp h)

theorem trimEnd_blanks (s : List Char) : trimEnd (s ++ blanks) = trimEnd s := by
  have hreverse : ∀ c ∈ blanks.reverse, isBlank c = true :=
    fun c hc => List.all_eq_true.mp h c (List.mem_reverse.mp hc)
  rw [trimEnd, List.reverse_append, List.dropWhile_append_of_pos hreverse, trimEnd]

theorem afterBlank?_blanks (hne : blanks ≠ []) (s : List Char) : afterBlank? (blanks ++ s) = some (trimStart s) := by
  obtain ⟨c, r, rfl⟩ := List.exists_cons_of_ne_nil hne
  obtain ⟨hc, hr⟩ := (Bool.and_eq_true _ _).mp ((List.all_cons).symm.trans h)
  rw [List.cons_append, afterBlank?, if_pos hc, trimStart_blanks hr]

end

theorem isBlank_of_isQuote {c : Char} (h : isQuote c = true) : isBlank c = false := by
  rcases (Bool.or_eq_true _ _).mp h with e | e <;> rw [eq_of_beq e] <;> rfl

theorem not_isQuote_of_isBlank {blanks : List Char} (h : blanks.all isBlank = true) :
    ∀ c ∈ blanks, (!isQuote c) = true := by
  intro c hc
  cases hquote : isQuote c with
  | false => rfl
  | true => exact absurd hc (not_mem_of_isBlank (isBlank_of_isQuote hquote) h)

theorem trimStart_of_head {s : List Char} (h : s.head?.any (!isBlank ·) = true) : trimStart s = s := by
  cases s with
  | nil => cases h
  | cons c s => exact trimStart_cons_of_not_isBlank (by simpa using h) s

theorem trimEnd_of_last {s : List Char} (h : s.getLast?.any (!isBlank ·) = true) : trimEnd s = s := by
  have hreverse : s.reverse.head?.any (!isBlank ·) = true := by rwa [List.head?_reverse]
  have htrimmed : s.reverse.dropWhile isBlank = s.reverse := trimStart_of_head hreverse
  rw [trimEnd, htrimmed, List.reverse_reverse]

theorem exists_of_last {s : List Char} (h : s.getLast?.any (!isBlank ·) = true) : ∃ c ∈ s, isBlank c = false := by
  cases hlast : s.getLast? with
  | none =>
    rw [hlast] at h
    cases h
  | some c =>
    rw [hlast] at h
    exact ⟨c, List.mem_of_getLast? hlast, by simpa using h⟩

/-- A comment that is closed ends its line, whatever it says. -/
theorem isClosingComment_text {comment : LineComment} (hblanks : comment.blanks.all isBlank = true)
    (hne : comment ≠ .none) : isClosingComment comment.text = true := by
  cases comment with
  | none => exact absurd rfl hne
  | line text => rfl
  | block text blanks =>
    have htrimmed : trimEnd (text ++ "*/".toList ++ blanks) = text ++ "*/".toList := by
      rw [trimEnd_blanks (show blanks.all isBlank = true from hblanks)]
      refine trimEnd_of_last ?_
      rw [List.getLast?_append_of_ne_nil _ (by decide)]
      rfl
    have hbody : LineComment.text (.block text blanks) = '/' :: '*' :: (text ++ "*/".toList ++ blanks) := by
      simp [LineComment.text]
    rw [hbody, isClosingComment, htrimmed, List.isSuffixOf_iff_suffix]
    exact List.suffix_append _ _

theorem endsLine_text {before after : List Char} {comment : LineComment} (semicolon : Bool)
    (hbefore : before.all isBlank = true) (hafter : after.all isBlank = true)
    (hcomment : comment.blanks.all isBlank = true) :
    endsLine (before ++ (if semicolon then [';'] else []) ++ after ++ comment.text) = true := by
  have hclosing : (trimStart (after ++ comment.text)).isEmpty = true ∨
      isClosingComment (trimStart (after ++ comment.text)) = true := by
    rw [trimStart_blanks hafter]
    cases hc : comment with
    | none => exact Or.inl rfl
    | line text => exact Or.inr rfl
    | block text blanks =>
      refine Or.inr ?_
      have htext := isClosingComment_text hcomment (by rw [hc]; exact LineComment.noConfusion)
      rwa [hc] at htext
  have hnone : ∀ c r, trimStart (after ++ comment.text) = c :: r → c ≠ ';' := by
    rw [trimStart_blanks hafter]
    rintro c r e rfl
    cases comment <;> cases e
  unfold endsLine
  rw [List.append_assoc, List.append_assoc, trimStart_blanks hbefore]
  cases semicolon with
  | true =>
    have hsemicolon : trimStart ([';'] ++ (after ++ comment.text)) = ';' :: (after ++ comment.text) :=
      trimStart_cons_of_not_isBlank rfl _
    simp only [if_true, hsemicolon, Bool.or_eq_true]
    exact hclosing
  | false =>
    simp only [Bool.false_eq_true, if_false, List.nil_append, Bool.or_eq_true]
    split
    · rename_i r e
      exact absurd rfl (hnone _ r e)
    · exact hclosing

theorem ImportLine.WellFormed.endsLine {l : ImportLine} (h : l.WellFormed) : endsLine l.tail = true := by
  have hblanks := h.blanks
  simp only [List.all_append, Bool.and_eq_true] at hblanks
  obtain ⟨⟨⟨-, hafter⟩, hbefore⟩, hcomment⟩ := hblanks
  exact endsLine_text l.semicolon hafter hbefore hcomment

theorem ImportLine.WellFormed.quotedPath? {l : ImportLine} (h : l.WellFormed) :
    quotedPath? (l.quote :: (l.path ++ l.quote :: l.tail)) = some l.path := by
  have hends : (l.quote :: l.tail).head?.all (fun c => !!isQuote c) = true := by simp [h.quote]
  have hpath : ∀ c ∈ l.path, (!isQuote c) = true := fun c hc => by rw [h.path.2 c hc]; rfl
  obtain ⟨htake, hdrop⟩ := takeWhile_append_of_head hpath hends
  have hne : l.path.isEmpty = false := List.isEmpty_eq_false_iff.mpr h.path.1
  simp only [Imports.quotedPath?, h.quote, if_true, htake, hdrop, hne, h.endsLine]
  rfl

/-! ## The clause ends where it was written -/

/-- What is read up to the first quote in front of a path. -/
theorem takeWhile_of_fromPath? {s path : List Char} (h : fromPath? s = some path) :
    ∃ blanks, blanks.all isBlank = true ∧ s.takeWhile (!isQuote ·) = "from".toList ++ blanks := by
  obtain ⟨s₁, h₁, h⟩ := Option.bind_eq_some_iff.mp h
  obtain ⟨s₂, h₂, h⟩ := Option.bind_eq_some_iff.mp h
  obtain ⟨q, r, rfl, hq⟩ : ∃ q r, s₂ = q :: r ∧ isQuote q = true := by
    cases s₂ with
    | nil => cases h
    | cons q r =>
      refine ⟨q, r, rfl, ?_⟩
      by_contra hq
      rw [Imports.quotedPath?, if_neg hq] at h
      cases h
  cases s₁ with
  | nil => cases h₂
  | cons c s₁ =>
    rw [afterBlank?] at h₂
    split at h₂
    · rename_i hc
      have htrimmed : trimStart s₁ = q :: r := Option.some.inj h₂
      have hs₁ : s₁ = s₁.takeWhile isBlank ++ q :: r := by
        rw [← htrimmed]
        exact List.takeWhile_append_dropWhile.symm
      have hblanks : (c :: s₁.takeWhile isBlank).all isBlank = true := by
        rw [List.all_cons, hc]
        exact List.all_takeWhile
      refine ⟨c :: s₁.takeWhile isBlank, hblanks, ?_⟩
      have hfree : ∀ d ∈ "from".toList ++ c :: s₁.takeWhile isBlank, (!isQuote d) = true :=
        List.forall_mem_append.mpr ⟨List.all_eq_true.mp (by decide), not_isQuote_of_isBlank hblanks⟩
      have hcut : s = ("from".toList ++ c :: s₁.takeWhile isBlank) ++ q :: r := by
        rw [rest?_eq_some h₁, List.append_assoc, List.cons_append, ← hs₁]
      rw [hcut]
      exact (takeWhile_append_of_head hfree (by simp [hq])).1
    · cases h₂

section
variable {before after rest path : List Char} {q : Char} (hbefore : before.all isBlank = true)
  (hafter : after.all isBlank = true) (hq : isQuote q = true)
include hbefore hafter hq

/-- No path is behind a text without quotes in which there is more than white space. -/
theorem fromPath?_append {y : List Char} (hy : ∀ c ∈ y, isQuote c = false) (hpos : ∃ c ∈ y, isBlank c = false) :
    fromPath? (y ++ (before ++ ("from".toList ++ (after ++ q :: rest)))) = none := by
  refine Option.eq_none_iff_forall_ne_some.mpr fun found hfound => ?_
  obtain ⟨blanks, hblanks, htake⟩ := takeWhile_of_fromPath? hfound
  have hfree : ∀ c ∈ y ++ (before ++ ("from".toList ++ after)), (!isQuote c) = true := by
    simp only [List.forall_mem_append]
    exact ⟨fun c hc => by rw [hy c hc]; rfl, not_isQuote_of_isBlank hbefore, List.all_eq_true.mp (by decide),
      not_isQuote_of_isBlank hafter⟩
  have hcut : y ++ (before ++ ("from".toList ++ (after ++ q :: rest))) =
      (y ++ (before ++ ("from".toList ++ after))) ++ q :: rest := by simp
  rw [hcut, (takeWhile_append_of_head hfree (by simp [hq])).1] at htake
  -- beside the word there would be another character that is no white space
  have hcount := congrArg (List.countP (!isBlank ·)) htake
  have hnone : ∀ {s : List Char}, s.all isBlank = true → s.countP (!isBlank ·) = 0 := by
    intro s hs
    exact List.countP_eq_zero.mpr fun c hc => by simp [List.all_eq_true.mp hs c hc]
  have hone : 0 < y.countP (!isBlank ·) := by
    obtain ⟨c, hc, hblank⟩ := hpos
    exact List.countP_pos_iff.mpr ⟨c, hc, by simp [hblank]⟩
  simp only [List.countP_append, hnone hbefore, hnone hafter, hnone hblanks] at hcount
  omega

/-- The clause ends where the white space, the word and the path come that were written. -/
theorem splitClause_append {clause : List Char} (hbeforeNe : before ≠ []) (hafterNe : after ≠ [])
    (hpath : Imports.quotedPath? (q :: rest) = some path) (hclause : ∀ c ∈ clause, isQuote c = false)
    (hlast : clause.getLast?.any (!isBlank ·) = true) :
    splitClause (clause ++ (before ++ ("from".toList ++ (after ++ q :: rest)))) = some (clause, path) := by
  induction clause with
  | nil => cases hlast
  | cons c clause ih =>
    rw [List.cons_append, splitClause]
    cases clause with
    | nil =>
      have hquote : trimStart (q :: rest) = q :: rest := trimStart_cons_of_not_isBlank (isBlank_of_isQuote hq) rest
      have hfrom : fromPath? ("from".toList ++ (after ++ q :: rest)) = some path := by
        rw [fromPath?, rest?_append, Option.bind_eq_bind, Option.bind_some, afterBlank?_blanks hafter hafterNe,
          hquote]
        exact hpath
      have hword : trimStart ("from".toList ++ (after ++ q :: rest)) = "from".toList ++ (after ++ q :: rest) :=
        trimStart_of_head (by rfl)
      rw [List.nil_append, afterBlank?_blanks hbefore hbeforeNe, hword, Option.bind_some, hfrom]
    | cons d clause =>
      obtain ⟨-, hrest⟩ := List.forall_mem_cons.mp hclause
      rw [List.getLast?_cons_cons] at hlast
      have hnone :
          (afterBlank? (d :: clause ++ (before ++ ("from".toList ++ (after ++ q :: rest))))).bind fromPath? = none := by
        rw [List.cons_append, afterBlank?]
        split
        · rename_i hd
          have hpos : ∃ e ∈ clause, isBlank e = false := by
            obtain ⟨e, he, hblank⟩ := exists_of_last hlast
            rcases List.mem_cons.mp he with rfl | he
            · exact absurd (hd.symm.trans hblank) Bool.noConfusion
            · exact ⟨e, he, hblank⟩
          obtain ⟨e, r, hcut⟩ : ∃ e r, trimStart clause = e :: r := by
            obtain ⟨e, he, hblank⟩ := hpos
            refine List.exists_cons_of_ne_nil fun hnil => ?_
            exact absurd ((List.dropWhile_eq_nil_iff.mp hnil e he).symm.trans hblank) Bool.noConfusion
          have hsuffix : e :: r <:+ clause := hcut ▸ List.dropWhile_suffix _
          rw [trimStart, List.dropWhile_append, ← trimStart, hcut, if_neg (by simp), Option.bind_some]
          exact fromPath?_append hbefore hafter hq (fun x hx => hrest x (List.mem_cons_of_mem d (hsuffix.subset hx)))
            ⟨e, List.mem_cons_self, trimStart_head hcut⟩
        · rfl
      rw [hnone, ih hrest hlast]
      rfl

end

/-! ## The bindings of a clause -/

theorem not_isQuote_of_divides {c : Char} (h : divides c = true) : isQuote c = false := by
  cases hquote : isQuote c with
  | false => rfl
  | true => rcases (Bool.or_eq_true _ _).mp hquote with e | e <;> rw [eq_of_beq e] at h <;> cases h

theorem not_isClauseMark_of_isBlank {c : Char} (h : isBlank c = true) : isClauseMark c = false := by
  cases hmark : isClauseMark c with
  | false => rfl
  | true =>
    rcases (Bool.or_eq_true _ _).mp hmark with hmark | e
    · rcases (Bool.or_eq_true _ _).mp hmark with e | e <;> rw [eq_of_beq e] at h <;> cases h
    · rw [eq_of_beq e] at h
      cases h

theorem IsIdentifier.not_isBlank {name : List Char} (h : IsIdentifier name) : ∀ c ∈ name, isBlank c = false :=
  fun c hc => (Bool.or_eq_false_iff.mp (h.2 c hc).1).1

theorem IsIdentifier.not_isClauseMark {name : List Char} (h : IsIdentifier name) :
    ∀ c ∈ name, isClauseMark c = false :=
  fun c hc => (Bool.or_eq_false_iff.mp (h.2 c hc).1).2

theorem IsIdentifier.head {name : List Char} (h : IsIdentifier name) : name.head?.any (!isBlank ·) = true := by
  obtain ⟨c, r, rfl⟩ := List.exists_cons_of_ne_nil h.1
  simp [h.not_isBlank c List.mem_cons_self]

theorem IsIdentifier.last {name : List Char} (h : IsIdentifier name) : name.getLast?.any (!isBlank ·) = true := by
  rw [List.getLast?_eq_some_getLast h.1]
  simp [h.not_isBlank _ (List.getLast_mem h.1)]

theorem trim_of_ends {s blanks : List Char} (hhead : s.head?.any (!isBlank ·) = true)
    (hlast : s.getLast?.any (!isBlank ·) = true) (hblanks : blanks.all isBlank = true) : trim (s ++ blanks) = s := by
  have hstart : trimStart (s ++ blanks) = s ++ blanks := by
    refine trimStart_of_head ?_
    cases s with
    | nil => cases hhead
    | cons c s => exact hhead
  rw [trim, hstart, trimEnd_blanks hblanks, trimEnd_of_last hlast]

namespace Binding

variable {b : Binding} (h : b.IsSound)
include h

theorem IsSound.ends : b.text.head?.any (!isBlank ·) = true ∧ b.text.getLast?.any (!isBlank ·) = true := by
  cases b with
  | plain name => exact ⟨h.head, h.last⟩
  | renamed name bound =>
    obtain ⟨hname, hbound⟩ := h
    constructor
    · have hhead := hname.head
      obtain ⟨c, r, rfl⟩ := List.exists_cons_of_ne_nil hname.1
      exact hhead
    · rw [text, List.getLast?_append_of_ne_nil _ hbound.1]
      exact hbound.last

theorem IsSound.not_mem : ∀ c ∈ b.text, isClauseMark c = false ∧ isQuote c = false := by
  have hidentifier : ∀ {name : List Char}, IsIdentifier name →
      ∀ c ∈ name, isClauseMark c = false ∧ isQuote c = false :=
    fun h c hc => ⟨h.not_isClauseMark c hc, (h.2 c hc).2⟩
  cases b with
  | plain name => exact hidentifier h
  | renamed name bound =>
    have hword : ∀ c ∈ " as ".toList, isClauseMark c = false ∧ isQuote c = false := by simp [isClauseMark, isQuote]
    exact List.forall_mem_append.mpr ⟨List.forall_mem_append.mpr ⟨hidentifier h.1, hword⟩, hidentifier h.2⟩

/-- What follows the last ` as `, or all of it. -/
theorem IsSound.localName_text : localName b.text = b.bound := by
  have hspace : ∀ {name : List Char}, IsIdentifier name → ' ' ∉ name :=
    fun h hm => Bool.noConfusion (h.not_isBlank _ hm)
  cases b with
  | plain name =>
    have hnone : breakOnLast " as ".toList name = none := by
      have hlacks : Lacks " as ".toList.reverse name.reverse := fun hin =>
        hspace h (List.mem_reverse.mp (hin.subset (show ' ' ∈ " as ".toList.reverse by decide)))
      rw [breakOnLast, breakOn_eq_none_iff.mpr hlacks]
      rfl
    rw [text, localName, hnone]
    rfl
  | renamed name bound =>
    have hfound : breakOnLast " as ".toList (name ++ " as ".toList ++ bound) = some (name, bound) := by
      have hbreak : breakOn " as ".toList.reverse (name ++ " as ".toList ++ bound).reverse =
          some (bound.reverse, name.reverse) := by
        refine breakOn_eq_some_iff.mpr ⟨by simp, fun front behind e => ?_⟩
        by_contra hshort
        -- the space in front of the word would be in the name
        refine hspace h.2 (List.mem_reverse.mp ?_)
        have hat := congrArg (·[front.length]?) e
        have hfront : ((front ++ " as ".toList.reverse) ++ behind)[front.length]? = some ' ' := by
          rw [List.append_assoc, List.getElem?_append_right (Nat.le_refl _), Nat.sub_self]
          rfl
        simp only [hfront, List.reverse_append] at hat
        rw [List.getElem?_append_left (Nat.lt_of_not_le hshort)] at hat
        exact List.mem_of_getElem? hat
      rw [breakOnLast, hbreak]
      simp
    have htrim : trim bound = bound := by
      simpa using trim_of_ends h.2.head h.2.last (show ([] : List Char).all isBlank = true from rfl)
    rw [text, localName, hfound]
    exact htrim

end Binding

/-- What the marks of a clause divide, without the white space around it. -/
def items (clause : List Char) : List (List Char) :=
  ((clause.splitOnP isClauseMark).map trim).filter (!·.isEmpty)

theorem boundNames_eq (clause : List Char) :
    boundNames clause = (((items clause).map localName).filter isComponentName).map String.ofList := rfl

theorem items_nil : items [] = [] := by
  rw [items, List.splitOnP_nil]
  rfl

theorem items_append_cons (x y : List Char) {c : Char} (h : isClauseMark c = true) :
    items (x ++ c :: y) = items x ++ items y := by
  rw [items, List.splitOnP_append_cons x y h, List.map_append, List.filter_append, items, items]

theorem items_divided {lead : List Char} (h : lead.all divides = true) (s : List Char) :
    items (lead ++ s) = items s := by
  induction lead with
  | nil => rfl
  | cons c lead ih =>
    obtain ⟨hc, hlead⟩ := (Bool.and_eq_true _ _).mp ((List.all_cons).symm.trans h)
    rw [← ih hlead]
    cases hmark : isClauseMark c with
    | true =>
      have hcut := items_append_cons [] (lead ++ s) hmark
      rwa [items_nil] at hcut
    | false =>
      have hblank : isBlank c = true := by simpa [divides, hmark] using hc
      obtain ⟨piece, pieces, hpieces⟩ := List.exists_cons_of_ne_nil (List.splitOnP_ne_nil isClauseMark (lead ++ s))
      rw [items, items, List.cons_append, List.splitOnP_cons_eq_if_modifyHead, hpieces, hmark]
      simp [trim, trimStart_cons_of_isBlank hblank]

theorem isBlank_or_exists {behind : List Char} (h : behind.all divides = true) : behind.all isBlank = true ∨
    ∃ blanks c rest, behind = blanks ++ c :: rest ∧ blanks.all isBlank = true ∧ isClauseMark c = true ∧
      rest.all divides = true := by
  induction behind with
  | nil => exact Or.inl rfl
  | cons c behind ih =>
    obtain ⟨hc, hbehind⟩ := (Bool.and_eq_true _ _).mp ((List.all_cons).symm.trans h)
    cases hmark : isClauseMark c with
    | true => exact Or.inr ⟨[], c, behind, rfl, rfl, hmark, hbehind⟩
    | false =>
      have hblank : isBlank c = true := by simpa [divides, hmark] using hc
      rcases ih hbehind with hall | ⟨blanks, d, rest, rfl, hblanks, hd, hrest⟩
      · exact Or.inl (by rw [List.all_cons, hblank, hall]; rfl)
      · exact Or.inr ⟨c :: blanks, d, rest, rfl, by rw [List.all_cons, hblank, hblanks]; rfl, hd, hrest⟩

theorem items_binding {b : Binding} (hb : b.IsSound) {behind rest : List Char} (hbehind : behind.all divides = true)
    (h : behind.any isClauseMark = true ∨ rest = []) : items (b.text ++ behind ++ rest) = b.text :: items rest := by
  have halone : ∀ {blanks : List Char}, blanks.all isBlank = true → items (b.text ++ blanks) = [b.text] := by
    intro blanks hblanks
    have hfree : ∀ c ∈ b.text ++ blanks, isClauseMark c = false := List.forall_mem_append.mpr
      ⟨fun c hc => (hb.not_mem c hc).1, fun c hc => not_isClauseMark_of_isBlank (List.all_eq_true.mp hblanks c hc)⟩
    have hne : b.text.isEmpty = false := by
      have hhead := hb.ends.1
      cases ht : b.text with
      | nil =>
        rw [ht] at hhead
        cases hhead
      | cons c r => rfl
    rw [items, List.splitOnP_eq_singleton hfree]
    simp [trim_of_ends hb.ends.1 hb.ends.2 hblanks, hne]
  rcases isBlank_or_exists hbehind with hblanks | ⟨blanks, c, after, rfl, hblanks, hc, hafter⟩
  · rcases h with h | rfl
    · obtain ⟨c, hc, hmark⟩ := List.any_eq_true.mp h
      exact absurd ((not_isClauseMark_of_isBlank (List.all_eq_true.mp hblanks c hc)).symm.trans hmark) Bool.noConfusion
    · rw [List.append_nil, halone hblanks, items_nil]
  · have hcut : b.text ++ (blanks ++ c :: after) ++ rest = (b.text ++ blanks) ++ c :: (after ++ rest) := by simp
    rw [hcut, items_append_cons _ _ hc, halone hblanks, items_divided hafter]
    rfl

namespace Clause

theorem textOf_cons (b : Binding × List Char) (bindings : List (Binding × List Char)) :
    textOf (b :: bindings) = b.1.text ++ b.2 ++ textOf bindings := List.flatMap_cons

variable {c : Clause} (h : c.WellFormed)
include h

/-- The marks divide a clause into its bindings, however they are grouped. -/
theorem WellFormed.items_text : items c.text = c.bindings.map (·.1.text) := by
  obtain ⟨hsound, hlead, hbehind, hapart, -, -⟩ := h
  rw [text, items_divided hlead]
  generalize c.bindings = bindings at hsound hbehind hapart
  induction bindings with
  | nil => exact items_nil
  | cons b bindings ih =>
    obtain ⟨hb, hrest⟩ := List.forall_mem_cons.mp hsound
    obtain ⟨hafter, hbehind⟩ := List.forall_mem_cons.mp hbehind
    rw [textOf_cons, List.map_cons]
    cases bindings with
    | nil => exact items_binding hb hafter (Or.inr rfl)
    | cons b' bindings =>
      rw [List.dropLast_cons_cons] at hapart
      obtain ⟨hmark, hapart⟩ := List.forall_mem_cons.mp hapart
      rw [items_binding hb hafter (Or.inl hmark), ih hrest hbehind hapart]

theorem WellFormed.boundNames_text : boundNames c.text = c.names := by
  have hlocal : ∀ b ∈ c.bindings, localName b.1.text = b.1.bound := fun b hb => (h.sound b hb).localName_text
  rw [boundNames_eq, h.items_text, List.map_map, names]
  exact congrArg (fun names => (names.filter isComponentName).map String.ofList) (List.map_congr_left hlocal)

theorem WellFormed.not_isQuote : ∀ d ∈ c.text, isQuote d = false := by
  refine List.forall_mem_append.mpr ⟨fun d hd => not_isQuote_of_divides (List.all_eq_true.mp h.lead d hd),
    fun d hd => ?_⟩
  obtain ⟨b, hb, hd⟩ := List.mem_flatMap.mp hd
  rcases List.mem_append.mp hd with hd | hd
  · exact ((h.sound b hb).not_mem d hd).2
  · exact not_isQuote_of_divides (List.all_eq_true.mp (h.behind b hb) d hd)

end Clause

/-! ## The line -/

theorem ImportLine.WellFormed.splitLine_text {l : ImportLine} (h : l.WellFormed) :
    splitLine l.text = some (l.clause.text, l.path) := by
  have hblanks := h.blanks
  simp only [List.all_append, Bool.and_eq_true] at hblanks
  obtain ⟨⟨⟨⟨⟨⟨hindent, hafter⟩, hbefore⟩, hfrom⟩, -⟩, -⟩, -⟩ := hblanks
  obtain ⟨hafterNe, hbeforeNe, hfromNe⟩ := h.apart
  have hcut : l.text = l.indent ++ ("import".toList ++ (l.afterImport ++ (l.clause.text ++
      (l.beforeFrom ++ ("from".toList ++ (l.afterFrom ++ l.quote :: (l.path ++ l.quote :: l.tail))))))) := by
    simp [text]
  have hword : ∀ s, trimStart ("import".toList ++ s) = "import".toList ++ s := fun s => trimStart_of_head (by rfl)
  have hclause : ∀ s, trimStart (l.clause.text ++ s) = l.clause.text ++ s := by
    intro s
    refine trimStart_of_head ?_
    have hhead := h.clause.head
    cases ht : l.clause.text with
    | nil =>
      rw [ht] at hhead
      cases hhead
    | cons c r =>
      rw [ht] at hhead
      exact hhead
  have hsplit := splitClause_append hbefore hfrom h.quote hbeforeNe hfromNe h.quotedPath? h.clause.not_isQuote
    h.clause.last
  rw [hcut, splitLine, trimStart_blanks hindent, hword, rest?_append]
  simp only [Option.bind_eq_bind, Option.bind_some]
  rw [afterBlank?_blanks hafter hafterNe, Option.bind_some, hclause, hsplit]

/-- A line with a path to a component is one import of that path with the component names that its clause binds, and
    nothing of it stays. If it binds none it is refused. -/
theorem scan_written {extension : String} {l : ImportLine} (h : l.WellFormed)
    (hextension : (Path.mk (String.ofList l.path)).extension? = some extension) (path : Path) :
    scan extension (String.ofList l.text) path =
      if l.clause.names = [] then .error (.malformedSource path (.unnamedImport (String.ofList l.path)))
      else .ok ⟨"", [⟨String.ofList l.path, l.clause.names⟩]⟩ := by
  have hne : l.text ≠ [] := by simp [ImportLine.text]
  have hlines : lines l.text = [l.text] := by
    unfold lines
    rw [List.splitOn_eq_singleton h.oneLine]
    cases ht : l.text with
    | nil => exact absurd ht hne
    | cons c r => rfl
  have hclassify : classify extension l.text =
      if l.clause.names = [] then .unnamed (String.ofList l.path)
      else .component ⟨String.ofList l.path, l.clause.names⟩ := by
    rw [classify, h.splitLine_text]
    simp only [hextension, beq_self_eq_true, if_true, h.clause.boundNames_text]
    split
    next hnames => rw [if_pos hnames]
    next hnames => rw [if_neg hnames]
  rw [scan, String.toList_ofList, hlines, scanLines, hclassify]
  by_cases hnames : l.clause.names = []
  · rw [if_pos hnames, if_pos hnames]
  · rw [if_neg hnames, if_neg hnames]
    rfl

/-- A line with `from` as a name, a renaming, a name that is no component's, and another import in its comment. -/
theorem scan_written_with_from_as_name :
    let clause : Clause :=
      ⟨[], [(.plain "from".toList, ", \x7b ".toList), (.renamed "card".toList "Card".toList, " , ".toList),
      (.renamed "x".toList "as".toList, ",".toList), (.plain "Nav$1".toList, " \x7d".toList)]⟩
    let l : ImportLine :=
      { indent := ['\t'], clause, beforeFrom := "  ".toList, quote := '\x27', path := "./a b/from.goo".toList,
        afterPath := [' '],
        semicolon := true, comment := .block " from './c.goo' ".toList [' '] }
    l.WellFormed ∧ (Path.mk (String.ofList l.path)).extension? = some "goo" ∧
      scan "goo" "\timport from, \x7b card as Card , x as as,Nav$1 \x7d  from './a b/from.goo' ;/* from './c.goo' */ "
          ⟨"a.goo"⟩ =
        .ok ⟨"", [⟨"./a b/from.goo", ["Card", "Nav$1"]⟩]⟩ := by
  intro clause l
  have hclause : clause.WellFormed :=
    ⟨by decide +kernel, by decide, by decide +kernel, by decide, by decide, by decide⟩
  have hline : l.WellFormed :=
    ⟨hclause, by decide, by decide, by decide, ⟨by decide, by simp [l, isQuote]⟩, by decide +kernel⟩
  have hextension : (Path.mk (String.ofList l.path)).extension? = some "goo" := by decide +kernel
  exact ⟨hline, hextension, scan_written hline hextension ⟨"a.goo"⟩⟩

end ComponentSite.Imports
