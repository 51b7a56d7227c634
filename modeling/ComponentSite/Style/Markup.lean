/-
  ComponentSite.Style.Markup — markup as a run of tags, comments and other
  characters.

  A tag is `<`, an optional slash, a name, attributes and `>`; an attribute text
  may hold `>` only inside quotes, and each quote in it must be closed. A slash
  right before the `>` makes the tag self-closing. What fits neither a tag nor a
  closed comment is read character by character. The pieces spell the markup again
  (`readPieces_text`).
-/
import ComponentSite.Text.Search

namespace ComponentSite.Style
open Text

inductive MarkupPiece
  | char (c : Char)
  /-- A comment, without the marks around it. -/
  | comment (body : List Char)
  | tag (closing : Bool) (name attributes : List Char) (selfClosing : Bool)
  deriving DecidableEq, Repr

def MarkupPiece.text : MarkupPiece → List Char
  | char c => [c]
  | comment body => "<!--".toList ++ body ++ "-->".toList
  | tag closing name attributes selfClosing =>
    '<' :: (if closing then ['/'] else []) ++ name ++ attributes ++ (if selfClosing then ['/'] else []) ++ ['>']

def isMarkupNameChar (c : Char) : Bool := c.isAlphanum || c == '-'

/-- The attributes up to the end of the tag, whether a slash stands before the end,
    and the rest; `quote` is the one that is open. -/
def takeAttributes : (quote : Option Char) → List Char → Option (List Char × Bool × List Char)
  | _, [] => none
  | none, c :: r =>
    if c == '>' then some ([], false, r)
    else if c == '/' && r.head? == some '>' then some ([], true, r.tail)
    else
      let quote := if c == '\x22' || c == '\x27' then some c else none
      (takeAttributes quote r).map fun (attributes, selfClosing, rest) =>
        (c :: attributes, selfClosing, rest)
  | some q, c :: r =>
    (takeAttributes (if c == q then none else some q) r).map fun (attributes, selfClosing, rest) =>
      (c :: attributes, selfClosing, rest)

def tagBody? (closing : Bool) (s : List Char) : Option (MarkupPiece × List Char) :=
  match s with
  | c :: _ =>
    if c.isAlpha then
      (takeAttributes none (s.dropWhile isMarkupNameChar)).map fun (attributes, selfClosing, rest) =>
        (.tag closing (s.takeWhile isMarkupNameChar) attributes selfClosing, rest)
    else none
  | [] => none

def tagOrComment? (s : List Char) : Option (MarkupPiece × List Char) :=
  match (rest? "<!--".toList s).bind (breakOn "-->".toList) with
  | some (body, rest) => some (.comment body, rest)
  | none =>
    match s with
    | '<' :: '/' :: r => tagBody? true r
    | '<' :: r => tagBody? false r
    | _ => none

/-! ## The pieces are the text -/

theorem takeAttributes_append {q : Option Char} {s attributes rest : List Char} {selfClosing : Bool}
    (h : takeAttributes q s = some (attributes, selfClosing, rest)) :
    s = attributes ++ (if selfClosing then ['/'] else []) ++ '>' :: rest := by
  induction s generalizing q attributes with
  | nil => cases q <;> simp [takeAttributes] at h
  | cons c r ih =>
    cases q with
    | none =>
      simp only [takeAttributes] at h
      split at h
      · next hc =>
        simp at h hc
        obtain ⟨rfl, rfl, rfl⟩ := h
        simp [hc]
      · split at h
        · next hc =>
          simp at h hc
          obtain ⟨rfl, hr⟩ := hc
          cases r with
          | nil => simp at hr
          | cons d r' =>
            simp at hr
            obtain ⟨rfl, rfl, rfl⟩ := h
            simp [hr]
        · obtain ⟨⟨a, b, d⟩, hx, he⟩ := Option.map_eq_some_iff.mp h
          simp at he
          obtain ⟨rfl, rfl, rfl⟩ := he
          simpa using ih hx
    | some q =>
      simp only [takeAttributes] at h
      obtain ⟨⟨a, b, d⟩, hx, he⟩ := Option.map_eq_some_iff.mp h
      simp at he
      obtain ⟨rfl, rfl, rfl⟩ := he
      simpa using ih hx

theorem tagBody?_append {closing : Bool} {s rest : List Char} {p : MarkupPiece}
    (h : tagBody? closing s = some (p, rest)) :
    '<' :: (if closing then ['/'] else []) ++ s = p.text ++ rest := by
  unfold tagBody? at h
  split at h
  · next c r =>
    split at h
    · obtain ⟨⟨a, b, d⟩, hx, he⟩ := Option.map_eq_some_iff.mp h
      simp at he
      obtain ⟨rfl, rfl⟩ := he
      have hs := takeAttributes_append hx
      have := List.takeWhile_append_dropWhile (p := isMarkupNameChar) (l := c :: r)
      rw [hs] at this
      simp only [MarkupPiece.text, List.cons_append, List.append_assoc, List.cons.injEq, true_and]
      simp only [List.append_assoc] at this
      rw [List.nil_append, this]
    · simp at h
  · simp at h

theorem tagOrComment?_append {s rest : List Char} {p : MarkupPiece}
    (h : tagOrComment? s = some (p, rest)) : s = p.text ++ rest := by
  unfold tagOrComment? at h
  split at h
  · next body after hc =>
    simp at h
    obtain ⟨rfl, rfl⟩ := h
    obtain ⟨t, ht, hb⟩ := Option.bind_eq_some_iff.mp hc
    rw [rest?_eq_some ht, breakOn_append hb]
    simp [MarkupPiece.text]
  · split at h
    · simpa using tagBody?_append h
    · simpa using tagBody?_append h
    · simp at h

theorem MarkupPiece.text_ne_nil (p : MarkupPiece) : p.text ≠ [] := by
  cases p <;> simp [MarkupPiece.text]

theorem tagOrComment?_length {s rest : List Char} {p : MarkupPiece}
    (h : tagOrComment? s = some (p, rest)) : rest.length < s.length := by
  have := congrArg List.length (tagOrComment?_append h)
  have := List.length_pos_iff.mpr p.text_ne_nil
  simp at *; omega

def readPieces : List Char → List MarkupPiece
  | [] => []
  | c :: r =>
    match h : tagOrComment? (c :: r) with
    | some (piece, rest) =>
      have := tagOrComment?_length h
      piece :: readPieces rest
    | none => .char c :: readPieces r
termination_by s => s.length
decreasing_by
  · exact this
  · exact Nat.lt_add_one r.length

theorem readPieces_text (s : List Char) : (readPieces s).flatMap MarkupPiece.text = s := by
  fun_induction readPieces s with
  | case1 => rfl
  | case2 c r piece rest h this ih => simp [ih, tagOrComment?_append h]
  | case3 c r h ih => simp [ih, MarkupPiece.text]

end ComponentSite.Style
