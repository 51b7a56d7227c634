/-
  ComponentSite.Proofs.RootElements — the scope class in a forest of elements.

  A forest is text, comments, elements of one tag and elements of two with a forest between
  them. Its tags and comments are the pieces that the scan reads (`readPieces_markup_append`).
  Over them the depth is that of the tree: within an element nothing is a root, and behind it
  the depth is the one before it (`markRoots_below`). So the class goes to roots only, and
  to each whose tag is scoped (`markRoots_pieces`, `roots_marked`).
-/
import ComponentSite.Proofs.StyleStatements
import ComponentSite.Proofs.TagReading

namespace ComponentSite.Style
open Text

/-! ## Forests -/

inductive Forest
  | nil
  | text (s : List Char) (rest : Forest)
  /-- A comment, without the marks around it. -/
  | comment (body : List Char) (rest : Forest)
  /-- An element of one tag: it is void or closes itself. -/
  | single (name attributes : List Char) (selfClosing : Bool) (rest : Forest)
  /-- An element of two tags; `blanks` stand in the closing one. -/
  | element (name attributes : List Char) (inner : Forest) (blanks : List Char) (rest : Forest)
  deriving DecidableEq, Repr

namespace Forest

def pieces : Forest → List MarkupPiece
  | nil => []
  | text s rest => s.map .char ++ rest.pieces
  | comment body rest => .comment body :: rest.pieces
  | single name attributes selfClosing rest => .tag false name attributes selfClosing :: rest.pieces
  | element name attributes inner blanks rest =>
    .tag false name attributes false :: (inner.pieces ++ .tag true name blanks false :: rest.pieces)

def markup (forest : Forest) : List Char := forest.pieces.flatMap MarkupPiece.text

def mapRoots (f : (name attributes : List Char) → List Char) : Forest → Forest
  | nil => nil
  | text s rest => text s (rest.mapRoots f)
  | comment body rest => comment body (rest.mapRoots f)
  | single name attributes selfClosing rest => single name (f name attributes) selfClosing (rest.mapRoots f)
  | element name attributes inner blanks rest => element name (f name attributes) inner blanks (rest.mapRoots f)

/-- Text begins no tag, a comment ends where its mark is, and an element has one tag exactly if it is void or
    closes itself. -/
def WellFormed : Forest → Prop
  | nil => True
  | text s rest => '<' ∉ s ∧ rest.WellFormed
  | comment body rest => Lacks "-->".toList body ∧ rest.WellFormed
  | single name attributes selfClosing rest =>
    isElementName name = true ∧ AreTagAttributes selfClosing attributes ∧ standsAlone name selfClosing = true ∧
      rest.WellFormed
  | element name attributes inner blanks rest =>
    isElementName name = true ∧ AreTagAttributes false attributes ∧ standsAlone name false = false ∧
      blanks.all isBlank = true ∧ inner.WellFormed ∧ rest.WellFormed

instance decidableWellFormed : (forest : Forest) → Decidable forest.WellFormed
  | nil => .isTrue trivial
  | text s rest =>
    have := decidableWellFormed rest
    inferInstanceAs (Decidable ('<' ∉ s ∧ rest.WellFormed))
  | comment _ rest =>
    have := decidableWellFormed rest
    inferInstanceAs (Decidable (¬ _ ∧ rest.WellFormed))
  | single _ _ _ rest =>
    have := decidableWellFormed rest
    inferInstanceAs (Decidable (_ ∧ _ ∧ _ ∧ rest.WellFormed))
  | element _ _ inner _ rest =>
    have := decidableWellFormed inner
    have := decidableWellFormed rest
    inferInstanceAs (Decidable (_ ∧ _ ∧ _ ∧ _ ∧ inner.WellFormed ∧ rest.WellFormed))

theorem mapRoots_self {f : (name attributes : List Char) → List Char}
    (h : ∀ name attributes, f name attributes = attributes)
    (forest : Forest) : forest.mapRoots f = forest := by
  induction forest <;> simp_all [mapRoots]

theorem markup_text (s : List Char) (rest : Forest) : (text s rest).markup = s ++ rest.markup := by
  simp [markup, pieces, List.flatMap_map, MarkupPiece.text]

theorem markup_comment (body : List Char) (rest : Forest) :
    (comment body rest).markup = (MarkupPiece.comment body).text ++ rest.markup := List.flatMap_cons

theorem markup_single (name attributes : List Char) (selfClosing : Bool) (rest : Forest) :
    (single name attributes selfClosing rest).markup =
      (MarkupPiece.tag false name attributes selfClosing).text ++ rest.markup := List.flatMap_cons

theorem markup_element (name attributes : List Char) (inner : Forest) (blanks : List Char) (rest : Forest) :
    (element name attributes inner blanks rest).markup =
      (MarkupPiece.tag false name attributes false).text ++ inner.markup ++
        (MarkupPiece.tag true name blanks false).text ++ rest.markup := by
  simp [markup, pieces]

end Forest

/-! ## A forest is read as its pieces -/

theorem readPieces_cons {piece : MarkupPiece} {rest : List Char}
    (h : tagOrComment? (piece.text ++ rest) = some (piece, rest)) :
    readPieces (piece.text ++ rest) = piece :: readPieces rest := by
  obtain ⟨c, r, e⟩ : ∃ c r, piece.text ++ rest = c :: r :=
    List.exists_cons_of_ne_nil (List.append_ne_nil_of_left_ne_nil piece.text_ne_nil rest)
  rw [e] at h ⊢
  rw [readPieces]
  split
  · rename_i h'
    rw [h] at h'
    obtain ⟨rfl, rfl⟩ := Prod.mk.inj (Option.some.inj h')
    rfl
  · rename_i h'
    rw [h] at h'
    cases h'

theorem readPieces_chars {s : List Char} (h : '<' ∉ s) (rest : List Char) :
    readPieces (s ++ rest) = s.map .char ++ readPieces rest := by
  induction s with
  | nil => rfl
  | cons c s ih =>
    rw [List.mem_cons, not_or] at h
    have hnone := tagOrComment?_of_ne (Ne.symm h.1) (s ++ rest)
    rw [List.cons_append, readPieces]
    split
    · rename_i h'
      rw [hnone] at h'
      cases h'
    · rw [ih h.2]
      rfl

/-- The pieces of a forest are read, whatever follows it. -/
theorem readPieces_markup_append {forest : Forest} (h : forest.WellFormed) (rest : List Char) :
    readPieces (forest.markup ++ rest) = forest.pieces ++ readPieces rest := by
  induction forest generalizing rest with
  | nil => rfl
  | text s forest ih =>
    rw [Forest.markup_text, List.append_assoc, readPieces_chars h.1, ih h.2, Forest.pieces, List.append_assoc]
  | comment body forest ih =>
    rw [Forest.markup_comment, List.append_assoc, readPieces_cons (tagOrComment?_comment h.1 _), ih h.2]
    rfl
  | single name attributes selfClosing forest ih =>
    obtain ⟨hname, hattributes, -, hrest⟩ := h
    rw [Forest.markup_single, List.append_assoc,
      readPieces_cons (tagOrComment?_tag false hname hattributes _), ih hrest]
    rfl
  | element name attributes inner blanks forest ihInner ih =>
    obtain ⟨hname, hattributes, -, hblanks, hinner, hrest⟩ := h
    have hclosing := tagOrComment?_tag true hname (areTagAttributes_of_isBlank hblanks) (forest.markup ++ rest)
    rw [Forest.markup_element, List.append_assoc, List.append_assoc, List.append_assoc,
      readPieces_cons (tagOrComment?_tag false hname hattributes _), ihInner hinner, readPieces_cons hclosing, ih hrest]
    simp [Forest.pieces]

/-! ## The depth is that of the tree -/

section
variable (cls : List Char) (tags : List (List Char))

theorem markRoots_chars (depth : Nat) (s : List Char) (rest : List MarkupPiece) :
    markRoots cls tags depth (s.map .char ++ rest) = s ++ markRoots cls tags depth rest := by
  induction s with
  | nil => rfl
  | cons c s ih =>
    have hchar : markRoots cls tags depth (.char c :: (s.map .char ++ rest)) =
        c :: markRoots cls tags depth (s.map .char ++ rest) := rfl
    rw [List.map_cons, List.cons_append, hchar, ih, List.cons_append]

/-- Below an element nothing is marked, and behind a forest the depth is what it was. -/
theorem markRoots_below {forest : Forest} (h : forest.WellFormed) (depth : Nat) (rest : List MarkupPiece) :
    markRoots cls tags (depth + 1) (forest.pieces ++ rest) =
      forest.markup ++ markRoots cls tags (depth + 1) rest := by
  induction forest generalizing depth rest with
  | nil => rfl
  | text s forest ih =>
    rw [Forest.pieces, List.append_assoc, markRoots_chars, ih h.2, Forest.markup_text, List.append_assoc]
  | comment body forest ih =>
    rw [Forest.markup_comment, List.append_assoc, ← ih h.2]
    rfl
  | single name attributes selfClosing forest ih =>
    obtain ⟨-, -, halone, hrest⟩ := h
    rw [Forest.markup_single, List.append_assoc, ← ih hrest]
    simp [Forest.pieces, markRoots, halone]
  | element name attributes inner blanks forest ihInner ih =>
    obtain ⟨-, -, hpaired, -, hinner, hrest⟩ := h
    have hopened : markRoots cls tags (depth + 1)
        ((Forest.element name attributes inner blanks forest).pieces ++ rest) =
        (MarkupPiece.tag false name attributes false).text ++
          markRoots cls tags (depth + 2) (inner.pieces ++ .tag true name blanks false :: (forest.pieces ++ rest)) := by
      simp [Forest.pieces, markRoots, hpaired]
    have hclosed : markRoots cls tags (depth + 2) (.tag true name blanks false :: (forest.pieces ++ rest)) =
        (MarkupPiece.tag true name blanks false).text ++ markRoots cls tags (depth + 1) (forest.pieces ++ rest) := rfl
    rw [hopened, ihInner hinner, hclosed, ih hrest, Forest.markup_element]
    simp only [List.append_assoc]

def rootAttributes (name attributes : List Char) : List Char :=
  if tags.contains name then addClass cls attributes else attributes

theorem markRoots_root (name attributes : List Char) (selfClosing : Bool) (rest : List MarkupPiece) :
    markRoots cls tags 0 (.tag false name attributes selfClosing :: rest) =
      (MarkupPiece.tag false name (rootAttributes cls tags name attributes) selfClosing).text ++
        markRoots cls tags (if standsAlone name selfClosing then 0 else 1) rest := by
  by_cases h : tags.contains name = true <;> simp only [markRoots, rootAttributes, h] <;> rfl

theorem markRoots_pieces {forest : Forest} (h : forest.WellFormed) (rest : List MarkupPiece) :
    markRoots cls tags 0 (forest.pieces ++ rest) =
      (forest.mapRoots (rootAttributes cls tags)).markup ++ markRoots cls tags 0 rest := by
  induction forest with
  | nil => rfl
  | text s forest ih =>
    rw [Forest.pieces, List.append_assoc, markRoots_chars, ih h.2, Forest.mapRoots,
      Forest.markup_text, List.append_assoc]
  | comment body forest ih =>
    rw [Forest.mapRoots, Forest.markup_comment, List.append_assoc, ← ih h.2]
    rfl
  | single name attributes selfClosing forest ih =>
    obtain ⟨-, -, halone, hrest⟩ := h
    rw [Forest.pieces, List.cons_append, markRoots_root, if_pos halone, ih hrest, Forest.mapRoots, Forest.markup_single,
      List.append_assoc]
  | element name attributes inner blanks forest ihInner ih =>
    obtain ⟨-, -, hpaired, -, hinner, hrest⟩ := h
    have hclosed : markRoots cls tags 1 (.tag true name blanks false :: (forest.pieces ++ rest)) =
        (MarkupPiece.tag true name blanks false).text ++ markRoots cls tags 0 (forest.pieces ++ rest) := rfl
    rw [Forest.pieces, List.cons_append, List.append_assoc, List.cons_append, markRoots_root,
      if_neg (by simp [hpaired]), markRoots_below cls tags hinner, hclosed,
      ih hrest, Forest.mapRoots, Forest.markup_element]
    simp only [List.append_assoc]

theorem markRootElements_markup {forest : Forest} (h : forest.WellFormed) :
    markRootElements cls tags forest.markup = (forest.mapRoots (rootAttributes cls tags)).markup := by
  have hpieces : readPieces forest.markup = forest.pieces := by
    have := readPieces_markup_append h []
    rwa [List.append_nil, readPieces, List.append_nil] at this
  have hmarked := markRoots_pieces cls tags h []
  rw [List.append_nil, markRoots, List.append_nil] at hmarked
  unfold markRootElements
  split
  · rename_i hempty
    rw [List.isEmpty_iff.mp hempty, Forest.mapRoots_self (f := rootAttributes cls []) fun _ _ => rfl]
  · rw [hpieces, hmarked]

end

/-- The markup of a forest is scoped to that of the forest with the class in the attributes of exactly the roots
    whose tag is reported; every other character stays. -/
theorem roots_marked (style scopeClass : String) {forest : Forest} (h : forest.WellFormed) :
    let scoping := scope style (String.ofList forest.markup) scopeClass
    scoping.markup = String.ofList (forest.mapRoots fun name attributes =>
      if String.ofList name ∈ scoping.scopedTags then addClass scopeClass.toList attributes
      else attributes).markup := by
  intro scoping
  have hroots : (fun name attributes =>
      if String.ofList name ∈ scoping.scopedTags then addClass scopeClass.toList attributes else attributes) =
      rootAttributes scopeClass.toList (scopeRules scopeClass.toList style.toList).2 := by
    funext name attributes
    simp only [scoping, rootAttributes, mem_scopedTags, String.toList_ofList, List.contains_iff_mem]
  rw [hroots, ← markRootElements_markup _ _ h]
  simp only [scoping, scope, String.toList_ofList]

/-- A list with a void element and an element of its own name in it, beside a comment with a tag and a component. -/
theorem roots_marked_in_nested_lists :
    let inner := Forest.single "br".toList [] false (.element "ul".toList [] (.text "x".toList .nil) [' '] .nil)
    let forest := Forest.comment "<ul>".toList (.element "ul".toList " id=a title=\x22>\x22".toList inner []
      (.single "Card".toList [' '] true
        (.single "hr".toList " class=\x27b\x27".toList false (.text " > ".toList .nil))))
    forest.WellFormed ∧
      forest.markup = "<!--<ul>--><ul id=a title=\x22>\x22><br><ul>x</ul ></ul><Card /><hr class=\x27b\x27> > ".toList ∧
      (scope "ul, br, hr \x7b \x7d" (String.ofList forest.markup) "s").markup =
      "<!--<ul>--><ul class=\x22s\x22 id=a title=\x22>\x22><br><ul>x</ul ></ul><Card /><hr class=\x22b s\x22> > " := by
  intro inner forest
  have hforest : forest.WellFormed := by decide
  have hmarked := roots_marked "ul, br, hr \x7b \x7d" "s" hforest
  simp only [mem_scopedTags, String.toList_ofList] at hmarked
  exact ⟨hforest, by decide, hmarked.trans (by decide +kernel)⟩

end ComponentSite.Style
