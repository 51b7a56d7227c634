/-
  ComponentSite.Proofs.TemplateReading — what the templates of a page are read as.

  A template of a page is written with characters, uses of contents and insertion points
  (`Token`). Reading it takes white space away and nothing else: the nodes, token by
  token, are what was written (`read?_written`). The state of reading keeps this of the
  source behind it (`Shows`), through the text between two tags and through each tag.
  Insertion points leave the text around them alone (`readFrom_point`), and a script or
  style in a raw block is one block with its text (`read?_raw`).
-/
import ComponentSite.Proofs.ContentText
import ComponentSite.Proofs.MarkupTree
import ComponentSite.Proofs.TemplateTags

namespace ComponentSite.Template
open Text

/-! ## Tokens -/

inductive Token
  | char (c : Char)
  /-- The template of this name is shown here. -/
  | use (name : String)
  /-- It is, if there is one. -/
  | point (name : String)
  deriving DecidableEq, Repr

namespace Token

def source : Token → List Char
  | char c => [c]
  | use name => useTag name.toList
  | point name => openingTag name.toList ++ closingTag name.toList

def written (ts : List Token) : List Char := ts.flatMap source

def Readable : Token → Prop
  | char c => c ≠ '\x7b' ∧ c ≠ '\\'
  | use name => name.toList ≠ [] ∧ IsPlain name.toList
  | point name => name.toList ≠ [] ∧ IsPlain name.toList

def isBlank : Token → Bool
  | char c => Text.isBlank c
  | _ => false

def inked (ts : List Token) : List Token := ts.filter (!·.isBlank)

theorem inked_append (ts us : List Token) : inked (ts ++ us) = inked ts ++ inked us := List.filter_append ..

theorem inked_chars (s : List Char) : inked (s.map char) = (withoutBlanks s).map char := by
  rw [inked, List.filter_map]
  rfl

end Token

def Node.tokens : Node → List Token
  | .text s => s.map .char
  | .partialUse call _ none => [.use call.name.text]
  | .partialUse call _ (some _) => [.point call.name.text]
  | _ => []

def Node.IsPart : Node → Prop
  | .text _ => True
  | .partialUse call indent body =>
    call = nameCall call.name.text ∧ indent.all Text.isBlank = true ∧ body.all List.isEmpty = true
  | _ => False

structure Shows (nodes : List Node) (ts : List Token) : Prop where
  parts : ∀ n ∈ nodes, n.IsPart
  tokens : Token.inked (nodes.flatMap Node.tokens) = Token.inked ts

open Token (inked written)

theorem Shows.nil : Shows [] [] := ⟨fun _ hn => absurd hn List.not_mem_nil, rfl⟩

theorem Shows.append {nodes more : List Node} {ts us : List Token} (h : Shows nodes ts) (h' : Shows more us) :
    Shows (nodes ++ more) (ts ++ us) := by
  refine ⟨fun n hn => (List.mem_append.mp hn).elim (h.parts n) (h'.parts n), ?_⟩
  rw [List.flatMap_append, Token.inked_append, h.tokens, h'.tokens, Token.inked_append]

theorem Shows.concat {nodes : List Node} {ts us : List Token} (h : Shows nodes ts) {n : Node} (hn : n.IsPart)
    (ht : inked n.tokens = inked us) : Shows (nodes ++ [n]) (ts ++ us) :=
  h.append ⟨fun m hm => List.mem_singleton.mp hm ▸ hn, by simpa using ht⟩

/-! ## White space that a reader takes away -/

theorem withoutBlanks_dropWhile {p : Char → Bool} (hp : ∀ c, p c = true → Text.isBlank c = true) (s : List Char) :
    withoutBlanks (s.dropWhile p) = withoutBlanks s := by
  induction s with
  | nil => rfl
  | cons c s ih =>
    rw [List.dropWhile_cons]
    split
    · rename_i hc
      rw [ih, withoutBlanks_cons (hp c hc)]
    · rfl

theorem withoutBlanks_reverse (s : List Char) : withoutBlanks s.reverse = (withoutBlanks s).reverse :=
  List.filter_reverse ..

theorem isBlank_of_isLineSpace {c : Char} (h : isLineSpace c = true) : Text.isBlank c = true := by
  simp only [isLineSpace, Bool.or_eq_true, beq_iff_eq] at h
  rcases h with rfl | rfl <;> decide

theorem isBlank_of_isTagSpace {c : Char} (h : isTagSpace c = true) : Text.isBlank c = true := by
  simp only [isTagSpace, Bool.or_eq_true, beq_iff_eq] at h
  rcases h with ((rfl | rfl) | rfl) | rfl <;> decide

theorem withoutBlanks_trimStart (s : List Char) : withoutBlanks (trimStart s) = withoutBlanks s :=
  withoutBlanks_dropWhile (fun _ h => h) s

theorem withoutBlanks_skipSpace (s : List Char) : withoutBlanks (skipSpace s) = withoutBlanks s :=
  withoutBlanks_dropWhile (fun _ => isBlank_of_isTagSpace) s

theorem withoutBlanks_dropEnd (s : List Char) :
    withoutBlanks (s.reverse.dropWhile isLineSpace).reverse = withoutBlanks s := by
  rw [withoutBlanks_reverse, withoutBlanks_dropWhile (fun _ => isBlank_of_isLineSpace), withoutBlanks_reverse,
    List.reverse_reverse]

theorem withoutBlanks_dropLineStart (s : List Char) : withoutBlanks (dropLineStart s) = withoutBlanks s := by
  rw [← withoutBlanks_dropWhile (fun _ => isBlank_of_isLineSpace) s]
  unfold dropLineStart
  split
  · rename_i r e
    rw [e, withoutBlanks_cons (by decide), withoutBlanks_cons (by decide)]
  · rename_i r e
    rw [e, withoutBlanks_cons (by decide)]
  · rfl

/-! ## The state of reading -/

namespace Reading

/-- Behind the reader stand these tokens, and no block is open. -/
def Shows (r : Reading) (ts : List Token) : Prop := r.frames = [] ∧ Template.Shows r.nodes.reverse ts

variable {r : Reading} {ts : List Token}

theorem Shows.push (h : r.Shows ts) {n : Node} (hn : n.IsPart) {us : List Token} (ht : inked n.tokens = inked us) :
    (r.push n).Shows (ts ++ us) := by
  refine ⟨h.1, ?_⟩
  show Template.Shows (n :: r.nodes).reverse _
  rw [List.reverse_cons]
  exact h.2.concat hn ht

theorem Shows.mapLastText (h : r.Shows ts) {change : List Char → List Char}
    (hc : ∀ s, withoutBlanks (change s) = withoutBlanks s) : (r.mapLastText change).Shows ts := by
  unfold Reading.mapLastText
  split
  · rename_i s rest e
    obtain ⟨hframes, hparts, htokens⟩ := h
    rw [e, List.reverse_cons] at hparts htokens
    refine ⟨hframes, ?_, ?_⟩
    · intro n hn
      rw [List.reverse_cons] at hn
      rcases List.mem_append.mp hn with hn | hn
      · exact hparts n (List.mem_append_left _ hn)
      · exact List.mem_singleton.mp hn ▸ trivial
    · rw [List.reverse_cons, ← htokens, List.flatMap_append, List.flatMap_append, Token.inked_append,
        Token.inked_append]
      simp only [List.flatMap_cons, List.flatMap_nil, List.append_nil, Node.tokens, Token.inked_chars, hc]
  · exact h

theorem Shows.takeLine (h : r.Shows ts) (keepIndent : Bool) (before after : List Char) :
    (r.takeLine keepIndent before after).Shows ts := by
  unfold Reading.takeLine
  simp only
  split
  · exact h.mapLastText withoutBlanks_dropEnd
  · exact h

theorem withoutBlanks_trimmedText (r : Reading) (s : List Char) :
    withoutBlanks (r.trimmedText s) = withoutBlanks s := by
  unfold Reading.trimmedText
  split
  · exact withoutBlanks_trimStart s
  · split
    · exact withoutBlanks_dropLineStart s
    · rfl

theorem Shows.addText (h : r.Shows ts) (s : List Char) : (r.addText s s).Shows (ts ++ s.map .char) := by
  unfold Reading.addText
  split
  · rename_i hs
    have hblank : withoutBlanks s = [] := by
      rw [withoutBlanks, List.filter_eq_nil_iff]
      intro c hc
      rw [Bool.or_eq_true, Bool.and_eq_true] at hs
      rcases hs with hs | ⟨hs, _⟩
      · rw [List.isEmpty_iff.mp hs] at hc
        cases hc
      · simp [isBlank_of_isTagSpace (List.all_eq_true.mp hs c hc)]
    refine ⟨h.1, h.2.parts, ?_⟩
    rw [h.2.tokens, Token.inked_append, Token.inked_chars, hblank]
    exact (List.append_nil _).symm
  · refine h.push (n := .text (r.trimmedText s)) trivial ?_
    simp only [Node.tokens, Token.inked_chars, withoutBlanks_trimmedText]

/-- A tag that something stands beside takes nothing with it. -/
theorem takeLine_beside {before after : List Char} (h : (endsLine after && startsLine before) = false) (r : Reading)
    (keepIndent : Bool) : r.takeLine keepIndent before after = { r with dropLine := false } := by
  unfold Reading.takeLine
  simp only [h]
  rfl

/-- Without text before it a tag has nothing to take. -/
theorem takeLine_nil {r : Reading} (h : r.nodes = []) (keepIndent : Bool) (before after : List Char) :
    r.takeLine keepIndent before after = { r with dropLine := endsLine after && startsLine before } := by
  have hmap : ∀ change, r.mapLastText change = r := by
    intro change
    unfold mapLastText
    rw [h]
  unfold Reading.takeLine
  simp only [hmap, ite_self]

theorem closeFrame_ok {r : Reading} {f : Frame} {frames : List Frame} (h : r.frames = f :: frames) {name : String}
    (hname : f.closedBy name = true) :
    r.closeFrame name = .ok { r with frames, nodes := f.node r.nodes :: f.outer } := by
  unfold closeFrame
  rw [h]
  simp only [hname, if_true]

/-- The use of a template is one more token. -/
theorem Shows.applyTag_use (h : r.Shows ts) (name : String) (before after : List Char) :
    ∃ r', r.applyTag (.partialUse (nameCall name)) ⟨false, false⟩ before after = .ok r' ∧
      r'.Shows (ts ++ [.use name]) := by
  have hline : ((r.applyTildes ⟨false, false⟩).takeLine true before after).Shows ts :=
    Shows.takeLine (r := r.applyTildes ⟨false, false⟩) h true before after
  have hindent : (before.takeWhile isLineSpace).reverse.all Text.isBlank = true := by
    rw [List.all_reverse, List.all_eq_true]
    exact fun c hc => isBlank_of_isLineSpace (List.mem_takeWhile_imp hc)
  exact ⟨_, rfl, hline.push (n := .partialUse (nameCall name) _ none) ⟨rfl, hindent, rfl⟩ rfl⟩

def addPoint (r : Reading) (name : String) : Reading :=
  { r.push (.partialUse (nameCall name) [] (some [])) with dropBlank := false, dropLine := false }

/-- The two tags of a point stand beside each other, so neither takes a line. -/
theorem applyTag_point (r : Reading) {name : String} (hname : isTemplateName name.toList = true) (before : List Char)
    {after before' : List Char} (hafter : endsLine after = false) (hbefore' : startsLine before' = false)
    (after' : List Char) :
    ∃ r₁, r.applyTag (.openBlock .partialUse (nameCall name)) ⟨false, false⟩ before after = .ok r₁ ∧
      (r₁.addText [] []).applyTag (.close name) ⟨false, false⟩ before' after' = .ok (r.addPoint name) := by
  let opened : Reading := { r.openFrame .partialUse (nameCall name) with dropBlank := false, dropLine := false }
  refine ⟨opened, ?_, ?_⟩
  · show Except.ok (((r.applyTildes ⟨false, false⟩).takeLine false before after).openFrame _ _) = _
    rw [takeLine_beside (by rw [hafter]; rfl)]
    rfl
  · have hclosed : Frame.closedBy ⟨.partialUse, nameCall name, none, r.nodes⟩ name = true := by
      simp [Frame.closedBy, nameCall, hname]
    show (Reading.takeLine opened false before' after').closeFrame name = _
    rw [takeLine_beside (by rw [hbefore', Bool.and_false]), closeFrame_ok rfl hclosed]
    rfl

theorem Shows.addPoint (h : r.Shows ts) (name : String) : (r.addPoint name).Shows (ts ++ [.point name]) :=
  h.push (n := .partialUse (nameCall name) [] (some [])) ⟨rfl, rfl, rfl⟩ rfl

end Reading

/-! ## Text up to a tag -/

/-- A tag comes next, or the end. -/
def AtTag (rest : List Char) : Prop := rest = [] ∨ openBraces.toList <+: rest

theorem drop_takeWhile (p : Char → Bool) (s : List Char) : s.drop (s.takeWhile p).length = s.dropWhile p := by
  have hs := congrArg (List.drop (s.takeWhile p).length) (List.takeWhile_append_dropWhile (p := p) (l := s))
  exact hs.symm.trans List.drop_left

/-- A run of backslashes, and what stands behind its last one. -/
theorem slash_dropWhile_suffix (s : List Char) : '\\' :: s.dropWhile (· == '\\') <:+ '\\' :: s := by
  induction s with
  | nil => exact List.suffix_refl _
  | cons c s ih =>
    rw [List.dropWhile_cons]
    split
    · rename_i hc
      rw [eq_of_beq hc]
      exact ih.trans (List.suffix_cons _ _)
    · exact List.suffix_refl _

/-- Text comes as it is as long as nothing in it stops it and no backslash stands
    directly before two braces. -/
theorem scanText_eq {stop s rest : List Char} (hat : AtTag rest) (hend : rest = [] ∨ stop <+: rest)
    (hstop : ∀ t, t <:+ s → t ≠ [] → ¬ stop <+: t ++ rest)
    (hescape : ∀ t, '\\' :: t <:+ s → ¬ openBraces.toList <+: t ++ rest) : scanText stop 0 (s ++ rest) = (s, rest) := by
  induction s with
  | nil =>
    cases rest with
    | nil => rfl
    | cons c r =>
      have hstops : stop.isPrefixOf (c :: r) = true :=
        List.isPrefixOf_iff_prefix.mpr (hend.resolve_left (List.cons_ne_nil c r))
      rw [List.nil_append, scanText]
      simp only [hstops, if_true]
  | cons c s ih =>
    have hno : stop.isPrefixOf (c :: (s ++ rest)) = false := by
      rw [← Bool.not_eq_true, List.isPrefixOf_iff_prefix]
      exact hstop _ (List.suffix_refl _) (List.cons_ne_nil c s)
    have hrun : (s ++ rest).dropWhile (· == '\\') = s.dropWhile (· == '\\') ++ rest := by
      have hrest : rest.dropWhile (· == '\\') = rest := by
        rcases hat with rfl | ⟨t, rfl⟩
        · rfl
        · rw [show openBraces.toList = ['\x7b', '\x7b'] by decide]
          rfl
      rw [List.dropWhile_append]
      split
      · rename_i hs
        rw [hrest, List.isEmpty_iff.mp hs, List.nil_append]
      · rfl
    have hplain : (c == '\\' && openBraces.toList.isPrefixOf ((s ++ rest).drop
        (if c == '\\' then (s ++ rest).takeWhile (· == '\\') else []).length)) = false := by
      by_cases hc : c = '\\'
      · subst hc
        have := hescape _ (slash_dropWhile_suffix s)
        rw [if_pos (beq_self_eq_true _), drop_takeWhile, hrun, Bool.and_eq_false_iff]
        exact Or.inr (by rw [← Bool.not_eq_true, List.isPrefixOf_iff_prefix]; exact this)
      · simp [hc]
    have ih := ih (fun t ht => hstop t (ht.trans (List.suffix_cons c s)))
      fun t ht => hescape t (ht.trans (List.suffix_cons c s))
    rw [List.cons_append, scanText]
    simp only [hno, hplain, ih]
    rfl

/-- Braces that are not in a text do not come about at its end either, unless it ends in one. -/
theorem not_prefix_append {mark t : List Char} (hmark : ∀ c ∈ mark, c = '\x7b') (ht : ¬ mark <+: t) (hne : t ≠ [])
    (hlast : t.getLast? ≠ some '\x7b') (rest : List Char) : ¬ mark <+: t ++ rest := by
  intro h
  rcases List.prefix_or_prefix_of_prefix h (List.prefix_append t rest) with h | h
  · exact ht h
  · rw [List.getLast?_eq_some_getLast hne, hmark _ (h.subset (List.getLast_mem hne))] at hlast
    exact hlast rfl

/-- A text in which there is no tag, and none comes about at its end. -/
structure Verbatim (s : List Char) : Prop where
  noBraces : Lacks ['\x7b', '\x7b'] s
  last : s.getLast? ≠ some '\x7b' ∧ s.getLast? ≠ some '\\'

structure Raw (s : List Char) : Prop where
  /-- Four braces would be taken for the closing tag. -/
  noTag : Lacks ['\x7b', '\x7b', '\x7b', '\x7b'] s
  noEscape : Lacks ['\\', '\x7b', '\x7b'] s
  last : s.getLast? ≠ some '\x7b' ∧ s.getLast? ≠ some '\\'

theorem Verbatim.raw {s : List Char} (h : Verbatim s) : Raw s where
  noTag hi := h.noBraces (List.IsInfix.trans ⟨[], ['\x7b', '\x7b'], rfl⟩ hi)
  noEscape hi := h.noBraces (List.IsInfix.trans ⟨['\\'], [], rfl⟩ hi)
  last := h.last

theorem Verbatim.of_chars {s : List Char} (h : ∀ c ∈ s, c ≠ '\x7b' ∧ c ≠ '\\') : Verbatim s where
  noBraces hi := (h '\x7b' (hi.subset List.mem_cons_self)).1 rfl
  last := ⟨fun e => (h _ (List.mem_of_getLast? e)).1 rfl, fun e => (h _ (List.mem_of_getLast? e)).2 rfl⟩

theorem getLast?_suffix {s t : List Char} (ht : t <:+ s) (hne : t ≠ []) : t.getLast? = s.getLast? := by
  obtain ⟨p, rfl⟩ := ht
  rw [List.getLast?_append_of_ne_nil _ hne]

theorem Raw.of_suffix {s t : List Char} (h : Raw s) (ht : t <:+ s) (hne : t ≠ []) : Raw t where
  noTag := h.noTag.of_part ht.isInfix
  noEscape := h.noEscape.of_part ht.isInfix
  last := getLast?_suffix ht hne ▸ h.last

/-- No tag is escaped in the text, nor right behind it. -/
theorem Raw.not_escape {s t : List Char} (h : Raw s) (ht : '\\' :: t <:+ s) (rest : List Char) :
    ¬ openBraces.toList <+: t ++ rest := by
  rw [show openBraces.toList = ['\x7b', '\x7b'] by decide]
  by_cases hne : t = []
  · subst hne
    exact absurd (getLast?_suffix ht (List.cons_ne_nil _ _)).symm h.last.2
  · have hlast := getLast?_suffix ((List.suffix_cons '\\' t).trans ht) hne
    refine not_prefix_append (by simp) (fun hp => ?_) hne (hlast ▸ h.last.1) rest
    exact h.noEscape (((List.prefix_cons_inj '\\').mpr hp).isInfix.trans ht.isInfix)

theorem scanText_verbatim {u rest : List Char} (hu : Verbatim u) (hat : AtTag rest) :
    scanText openBraces.toList 0 (u ++ rest) = (u, rest) := by
  refine scanText_eq hat hat (fun t ht hne => ?_) fun t ht => hu.raw.not_escape ht rest
  rw [show openBraces.toList = ['\x7b', '\x7b'] by decide]
  have hlast := getLast?_suffix ht hne ▸ hu.last.1
  exact not_prefix_append (by simp) (fun hp => hu.noBraces (hp.isInfix.trans ht.isInfix)) hne hlast rest

/-! ## Reading what was written -/

section ReadFrom

variable {u rest : List Char} (hu : Verbatim u) (fuel : Nat) (before : List Char) (r : Reading)
include hu

theorem readFrom_end : readFrom (fuel + 1) before u r = .ok (r.addText u u) := by
  have hscan := scanText_verbatim hu (Or.inl rfl)
  rw [List.append_nil] at hscan
  rw [readFrom, hscan]
  simp

theorem readFrom_tag {c : Char} (hmark : IsMark c) {s after : List Char} {tag : Tag} (hrest : rest = inBraces (c :: s))
    (htag : tag? rest = some (tag, ⟨false, false⟩, after)) :
    readFrom (fuel + 1) before (u ++ rest) r =
      ((r.addText u u).applyTag tag ⟨false, false⟩ (u.reverse ++ before) after).bind fun r =>
        readFrom fuel ((rest.take (rest.length - after.length)).reverse ++ (u.reverse ++ before)) after r := by
  have hat : AtTag rest := by
    refine Or.inr ⟨c :: s, ?_⟩
    rw [hrest, show openBraces.toList = ['\x7b', '\x7b'] by decide]
    rfl
  have hsource : (u ++ rest).take ((u ++ rest).length - rest.length) = u := by simp
  have hne : rest.isEmpty = false := by rw [hrest]; rfl
  have hraw : rawOpening? rest = none := by rw [hrest]; exact rawOpening?_mark s hmark
  rw [readFrom, scanText_verbatim hu hat]
  simp only [hsource, hne, hraw, htag]
  rfl

end ReadFrom

theorem useTag_append (name r : List Char) : ∃ s, useTag name ++ r = inBraces ('>' :: s) := ⟨_, rfl⟩

theorem openingTag_append (name r : List Char) : ∃ s, openingTag name ++ r = inBraces ('#' :: s) := ⟨_, rfl⟩

theorem closingTag_append (name r : List Char) : ∃ s, closingTag name ++ r = inBraces ('/' :: s) := ⟨_, rfl⟩

theorem readFrom_point {u : List Char} (hu : Verbatim u) {name : String} (hne : name.toList ≠ [])
    (hname : IsPlain name.toList)
    (fuel : Nat) (before rest : List Char) (r : Reading) :
    ∃ before', readFrom (fuel + 2) before (u ++ ((Token.point name).source ++ rest)) r =
      readFrom fuel before' rest ((r.addText u u).addPoint name) := by
  obtain ⟨s, hs⟩ := openingTag_append name.toList (closingTag name.toList ++ rest)
  obtain ⟨s', hs'⟩ := closingTag_append name.toList rest
  have htag := tag?_opening hne hname (closingTag name.toList ++ rest)
  have htag' := tag?_closing hne hname rest
  rw [String.ofList_toList] at htag htag'
  have hbehind : (openingTag name.toList ++ (closingTag name.toList ++ rest)).take
      ((openingTag name.toList ++ (closingTag name.toList ++ rest)).length - (closingTag name.toList ++ rest).length) =
        openingTag name.toList := by simp
  have hopen := readFrom_tag hu (fuel + 1) before r (Or.inr (Or.inl rfl)) hs htag
  rw [hbehind] at hopen
  have hbefore : startsLine ((openingTag name.toList).reverse ++ (u.reverse ++ before)) = false := by
    simp [startsLine, openingTag, isLineSpace, isLineEnd]
  have hafter : endsLine (closingTag name.toList ++ rest) = false := by
    simp [endsLine, closingTag, isLineSpace, isLineEnd]
  obtain ⟨r₁, hr₁, hr₂⟩ :=
    (r.addText u u).applyTag_point (isTemplateName_plain hne hname) (u.reverse ++ before) hafter hbefore rest
  have hclose := readFrom_tag (u := []) (.of_chars (by simp)) fuel
    ((openingTag name.toList).reverse ++ (u.reverse ++ before)) r₁ (Or.inr (Or.inr rfl)) hs' htag'
  rw [List.nil_append, List.reverse_nil, List.nil_append, hr₂, Except.bind] at hclose
  rw [hr₁, Except.bind, hclose] at hopen
  rw [Token.source, List.append_assoc]
  exact ⟨_, hopen⟩

/-- Reading goes through all tokens and comes to their end. -/
theorem readFrom_written (ts : List Token) (hts : ∀ t ∈ ts, t.Readable) {u : List Char}
    (hu : ∀ c ∈ u, c ≠ '\x7b' ∧ c ≠ '\\') {fuel : Nat} (hfuel : (u ++ written ts).length < fuel) (before : List Char)
    {r : Reading} {done : List Token} (h : r.Shows done) :
    ∃ r', readFrom fuel before (u ++ written ts) r = .ok r' ∧ r'.Shows (done ++ u.map .char ++ ts) := by
  induction ts generalizing u fuel before r done with
  | nil =>
    obtain ⟨fuel, rfl⟩ := Nat.exists_eq_succ_of_ne_zero (Nat.ne_zero_of_lt hfuel)
    refine ⟨r.addText u u, ?_, ?_⟩
    · rw [show u ++ written [] = u from List.append_nil u]
      exact readFrom_end (.of_chars hu) fuel before r
    · rw [List.append_nil]
      exact h.addText u
  | cons t ts ih =>
    obtain ⟨fuel, rfl⟩ := Nat.exists_eq_succ_of_ne_zero (Nat.ne_zero_of_lt hfuel)
    have ht := hts t List.mem_cons_self
    have hrest : ∀ t ∈ ts, t.Readable := fun t ht => hts t (List.mem_cons_of_mem _ ht)
    have hcut : u ++ written (t :: ts) = u ++ (t.source ++ written ts) := by rw [written, List.flatMap_cons, written]
    cases t with
    | char c =>
      -- a character waits for the next tag, which is read with all text in front of it
      have hu' : ∀ d ∈ u ++ [c], d ≠ '\x7b' ∧ d ≠ '\\' := by
        intro d hd
        rcases List.mem_append.mp hd with hd | hd
        · exact hu d hd
        · exact List.mem_singleton.mp hd ▸ ht
      have hcut' : u ++ written (.char c :: ts) = u ++ [c] ++ written ts := by
        rw [hcut, List.append_assoc]
        rfl
      rw [hcut'] at hfuel ⊢
      obtain ⟨r', hr', h'⟩ := ih hrest hu' hfuel before h
      refine ⟨r', hr', ?_⟩
      simpa using h'
    | use name =>
      obtain ⟨s, hs⟩ := useTag_append name.toList (written ts)
      have htag := tag?_use ht.1 ht.2 (written ts)
      have hlength : (useTag name.toList).length ≠ 0 := by simp [useTag]
      rw [hcut, Token.source, List.length_append, List.length_append] at hfuel
      obtain ⟨r₁, hr₁, h₁⟩ := (h.addText u).applyTag_use name (u.reverse ++ before) (written ts)
      have hfuel' : ([] ++ written ts).length < fuel := by rw [List.nil_append]; omega
      obtain ⟨r', hr', h'⟩ := ih hrest (by simp) hfuel' _ h₁
      refine ⟨r', ?_, by simpa using h'⟩
      rw [hcut, Token.source, readFrom_tag (.of_chars hu) fuel before r (Or.inl rfl) hs htag,
        String.ofList_toList, hr₁, Except.bind]
      exact hr'
    | point name =>
      have hlength : 2 ≤ (Token.point name).source.length := by simp [Token.source, openingTag, closingTag]
      rw [hcut, List.length_append, List.length_append] at hfuel
      obtain ⟨fuel, rfl⟩ : ∃ n, fuel = n + 1 := ⟨fuel - 1, by omega⟩
      obtain ⟨before', hpoint⟩ := readFrom_point (.of_chars hu) ht.1 ht.2 fuel before (written ts) r
      have hfuel' : ([] ++ written ts).length < fuel := by rw [List.nil_append]; omega
      obtain ⟨r', hr', h'⟩ := ih hrest (by simp) hfuel' before' ((h.addText u).addPoint name)
      refine ⟨r', ?_, by simpa using h'⟩
      rw [hcut, hpoint]
      exact hr'

theorem read?_written {ts : List Token} (hts : ∀ t ∈ ts, t.Readable) :
    ∃ nodes, read? (String.ofList (written ts)) = .ok nodes ∧ Shows nodes ts := by
  have hstart : Reading.start.Shows [] := ⟨rfl, .nil⟩
  obtain ⟨r, hr, hframes, hshows⟩ := readFrom_written ts hts (u := []) (by simp) (Nat.lt_succ_self _) [] hstart
  refine ⟨r.nodes.reverse, ?_, hshows⟩
  unfold read?
  rw [String.toList_ofList]
  rw [List.nil_append] at hr
  simp only [bind, Except.bind, hr, hframes]
  rfl

/-! ## Raw blocks -/

theorem scanText_raw {s : List Char} (h : s ≠ [] → Raw s) :
    scanText (openBraces ++ openBraces).toList 0 (s ++ rawEndTag) = (s, rawEndTag) := by
  have hfour : (openBraces ++ openBraces).toList = ['\x7b', '\x7b', '\x7b', '\x7b'] := by decide
  have hend : (openBraces ++ openBraces).toList <+: rawEndTag := by decide +kernel
  have hat : AtTag rawEndTag := Or.inr (by decide +kernel)
  refine scanText_eq hat (Or.inr hend) (fun t ht hne => ?_) fun t ht => ?_
  · have hs := h (ht.ne_nil hne)
    rw [hfour]
    exact not_prefix_append (by simp) (fun hp => hs.noTag (hp.isInfix.trans ht.isInfix)) hne
      (getLast?_suffix ht hne ▸ hs.last.1) rawEndTag
  · exact (h (ht.ne_nil (List.cons_ne_nil _ t))).not_escape ht rawEndTag

theorem rawBody?_raw {s : List Char} (h : Raw s) :
    rawBody? (s ++ rawEndTag) = some (skipSpace s, s, "raw", ⟨false, false⟩, []) := by
  have hskip : skipSpace (s ++ rawEndTag) = skipSpace s ++ rawEndTag := by
    unfold skipSpace
    rw [List.dropWhile_append]
    split
    · rename_i hs
      rw [List.isEmpty_iff.mp hs]
      decide +kernel
    · rfl
  have hscan := scanText_raw fun hne => h.of_suffix (List.dropWhile_suffix isTagSpace) hne
  have htake : (s ++ rawEndTag).take ((s ++ rawEndTag).length - rawEndTag.length) = s := by simp
  unfold rawBody?
  rw [hskip, skipSpace]
  simp only [hscan, rawClosing?_raw, htake]
  rfl

/-- Behind white space there is none left to drop. -/
theorem dropLineStart_skipSpace (s : List Char) : dropLineStart (skipSpace s) = skipSpace s := by
  cases e : skipSpace s with
  | nil => rfl
  | cons c r =>
    have hc : isTagSpace c = false := by
      have := List.head?_dropWhile_not isTagSpace s
      rw [show s.dropWhile isTagSpace = c :: r from e] at this
      simpa using this
    have hspace : isLineSpace c = false := by
      rw [← Bool.not_eq_true]
      intro h
      simp only [isLineSpace, Bool.or_eq_true, beq_iff_eq] at h
      rcases h with rfl | rfl <;> cases hc
    unfold dropLineStart
    rw [List.dropWhile_cons_of_neg (by simp [hspace])]
    split
    · rename_i h
      rw [(List.cons.inj h).1] at hc
      cases hc
    · rename_i h
      rw [(List.cons.inj h).1] at hc
      cases hc
    · rfl

/-- A raw block that is the whole source. -/
theorem readFrom_raw {s : List Char} (h : Raw s) (fuel : Nat) :
    ∃ r, readFrom (fuel + 2) [] (rawTag ++ (s ++ rawEndTag)) .start = .ok r ∧ r.frames = [] ∧
      r.nodes = [.block (nameCall "raw") (some [.text (skipSpace s)]) none] := by
  have hat : AtTag (rawTag ++ (s ++ rawEndTag)) := Or.inr (by
    refine ⟨rawTag.drop 2 ++ (s ++ rawEndTag), ?_⟩
    rw [← List.append_assoc]
    congr 1)
  have hscan := scanText_verbatim (u := []) (.of_chars (by simp)) hat
  have hne : (rawTag ++ (s ++ rawEndTag)).isEmpty = false := rfl
  rw [List.nil_append] at hscan
  obtain ⟨alone, hopened⟩ : ∃ alone, ((Reading.start.addText [] []).applyTildes ⟨false, false⟩).takeLine false []
      (s ++ rawEndTag) = ⟨[], [], false, alone⟩ := ⟨_, Reading.takeLine_nil rfl _ _ _⟩
  -- the white space behind the opening tag is gone, whether or not the tag takes its line
  have htrimmed : ((⟨[], [], false, alone⟩ : Reading).openFrame .helper (nameCall "raw")).trimmedText (skipSpace s) =
      skipSpace s := by
    unfold Reading.trimmedText
    rw [dropLineStart_skipSpace]
    exact ite_self _
  rw [readFrom, hscan]
  simp only [rawOpening?_raw, rawBody?_raw h, Nat.sub_self, List.take_zero, hne, Bool.false_eq_true, if_false,
    List.reverse_nil, List.nil_append, hopened, htrimmed, Option.elim, bind, Except.bind]
  rw [Reading.takeLine_beside (by rfl), Reading.closeFrame_ok rfl rfl]
  exact ⟨_, readFrom_end (u := []) (.of_chars (by simp)) fuel _ _, rfl, rfl⟩

/-- A script or style is one block with its text. -/
theorem read?_raw {body : String} (h : Raw body.toList) :
    read? (TemplateSet.verbatim body) = .ok [.block (nameCall "raw") (some [.text (skipSpace body.toList)]) none] := by
  have hcut : (TemplateSet.verbatim body).toList = rawTag ++ (body.toList ++ rawEndTag) := by
    unfold TemplateSet.verbatim rawTag rawEndTag
    simp only [String.toList_append, List.append_assoc]
  have hlength : (rawTag ++ (body.toList ++ rawEndTag)).length + 1 =
      (rawTag ++ (body.toList ++ rawEndTag)).length - 1 + 2 := by
    have : rawTag.length = 11 := by decide
    rw [List.length_append]
    omega
  obtain ⟨r, hr, hframes, hnodes⟩ := readFrom_raw h ((rawTag ++ (body.toList ++ rawEndTag)).length - 1)
  unfold read?
  rw [hcut]
  simp only [hlength, bind, Except.bind, hr, hframes, hnodes]
  rfl

end ComponentSite.Template
