/-
  ComponentSite.Proofs.ContentText — what is not in a source is not in its content.

  Between a source and the content of its component stand the cut of the markup
  section, the scope class on top-level elements, and the custom element around it all.
  None of them brings two opening braces together with an angle bracket: a mark such as
  `\x7b\x7b>` that the source lacks, its content lacks (`Reachable.lacks_content`). What is added is
  made of scope classes and element names, which are letters, digits and dashes.
-/
import ComponentSite.Proofs.ClassName
import ComponentSite.Proofs.ComposedSet

namespace ComponentSite

open Style (isMarkupNameChar)

/-! ## Marks of opening braces and an angle bracket -/

namespace Text

/-- Opening braces and the angle bracket behind them. -/
def IsBraceMark (mark : List Char) : Prop := mark = ['\x7b', '\x7b', '>'] ∨ mark = ['\x7b', '<']

def Lacks (mark s : List Char) : Prop := ¬ mark <:+: s

theorem Lacks.of_part {mark s t : List Char} (h : Lacks mark s) (ht : t <:+: s) : Lacks mark t :=
  fun hm => h (hm.trans ht)

variable {mark : List Char} (hm : IsBraceMark mark)
include hm

theorem lacks_of_not_mem {s : List Char} (h : '\x7b' ∉ s) : Lacks mark s := by
  intro hi
  have : '\x7b' ∈ mark := by rcases hm with rfl | rfl <;> decide
  exact h (hi.subset this)

theorem IsBraceMark.eq_of_mem_dropLast {c : Char} (h : c ∈ mark.dropLast) : c = '\x7b' := by
  rcases hm with rfl | rfl <;> simpa using h

theorem IsBraceMark.of_mem {c : Char} (h : c ∈ mark) : c = '\x7b' ∨ c = '<' ∨ c = '>' := by
  rcases hm with rfl | rfl <;> simp at h <;> grind

theorem Lacks.append {a b : List Char} (ha : Lacks mark a) (hb : Lacks mark b)
    (h : a.getLast? ≠ some '\x7b' ∨ ∀ c, b.head? = some c → c ≠ '\x7b' ∧ c ≠ '<' ∧ c ≠ '>') : Lacks mark (a ++ b) := by
  intro hi
  rcases List.infix_append_iff_ne_nil.mp hi with hi | hi | ⟨t₁, t₂, h1, h2, rfl, hs, hp⟩
  · exact ha hi
  · exact hb hi
  · rcases h with h | h
    · have hbrace : t₁.getLast h1 = '\x7b' := hm.eq_of_mem_dropLast (by
        rw [List.dropLast_append_of_ne_nil h2]
        exact List.mem_append_left _ (List.getLast_mem h1))
      rw [hs.getLast h1] at hbrace
      exact h (by rw [List.getLast?_eq_some_getLast (hs.ne_nil h1), hbrace])
    · have hhead := h _ (List.head?_eq_some_head (hp.ne_nil h2))
      rw [← hp.head h2] at hhead
      rcases hm.of_mem (List.mem_append_right t₁ (List.head_mem h2)) with e | e | e
      · exact hhead.1 e
      · exact hhead.2.1 e
      · exact hhead.2.2 e

theorem Lacks.exchange {a r r' : List Char} (h : Lacks mark (a ++ '<' :: r)) (h' : Lacks mark ('<' :: r')) :
    Lacks mark (a ++ '<' :: r') := by
  intro hi
  rcases List.infix_append_iff_ne_nil.mp hi with hi | hi | ⟨t₁, t₂, _, h2, rfl, hs, hp⟩
  · exact h (hi.trans (List.infix_append' [] a _))
  · exact h' hi
  · obtain ⟨x, t, rfl⟩ := List.exists_cons_of_ne_nil h2
    obtain ⟨rfl, _⟩ := List.cons_prefix_cons.mp hp
    -- the bracket can only be the last character of the mark
    have ht : t = [] := by
      by_contra hne
      have : '<' ∈ (t₁ ++ '<' :: t).dropLast := by
        rw [List.dropLast_append_of_ne_nil h2]
        refine List.mem_append_right _ ?_
        rw [List.dropLast_cons_of_ne_nil hne]
        exact List.mem_cons_self
      exact absurd (hm.eq_of_mem_dropLast this) (by decide)
    subst ht
    obtain ⟨p, rfl⟩ := hs
    exact h ⟨p, r, by simp⟩

abbrev IsFiller (c : Char) : Prop := c ≠ '\x7b' ∧ c ≠ '<' ∧ c ≠ '>'

omit hm in
theorem isFiller_of_all {s : List Char} (h : (s.all fun c => decide (IsFiller c)) = true) : ∀ c ∈ s, IsFiller c :=
  fun c hc => of_decide_eq_true (List.all_eq_true.mp h c hc)

theorem Lacks.insert {u m v : List Char} (hu : Lacks mark u) (hv : Lacks mark v) (hne : m ≠ [])
    (h : ∀ c ∈ m, IsFiller c) : Lacks mark (u ++ m ++ v) := by
  have hlast : (u ++ m).getLast? ≠ some '\x7b' := by
    rw [List.getLast?_append_of_ne_nil _ hne]
    intro e
    exact (h _ (List.mem_of_getLast? e)).1 rfl
  have hlacks : Lacks mark m := lacks_of_not_mem hm fun hmem => (h _ hmem).1 rfl
  refine (hu.append hm hlacks (Or.inr fun c hc => ?_)).append hm hv (Or.inl hlast)
  exact h c (List.mem_of_head? hc)

end Text

/-! ## From the source to the content -/

theorem isFiller_of_isMarkupNameChar {c : Char} (h : isMarkupNameChar c = true) : Text.IsFiller c := by
  refine ⟨?_, ?_, ?_⟩ <;> rintro rfl <;> exact absurd h (by decide)

namespace Style
open Text

theorem exists_append_trimStart (s : List Char) : ∃ blanks, s = blanks ++ trimStart s :=
  ⟨s.takeWhile isBlank, List.takeWhile_append_dropWhile.symm⟩

/-- The value found and what stands around it are parts of the attributes. -/
theorem classValue?_append {s value rest : List Char} (h : classValue? s = some (value, rest)) :
    ∃ x y, s = x ++ value ++ y ++ rest := by
  obtain ⟨s₁, h₁, h⟩ := Option.bind_eq_some_iff.mp h
  obtain ⟨s₂, h₂, h⟩ := Option.bind_eq_some_iff.mp h
  obtain ⟨b₁, e₁⟩ := exists_append_trimStart s₁
  obtain ⟨b₂, e₂⟩ := exists_append_trimStart s₂
  split at h
  · rename_i q r hq
    split at h
    · refine ⟨"class".toList ++ b₁ ++ ['='] ++ b₂ ++ [q], [q], ?_⟩
      rw [rest?_eq_some h₁, e₁, rest?_eq_some h₂, e₂, hq, breakOn_append h]
      simp
    · cases h
  · cases h

theorem findClass_append {afterWord : Bool} {s before value rest : List Char}
    (h : findClass afterWord s = some (before, value, rest)) : ∃ x y, s = before ++ x ++ value ++ y ++ rest := by
  induction s generalizing afterWord before with
  | nil => cases h
  | cons c r ih =>
    unfold findClass at h
    split at h
    · rename_i hv
      split at hv
      · cases hv
      · cases h
        exact classValue?_append hv
    · obtain ⟨⟨b, v, t⟩, hf, he⟩ := Option.map_eq_some_iff.mp h
      simp only [Prod.mk.injEq] at he
      obtain ⟨rfl, rfl, rfl⟩ := he
      obtain ⟨x, y, e⟩ := ih hf
      exact ⟨x, y, by simp [e]⟩

variable {mark cls : List Char} (hm : IsBraceMark mark) (hcls : IsPlain cls)
include hm hcls

theorem lacks_addClass {u attributes v : List Char} (h : Lacks mark (u ++ attributes ++ v)) :
    Lacks mark (u ++ addClass cls attributes ++ v) := by
  have hfill : ∀ c ∈ cls, IsFiller c := fun c hc => isFiller_of_isMarkupNameChar (hcls c hc)
  have hlead : ∀ c ∈ "class=\x22".toList, IsFiller c := isFiller_of_all (by decide)
  have hend : ∀ c ∈ ' ' :: (cls ++ ['\x22']), IsFiller c := by
    intro c hc
    simp only [List.mem_cons, List.mem_append, List.not_mem_nil, or_false] at hc
    rcases hc with rfl | hc | rfl
    · decide
    · exact hfill c hc
    · decide
  have hattr : ∀ c ∈ classAttribute cls, IsFiller c := by
    intro c hc
    rcases List.mem_append.mp hc with hc | hc
    · rcases List.mem_append.mp hc with hc | hc
      · exact hlead c hc
      · exact hfill c hc
    · rw [List.mem_singleton.mp hc]
      decide
  have hne : ∀ value, classAttribute value ≠ [] := fun _ =>
    List.append_ne_nil_of_right_ne_nil _ (List.cons_ne_nil _ _)
  unfold addClass
  split
  · rename_i before value rest hf
    obtain ⟨x, y, rfl⟩ := findClass_append hf
    have hu : Lacks mark (u ++ before) := h.of_part ⟨[], x ++ value ++ y ++ rest ++ v, by simp⟩
    have hv : Lacks mark (rest ++ v) := h.of_part ⟨u ++ before ++ x ++ value ++ y, [], by simp⟩
    have hvalue : Lacks mark value := h.of_part ⟨u ++ before ++ x, y ++ rest ++ v, by simp⟩
    simp only
    split
    · have := hu.insert hm hv (hne cls) hattr
      simpa only [List.append_assoc] using this
    · have hinner := hvalue.insert hm hv (List.cons_ne_nil _ _) hend
      have := hu.insert hm hinner (m := "class=\x22".toList) (by decide) hlead
      unfold classAttribute
      simpa only [List.append_assoc, List.cons_append] using this
  · have hu : Lacks mark u := h.of_part ⟨[], attributes ++ v, by simp⟩
    have hv : Lacks mark (attributes ++ v) := h.of_part ⟨u, [], by simp⟩
    have hmid : ∀ c ∈ ' ' :: classAttribute cls, IsFiller c := by
      intro c hc
      rcases List.mem_cons.mp hc with rfl | hc
      · decide
      · exact hattr c hc
    have := hu.insert hm hv (List.cons_ne_nil _ _) hmid
    simpa only [List.append_assoc, List.cons_append] using this

/-- The class on top-level elements brings no mark into the text, whatever stands before. -/
theorem lacks_markRoots (tags : List (List Char)) {depth : Nat} {pieces : List MarkupPiece} {a : List Char}
    (h : Lacks mark (a ++ pieces.flatMap MarkupPiece.text)) : Lacks mark (a ++ markRoots cls tags depth pieces) := by
  induction pieces generalizing depth a with
  | nil => exact h
  | cons piece rest ih =>
    rw [List.flatMap_cons, ← List.append_assoc] at h
    unfold markRoots
    split
    · rename_i name attributes selfClosing
      simp only
      rw [← List.append_assoc]
      split
      · refine ih ?_
        have hopen : Lacks mark ('<' :: name ++ attributes ++
            ((if selfClosing then ['/'] else []) ++ '>' :: rest.flatMap MarkupPiece.text)) :=
          h.of_part ⟨a, [], by simp [MarkupPiece.text]⟩
        have := h
        simp only [MarkupPiece.text, List.append_assoc, List.cons_append, List.nil_append, Bool.false_eq_true,
          if_false] at this ⊢
        refine this.exchange hm ?_
        have := lacks_addClass hm hcls hopen
        simpa only [List.append_assoc, List.cons_append] using this
      · exact ih h
    · rw [← List.append_assoc]
      exact ih h
    · rw [← List.append_assoc]
      exact ih h

theorem lacks_markRootElements (tags : List (List Char)) {markup : List Char} (h : Lacks mark markup) :
    Lacks mark (markRootElements cls tags markup) := by
  unfold markRootElements
  split
  · exact h
  · exact lacks_markRoots hm hcls tags (a := []) (by rwa [readPieces_text])

end Style

namespace Text

theorem trim_isInfix (s : List Char) : trim s <:+: s := by
  have h1 : trimStart s <:+: s := (List.dropWhile_suffix _).isInfix
  have h2 : trim s <:+: trimStart s := by
    have := (List.dropWhile_suffix (l := (trimStart s).reverse) isBlank).isInfix.reverse
    rwa [List.reverse_reverse] at this
  exact h2.trans h1

end Text

theorem Sections.markup_isInfix {markers : SectionMarkers} {raw : String} {path : Path} {sections : Sections}
    (h : extract markers raw path = .ok sections) : sections.markup.toList <:+: raw.toList := by
  unfold extract ofSource? at h
  cases h1 : between markers.script raw.toList with
  | error e => rw [h1] at h; cases h
  | ok script =>
    cases h2 : between markers.style raw.toList with
    | error e => rw [h1, h2] at h; cases h
    | ok style =>
      cases h3 : between markers.markup raw.toList with
      | error e => rw [h1, h2, h3] at h; cases h
      | ok markup =>
        rw [h1, h2, h3] at h
        cases h
        simp only [content, String.toList_ofList]
        cases markup with
        | none => exact List.nil_infix
        | some body =>
          refine (Text.trim_isInfix body).trans ?_
          unfold between at h3
          split at h3
          · cases h3
          · rename_i before after hopen
            split at h3
            · rename_i body' rest hclose
              cases h3
              rw [Text.breakOn_append hopen, Text.breakOn_append hclose]
              exact ⟨before ++ markers.markup.opening.toList, markers.markup.closing.toList ++ rest, by simp⟩
            · cases h3

namespace Compile

variable {options : CompileOptions}

theorem finish_markup (g : ComponentGraph) (key : Path) (name : String) (source : ReadSource) (children : List Path) :
    (finish options g key name source children).markup = source.sections.markup ∨
      ∃ tags, (finish options g key name source children).markup =
        String.ofList (Style.markRootElements (options.classOf key).toList tags source.sections.markup.toList) := by
  unfold finish
  by_cases h : (options.scopedStyles && !source.sections.style.isEmpty) = true
  · simp only [if_pos h]
    exact Or.inr ⟨_, rfl⟩
  · simp only [if_neg h]
    exact Or.inl trivial

/-- The content is the markup, perhaps within a custom element. -/
theorem body?_content {c : Component} {script markup style own : String} {element : Option CustomElement}
    (h : c.fragments = Fragment.generate c.scopeClass script markup style element)
    (hown : c.body? .content = some own) :
    own = Text.trimmed markup ∨ ∃ e, element = some e ∧ own = e.wrapMarkup (Text.trimmed markup) := by
  obtain ⟨f, hf, rfl⟩ := Option.map_eq_some_iff.mp hown
  obtain ⟨hmem, hk⟩ := (Fragment.ofKind?_eq_some (wellNamed_generate c h).kinds).mp hf
  rw [h] at hmem
  unfold Fragment.generate at hmem
  simp only [List.mem_append, or_assoc] at hmem
  rcases hmem with hmem | hmem | hmem
  · split at hmem <;> simp at hmem
    subst hmem
    cases hk
  · split at hmem <;> simp at hmem
    subst hmem
    simp only
    split
    · rename_i e he
      split at he
      · cases he
      · exact Or.inr ⟨e, he, rfl⟩
    · exact Or.inl rfl
  · split at hmem <;> simp at hmem
    subst hmem
    cases hk

open Text in
theorem lacks_wrapMarkup {mark : List Char} (hm : IsBraceMark mark) {e : CustomElement} (he : IsPlain e.tag.toList)
    {markup : String} (h : Lacks mark markup.toList) : Lacks mark (e.wrapMarkup markup).toList := by
  have htag : '\x7b' ∉ e.tag.toList := fun hmem => (isFiller_of_isMarkupNameChar (he _ hmem)).1 rfl
  have hopen : Lacks mark ("<".toList ++ e.tag.toList ++ ">".toList) :=
    lacks_of_not_mem hm (by simpa using htag)
  have hclose : Lacks mark ("</".toList ++ e.tag.toList ++ ">".toList) :=
    lacks_of_not_mem hm (by simpa using htag)
  have hfeed : ∀ c ∈ ['\n'], IsFiller c := isFiller_of_all (by decide)
  have := (hopen.insert hm h (by decide) hfeed).insert hm hclose (by decide) hfeed
  unfold CustomElement.wrapMarkup
  simpa [String.toList_append] using this

end Compile

open Text in
/-- A mark that a source lacks, the content of its component lacks. -/
theorem ComponentGraph.Reachable.lacks_content {options : CompileOptions} {g : ComponentGraph}
    (h : Reachable options g) (hcls : ∀ key, IsPlain (options.classOf key).toList) {mark : List Char}
    (hm : IsBraceMark mark) : ∀ c ∈ g.components, Lacks mark c.rawSource.toList →
      ∀ own ∈ c.body? .content, Lacks mark own.toList := by
  refine h.forall_components ?_ ?_
  · intro c name hc
    obtain ⟨_, he⟩ := Component.Extends.bind c name
    rw [he]
    exact hc
  · intro files g key name isPage source children hread hraw own hown
    have hsection : Lacks mark source.sections.markup.toList :=
      hraw.of_part (Sections.markup_isInfix (Compile.readSource_ok hread).2.1)
    have hmarkup : Lacks mark (Compile.finish options g key name source children).markup.toList := by
      rcases Compile.finish_markup g key name source children with e | ⟨tags, e⟩
      · rwa [e]
      · rw [e, String.toList_ofList]
        exact Style.lacks_markRootElements hm (hcls key) tags hsection
    have htrimmed : Lacks mark (trimmed (Compile.finish options g key name source children).markup).toList := by
      rw [trimmed, String.toList_ofList]
      exact hmarkup.of_part (trim_isInfix _)
    rcases Compile.body?_content (Compile.finish_fragments options g key name source children) hown
        with rfl | ⟨e, he, rfl⟩
    · exact htrimmed
    · obtain ⟨appDir, _, rfl⟩ := Option.map_eq_some_iff.mp he
      exact Compile.lacks_wrapMarkup hm (CustomElement.isPlain_tag key appDir) htrimmed

end ComponentSite
