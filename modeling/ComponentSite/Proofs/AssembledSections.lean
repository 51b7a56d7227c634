/-
  ComponentSite.Proofs.AssembledSections — sections read back from the source they were
  written into.

  A source is assembled from sections in any order, each between its markers, with any texts
  around them that open no section. A marker has its angle brackets at its ends only, so no
  occurrence of one lies across the border of another (`lacks_append`): the first opening
  marker of a kind is that of its section, and the first closing marker behind it is the one
  that was written (`between_assembled`). Each body comes back trimmed. Whatever the source
  is, it cannot be read exactly if one of its sections is left open (`sections_read_back`).
-/
import ComponentSite.Proofs.Occurrences
import ComponentSite.Sections

namespace ComponentSite.Sections
open Text

/-! ## Sources -/

inductive SectionKind
  | script
  | style
  | markup
  deriving DecidableEq, Repr

def markersOf : SectionKind → Markers
  | .script => ({} : SectionMarkers).script
  | .style => ({} : SectionMarkers).style
  | .markup => ({} : SectionMarkers).markup

def opening (kind : SectionKind) : List Char := (markersOf kind).opening.toList

def closing (kind : SectionKind) : List Char := (markersOf kind).closing.toList

structure WrittenSection where
  kind : SectionKind
  body : List Char
  behind : List Char
  deriving DecidableEq, Repr

def OpensNone (s : List Char) : Prop := ∀ kind, Lacks (opening kind) s

namespace WrittenSection

def text (w : WrittenSection) : List Char := opening w.kind ++ w.body ++ closing w.kind ++ w.behind

structure Sound (w : WrittenSection) : Prop where
  body : ∀ kind, Lacks (opening kind) w.body ∧ Lacks (closing kind) w.body
  behind : OpensNone w.behind

end WrittenSection

def assembled (lead : List Char) (sections : List WrittenSection) : List Char :=
  lead ++ sections.flatMap WrittenSection.text

def bodyOf (kind : SectionKind) (sections : List WrittenSection) : Option (List Char) :=
  (sections.find? (·.kind = kind)).map (·.body)

/-- The first opening marker of the kind has no closing one behind it. -/
def LeftOpen (kind : SectionKind) (source : List Char) : Prop :=
  ∃ before after, source = before ++ opening kind ++ after ∧
    (∀ front behind, source = front ++ opening kind ++ behind → before.length ≤ front.length) ∧
    Lacks (closing kind) after

/-! ## Markers -/

section
variable {needle a b : List Char}

/-- Where one text ends with a bracket or the other begins with one, no marker goes across. -/
theorem lacks_append (hlast : '>' ∉ needle.dropLast) (hhead : '<' ∉ needle.tail) (ha : Lacks needle a)
    (hb : Lacks needle b) (h : a.getLast? = some '>' ∨ b.head? = some '<') : Lacks needle (a ++ b) := by
  intro hin
  rcases List.infix_append_iff_ne_nil.mp hin with hin | hin | ⟨t, u, ht, hu, rfl, hsuffix, hbegins⟩
  · exact ha hin
  · exact hb hin
  · rcases h with h | h
    · have hbracket : t.getLast ht = '>' := by
        rw [hsuffix.getLast ht]
        rw [List.getLast?_eq_some_getLast (hsuffix.ne_nil ht)] at h
        exact Option.some.inj h
      refine hlast ?_
      rw [List.dropLast_append_of_ne_nil hu, ← hbracket]
      exact List.mem_append_left _ (List.getLast_mem ht)
    · have hbracket : u.head hu = '<' := by
        rw [hbegins.head hu]
        rw [List.head?_eq_some_head (hbegins.ne_nil hu)] at h
        exact Option.some.inj h
      refine hhead ?_
      rw [List.tail_append_of_ne_nil ht, ← hbracket]
      exact List.mem_append_right _ (List.head_mem hu)

end

theorem opening_brackets (kind : SectionKind) : '>' ∉ (opening kind).dropLast ∧ '<' ∉ (opening kind).tail := by
  cases kind <;> decide

theorem breakOn_opening {kind : SectionKind} {s : List Char} (h : Lacks (opening kind) s) (rest : List Char) :
    breakOn (opening kind) (s ++ (opening kind ++ rest)) = some (s, rest) := by
  have hmark : opening kind = (opening kind).dropLast ++ ['>'] := by cases kind <;> decide
  rw [hmark] at h ⊢
  exact breakOn_of_lacks (by simpa using (opening_brackets kind).1) h rest

theorem breakOn_closing {kind : SectionKind} {s : List Char} (h : Lacks (closing kind) s) (rest : List Char) :
    breakOn (closing kind) (s ++ (closing kind ++ rest)) = some (s, rest) := by
  have hmark : closing kind = (closing kind).dropLast ++ ['>'] := by cases kind <;> decide
  have hlast : '>' ∉ (closing kind).dropLast := by cases kind <;> decide
  rw [hmark] at h ⊢
  exact breakOn_of_lacks (by simpa using hlast) h rest

theorem opening_apart {kind other : SectionKind} (h : other ≠ kind) :
    Lacks (opening kind) (opening other) ∧ (opening other).getLast? = some '>' := by
  unfold Lacks
  revert h
  cases kind <;> cases other <;> decide +kernel

theorem closing_apart (other kind : SectionKind) :
    Lacks (opening kind) (closing other) ∧ (closing other).head? = some '<' ∧
      (closing other).getLast? = some '>' := by
  unfold Lacks
  cases kind <;> cases other <;> decide +kernel

/-- A section of one kind opens none of another. -/
theorem WrittenSection.Sound.lacks_text {w : WrittenSection} (hw : w.Sound) {kind : SectionKind}
    (hkind : w.kind ≠ kind) : Lacks (opening kind) w.text := by
  obtain ⟨hlast, hhead⟩ := opening_brackets kind
  obtain ⟨hopening, hopeningLast⟩ := opening_apart hkind
  obtain ⟨hclosing, hclosingHead, hclosingLast⟩ := closing_apart w.kind kind
  have hopened : Lacks (opening kind) (opening w.kind ++ w.body) :=
    lacks_append hlast hhead hopening (hw.body kind).1 (Or.inl hopeningLast)
  have hclosed : Lacks (opening kind) (opening w.kind ++ w.body ++ closing w.kind) :=
    lacks_append hlast hhead hopened hclosing (Or.inr hclosingHead)
  refine lacks_append hlast hhead hclosed (hw.behind kind) (Or.inl ?_)
  rw [List.getLast?_append, hclosingLast]
  rfl

/-! ## Reading -/

/-- Of each kind the section that was written is read. -/
theorem between_assembled {kind : SectionKind} {lead : List Char} {sections : List WrittenSection}
    (hlead : Lacks (opening kind) lead) (h : ∀ w ∈ sections, w.Sound) :
    between (markersOf kind) (assembled lead sections) = .ok (bodyOf kind sections) := by
  induction sections generalizing lead with
  | nil =>
    have hnone : breakOn (markersOf kind).opening.toList (assembled lead []) = none :=
      breakOn_eq_none_iff.mpr (by rwa [assembled, List.flatMap_nil, List.append_nil])
    rw [between, hnone]
    rfl
  | cons w sections ih =>
    obtain ⟨hw, hrest⟩ := List.forall_mem_cons.mp h
    by_cases hkind : w.kind = kind
    · subst hkind
      have hcut : assembled lead (w :: sections) =
          lead ++ (opening w.kind ++ (w.body ++ (closing w.kind ++ assembled w.behind sections))) := by
        simp [assembled, WrittenSection.text]
      have hopened : breakOn (markersOf w.kind).opening.toList (assembled lead (w :: sections)) =
          some (lead, w.body ++ (closing w.kind ++ assembled w.behind sections)) := hcut ▸ breakOn_opening hlead _
      have hclosed : breakOn (markersOf w.kind).closing.toList
          (w.body ++ (closing w.kind ++ assembled w.behind sections)) = some (w.body, assembled w.behind sections) :=
        breakOn_closing (hw.body w.kind).2 _
      rw [between, hopened]
      simp only [hclosed]
      simp [bodyOf]
    · have hcut : assembled lead (w :: sections) = assembled (lead ++ w.text) sections := by
        simp [assembled]
      obtain ⟨hlast, hhead⟩ := opening_brackets kind
      have htext : w.text.head? = some '<' := by
        have hopening : (opening w.kind).head? = some '<' := by
          generalize w.kind = other
          cases other <;> decide
        simp [WrittenSection.text, List.head?_append, hopening]
      have hbody : bodyOf kind (w :: sections) = bodyOf kind sections := by simp [bodyOf, hkind]
      rw [hcut, hbody]
      exact ih (lacks_append hlast hhead hlead (hw.lacks_text hkind) (Or.inr htext)) hrest

theorem between_eq_error_iff {kind : SectionKind} {source : List Char} :
    (∃ fault, between (markersOf kind) source = .error fault) ↔ LeftOpen kind source := by
  have hopened : LeftOpen kind source ↔ ∃ before after,
      breakOn (markersOf kind).opening.toList source = some (before, after) ∧
      breakOn (markersOf kind).closing.toList after = none := by
    simp only [LeftOpen, breakOn_eq_some_iff, breakOn_eq_none_iff, and_assoc, opening, closing]
  rw [hopened, between]
  cases breakOn (markersOf kind).opening.toList source with
  | none => simp
  | some found =>
    obtain ⟨before, after⟩ := found
    cases hclosed : breakOn (markersOf kind).closing.toList after <;> simp [hclosed]

theorem ofSource?_eq_error_iff {source : List Char} :
    (∃ fault, ofSource? {} source = .error fault) ↔
      ∃ kind, ∃ fault, between (markersOf kind) source = .error fault := by
  have hkinds : (∃ kind, ∃ fault, between (markersOf kind) source = .error fault) ↔
      (∃ fault, between (markersOf .script) source = .error fault) ∨
        (∃ fault, between (markersOf .style) source = .error fault) ∨
        ∃ fault, between (markersOf .markup) source = .error fault := by
    constructor
    · rintro ⟨kind, h⟩
      cases kind
      · exact Or.inl h
      · exact Or.inr (Or.inl h)
      · exact Or.inr (Or.inr h)
    · rintro (h | h | h)
      · exact ⟨_, h⟩
      · exact ⟨_, h⟩
      · exact ⟨_, h⟩
  rw [hkinds]
  unfold ofSource?
  simp only [markersOf]
  cases between ({} : SectionMarkers).script source with
  | error fault => exact ⟨fun _ => Or.inl ⟨fault, rfl⟩, fun _ => ⟨fault, rfl⟩⟩
  | ok script =>
    cases between ({} : SectionMarkers).style source with
    | error fault => exact ⟨fun _ => Or.inr (Or.inl ⟨fault, rfl⟩), fun _ => ⟨fault, rfl⟩⟩
    | ok style =>
      cases between ({} : SectionMarkers).markup source with
      | error fault => exact ⟨fun _ => Or.inr (Or.inr ⟨fault, rfl⟩), fun _ => ⟨fault, rfl⟩⟩
      | ok markup =>
        constructor
        · rintro ⟨_, h⟩
          cases h
        · rintro (⟨_, h⟩ | ⟨_, h⟩ | ⟨_, h⟩) <;> cases h

/-- Sections come back from the source they were assembled into, trimmed. A source whose sections cannot be read is
    one with a section left open. -/
theorem sections_read_back {lead : List Char} {sections : List WrittenSection} (hlead : OpensNone lead)
    (h : ∀ w ∈ sections, w.Sound) (path : Path) :
    extract {} (String.ofList (assembled lead sections)) path = .ok {
        script := String.ofList (trim ((bodyOf .script sections).getD []))
        style := String.ofList (trim ((bodyOf .style sections).getD []))
        markup := String.ofList (trim ((bodyOf .markup sections).getD []))
        hasMarkup := (bodyOf .markup sections).isSome } ∧
      ∀ source : String, (∃ e, extract {} source path = .error e) ↔ ∃ kind, LeftOpen kind source.toList := by
  constructor
  · have hscript := between_assembled (hlead .script) h
    have hstyle := between_assembled (hlead .style) h
    have hmarkup := between_assembled (hlead .markup) h
    simp only [markersOf] at hscript hstyle hmarkup
    rw [extract, String.toList_ofList, ofSource?, hscript, hstyle, hmarkup]
    rfl
  · intro source
    have hfault : (∃ e, extract {} source path = .error e) ↔ ∃ fault, ofSource? {} source.toList = .error fault := by
      rw [extract]
      cases ofSource? {} source.toList <;> simp [Except.mapError]
    rw [hfault, ofSource?_eq_error_iff]
    exact exists_congr fun kind => between_eq_error_iff

/-- A style before the script, no markup, and closing markers and beginnings of opening ones around them. -/
theorem sections_read_back_out_of_order :
    let lead := "</style> <scr".toList
    let sections : List WrittenSection :=
      [⟨.style, " p \x7b \x7d ".toList, "ipt> </component>".toList⟩,
        ⟨.script, "let a = 1 < 2;\n".toList, "<component".toList⟩]
    OpensNone lead ∧ (∀ w ∈ sections, w.Sound) ∧
      extract {}
          "</style> <scr<style> p \x7b \x7d </style>ipt> </component><script>let a = 1 < 2;\n</script><component"
          ⟨"a.goo"⟩ =
        .ok ⟨"let a = 1 < 2;", "p \x7b \x7d", "", false⟩ := by
  intro lead sections
  have hlead : OpensNone lead := by
    intro kind
    unfold Lacks
    cases kind <;> decide +kernel
  have hsound : ∀ w ∈ sections, w.Sound := by
    refine List.forall_mem_cons.mpr ⟨⟨?_, ?_⟩, List.forall_mem_singleton.mpr ⟨?_, ?_⟩⟩ <;>
      intro kind <;> unfold Lacks <;> cases kind <;> decide +kernel
  exact ⟨hlead, hsound, (sections_read_back hlead hsound ⟨"a.goo"⟩).1⟩

end ComponentSite.Sections
