/-
  ComponentSite.Proofs.TagPasses — the includes that tag rewriting leaves in a text.

  A pass replaces the elements of one name, and what it leaves is judged by its include
  marks, `\x7b\x7b>`. A text in which every mark opens the include of a template from some
  set (`OnlyIncludes`) still is one after a pass that puts such an include in
  (`onlyIncludes_replaceIn`). A pass that puts nothing in could bring the characters of a
  mark together, but only behind a brace with an element right after it.

  The components that a text of a page includes in the end are therefore among those
  whose pass changed it (`changing`, `onlyIncludes_replaceAll`).
-/
import ComponentSite.Proofs.ContentText

namespace ComponentSite
open Text

/-! ## One pass -/

namespace ComponentTag

variable {name replacement : List Char}

theorem trimStart_suffix (s : List Char) : trimStart s <:+ s := List.dropWhile_suffix _

theorem rest?_suffix {lead s after : List Char} (h : rest? lead s = some after) : after <:+ s :=
  ⟨lead, (rest?_eq_some h).symm⟩

theorem afterClosingTag?_suffix {s rest : List Char} (h : afterClosingTag? name s = some rest) : rest <:+ s := by
  induction s with
  | nil => cases h
  | cons c r ih =>
    unfold afterClosingTag? at h
    split at h
    · rename_i after hc
      cases h
      obtain ⟨t, ht, hr⟩ := Option.bind_eq_some_iff.mp hc
      exact (rest?_suffix hr).trans ((trimStart_suffix t).trans (rest?_suffix ht))
    · exact (ih h).trans (List.suffix_cons c r)

theorem element?_eq_none {c : Char} (h : c ≠ '<') (r : List Char) : element? name (c :: r) = none := by
  have : rest? ('<' :: name) (c :: r) = none := by
    unfold rest?
    rw [if_neg (by simpa using h.symm)]
  unfold element?
  rw [this]
  rfl

theorem element?_suffix {s rest : List Char} (h : element? name s = some rest) : rest <:+ s := by
  obtain ⟨t, ht, hr⟩ := Option.bind_eq_some_iff.mp h
  have hbody : ∀ d body, t.dropWhile (· != '>') = d :: body → body <:+ s := fun d body hb =>
    (List.suffix_cons d body).trans (hb ▸ (List.dropWhile_suffix _).trans (rest?_suffix ht))
  simp only at hr
  split at hr
  · cases hr
  · rename_i d body hb
    split at hr
    · rename_i rest' hr'
      cases hr
      split at hr'
      · exact (afterClosingTag?_suffix hr').trans (hbody d body hb)
      · cases hr'
    · split at hr
      · cases hr
        exact hbody d _ hb
      · cases hr

theorem replaceIn_element {c : Char} {r rest : List Char} (h : element? name (c :: r) = some rest) :
    replaceIn name replacement (c :: r) =
      (replacement ++ (replaceIn name replacement rest).1, (replaceIn name replacement rest).2 + 1) := by
  rw [replaceIn]
  split
  · rename_i rest' h'
    cases h.symm.trans h'
    rfl
  · rename_i h'
    cases h.symm.trans h'

theorem replaceIn_char {c : Char} {r : List Char} (h : element? name (c :: r) = none) :
    replaceIn name replacement (c :: r) =
      (c :: (replaceIn name replacement r).1, (replaceIn name replacement r).2) := by
  rw [replaceIn]
  split
  · rename_i rest' h'
    cases h.symm.trans h'
  · rfl

theorem replaceIn_chars {p : List Char} (h : '<' ∉ p) (q : List Char) :
    replaceIn name replacement (p ++ q) =
      (p ++ (replaceIn name replacement q).1, (replaceIn name replacement q).2) := by
  induction p with
  | nil => rfl
  | cons c p ih =>
    rw [List.mem_cons, not_or] at h
    rw [List.cons_append, replaceIn_char (element?_eq_none (Ne.symm h.1) _), ih h.2, List.cons_append]

theorem replaceIn_of_not_mem {s : List Char} (h : '<' ∉ s) : replaceIn name replacement s = (s, 0) := by
  have hpass : replaceIn name replacement (s ++ []) = _ := replaceIn_chars h []
  rwa [List.append_nil, replaceIn, List.append_nil] at hpass

theorem replaceIn_of_element {c : Char} {r rest : List Char} (h : element? name (c :: r) = some rest) :
    (replaceIn name replacement (c :: r)).1 = replacement ++ (replaceIn name replacement rest).1 :=
  congrArg Prod.fst (replaceIn_element h)

theorem replaceIn_of_none {c : Char} {r : List Char} (h : element? name (c :: r) = none) :
    (replaceIn name replacement (c :: r)).1 = c :: (replaceIn name replacement r).1 :=
  congrArg Prod.fst (replaceIn_char h)

theorem replaceIn_append {p : List Char} (h : '<' ∉ p) (q : List Char) :
    (replaceIn name replacement (p ++ q)).1 = p ++ (replaceIn name replacement q).1 :=
  congrArg Prod.fst (replaceIn_chars h q)

/-- Going through a text: an element, or a character that starts none. -/
theorem passInduction {motive : List Char → Prop} (name : List Char) (nil : motive [])
    (element : ∀ c r rest, element? name (c :: r) = some rest → motive rest → motive (c :: r))
    (char : ∀ c r, element? name (c :: r) = none → motive r → motive (c :: r)) (s : List Char) : motive s := by
  induction h : s.length using Nat.strongRecOn generalizing s with
  | _ n ih =>
    subst h
    cases s with
    | nil => exact nil
    | cons c r =>
      cases he : element? name (c :: r) with
      | some rest => exact element c r rest he (ih _ (element?_length he) rest rfl)
      | none => exact char c r he (ih _ (Nat.lt_succ_self _) r rfl)

end ComponentTag

/-! ## Include marks -/

def includeMark : List Char := ['\x7b', '\x7b', '>']

def braceTag : List Char := ['\x7b', '<']

def includeRest (template : List Char) : List Char := ' ' :: template ++ ['\x7d', '\x7d']

theorem toList_includeTag (template : String) :
    (Composition.includeTag template).toList = includeMark ++ includeRest template.toList := by
  simp [Composition.includeTag, includeMark, includeRest, String.toList_append]

/-- Every mark opens the include of a template from `T`. -/
def OnlyIncludes (T : List Char → Prop) (s : List Char) : Prop :=
  ∀ a b, s = a ++ includeMark ++ b → ∃ template rest, T template ∧ b = includeRest template ++ rest

namespace OnlyIncludes

variable {T T' : List Char → Prop} {s t : List Char}

theorem mono (h : OnlyIncludes T s) (hT : ∀ n, T n → T' n) : OnlyIncludes T' s := by
  intro a b e
  obtain ⟨n, rest, hn, hb⟩ := h a b e
  exact ⟨n, rest, hT n hn, hb⟩

theorem of_lacks (h : Lacks includeMark s) : OnlyIncludes T s :=
  fun a b e => absurd ⟨a, b, e.symm⟩ h

theorem of_suffix (h : OnlyIncludes T s) (ht : t <:+ s) : OnlyIncludes T t := by
  obtain ⟨p, rfl⟩ := ht
  intro a b e
  exact h (p ++ a) b (by rw [e]; simp)

/-- A character in front opens no mark unless it is a brace with the rest of one behind. -/
theorem cons {c : Char} (h : OnlyIncludes T s)
    (hc : ∀ b, c :: s = includeMark ++ b → ∃ template rest, T template ∧ b = includeRest template ++ rest) :
    OnlyIncludes T (c :: s) := by
  intro a b e
  cases a with
  | nil => exact hc b e
  | cons d a =>
    exact h a b (List.cons.inj e).2

/-- An include may stand in front. -/
theorem include_append {n : List Char} (hn : T n) (hb : '\x7b' ∉ n) (h : OnlyIncludes T s) :
    OnlyIncludes T (includeMark ++ includeRest n ++ s) := by
  have hrest : OnlyIncludes T ('>' :: includeRest n ++ s) := by
    have hne : '\x7b' ∉ '>' :: includeRest n := by simpa [includeRest] using hb
    intro a b e
    rw [List.append_assoc, includeMark] at e
    rcases List.append_eq_append_iff.mp e with ⟨a', rfl, e'⟩ | ⟨c', hc, e'⟩
    · exact h a' b (by rw [e', List.append_assoc]; rfl)
    · cases c' with
      | nil => exact h [] b (by simpa [includeMark] using e'.symm)
      | cons x c' =>
        obtain ⟨rfl, _⟩ := List.cons_eq_cons.mp e'
        exact absurd (hc ▸ by simp) hne
  refine OnlyIncludes.cons (c := '\x7b') (OnlyIncludes.cons (c := '\x7b') hrest ?_) ?_
  · intro b e
    cases e
  · intro b e
    rw [includeMark] at e
    cases e
    exact ⟨n, s, hn, rfl⟩

end OnlyIncludes

/-! ## Marks through a pass -/

/-- What a pass puts in: an include of a template from `T`, or nothing at all where no
    brace stands in front of a tag. -/
def PutsIn (T : List Char → Prop) (replacement s : List Char) : Prop :=
  (∃ template, T template ∧ replacement = includeMark ++ includeRest template) ∨ replacement = [] ∧ Lacks braceTag s

theorem PutsIn.of_suffix {T : List Char → Prop} {replacement s t : List Char} (h : PutsIn T replacement s)
    (ht : t <:+ s) : PutsIn T replacement t :=
  h.imp_right fun h => ⟨h.1, h.2.of_part ht.isInfix⟩

namespace ComponentTag

variable {T : List Char → Prop} {name replacement : List Char}

/-- The first character after a pass was there before, unless an include was put in. -/
theorem replaceIn_eq_cons {c x : Char} {r t : List Char} (hput : PutsIn T replacement (c :: r)) (hc : c = '\x7b')
    (e : (replaceIn name replacement r).1 = x :: t) :
    (∃ r', r = x :: r' ∧ t = (replaceIn name replacement r').1) ∨ x = '\x7b' ∧ t.head? = some '\x7b' := by
  cases r with
  | nil => simp [replaceIn] at e
  | cons d r =>
    cases he : element? name (d :: r) with
    | some rest =>
      rw [replaceIn_of_element he] at e
      rcases hput with ⟨n, _, rfl⟩ | ⟨rfl, hl⟩
      · right
        rw [includeMark] at e
        cases e
        exact ⟨rfl, rfl⟩
      · have hd : d = '<' := by
          by_contra hd
          rw [element?_eq_none hd] at he
          cases he
        subst hd hc
        exact absurd ⟨[], r, rfl⟩ hl
    | none =>
      rw [replaceIn_of_none he] at e
      cases e
      exact Or.inl ⟨r, rfl, rfl⟩

/-- A mark in front after a pass was there before. -/
theorem mark_of_replaceIn {c : Char} {r b : List Char} (hput : PutsIn T replacement (c :: r))
    (e : c :: (replaceIn name replacement r).1 = includeMark ++ b) :
    ∃ b', c :: r = includeMark ++ b' ∧ b = (replaceIn name replacement b').1 := by
  obtain ⟨hc, e⟩ := List.cons.inj e
  rcases replaceIn_eq_cons hput hc e with ⟨r', rfl, e'⟩ | ⟨_, e'⟩
  · rcases replaceIn_eq_cons (hput.of_suffix (List.suffix_cons _ _)) rfl e'.symm with ⟨r'', rfl, e''⟩ | ⟨e'', _⟩
    · exact ⟨r'', by rw [hc]; rfl, e''⟩
    · cases e''
  · cases e'

/-- A pass that puts includes of `T` in, or nothing, leaves includes of `T` only. -/
theorem onlyIncludes_replaceIn (hT : ∀ n, T n → '\x7b' ∉ n ∧ '<' ∉ n) {s : List Char}
    (hput : PutsIn T replacement s) (h : OnlyIncludes T s) : OnlyIncludes T (replaceIn name replacement s).1 := by
  induction s using passInduction name with
  | nil => rwa [replaceIn]
  | element c r rest he ih =>
    have hrest := element?_suffix he
    have ih := ih (hput.of_suffix hrest) (h.of_suffix hrest)
    rw [replaceIn_of_element he]
    rcases hput with ⟨n, hn, rfl⟩ | ⟨rfl, _⟩
    · exact ih.include_append hn (hT n hn).1
    · exact ih
  | char c r he ih =>
    have hr := List.suffix_cons c r
    rw [replaceIn_of_none he]
    refine (ih (hput.of_suffix hr) (h.of_suffix hr)).cons fun b e => ?_
    obtain ⟨b', hb', rfl⟩ := mark_of_replaceIn hput e
    obtain ⟨n, rest, hn, rfl⟩ := h [] b' hb'
    -- the include has no angle bracket after its mark, so the pass goes over it
    refine ⟨n, (replaceIn name replacement rest).1, hn, replaceIn_append ?_ rest⟩
    simpa [includeRest] using (hT n hn).2

/-- Nor does a pass put a brace in front of a tag. -/
theorem lacks_braceTag_replaceIn (hT : ∀ n, T n → '\x7b' ∉ n ∧ '<' ∉ n) {s : List Char}
    (hput : PutsIn T replacement s) (h : Lacks braceTag s) : Lacks braceTag (replaceIn name replacement s).1 := by
  induction s using passInduction name with
  | nil => rwa [replaceIn]
  | element c r rest he ih =>
    have hrest := element?_suffix he
    have ih := ih (hput.of_suffix hrest) (h.of_part hrest.isInfix)
    rw [replaceIn_of_element he]
    rcases hput with ⟨n, hn, rfl⟩ | ⟨rfl, _⟩
    · have hlast : (includeMark ++ includeRest n).getLast? ≠ some '\x7b' := by
        rw [includeRest, ← List.append_assoc, List.getLast?_append_of_ne_nil _ (List.cons_ne_nil _ _)]
        decide
      refine Lacks.append (Or.inr rfl) ?_ ih (Or.inl hlast)
      intro hi
      have : '<' ∈ includeMark ++ includeRest n := hi.subset (by decide)
      simp [includeMark, includeRest, (hT n hn).2] at this
    · exact ih
  | char c r he ih =>
    have hr := List.suffix_cons c r
    have ih := ih (hput.of_suffix hr) (h.of_part hr.isInfix)
    rw [replaceIn_of_none he]
    intro hi
    rcases List.infix_cons_iff.mp hi with hp | hi
    · obtain ⟨b, e⟩ := hp
      obtain ⟨hc, e⟩ := List.cons.inj e
      rcases replaceIn_eq_cons hput hc.symm e.symm with ⟨r', rfl, _⟩ | ⟨e', _⟩
      · exact h ⟨[], r', by rw [hc.symm]; rfl⟩
      · cases e'
    · exact ih hi

end ComponentTag

/-! ## All passes -/

theorem FragmentKind.isPlain_nameFor (kind : FragmentKind) {scopeClass : String} (h : IsPlain scopeClass.toList) :
    IsPlain (kind.nameFor scopeClass).toList := by
  have hlabel : IsPlain (kind.label ++ "-").toList := isPlain_of_all (by cases kind <;> decide)
  rw [nameFor, String.toList_append]
  exact hlabel.append h

def Component.contentName (c : Component) : String := FragmentKind.content.nameFor c.scopeClass

namespace Composition

/-- The components, of those replaced in a text one after the other, whose pass changes it. -/
def changing : List Component → String → List Component
  | [], _ => []
  | t :: rest, text =>
    let next := replaceElements text t
    if next = text then changing rest next else t :: changing rest next

theorem includeFor_of_content {c : Component} (h : c.WellNamed) {own : String} (hc : c.body? .content = some own) :
    includeFor c = includeTag c.contentName := by
  obtain ⟨f, hf, -⟩ := Option.map_eq_some_iff.mp hc
  obtain ⟨hmem, hk⟩ := (Fragment.ofKind?_eq_some h.kinds).mp hf
  unfold includeFor
  rw [hf]
  simp only
  rw [h.name_eq f hmem, hk]
  rfl

theorem includeFor_of_no_content {c : Component} (hc : c.body? .content = none) : includeFor c = "" := by
  unfold includeFor
  rw [Option.map_eq_none_iff.mp hc]

theorem isPlain_contentName {c : Component} (h : IsPlain c.scopeClass.toList) : IsPlain c.contentName.toList :=
  FragmentKind.content.isPlain_nameFor h

theorem not_mem_of_isPlain {n : List Char} (h : IsPlain n) : '\x7b' ∉ n ∧ '<' ∉ n :=
  ⟨fun hm => (isFiller_of_isMarkupNameChar (h _ hm)).1 rfl, fun hm => (isFiller_of_isMarkupNameChar (h _ hm)).2.1 rfl⟩

/-- Includes of `T` only, and, if something may be left out, no brace in front of a tag. -/
structure Clean (T : List Char → Prop) (leavesOut : Prop) (text : String) : Prop where
  includes : OnlyIncludes T text.toList
  braces : leavesOut → Lacks braceTag text.toList

variable {T : List Char → Prop} {leavesOut : Prop} {t : Component} {text : String}

theorem Clean.replaceElements (hT : ∀ n, T n → '\x7b' ∉ n ∧ '<' ∉ n) (ht : t.WellNamed)
    (hname : T t.contentName.toList) (hout : t.body? .content = none → leavesOut) (h : Clean T leavesOut text) :
    Clean T leavesOut (replaceElements text t) := by
  unfold Composition.replaceElements
  generalize t.names = names
  induction names generalizing text with
  | nil => exact h
  | cons name names ih =>
    refine ih ?_
    have hput : PutsIn T (includeFor t).toList text.toList := by
      cases hc : t.body? .content with
      | some own =>
        rw [includeFor_of_content ht hc, toList_includeTag]
        exact Or.inl ⟨_, hname, rfl⟩
      | none =>
        rw [includeFor_of_no_content hc]
        exact Or.inr ⟨rfl, h.braces (hout hc)⟩
    constructor
    · simp only [ComponentTag.replace, String.toList_ofList]
      exact ComponentTag.onlyIncludes_replaceIn hT hput h.includes
    · intro hl
      simp only [ComponentTag.replace, String.toList_ofList]
      exact ComponentTag.lacks_braceTag_replaceIn hT hput (h.braces hl)

/-- After all passes the text includes, besides what it did, components whose pass changed it. -/
theorem onlyIncludes_replaceAll {targets : List Component} (hT : ∀ n, T n → '\x7b' ∉ n ∧ '<' ∉ n)
    (ht : ∀ t ∈ targets, t.WellNamed ∧ IsPlain t.scopeClass.toList)
    (hout : ∀ t ∈ targets, t.body? .content = none → leavesOut) (h : Clean T leavesOut text) :
    OnlyIncludes (fun n => T n ∨ ∃ t ∈ changing targets text, n = t.contentName.toList)
      (replaceAll targets text).toList := by
  induction targets generalizing T text with
  | nil => exact h.includes.mono fun n hn => Or.inl hn
  | cons t rest ih =>
    have hrest := fun t hm => ht t (List.mem_cons_of_mem _ hm)
    have hout' := fun t hm => hout t (List.mem_cons_of_mem _ hm)
    show OnlyIncludes _ (replaceAll rest (Composition.replaceElements text t)).toList
    unfold changing
    simp only
    split
    · rename_i hsame
      rw [hsame]
      exact ih hT hrest hout' h
    · obtain ⟨hw, hp⟩ := ht t List.mem_cons_self
      let T' : List Char → Prop := fun n => T n ∨ n = t.contentName.toList
      have hT' : ∀ n, T' n → '\x7b' ∉ n ∧ '<' ∉ n := by
        rintro n (hn | rfl)
        · exact hT n hn
        · exact not_mem_of_isPlain (isPlain_contentName hp)
      have h' : Clean T' leavesOut text := ⟨h.includes.mono fun n hn => Or.inl hn, h.braces⟩
      have hnext := h'.replaceElements hT' hw (Or.inr rfl) (hout t List.mem_cons_self)
      refine (ih hT' hrest hout' hnext).mono ?_
      rintro n ((hn | rfl) | ⟨t', ht', rfl⟩)
      · exact Or.inl hn
      · exact Or.inr ⟨t, List.mem_cons_self, rfl⟩
      · exact Or.inr ⟨t', List.mem_cons_of_mem _ ht', rfl⟩

end Composition

end ComponentSite
