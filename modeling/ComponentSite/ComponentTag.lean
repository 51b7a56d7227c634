/-
  ComponentSite.ComponentTag — the tags that stand for a component in markup.

  A component element is either paired, an opening tag with everything up to the
  first closing tag of the same name, or a single self-closing tag. What follows
  the name in the opening tag must be nothing, white space, or white space and
  further text that does not end in a slash; `>` always ends the tag, quoted or
  not. Elements are found from left to right and do not overlap.
-/
import ComponentSite.Text.Blank
import ComponentSite.Text.Search

namespace ComponentSite.ComponentTag
open Text

/-- The text between the name and `>` leaves the tag open, so that a closing tag is
    needed. -/
def opensPair (inner : List Char) : Bool :=
  match inner with
  | [] => true
  | c :: r => isBlank c && (r.all isBlank || r.getLast? != some '/')

/-- The text between the name and `>` closes the tag at once. -/
def closesItself (inner : List Char) : Bool :=
  match inner with
  | ['/'] => true
  | c :: r => isBlank c && r.getLast? == some '/'
  | [] => false

def closingTag? (name s : List Char) : Option (List Char) :=
  (rest? ("</".toList ++ name) s).bind fun s => rest? ['>'] (trimStart s)

def afterClosingTag? (name : List Char) : List Char → Option (List Char)
  | [] => none
  | c :: r =>
    match closingTag? name (c :: r) with
    | some rest => some rest
    | none => afterClosingTag? name r

/-- The rest after the component element that the text starts with. -/
def element? (name s : List Char) : Option (List Char) := do
  let s ← rest? ('<' :: name) s
  let inner := s.takeWhile (· != '>')
  match s.dropWhile (· != '>') with
  | [] => none
  | _ :: body =>
    match if opensPair inner then afterClosingTag? name body else none with
    | some rest => some rest
    | none => if closesItself inner then some body else none

/-! ## An element is not empty -/

theorem length_dropWhile_le (p : Char → Bool) (s : List Char) : (s.dropWhile p).length ≤ s.length := by
  simpa using (List.dropWhile_sublist p).length_le

theorem closingTag?_length {name s rest : List Char} (h : closingTag? name s = some rest) :
    rest.length < s.length := by
  obtain ⟨t, ht, hr⟩ := Option.bind_eq_some_iff.mp h
  have h1 := rest?_length ht
  have h2 := rest?_length hr
  have h3 := length_dropWhile_le isBlank t
  simp [trimStart] at *; omega

theorem afterClosingTag?_length {name s rest : List Char} (h : afterClosingTag? name s = some rest) :
    rest.length < s.length := by
  induction s with
  | nil => simp [afterClosingTag?] at h
  | cons c r ih =>
    simp only [afterClosingTag?] at h
    split at h
    · next hc => simp at h; subst h; exact closingTag?_length hc
    · have := ih h; simp; omega

theorem element?_length {name s rest : List Char} (h : element? name s = some rest) :
    rest.length < s.length := by
  obtain ⟨t, ht, hr⟩ := Option.bind_eq_some_iff.mp h
  have h1 := rest?_length ht
  have h2 := length_dropWhile_le (· != '>') t
  simp only at hr
  split at hr
  · simp at hr
  · next d body hb =>
    rw [hb] at h2
    simp at h1 h2
    split at hr
    · next r hr' =>
      split at hr'
      · have := afterClosingTag?_length hr'
        simp at hr; subst hr; omega
      · simp at hr'
    · split at hr
      · simp at hr; subst hr; omega
      · simp at hr

/-! ## Replacing -/

/-- The text with each element of the component replaced, and how many there were. -/
def replaceIn (name replacement : List Char) : List Char → List Char × Nat
  | [] => ([], 0)
  | c :: r =>
    match h : element? name (c :: r) with
    | some rest =>
      have := element?_length h
      let (after, count) := replaceIn name replacement rest
      (replacement ++ after, count + 1)
    | none =>
      let (after, count) := replaceIn name replacement r
      (c :: after, count)
termination_by s => s.length
decreasing_by
  · exact this
  · exact Nat.lt_add_one r.length

def replace (name text replacement : String) : String × Nat :=
  let (out, count) := replaceIn name.toList replacement.toList text.toList
  (String.ofList out, count)

end ComponentSite.ComponentTag
