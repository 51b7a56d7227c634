/-
  ComponentSite.Proofs.LayoutInsertions — a layout with its insertion points, whichever of
  its anchors it has.

  An anchor is a tag in any letter case. Those that are there stand in order: the first end of
  a head, the first start of a body, the last end of a body. Each is looked for in the text
  that the insertion before left. A text is inserted that holds no angle bracket which opens a
  tag, and a brace before any other mark: so no tag goes across its border, and an insertion
  neither moves a later anchor nor makes one (`cutFirst_styles`, `cutLast_insert`). The result
  is the layout with the points at the offsets of its own anchors (`augment_inserts`).
-/
import ComponentSite.Proofs.LayoutPoints

namespace ComponentSite.Layout
open Text

/-! ## Anchors -/

abbrev Cut := List Char × List Char × List Char

namespace Cut

def start (m : Cut) : Nat := m.1.length

def stop (m : Cut) : Nat := m.1.length + m.2.1.length

end Cut

def IsClosingTag (name : String) (found : List Char) : Prop :=
  ∃ tag blanks, found = tag ++ blanks ++ ['>'] ∧ tag.map Char.toLower = "</".toList ++ name.toList ∧
    blanks.all isBlank = true

def IsBodyTag (found : List Char) : Prop :=
  ∃ tag inner, found = tag ++ inner ++ ['>'] ∧ tag.map Char.toLower = "<body".toList ∧ '>' ∉ inner ∧
    inner.head?.all (!isWord ·) = true

section
variable (IsMatch : List Char → Prop) (s : List Char)

def FirstMatch : Option Cut → Prop
  | none => ∀ before found rest, s = before ++ found ++ rest → ¬ IsMatch found
  | some m => s = m.1 ++ m.2.1 ++ m.2.2 ∧ IsMatch m.2.1 ∧
    ∀ before found rest, s = before ++ found ++ rest → IsMatch found → m.start ≤ before.length

/-- The match that begins behind every other, if there is one. -/
def LastMatch : Option Cut → Prop
  | none => ∀ before found rest, s = before ++ found ++ rest → ¬ IsMatch found
  | some m => s = m.1 ++ m.2.1 ++ m.2.2 ∧ IsMatch m.2.1 ∧
    ∀ before found rest, s = before ++ found ++ rest → IsMatch found → before.length ≤ m.start

end

structure InOrder (headEnd bodyStart bodyEnd : Option Cut) : Prop where
  body : ∀ h ∈ headEnd, ∀ b ∈ bodyStart, h.stop ≤ b.start
  last : ∀ b ∈ bodyStart, ∀ e ∈ bodyEnd, b.stop ≤ e.start
  outer : ∀ h ∈ headEnd, ∀ e ∈ bodyEnd, h.stop ≤ e.start

/-! ## Insertions -/

/-- What is inserted at an offset, in the order of the list. -/
def textAt (insertions : List (Nat × List Char)) (offset : Nat) : List Char :=
  insertions.flatMap fun i => if i.1 = offset then i.2 else []

/-- Each character of the text, from an offset on, and before each and at the end what is inserted there. -/
def insertFrom (insertions : List (Nat × List Char)) : (offset : Nat) → List Char → List Char
  | offset, [] => textAt insertions offset
  | offset, c :: s => textAt insertions offset ++ c :: insertFrom insertions (offset + 1) s

def insertAll (insertions : List (Nat × List Char)) (s : List Char) : List Char := insertFrom insertions 0 s

theorem textAt_cons (i : Nat × List Char) (insertions : List (Nat × List Char)) (offset : Nat) :
    textAt (i :: insertions) offset = (if i.1 = offset then i.2 else []) ++ textAt insertions offset :=
  List.flatMap_cons

theorem textAt_of_lt {insertions : List (Nat × List Char)} {offset : Nat} (h : ∀ i ∈ insertions, offset < i.1) :
    textAt insertions offset = [] := by
  refine List.flatMap_eq_nil_iff.mpr fun i hi => if_neg ?_
  exact Nat.ne_of_gt (h i hi)

theorem insertFrom_nil (offset : Nat) (s : List Char) : insertFrom [] offset s = s := by
  induction s generalizing offset with
  | nil => rfl
  | cons c s ih =>
    rw [insertFrom, ih]
    rfl

theorem insertFrom_congr {insertions insertions' : List (Nat × List Char)} {offset : Nat}
    (h : ∀ k, offset ≤ k → textAt insertions k = textAt insertions' k) (s : List Char) :
    insertFrom insertions offset s = insertFrom insertions' offset s := by
  induction s generalizing offset with
  | nil => exact h offset (Nat.le_refl offset)
  | cons c s ih =>
    rw [insertFrom, insertFrom, h offset (Nat.le_refl offset), ih fun k hk => h k (Nat.le_of_succ_le hk)]

theorem insertFrom_first {offset : Nat} {p : List Char} {rest : List (Nat × List Char)}
    (h : ∀ i ∈ rest, offset + p.length ≤ i.1) (t s : List Char) :
    insertFrom ((offset + p.length, t) :: rest) offset (p ++ s) =
      p ++ (t ++ insertFrom rest (offset + p.length) s) := by
  induction p generalizing offset with
  | nil =>
    rw [List.length_nil, Nat.add_zero]
    have hhere : textAt ((offset, t) :: rest) offset = t ++ textAt rest offset := by rw [textAt_cons, if_pos rfl]
    cases s with
    | nil => exact hhere
    | cons c s =>
      have hrest : insertFrom ((offset, t) :: rest) (offset + 1) s = insertFrom rest (offset + 1) s := by
        refine insertFrom_congr (fun k hk => ?_) s
        rw [textAt_cons, if_neg (Nat.ne_of_lt hk)]
        rfl
      rw [List.nil_append, insertFrom, hhere, hrest, List.append_assoc]
      rfl
  | cons c p ih =>
    have hlength : offset + (c :: p).length = offset + 1 + p.length := by
      rw [List.length_cons]
      omega
    have hnone : textAt ((offset + (c :: p).length, t) :: rest) offset = [] := by
      refine textAt_of_lt (List.forall_mem_cons.mpr ⟨?_, fun i hi => Nat.lt_of_lt_of_le ?_ (h i hi)⟩) <;>
        exact Nat.lt_add_of_pos_right (Nat.succ_pos _)
    rw [List.cons_append, insertFrom, hnone, hlength, ih fun i hi => hlength ▸ h i hi]
    rfl

theorem insertAll_swap {i j : Nat × List Char} (h : i.1 ≠ j.1) (before rest : List (Nat × List Char))
    (s : List Char) :
    insertAll (before ++ i :: j :: rest) s = insertAll (before ++ j :: i :: rest) s := by
  refine insertFrom_congr (fun k _ => ?_) s
  have hpair : textAt (i :: j :: rest) k = textAt (j :: i :: rest) k := by
    rw [textAt_cons, textAt_cons, textAt_cons, textAt_cons]
    by_cases hi : i.1 = k
    · have hj : j.1 ≠ k := fun hj => h (hi.trans hj.symm)
      rw [if_neg hj]
      rfl
    · rw [if_neg hi]
      rfl
  rw [textAt, textAt, List.flatMap_append, List.flatMap_append]
  exact congrArg _ hpair

theorem insertAll_three (p q r s t u v : List Char) :
    insertAll [(p.length, t), ((p ++ q).length, u), ((p ++ q ++ r).length, v)] (p ++ q ++ r ++ s) =
      p ++ t ++ q ++ u ++ r ++ v ++ s := by
  have hp : p.length = 0 + p.length := (Nat.zero_add _).symm
  have hq : (p ++ q).length = p.length + q.length := List.length_append
  have hr : (p ++ q ++ r).length = p.length + q.length + r.length := by rw [List.length_append, hq]
  rw [insertAll, hq, hr, List.append_assoc, List.append_assoc, hp]
  rw [insertFrom_first (by simp; omega), insertFrom_first (by simp), insertFrom_first (by simp), insertFrom_nil]
  simp only [List.append_assoc]

/-! ## What the searches find -/

theorem restAnyCase?_lowered {tag : List Char} (after : List Char) :
    restAnyCase? (tag.map Char.toLower) (tag ++ after) = some after := by
  rw [restAnyCase?, List.length_map, List.take_left, List.drop_left, beq_self_eq_true, if_pos rfl]

theorem closingTag?_iff {name : String} {s found rest : List Char} :
    closingTag? name s = some (found, rest) ↔ s = found ++ rest ∧ IsClosingTag name found := by
  constructor
  · intro h
    obtain ⟨after, hafter, h⟩ := Option.bind_eq_some_iff.mp h
    obtain ⟨r, hr, h⟩ := Option.bind_eq_some_iff.mp h
    obtain ⟨tag, rfl, htag⟩ := restAnyCase?_append hafter
    have hcut : tag ++ after = (tag ++ after.takeWhile isBlank ++ ['>']) ++ r := by
      have hblanks : after = after.takeWhile isBlank ++ trimStart after := List.takeWhile_append_dropWhile.symm
      rw [rest?_eq_some hr] at hblanks
      conv => lhs; rw [hblanks]
      simp
    cases h
    rw [hcut, take_found]
    exact ⟨rfl, tag, after.takeWhile isBlank, rfl, htag, List.all_takeWhile⟩
  · rintro ⟨rfl, tag, blanks, rfl, htag, hblanks⟩
    have hafter : restAnyCase? ("</".toList ++ name.toList) (tag ++ (blanks ++ '>' :: rest)) =
        some (blanks ++ '>' :: rest) :=
      htag ▸ restAnyCase?_lowered _
    have htrimmed : trimStart (blanks ++ '>' :: rest) = '>' :: rest := by
      rw [trimStart, List.dropWhile_append_of_pos (List.all_eq_true.mp hblanks), ← trimStart]
      exact trimStart_cons_of_not_isBlank rfl rest
    have hcut : tag ++ blanks ++ ['>'] ++ rest = tag ++ (blanks ++ '>' :: rest) := by simp
    have hfound := take_found (tag ++ blanks ++ ['>']) rest
    rw [hcut] at hfound
    rw [closingTag?, hcut, hafter, Option.bind_eq_bind, Option.bind_some, htrimmed, rest?_cons_self]
    exact congrArg (fun f => some (f, rest)) hfound

theorem bodyTag?_iff {s found rest : List Char} :
    bodyTag? s = some (found, rest) ↔ s = found ++ rest ∧ IsBodyTag found := by
  constructor
  · intro h
    obtain ⟨after, hafter, h⟩ := Option.bind_eq_some_iff.mp h
    obtain ⟨tag, rfl, htag⟩ := restAnyCase?_append hafter
    split at h
    · cases h
    · rename_i hword
      split at h
      · rename_i d r hdrop
        obtain rfl : d = '>' := by
          have hhead := List.head?_dropWhile_not (· != '>') after
          rw [hdrop] at hhead
          simpa using hhead
        have hinner : after = after.takeWhile (· != '>') ++ '>' :: r := by
          rw [← hdrop]
          exact List.takeWhile_append_dropWhile.symm
        have hcut : tag ++ after = (tag ++ after.takeWhile (· != '>') ++ ['>']) ++ r := by
          conv => lhs; rw [hinner]
          simp
        cases h
        rw [hcut, take_found]
        refine ⟨rfl, tag, after.takeWhile (· != '>'), rfl, htag, fun hm => ?_, ?_⟩
        · simpa using List.mem_takeWhile_imp hm
        · rw [hinner] at hword
          cases ht : after.takeWhile (· != '>') with
          | nil => rfl
          | cons c t =>
            rw [ht] at hword
            simpa using hword
      · cases h
  · rintro ⟨rfl, tag, inner, rfl, htag, hinner, hhead⟩
    have hafter : restAnyCase? "<body".toList (tag ++ (inner ++ '>' :: rest)) = some (inner ++ '>' :: rest) :=
      htag ▸ restAnyCase?_lowered _
    have hcut : tag ++ inner ++ ['>'] ++ rest = tag ++ (inner ++ '>' :: rest) := by simp
    have hfound := take_found (tag ++ inner ++ ['>']) rest
    have hword : ¬ ((inner ++ '>' :: rest).head?.map isWord).getD false = true := by
      cases inner with
      | nil => exact Bool.false_ne_true
      | cons c inner => simpa using hhead
    have hdrop : (inner ++ '>' :: rest).dropWhile (· != '>') = '>' :: rest := by
      rw [List.dropWhile_append_of_pos fun c hc => by simpa using fun e : c = '>' => hinner (e ▸ hc)]
      rfl
    rw [hcut] at hfound
    rw [bodyTag?, hcut, hafter, Option.bind_eq_bind, Option.bind_some, if_neg hword, hdrop]
    exact congrArg (fun f => some (f, rest)) hfound

section
variable {pattern? : List Char → Option (List Char × List Char)} {IsMatch : List Char → Prop} {s : List Char}

theorem cutFirst_eq_none_iff : cutFirst pattern? s = none ↔ ∀ v, v ≠ [] → v <:+ s → pattern? v = none := by
  constructor
  · intro h v hv hs
    obtain ⟨u, rfl⟩ := hs
    induction u with
    | nil =>
      obtain ⟨c, r, rfl⟩ := List.exists_cons_of_ne_nil hv
      rw [List.nil_append, cutFirst] at h
      split at h
      · cases h
      · assumption
    | cons c u ih =>
      rw [List.cons_append, cutFirst] at h
      split at h
      · cases h
      · exact ih (Option.map_eq_none_iff.mp h)
  · intro h
    induction s with
    | nil => rfl
    | cons c r ih =>
      rw [cutFirst, h (c :: r) (List.cons_ne_nil c r) List.suffix_rfl,
        ih fun v hv hs => h v hv (hs.trans (List.suffix_cons c r))]
      rfl

theorem cutLast_eq_none_iff : cutLast pattern? s = none ↔ ∀ v, v ≠ [] → v <:+ s → pattern? v = none := by
  induction s with
  | nil => exact ⟨fun _ v hv hs => absurd (List.suffix_nil.mp hs) hv, fun _ => rfl⟩
  | cons c r ih =>
    constructor
    · intro h v hv hs
      rw [cutLast] at h
      split at h
      · cases h
      · rename_i hnone
        rcases List.suffix_cons_iff.mp hs with rfl | hs
        · exact Option.map_eq_none_iff.mp h
        · exact ih.mp hnone v hv hs
    · intro h
      rw [cutLast, ih.mpr fun v hv hs => h v hv (hs.trans (List.suffix_cons c r)),
        h (c :: r) (List.cons_ne_nil c r) List.suffix_rfl]
      rfl

variable (hp : ∀ s found rest, pattern? s = some (found, rest) ↔ s = found ++ rest ∧ IsMatch found)
  (hne : ¬ IsMatch [])
include hp hne

theorem none_iff : (∀ v, v ≠ [] → v <:+ s → pattern? v = none) ↔
    ∀ before found rest, s = before ++ found ++ rest → ¬ IsMatch found := by
  constructor
  · rintro h before found rest rfl hmatch
    have hv : found ++ rest ≠ [] := fun e => hne ((List.append_eq_nil_iff.mp e).1 ▸ hmatch)
    have hsome := (hp (found ++ rest) found rest).mpr ⟨rfl, hmatch⟩
    rw [h (found ++ rest) hv ⟨before, by simp⟩] at hsome
    cases hsome
  · rintro h v - ⟨u, rfl⟩
    refine Option.eq_none_iff_forall_ne_some.mpr fun (found, rest) hfound => ?_
    obtain ⟨rfl, hmatch⟩ := (hp v found rest).mp hfound
    exact h u found rest (by simp) hmatch

theorem cutFirst_eq_iff {m : Option Cut} : cutFirst pattern? s = m ↔ FirstMatch IsMatch s m := by
  cases m with
  | none => exact cutFirst_eq_none_iff.trans (none_iff hp hne)
  | some m =>
    obtain ⟨before, found, rest⟩ := m
    constructor
    · intro h
      obtain ⟨t, rfl, -, ht, hnone⟩ := exists_of_cutFirst h
      obtain ⟨rfl, hmatch⟩ := (hp t found rest).mp ht
      refine ⟨(List.append_assoc ..).symm, hmatch, fun b f r e hm => ?_⟩
      by_contra hshort
      rw [List.append_assoc] at e
      obtain ⟨v, rfl, hv⟩ : ∃ v, before = b ++ v ∧ f ++ r = v ++ (found ++ rest) := by
        rcases List.append_eq_append_iff.mp e with ⟨v, rfl, -⟩ | ⟨v, hb, hv⟩
        · exact absurd (by simp [Cut.start]) hshort
        · exact ⟨v, hb, hv⟩
      have hvne : v ≠ [] := by
        rintro rfl
        exact hshort (by simp [Cut.start])
      have hsome := (hp (f ++ r) f r).mpr ⟨rfl, hm⟩
      rw [hv, hnone v hvne (List.suffix_append b v)] at hsome
      cases hsome
    · rintro ⟨hs, hmatch, hfirst⟩
      have hv : found ++ rest ≠ [] := fun e => hne ((List.append_eq_nil_iff.mp e).1 ▸ hmatch)
      have hs : s = before ++ (found ++ rest) := by rw [hs, List.append_assoc]
      rw [hs]
      refine cutFirst_append ((hp _ _ _).mpr ⟨rfl, hmatch⟩) hv ?_
      rintro v hvne ⟨u, rfl⟩
      refine Option.eq_none_iff_forall_ne_some.mpr fun (f, r) hf => ?_
      obtain ⟨hcut, hm⟩ := (hp _ f r).mp hf
      have hle := hfirst u f r (by rw [hs, List.append_assoc u v, hcut, List.append_assoc]) hm
      have hpos := List.length_pos_iff.mpr hvne
      simp only [Cut.start, List.length_append] at hle
      omega

theorem cutLast_eq_iff {m : Option Cut} : cutLast pattern? s = m ↔ LastMatch IsMatch s m := by
  cases m with
  | none => exact cutLast_eq_none_iff.trans (none_iff hp hne)
  | some m =>
    obtain ⟨before, found, rest⟩ := m
    constructor
    · intro h
      obtain ⟨c, t, rfl, ht, hnone⟩ := exists_of_cutLast h
      obtain ⟨hcut, hmatch⟩ := (hp _ found rest).mp ht
      refine ⟨by rw [hcut, List.append_assoc], hmatch, fun b f r e hm => ?_⟩
      by_contra hlong
      rw [List.append_assoc] at e
      obtain ⟨v, rfl, hv⟩ : ∃ v, b = before ++ v ∧ c :: t = v ++ (f ++ r) := by
        rcases List.append_eq_append_iff.mp e with ⟨v, hb, hv⟩ | ⟨v, rfl, -⟩
        · exact ⟨v, hb, hv⟩
        · exact absurd (by simp [Cut.start]) hlong
      obtain ⟨d, v, rfl⟩ : ∃ d v', v = d :: v' := by
        refine List.exists_cons_of_ne_nil ?_
        rintro rfl
        exact hlong (by simp [Cut.start])
      have hsome := (hp (f ++ r) f r).mpr ⟨rfl, hm⟩
      have hfne : f ++ r ≠ [] := fun e => hne ((List.append_eq_nil_iff.mp e).1 ▸ hm)
      rw [cutLast_eq_none_iff.mp hnone (f ++ r) hfne ⟨v, (List.cons.inj hv).2.symm⟩] at hsome
      cases hsome
    · rintro ⟨hs, hmatch, hlast⟩
      obtain ⟨c, t, ht⟩ : ∃ c t, found ++ rest = c :: t :=
        List.exists_cons_of_ne_nil fun e => hne ((List.append_eq_nil_iff.mp e).1 ▸ hmatch)
      have hs : s = before ++ c :: t := by rw [hs, ← ht, List.append_assoc]
      rw [hs]
      refine cutLast_append (ht ▸ (hp _ _ _).mpr ⟨rfl, hmatch⟩) (cutLast_eq_none_iff.mpr ?_) before
      rintro v - ⟨u, rfl⟩
      refine Option.eq_none_iff_forall_ne_some.mpr fun (f, r) hf => ?_
      obtain ⟨rfl, hm⟩ := (hp _ f r).mp hf
      have hle := hlast (before ++ c :: u) f r (by rw [hs]; simp) hm
      simp only [Cut.start, List.length_append, List.length_cons] at hle
      omega

end

theorem firstHeadEnd_iff {s : List Char} {m : Option Cut} :
    cutFirst (closingTag? "head") s = m ↔ FirstMatch (IsClosingTag "head") s m :=
  cutFirst_eq_iff (fun _ _ _ => closingTag?_iff) fun ⟨_, _, e, _⟩ => by simp at e

theorem firstBodyStart_iff {s : List Char} {m : Option Cut} : cutFirst bodyTag? s = m ↔ FirstMatch IsBodyTag s m :=
  cutFirst_eq_iff (fun _ _ _ => bodyTag?_iff) fun ⟨_, _, e, _⟩ => by simp at e

theorem lastBodyEnd_iff {s : List Char} {m : Option Cut} :
    cutLast (closingTag? "body") s = m ↔ LastMatch (IsClosingTag "body") s m :=
  cutLast_eq_iff (fun _ _ _ => closingTag?_iff) fun ⟨_, _, e, _⟩ => by simp at e

/-! ## No insertion moves or makes an anchor -/

/-- A search goes on behind a text in which no match begins. -/
theorem cutFirst_skip {pattern? : List Char → Option (List Char × List Char)} {p t : List Char}
    (h : ∀ v, v ≠ [] → v <:+ p → pattern? (v ++ t) = none) :
    cutFirst pattern? (p ++ t) = (cutFirst pattern? t).map fun m => (p ++ m.1, m.2) := by
  induction p with
  | nil => exact Option.map_id'.symm
  | cons c p ih =>
    have hc := h (c :: p) (List.cons_ne_nil c p) List.suffix_rfl
    rw [List.cons_append] at hc ⊢
    rw [cutFirst, hc, ih fun v hv hs => h v hv (hs.trans (List.suffix_cons c p)), Option.map_map]
    rfl

section
variable {p t styles : List Char}

/-- Where the styles are put in front of a tag, or of everything, the first start of the body behind them is what it
    was. -/
theorem cutFirst_styles (hp : p = [] ∨ ∃ x, t = '<' :: x ∧ '>' ∈ x) (hbrace : ∃ y, styles = '\x7b' :: y)
    (hangle : '<' ∉ styles) {b : Option Cut} (hb : FirstMatch IsBodyTag (p ++ t) b)
    (hstart : ∀ m ∈ b, p.length ≤ m.start) :
    b = (cutFirst bodyTag? t).map (fun m => (p ++ m.1, m.2)) ∧
      cutFirst bodyTag? (p ++ styles ++ t) = (cutFirst bodyTag? t).map fun m => (p ++ styles ++ m.1, m.2) := by
  have hnone : ∀ v, v ≠ [] → v <:+ p → bodyTag? (v ++ t) = none := by
    rintro v hv ⟨u, rfl⟩
    refine Option.eq_none_iff_forall_ne_some.mpr fun (f, r) hf => ?_
    obtain ⟨hcut, hm⟩ := bodyTag?_iff.mp hf
    have hs : u ++ v ++ t = u ++ f ++ r := by rw [List.append_assoc u v, hcut, List.append_assoc]
    cases b with
    | none => exact hb u f r hs hm
    | some m =>
      have hle := hb.2.2 u f r hs hm
      have hge := hstart m rfl
      have hpos := List.length_pos_iff.mpr hv
      rw [List.length_append] at hge
      omega
  refine ⟨(firstBodyStart_iff.mpr hb).symm.trans (cutFirst_skip hnone), cutFirst_skip fun v hv hs => ?_⟩
  rcases suffix_append_cases hs with hs | ⟨w, hw, hin, rfl⟩
  · obtain ⟨c, v, rfl⟩ := List.exists_cons_of_ne_nil hv
    refine bodyTag?_of_ne ?_ _
    rintro rfl
    exact hangle (hs.subset List.mem_cons_self)
  · rcases hp with rfl | ⟨x, rfl, hx⟩
    · exact absurd (List.suffix_nil.mp hin) hw
    · obtain ⟨y, rfl⟩ := hbrace
      rw [List.append_assoc]
      exact bodyTag?_before_brace (hnone w hw hin) hx

variable {ins found rest : List Char}

def BeginsWithBrace (ins : List Char) : Prop := ∃ blanks y, ins = blanks ++ '\x7b' :: y ∧ blanks.all isBlank = true

/-- A closing tag that begins in front of the insertion ends in front of it. -/
theorem closingTag?_insert (hins : BeginsWithBrace ins) {v : List Char}
    (h : closingTag? "body" (v ++ (ins ++ t)) = some (found, rest)) : ∃ d, v = found ++ d := by
  obtain ⟨e, tag, blanks, hfound, htag, hblanks⟩ := closingTag?_iff.mp h
  obtain ⟨lead, y, rfl, hlead⟩ := hins
  have hbrace : '\x7b' ∉ found := by
    rw [hfound]
    intro hm
    rcases List.mem_append.mp hm with hm | hm
    · rcases List.mem_append.mp hm with hm | hm
      · have hlower : Char.toLower '\x7b' ∈ "</".toList ++ "body".toList := htag ▸ List.mem_map_of_mem hm
        exact absurd hlower (by decide)
      · exact not_mem_of_isBlank (c := '\x7b') rfl hblanks hm
    · exact absurd hm (by decide)
  have e : (v ++ lead) ++ '\x7b' :: (y ++ t) = found ++ rest := by simpa using e
  obtain ⟨d, hd⟩ : ∃ d, v ++ lead = found ++ d := by
    rcases List.append_eq_append_iff.mp e with ⟨a, rfl, ha⟩ | ⟨a, ha, -⟩
    · cases a with
      | nil => exact ⟨[], by simp⟩
      | cons c a =>
        obtain ⟨rfl, -⟩ := List.cons.inj ha
        exact absurd (by simp) hbrace
    · exact ⟨a, ha⟩
  rcases List.append_eq_append_iff.mp hd with ⟨a, ha, hlead'⟩ | ⟨a, ha, -⟩
  · -- the bracket at the end of the tag is no white space
    rcases List.eq_nil_or_concat a with rfl | ⟨a, c, rfl⟩
    · exact ⟨[], by simpa using ha.symm⟩
    · have hc : c = '>' := by
        have hlast := congrArg List.getLast? (hfound.symm.trans ha)
        rw [List.getLast?_concat, List.concat_eq_append, ← List.append_assoc, List.getLast?_concat] at hlast
        exact (Option.some.inj hlast).symm
      subst hc
      exact absurd (by simp [hlead']) (not_mem_of_isBlank (c := '>') rfl hlead)
  · exact ⟨a, ha⟩

/-- Where there is no end of a body, an insertion makes none. -/
theorem cutLast_insert (hins : BeginsWithBrace ins) (hangle : '<' ∉ ins)
    (h : cutLast (closingTag? "body") (p ++ t) = none) :
    cutLast (closingTag? "body") (p ++ ins ++ t) = none := by
  rw [cutLast_eq_none_iff] at h ⊢
  intro v hv hs
  rw [List.append_assoc] at hs
  rcases suffix_append_cases hs with hs | ⟨w, hw, hin, rfl⟩
  · rcases suffix_append_cases hs with hs | ⟨w, hw, hin, rfl⟩
    · exact h v hv (hs.trans (List.suffix_append p t))
    · obtain ⟨c, w, rfl⟩ := List.exists_cons_of_ne_nil hw
      refine closingTag?_of_ne _ ?_ _
      rintro rfl
      exact hangle (hin.subset List.mem_cons_self)
  · refine Option.eq_none_iff_forall_ne_some.mpr fun (found, rest) hfound => ?_
    obtain ⟨d, rfl⟩ := closingTag?_insert hins hfound
    have hmatch := (closingTag?_iff.mp hfound).2
    have hold : closingTag? "body" (found ++ d ++ t) = some (found, d ++ t) :=
      closingTag?_iff.mpr ⟨List.append_assoc .., hmatch⟩
    rw [h (found ++ d ++ t) (List.append_ne_nil_of_left_ne_nil hw t) (List.suffix_append_self_iff.mpr hin)] at hold
    cases hold

/-- The last end of a body stays the last one, whatever comes in front of it and with an insertion behind it. -/
theorem cutLast_behind (hins : ins = [] ∨ BeginsWithBrace ins ∧ '<' ∉ ins) {s before : List Char}
    (h : cutLast (closingTag? "body") s = some (before, found, rest)) (front : List Char) :
    cutLast (closingTag? "body") (front ++ (found ++ rest) ++ ins) = some (front, found, rest ++ ins) := by
  obtain ⟨c, t, -, ht, hnone⟩ := exists_of_cutLast h
  obtain ⟨hcut, hmatch⟩ := closingTag?_iff.mp ht
  have hend : closingTag? "body" (c :: (t ++ ins)) = some (found, rest ++ ins) :=
    closingTag?_iff.mpr ⟨by rw [← List.cons_append, hcut, List.append_assoc], hmatch⟩
  have hlast : cutLast (closingTag? "body") (t ++ ins) = none := by
    rcases hins with rfl | ⟨hbrace, hangle⟩
    · rwa [List.append_nil]
    · have hinserted := cutLast_insert (p := t) (t := []) hbrace hangle (by rwa [List.append_nil])
      rwa [List.append_nil] at hinserted
  rw [← hcut, List.append_assoc, List.cons_append]
  exact cutLast_append hend hlast front

end

/-! ## The three insertions -/

theorem lt_not_mem_pointLines (kind : FragmentKind) {classes : List String} (h : ∀ c ∈ classes, '<' ∉ c.toList) :
    '<' ∉ (pointLines kind classes).toList := by
  rw [toList_pointLines]
  intro hmem
  obtain ⟨token, htoken, hmem⟩ := List.mem_flatMap.mp hmem
  obtain ⟨c, hc, htoken⟩ := List.mem_flatMap.mp htoken
  have hname : '<' ∉ (kind.nameFor c).toList := by
    have hlabel : '<' ∉ kind.label.toList := by cases kind <;> decide
    simp [FragmentKind.nameFor, String.toList_append, hlabel, h c hc]
  rcases List.mem_cons.mp htoken with rfl | htoken
  · simp [Template.Token.source, Template.openingTag, Template.closingTag, hname] at hmem
  · obtain rfl := List.mem_singleton.mp htoken
    simp [Template.Token.source] at hmem

theorem exists_brace_pointLines (kind : FragmentKind) (c : String) (classes : List String) :
    ∃ y, (pointLines kind (c :: classes)).toList = '\x7b' :: y := by
  rw [toList_pointLines]
  exact ⟨_, rfl⟩

section
variable {s styles content scripts : List Char} {h b e : Option Cut}

/-- The styles stand in front of the first end of a head, or of everything. -/
theorem exists_styled (hhead : FirstMatch (IsClosingTag "head") s h) (styles : List Char) : ∃ p t, s = p ++ t ∧
    insertStyles styles s = p ++ styles ++ t ∧ (h.map Cut.start).getD 0 = p.length ∧
      (p = [] ∨ ∃ x, t = '<' :: x ∧ '>' ∈ x) ∧
      ∀ m : Cut, (∀ n ∈ h, n.stop ≤ m.start) → p.length ≤ m.start := by
  have hcut := firstHeadEnd_iff.mpr hhead
  cases h with
  | none => exact ⟨[], s, rfl, by rw [insertStyles, hcut]; rfl, rfl, Or.inl rfl, fun m _ => Nat.zero_le _⟩
  | some m =>
    obtain ⟨before, found, rest⟩ := m
    obtain ⟨hs, hmatch, -⟩ := hhead
    obtain ⟨inner, hfound, -⟩ := closingTag?_eq_some
      (closingTag?_iff.mpr ⟨rfl, hmatch⟩ : closingTag? "head" (found ++ rest) = some (found, rest))
    refine ⟨before, found ++ rest, by rw [hs, List.append_assoc], ?_, rfl,
      Or.inr ⟨inner ++ ['>'] ++ rest, ?_, by simp⟩, fun m hm => ?_⟩
    · rw [insertStyles, hcut]
      simp
    · rw [hfound]
      simp
    · have hle := hm _ rfl
      simp only [Cut.stop] at hle
      omega

/-- What is in front of a later match, and the match behind it. -/
theorem exists_behind {p t : List Char} {m : Cut} (hs : p ++ t = m.1 ++ m.2.1 ++ m.2.2) (hle : p.length ≤ m.start) :
    ∃ y, m.1 = p ++ y ∧ t = y ++ (m.2.1 ++ m.2.2) := by
  rw [List.append_assoc] at hs
  rcases List.append_eq_append_iff.mp hs with ⟨y, h1, h2⟩ | ⟨y, h1, h2⟩
  · exact ⟨y, h1, h2⟩
  · have hlength := congrArg List.length h1
    rw [List.length_append] at hlength
    have hy : y = [] := List.length_eq_zero_iff.mp (by rw [Cut.start] at hle; omega)
    subst hy
    exact ⟨[], by simpa using h1.symm, by simpa using h2.symm⟩

section
variable {p t : List Char} (hstyles : BeginsWithBrace styles) (hstylesAngle : '<' ∉ styles)
  (hcontent : BeginsWithBrace ('\n' :: content)) (hcontentAngle : '<' ∉ '\n' :: content)
include hstyles hstylesAngle hcontent hcontentAngle

/-- The scripts, where the content is behind everything. -/
theorem insertScripts_behind_all (hlast : LastMatch (IsClosingTag "body") (p ++ t) e)
    (hle : ∀ m ∈ e, p.length ≤ m.start) :
    insertScripts scripts (p ++ styles ++ t ++ '\n' :: content) = insertAll [
      (p.length, styles),
      ((p ++ t).length, '\n' :: content),
      ((e.map Cut.start).getD (p ++ t).length, (if e.isNone then ['\n'] else []) ++ scripts)] (p ++ t) := by
  have hcut := lastBodyEnd_iff.mpr hlast
  cases e with
  | none =>
    have hnone : cutLast (closingTag? "body") (p ++ styles ++ t ++ '\n' :: content) = none := by
      have hinserted := cutLast_insert (p := p ++ styles ++ t) (t := []) hcontent hcontentAngle
        (by rw [List.append_nil]; exact cutLast_insert hstyles hstylesAngle hcut)
      rwa [List.append_nil] at hinserted
    have hall := insertAll_three p t [] [] styles ('\n' :: content) ('\n' :: scripts)
    rw [List.append_nil, List.append_nil] at hall
    rw [insertScripts, hnone]
    calc _ = p ++ styles ++ t ++ '\n' :: content ++ [] ++ '\n' :: scripts ++ [] := by simp
      _ = _ := hall.symm
  | some m =>
    obtain ⟨before, found, rest⟩ := m
    obtain ⟨y, rfl, rfl⟩ := exists_behind hlast.1 (hle _ rfl)
    obtain ⟨inner, rfl, -⟩ := closingTag?_eq_some
      (closingTag?_iff.mpr ⟨rfl, hlast.2.1⟩ : closingTag? "body" (found ++ rest) = some (found, rest))
    have hlater : (p ++ (y ++ ('<' :: (inner ++ ['>']) ++ rest))).length ≠ (p ++ y).length := by
      simp only [List.length_append, List.length_cons]
      omega
    have hfront : p ++ styles ++ (y ++ ('<' :: (inner ++ ['>']) ++ rest)) ++ '\n' :: content =
        (p ++ styles ++ y) ++ ('<' :: (inner ++ ['>']) ++ rest) ++ '\n' :: content := by simp
    -- the scripts come in front of the content
    have hall := insertAll_three p y ('<' :: (inner ++ ['>']) ++ rest) [] styles scripts ('\n' :: content)
    rw [List.append_nil, List.append_nil, List.append_assoc p] at hall
    rw [hfront, insertScripts, cutLast_behind (Or.inr ⟨hcontent, hcontentAngle⟩) hcut]
    calc _ = p ++ styles ++ y ++ scripts ++ ('<' :: (inner ++ ['>']) ++ rest) ++ '\n' :: content := by simp
      _ = insertAll [(p.length, styles), ((p ++ y).length, scripts), (_, '\n' :: content)] _ := hall.symm
      _ = insertAll [(p.length, styles), (_, '\n' :: content), ((p ++ y).length, scripts)] _ :=
        insertAll_swap (i := ((p ++ y).length, scripts)) (j := (_, '\n' :: content)) hlater.symm
          [(p.length, styles)] [] _

/-- The scripts, where the content is behind the start of a body. -/
theorem insertScripts_behind_start {x start inside : List Char}
    (hlast : LastMatch (IsClosingTag "body") (p ++ (x ++ (start ++ inside))) e)
    (hle : ∀ m ∈ e, (p ++ x).length + start.length ≤ m.start) :
    insertScripts scripts (p ++ styles ++ x ++ start ++ '\n' :: content ++ inside) = insertAll [
      (p.length, styles),
      ((p ++ x).length + start.length, '\n' :: content),
      ((e.map Cut.start).getD (p ++ (x ++ (start ++ inside))).length, (if e.isNone then ['\n'] else []) ++ scripts)]
      (p ++ (x ++ (start ++ inside))) := by
  have hcut := lastBodyEnd_iff.mpr hlast
  cases e with
  | none =>
    have hnone : cutLast (closingTag? "body") (p ++ styles ++ x ++ start ++ '\n' :: content ++ inside) = none := by
      refine cutLast_insert hcontent hcontentAngle ?_
      have hinserted := cutLast_insert hstyles hstylesAngle hcut
      simpa only [List.append_assoc] using hinserted
    have hall := insertAll_three p (x ++ start) inside [] styles ('\n' :: content) ('\n' :: scripts)
    rw [insertScripts, hnone]
    calc _ = p ++ styles ++ (x ++ start) ++ '\n' :: content ++ inside ++ '\n' :: scripts ++ [] := by simp
      _ = _ := hall.symm
      _ = _ := by simp [Nat.add_assoc]
  | some m =>
    obtain ⟨before, found, rest⟩ := m
    have hs : (p ++ x ++ start) ++ inside = before ++ found ++ rest := by
      rw [← hlast.1]
      simp
    have hstop : (p ++ x ++ start).length ≤ Cut.start (before, found, rest) := by
      rw [List.length_append]
      exact hle _ rfl
    obtain ⟨y, rfl, rfl⟩ := exists_behind hs hstop
    have hbehind := cutLast_behind (Or.inl rfl) hcut (p ++ styles ++ x ++ start ++ '\n' :: content ++ y)
    have hall := insertAll_three p (x ++ start) y (found ++ rest) styles ('\n' :: content) scripts
    have hfront : p ++ styles ++ x ++ start ++ '\n' :: content ++ (y ++ (found ++ rest)) =
        (p ++ styles ++ x ++ start ++ '\n' :: content ++ y) ++ (found ++ rest) ++ [] := by simp
    rw [hfront, insertScripts, hbehind]
    calc _ = p ++ styles ++ (x ++ start) ++ '\n' :: content ++ y ++ scripts ++ (found ++ rest) := by simp
      _ = _ := hall.symm
      _ = _ := by simp [Cut.start, Nat.add_assoc]

end

/-- Each text stands at its anchor of `s`, or at an end of `s` if it has none. -/
theorem insertScripts_eq (hhead : FirstMatch (IsClosingTag "head") s h) (hbody : FirstMatch IsBodyTag s b)
    (hlast : LastMatch (IsClosingTag "body") s e) (horder : InOrder h b e) (hstyles : ∃ y, styles = '\x7b' :: y)
    (hstylesAngle : '<' ∉ styles) (hcontent : ∃ y, content = '\x7b' :: y) (hcontentAngle : '<' ∉ content) :
    insertScripts scripts (insertContent content (insertStyles styles s)) = insertAll [
      ((h.map Cut.start).getD 0, styles),
      ((b.map Cut.stop).getD s.length, '\n' :: content),
      ((e.map Cut.start).getD s.length, (if e.isNone then ['\n'] else []) ++ scripts)] s := by
  obtain ⟨p, t, rfl, hstyled, hstart, hp, hafter⟩ := exists_styled hhead styles
  obtain ⟨hb, hmoved⟩ :=
    cutFirst_styles hp hstyles hstylesAngle hbody fun m hm => hafter m fun n hn => horder.body n hn m hm
  have hstylesBrace : BeginsWithBrace styles := ⟨[], _, hstyles.choose_spec, rfl⟩
  have hcontentBrace : BeginsWithBrace ('\n' :: content) := ⟨['\n'], _, by rw [hcontent.choose_spec]; rfl, rfl⟩
  have hcontentAngle : '<' ∉ '\n' :: content := by simpa using hcontentAngle
  rw [hstyled, hstart]
  cases hfound : cutFirst bodyTag? t with
  | none =>
    rw [hfound] at hb hmoved
    obtain rfl : b = none := hb
    have hput : insertContent content (p ++ styles ++ t) = p ++ styles ++ t ++ '\n' :: content := by
      rw [insertContent, hmoved]
      rfl
    rw [hput]
    exact insertScripts_behind_all hstylesBrace hstylesAngle hcontentBrace hcontentAngle hlast fun m hm =>
      hafter m fun n hn => horder.outer n hn m hm
  | some m =>
    obtain ⟨x, start, inside⟩ := m
    obtain ⟨_, rfl, -, hbodyTag, -⟩ := exists_of_cutFirst hfound
    obtain rfl := bodyTag?_append hbodyTag
    rw [hfound] at hb hmoved
    obtain rfl : b = some (p ++ x, start, inside) := hb
    have hput : insertContent content (p ++ styles ++ (x ++ (start ++ inside))) =
        p ++ styles ++ x ++ start ++ '\n' :: content ++ inside := by
      rw [insertContent, hmoved]
      simp
    rw [hput]
    exact insertScripts_behind_start hstylesBrace hstylesAngle hcontentBrace hcontentAngle hlast (horder.last _ rfl)

end

/-- A layout with its anchors in order gets the points of the styles right before the first end of a head, that of the
    content on a line right after the first start of a body, those of the scripts right before the last end of a body.
    Without the anchor they come first, on a line behind the layout, and on one behind all else. -/
theorem augment_inserts {layout : String} {page : Component} {flat : List Component}
    (hclasses : ∀ c ∈ page :: flat, '<' ∉ c.scopeClass.toList) {h b e : Option Cut}
    (hhead : FirstMatch (IsClosingTag "head") layout.toList h) (hbody : FirstMatch IsBodyTag layout.toList b)
    (hlast : LastMatch (IsClosingTag "body") layout.toList e) (horder : InOrder h b e) :
    let lines := fun (kind : FragmentKind) (owners : List Component) =>
      (String.join (owners.map fun c => insertionPoint kind c.scopeClass ++ "\n")).toList
    (augment layout page flat).toList = insertAll [
      ((h.map Cut.start).getD 0, lines .style (page :: flat)),
      ((b.map Cut.stop).getD layout.toList.length, '\n' :: lines .content [page]),
      ((e.map Cut.start).getD layout.toList.length,
        (if e.isNone then ['\n'] else []) ++ lines .script (page :: flat))]
      layout.toList := by
  intro lines
  have hlines : ∀ kind owners, lines kind owners = (pointLines kind (owners.map (·.scopeClass))).toList := by
    intro kind owners
    simp only [lines, pointLines, List.map_map]
    rfl
  have hmap : ∀ c ∈ (page :: flat).map (·.scopeClass), '<' ∉ c.toList := List.forall_mem_map.mpr hclasses
  have hpage : ∀ c ∈ [page].map (·.scopeClass), '<' ∉ c.toList := by simpa using hclasses page List.mem_cons_self
  simp only [hlines]
  refine Eq.trans ?_ (insertScripts_eq hhead hbody hlast horder
    (exists_brace_pointLines .style page.scopeClass (flat.map Component.scopeClass))
    (lt_not_mem_pointLines .style hmap)
    (exists_brace_pointLines .content page.scopeClass []) (lt_not_mem_pointLines .content hpage))
  simp only [augment, withPoints, String.toList_ofList]
  rfl

/-- A layout without the end of a head, with a tag that looks like the end of its body. -/
theorem augment_inserts_without_head :
    let part := fun name scopeClass : String => ({
      name, sourcePath := ⟨name⟩, rawSource := "", script := "", style := "", markup := "", scopeClass,
      fragments := [], children := [], descendants := [], aliases := [], modified := 0 } : Component)
    (∀ c ∈ [part "Page" "goo-0", part "Card" "goo-1"], '<' ∉ c.scopeClass.toList) ∧
      (augment "<head></header><BODY id=a>x</Body >y</body z>" (part "Page" "goo-0") [part "Card" "goo-1"]).toList =
        ("\x7b\x7b#> css-goo-0\x7d\x7d\x7b\x7b/css-goo-0\x7d\x7d\n" ++
          "\x7b\x7b#> css-goo-1\x7d\x7d\x7b\x7b/css-goo-1\x7d\x7d\n<head></header><BODY id=a>\n" ++
          "\x7b\x7b#> content-goo-0\x7d\x7d\x7b\x7b/content-goo-0\x7d\x7d\nx" ++
          "\x7b\x7b#> js-goo-0\x7d\x7d\x7b\x7b/js-goo-0\x7d\x7d\n" ++
          "\x7b\x7b#> js-goo-1\x7d\x7d\x7b\x7b/js-goo-1\x7d\x7d\n</Body >y</body z>").toList := by
  intro part
  have hclasses : ∀ c ∈ [part "Page" "goo-0", part "Card" "goo-1"], '<' ∉ c.scopeClass.toList := by decide
  let layout := "<head></header><BODY id=a>x</Body >y</body z>"
  let start : Cut := ("<head></header>".toList, "<BODY id=a>".toList, "x</Body >y</body z>".toList)
  let stop : Cut := ("<head></header><BODY id=a>x".toList, "</Body >".toList, "y</body z>".toList)
  have hhead : FirstMatch (IsClosingTag "head") layout.toList none := firstHeadEnd_iff.mp (by decide)
  have hbody : FirstMatch IsBodyTag layout.toList (some start) := firstBodyStart_iff.mp (by decide)
  have hlast : LastMatch (IsClosingTag "body") layout.toList (some stop) := lastBodyEnd_iff.mp (by decide)
  have horder : InOrder none (some start) (some stop) :=
    { body := nofun
      last := by
        rintro _ ⟨⟩ _ ⟨⟩
        decide
      outer := nofun }
  refine ⟨hclasses, (augment_inserts hclasses hhead hbody hlast horder).trans ?_⟩
  decide +kernel

end ComponentSite.Layout
