/-
  ComponentSite.Proofs.ElementClashes — when two components define one custom element.

  Sources below the app folder with one extension show different texts, from which their
  elements are named (`shown_inj`). What is left of a text in the names is less:
  - the tag keeps the small letters and the digits, and how many other characters stand between
    two of them (`tag_ofStem_inj`);
  - the class name keeps them, and where a word begins: behind another character and behind a
    digit (`className_ofStem_inj`), for it is read back from its capitals (`map_markOf`).

  So two sources have one class name exactly if they have the same words, and one tag exactly if
  also the gaps are the same (`names_clash_iff`). A dash is an underscore to both, and to the
  class name a folder behind a digit is no folder (`folder_behind_digit`). A page with two such
  components declares one class twice (`nav_bars_clash`). Names of small letters and digits keep
  the tags apart (`tag_ne_of_small`), those of small letters the words (`words_ne_of_letters`).
-/
import Mathlib
import ComponentSite.Proofs.ClassName
import ComponentSite.Proofs.CompiledElements
import ComponentSite.Proofs.ComponentNames

namespace ComponentSite

namespace Path

theorem stem_of_cutExtension {name stem ext : List Char} (h : cutExtension name = (stem, some ext)) :
    stem ≠ [] ∧ name = stem ++ '.' :: ext := by
  unfold cutExtension at h
  split at h
  · cases h
  · cases h
  · rename_i hne hbreak
    cases h
    refine ⟨hne, ?_⟩
    rw [Text.breakOnLast_append hbreak, List.append_assoc]
    rfl

theorem IsKey.isStep {p : Path} {n : String} (hp : p.IsKey) (h : Segment.name n ∈ p.segments) :
    (Segment.name n).IsStep := by
  obtain ⟨steps, hsteps, hshape | hshape⟩ := hp.normal.shape
  all_goals rw [List.reverse_reverse] at hshape
  · exact hsteps _ (hshape ▸ h)
  · rw [hshape] at h
    exact hsteps _ ((List.mem_cons.mp h).resolve_left Segment.noConfusion)

theorem isStraight_normalize (folder : Path) : folder.normalize.IsStraight := by
  rw [IsStraight, segments_normalize]
  exact normalSegments_of_normal (normalSegments_normal folder)

end Path

namespace CustomElement
open ComponentSite.Path
open Style (isTagChar)

variable {s t : List Char}

/-! ## Dashes at the ends -/

theorem takeWhile_isDash (s : List Char) : ∃ k, s.takeWhile isDash = List.replicate k '-' :=
  ⟨_, List.eq_replicate_of_mem fun _ hc => eq_of_beq (List.mem_takeWhile_imp (p := isDash) hc)⟩

theorem exists_front (s : List Char) : ∃ k, s = List.replicate k '-' ++ s.dropWhile isDash := by
  obtain ⟨k, hk⟩ := takeWhile_isDash s
  exact ⟨k, by rw [← hk, List.takeWhile_append_dropWhile]⟩

theorem exists_back (s : List Char) : ∃ k, s.dropWhile isDash = trimDashes s ++ List.replicate k '-' := by
  obtain ⟨k, hk⟩ := exists_front (s.dropWhile isDash).reverse
  refine ⟨k, ?_⟩
  have h := congrArg List.reverse hk
  rw [List.reverse_reverse, List.reverse_append, List.reverse_replicate] at h
  exact h

theorem trimDashes_getLast (s : List Char) : (trimDashes s).getLast?.all (!isDash ·) = true := by
  have hhead := List.head?_dropWhile_not isDash (s.dropWhile isDash).reverse
  unfold trimDashes
  rw [List.getLast?_reverse]
  cases h : ((s.dropWhile isDash).reverse.dropWhile isDash).head? <;> simp_all

theorem trimDashes_of_ends (hhead : t.head?.any (!isDash ·) = true) (hlast : t.getLast?.any (!isDash ·) = true)
    (front : List Char) : trimDashes (front ++ t) = front.dropWhile isDash ++ t := by
  obtain ⟨c, r, rfl⟩ := List.exists_cons_of_ne_nil (l := t) (by rintro rfl; cases hhead)
  have hc : isDash c = false := by simpa using hhead
  have hstart : (front ++ c :: r).dropWhile isDash = front.dropWhile isDash ++ c :: r := by
    rw [List.dropWhile_append, List.dropWhile_cons_of_neg (by simp [hc])]
    split
    · rename_i hempty
      rw [List.isEmpty_iff.mp hempty, List.nil_append]
    · rfl
  obtain ⟨k, hback⟩ := exists_back (front ++ c :: r)
  cases k with
  | zero => rw [← hstart, hback, List.replicate_zero, List.append_nil]
  | succ k =>
    have hend := congrArg List.getLast? (hstart.symm.trans hback)
    rw [List.getLast?_append_of_ne_nil _ (List.cons_ne_nil c r), List.replicate_succ', ← List.append_assoc,
      List.getLast?_concat] at hend
    rw [hend] at hlast
    cases hlast

/-! ## Words and gaps -/

/-- Each letter and digit of a tag, and whether a word begins with it: a letter begins one behind
    a dash and behind a digit, and in front if `first`, a digit everywhere. -/
def wordMarks (first : Bool) : List Char → List (Bool × Char)
  | [] => []
  | c :: r => if isDash c then wordMarks true r else (first || c.isDigit, c) :: wordMarks c.isDigit r

/-- Each letter and digit of a tag, and how many dashes stand right in front of it. -/
def gapMarks (gap : Nat) : List Char → List (Nat × Char)
  | [] => []
  | c :: r => if isDash c then gapMarks (gap + 1) r else (gap, c) :: gapMarks 0 r

@[simp] theorem wordMarks_dash (first : Bool) (s : List Char) : wordMarks first ('-' :: s) = wordMarks true s := rfl

@[simp] theorem gapMarks_dash (gap : Nat) (s : List Char) : gapMarks gap ('-' :: s) = gapMarks (gap + 1) s := rfl

theorem wordMarks_front (k : Nat) (s : List Char) : wordMarks true (List.replicate k '-' ++ s) = wordMarks true s := by
  induction k with
  | zero => rfl
  | succ k ih => rw [List.replicate_succ, List.cons_append, wordMarks_dash, ih]

theorem wordMarks_append_dash (first : Bool) (s t : List Char) :
    wordMarks first (s ++ '-' :: t) = wordMarks first s ++ wordMarks true t := by
  induction s generalizing first with
  | nil => rfl
  | cons c s ih =>
    rw [List.cons_append, wordMarks, wordMarks]
    split
    · exact ih true
    · rw [ih, List.cons_append]

theorem wordMarks_back (first : Bool) (s : List Char) (k : Nat) :
    wordMarks first (s ++ List.replicate k '-') = wordMarks first s := by
  cases k with
  | zero => rw [List.replicate_zero, List.append_nil]
  | succ k =>
    have hnil := wordMarks_front k []
    rw [List.append_nil] at hnil
    rw [List.replicate_succ, wordMarks_append_dash, hnil]
    exact List.append_nil _

theorem wordMarks_trimDashes (s : List Char) : wordMarks true (trimDashes s) = wordMarks true s := by
  obtain ⟨j, hfront⟩ := exists_front s
  obtain ⟨k, hback⟩ := exists_back s
  calc wordMarks true (trimDashes s)
    _ = wordMarks true (s.dropWhile isDash) := by rw [hback, wordMarks_back]
    _ = wordMarks true s := by
      conv_rhs => rw [hfront, wordMarks_front]

theorem gapMarks_back (gap : Nat) (s : List Char) (k : Nat) :
    gapMarks gap (s ++ List.replicate k '-') = gapMarks gap s := by
  induction s generalizing gap with
  | nil =>
    rw [List.nil_append]
    induction k generalizing gap with
    | zero => rfl
    | succ k ih => rw [List.replicate_succ, gapMarks_dash, ih]; rfl
  | cons c s ih =>
    rw [List.cons_append, gapMarks, gapMarks]
    split
    · exact ih _
    · rw [ih]

theorem flatMap_gapMarks (hlast : s.getLast?.all (!isDash ·) = true) (gap : Nat) (hgap : s = [] → gap = 0) :
    (gapMarks gap s).flatMap (fun m => List.replicate m.1 '-' ++ [m.2]) = List.replicate gap '-' ++ s := by
  induction s generalizing gap with
  | nil =>
    rw [hgap rfl]
    rfl
  | cons c s ih =>
    have hrest : s.getLast?.all (!isDash ·) = true := by
      cases s with
      | nil => rfl
      | cons d s => exact hlast
    rw [gapMarks]
    split
    · rename_i hc
      have hne : s ≠ [] := by
        rintro rfl
        simp [hc] at hlast
      obtain rfl : c = '-' := eq_of_beq hc
      rw [ih hrest (gap + 1) fun h => absurd h hne, List.replicate_succ', List.append_assoc]
      rfl
    · rw [List.flatMap_cons, ih hrest 0 fun _ => rfl]
      simp

/-! ## Names -/

def words (text : List Char) : List (Bool × Char) := wordMarks true (text.flatMap tagChars)

/-- The letters and digits of a text, with the number of other characters between them. -/
def gaps (text : List Char) : List (Nat × Char) := gapMarks 0 ((text.flatMap tagChars).dropWhile isDash)

theorem isAlpha_of_isDigit {c : Char} (h : c.isDigit = true) : c.isAlpha = false := by
  delta Char.isAlpha Char.isUpper Char.isLower Char.isDigit at *
  simp only [UInt32.le_iff_toNat_le, Bool.and_eq_true, decide_eq_true_eq] at *
  simp at *
  omega

theorem isTagChar_cases {c : Char} (h : isTagChar c = true) :
    (c.isAlpha = true ∧ c.isDigit = false ∧ isDash c = false) ∨
      (c.isDigit = true ∧ c.isAlpha = false ∧ isDash c = false) ∨ c = '-' := by
  unfold isTagChar at h
  simp only [Bool.or_eq_true, beq_iff_eq] at h
  rcases h with (h | h) | h
  · have halpha : c.isAlpha = true := by rw [Char.isAlpha, h, Bool.or_true]
    have hdigit : c.isDigit = false := by
      refine Bool.eq_false_iff.mpr fun hdigit => ?_
      simp [isAlpha_of_isDigit hdigit] at halpha
    refine Or.inl ⟨halpha, hdigit, Bool.eq_false_iff.mpr fun hdash => ?_⟩
    simp [eq_of_beq hdash] at h
  · refine Or.inr (Or.inl ⟨h, isAlpha_of_isDigit h, Bool.eq_false_iff.mpr fun hdash => ?_⟩)
    simp [eq_of_beq hdash] at h
  · exact Or.inr (Or.inr h)

theorem not_isUpper_of_isTagChar {c : Char} (h : isTagChar c = true) : c.isUpper = false := by
  refine Bool.eq_false_iff.mpr fun hupper => ?_
  unfold isTagChar at h
  simp only [Bool.or_eq_true, beq_iff_eq] at h
  rcases h with (h | h) | rfl
  · exact Char.not_isUpper_of_isLower h hupper
  · have halpha := isAlpha_of_isDigit h
    simp [Char.isAlpha, hupper] at halpha
  · simp at hupper

theorem toLower_of_isTagChar {c : Char} (h : isTagChar c = true) : c.toLower = c :=
  Char.toLower_eq_of_not_isUpper (by simp [not_isUpper_of_isTagChar h])

theorem isTagChar_of_mem {c : Char} (h : c ∈ s.flatMap tagChars) : isTagChar c = true := by
  obtain ⟨d, -, hc⟩ := List.mem_flatMap.mp h
  unfold tagChars at hc
  split at hc
  · rename_i hd
    rw [List.mem_singleton.mp hc, isTagChar]
    rcases Bool.or_eq_true_iff.mp hd with hd | hd
    · simp [hd]
    · have hdigit : isTagChar d = true := by simp [isTagChar, hd]
      simp [toLower_of_isTagChar hdigit, hd]
  · split at hc
    · exact List.all_eq_true.mp (by decide : ['k'].all isTagChar = true) c hc
    · split at hc
      · exact List.all_eq_true.mp (by decide : ['i', '-'].all isTagChar = true) c hc
      · exact List.all_eq_true.mp (by decide : ['-'].all isTagChar = true) c hc

def capital (m : Bool × Char) : Char := if m.1 then m.2.toUpper else m.2

theorem capital_of_isDigit {c : Char} (h : c.isAlpha = false) (first : Bool) : capital (first, c) = c := by
  have hsame : c.toUpper = c := Char.toUpper_eq_of_not_isLower fun hlower => by simp [Char.isAlpha, hlower] at h
  simp [capital, hsame]

theorem pascalFrom_eq (h : ∀ c ∈ s, isTagChar c = true) (raise : Bool) :
    Text.pascalFrom raise false s = (wordMarks raise s).map capital := by
  induction s generalizing raise with
  | nil => rfl
  | cons c s ih =>
    obtain ⟨hc, hs⟩ := List.forall_mem_cons.mp h
    rw [Text.pascalFrom, wordMarks]
    rcases isTagChar_cases hc with ⟨halpha, hdigit, hdash⟩ | ⟨hdigit, halpha, hdash⟩ | rfl
    · simp [not_isUpper_of_isTagChar hc, halpha, hdigit, hdash, ih hs, capital]
    · simp [halpha, hdigit, hdash, ih hs, capital_of_isDigit halpha]
    · exact ih hs true

/-- The mark that a letter or digit of a class name has. -/
def markOf (d : Char) : Bool × Char := (d.isUpper || d.isDigit, d.toLower)

theorem map_markOf (h : ∀ c ∈ s, isTagChar c = true) (first : Bool) :
    ((wordMarks first s).map capital).map markOf = wordMarks first s := by
  induction s generalizing first with
  | nil => rfl
  | cons c s ih =>
    obtain ⟨hc, hs⟩ := List.forall_mem_cons.mp h
    rw [wordMarks]
    have hlower := toLower_of_isTagChar hc
    have hupper := not_isUpper_of_isTagChar hc
    rcases isTagChar_cases hc with ⟨halpha, hdigit, hdash⟩ | ⟨hdigit, halpha, hdash⟩ | rfl
    · have hmark : markOf (capital (first, c)) = (first, c) := by
        cases first <;> simp [markOf, capital, halpha, hupper, hdigit, hlower]
      simp [hdash, hdigit, hmark, ih hs]
    · simp [hdash, hdigit, capital_of_isDigit halpha, markOf, hlower, ih hs]
    · exact ih hs true

theorem trim_of_isTagChar (h : ∀ c ∈ s, isTagChar c = true) : Text.trim s = s := by
  have hkeep : ∀ t : List Char, (∀ c ∈ t, isTagChar c = true) → t.dropWhile Text.isBlank = t := by
    intro t ht
    cases t with
    | nil => rfl
    | cons c t =>
      have hc := isBlank_of_isTagChar (ht c List.mem_cons_self)
      exact List.dropWhile_cons_of_neg (by simp [hc])
  rw [Text.trim, Text.trimStart, Text.trimEnd, hkeep s h, hkeep s.reverse fun c hc => h c (List.mem_reverse.mp hc),
    List.reverse_reverse]

theorem isTagChar_of_mem_trimDashes {c : Char} (h : c ∈ trimDashes (s.flatMap tagChars)) : isTagChar c = true := by
  refine isTagChar_of_mem (s := s) ?_
  have hmem := (List.dropWhile_sublist _).subset (List.mem_reverse.mp h)
  exact (List.dropWhile_sublist _).subset (List.mem_reverse.mp hmem)

theorem toList_className (s : List Char) : (ofStem s).className.toList = "Goo".toList ++ (words s).map capital := by
  let tag := "goo-" ++ String.ofList (trimDashes (s.flatMap tagChars))
  have htag : tag.toList = "goo-".toList ++ trimDashes (s.flatMap tagChars) := by simp [tag]
  have hchars : ∀ c ∈ tag.toList, isTagChar c = true := by
    intro c hc
    rw [htag] at hc
    rcases List.mem_append.mp hc with hc | hc
    · exact List.all_eq_true.mp (by decide : "goo-".toList.all isTagChar = true) c hc
    · exact isTagChar_of_mem_trimDashes hc
  show (Text.pascalCase tag).toList = _
  rw [Text.pascalCase, String.toList_ofList, trim_of_isTagChar hchars, pascalFrom_eq hchars, htag, words,
    ← wordMarks_trimDashes (s.flatMap tagChars)]
  rfl

theorem className_ofStem_inj : (ofStem s).className = (ofStem t).className ↔ words s = words t := by
  constructor
  · intro h
    have hlists := congrArg String.toList h
    rw [toList_className, toList_className] at hlists
    have hmarks := congrArg (List.map markOf) (List.append_cancel_left hlists)
    rw [words, words, map_markOf fun _ => isTagChar_of_mem, map_markOf fun _ => isTagChar_of_mem] at hmarks
    exact hmarks
  · intro h
    apply String.toList_injective
    rw [toList_className, toList_className, h]

theorem gaps_eq (s : List Char) : gaps s = gapMarks 0 (trimDashes (s.flatMap tagChars)) := by
  obtain ⟨k, hback⟩ := exists_back (s.flatMap tagChars)
  rw [gaps, hback, gapMarks_back]

theorem tag_ofStem_inj : (ofStem s).tag = (ofStem t).tag ↔ gaps s = gaps t := by
  have htag : (ofStem s).tag = (ofStem t).tag ↔ ofStem s = ofStem t := by
    refine ⟨fun h => ofStem_inj.mpr ?_, congrArg tag⟩
    have hlists := congrArg String.toList h
    simpa [ofStem] using hlists
  rw [htag, ofStem_inj, gaps_eq, gaps_eq]
  refine ⟨congrArg _, fun h => ?_⟩
  have hread := flatMap_gapMarks (trimDashes_getLast (s.flatMap tagChars)) 0 fun _ => rfl
  rw [h, flatMap_gapMarks (trimDashes_getLast _) 0 fun _ => rfl] at hread
  exact hread.symm

/-! ## Sources below a folder -/

structure IsSourceBelow (folder : Path) (extension : String) (key : Path) : Prop where
  isKey : key.IsKey
  below : ∃ names, names ≠ [] ∧ key.segments = normalSegments folder.segments ++ names.map .name
  extension : key.extension? = some extension

section Sources

variable {folder key other : Path} {extension : String} {above : List String} {n : String}

namespace IsSourceBelow

variable (h : IsSourceBelow folder extension key)
include h

theorem exists_names : ∃ above n, key.segments = normalSegments folder.segments ++ (above ++ [n]).map .name ∧
    (∀ m ∈ above ++ [n], (Segment.name m).IsStep) ∧
      ∃ last, last ≠ [] ∧ cutExtension n.toList = (last, some extension.toList) := by
  obtain ⟨names, hne, hsegments⟩ := h.below
  obtain ⟨above, n, rfl⟩ := (List.eq_nil_or_concat names).resolve_left hne
  rw [List.concat_eq_append] at hsegments
  refine ⟨above, n, hsegments, fun m hm => h.isKey.isStep ?_, ?_⟩
  · rw [hsegments]
    exact List.mem_append_right _ (List.mem_map_of_mem hm)
  · have hname : key.fileName? = some n := by
      unfold fileName?
      rw [hsegments, List.map_append, ← List.append_assoc, List.map_singleton, List.getLast?_concat]
    have hextension := h.extension
    rw [extension?, hname, Option.bind_some] at hextension
    obtain ⟨ext, hcut, rfl⟩ := Option.map_eq_some_iff.mp hextension
    have hpair : cutExtension n.toList = ((cutExtension n.toList).1, some ext) := Prod.ext rfl hcut
    exact ⟨_, (stem_of_cutExtension hpair).1, by rw [hpair, String.toList_ofList]⟩

end IsSourceBelow

theorem shown_normalize (hkey : key.IsKey) (hn : ∀ m ∈ above ++ [n], (Segment.name m).IsStep)
    (h : key.segments = normalSegments folder.segments ++ (above ++ [n]).map .name) :
    shown folder.normalize key = stem (above.map .name) n := by
  refine shown_of_straight (isStraight_normalize folder) hkey hn ?_
  rw [normalSegments_of_normalize (normalize_normalize folder), h]

/-- What shows of a folder, however it is spelled, stands in front of what shows below it. -/
theorem exists_lead (folder : Path) : ∃ lead, (lead = [] ∨ ∃ front, lead = front ++ ['/']) ∧
    ∀ extension key, IsSourceBelow folder extension key → shown folder key = lead ++ shown folder.normalize key := by
  by_cases hs : folder.IsStraight
  · refine ⟨[], Or.inl rfl, fun extension key h => ?_⟩
    obtain ⟨above, n, hsegments, hn, -⟩ := h.exists_names
    rw [shown_normalize h.isKey hn hsegments, shown_of_straight hs h.isKey hn hsegments, List.nil_append]
  · refine ⟨(normalSegments folder.segments).flatMap (·.piece.1 ++ ['/']), ?_, fun extension key h => ?_⟩
    · rcases List.eq_nil_or_concat (normalSegments folder.segments) with hnil | ⟨front, s, hlast⟩
      · exact Or.inl (by rw [hnil]; rfl)
      · refine Or.inr ⟨front.flatMap (·.piece.1 ++ ['/']) ++ s.piece.1, ?_⟩
        rw [hlast, List.concat_eq_append, List.flatMap_append, List.append_assoc]
        simp
    · obtain ⟨above, n, hsegments, hn, -⟩ := h.exists_names
      rw [shown_normalize h.isKey hn hsegments, shown_of_not_straight hs h.isKey hsegments, stem_append]

/-- What shows below a folder are the names, the last without the extension. -/
theorem IsSourceBelow.exists_pieces (h : IsSourceBelow folder extension key) :
    ∃ above last, (∀ m ∈ above ++ [last], m ≠ [] ∧ '/' ∉ m) ∧
      shown folder.normalize key = ['/'].intercalate (above ++ [last]) ∧
      key.segments = normalSegments folder.segments ++
        (above ++ [last ++ '.' :: extension.toList]).map fun m => Segment.name (String.ofList m) := by
  obtain ⟨above, n, hsegments, hn, last, hne, hcut⟩ := h.exists_names
  obtain ⟨-, hname⟩ := stem_of_cutExtension hcut
  have hslash := (hn n (by simp)).2.1
  refine ⟨above.map String.toList, last, ?_, ?_, ?_⟩
  · intro m hm
    rcases List.mem_append.mp hm with hm | hm
    · obtain ⟨m, hmem, rfl⟩ := List.mem_map.mp hm
      have hstep := hn m (List.mem_append_left _ hmem)
      exact ⟨hstep.1, hstep.2.1⟩
    · rw [List.mem_singleton.mp hm]
      exact ⟨hne, fun hmem => hslash (hname ▸ List.mem_append_left _ hmem)⟩
  · rw [shown_normalize h.isKey hn hsegments, stem, hcut, List.map_map]
    rfl
  · rw [hsegments, ← hname, List.map_append, List.map_append, List.map_map]
    simp [Function.comp_def]

theorem shown_inj (hkey : IsSourceBelow folder extension key) (hother : IsSourceBelow folder extension other)
    (h : shown folder.normalize key = shown folder.normalize other) : key = other := by
  obtain ⟨above, last, hpieces, hshown, hsegments⟩ := hkey.exists_pieces
  obtain ⟨above', last', hpieces', hshown', hsegments'⟩ := hother.exists_pieces
  rw [hshown, hshown'] at h
  have hsplit := congrArg (List.splitOn '/') h
  rw [List.splitOn_intercalate '/' (fun m hm => (hpieces m hm).2) (by simp),
    List.splitOn_intercalate '/' (fun m hm => (hpieces' m hm).2) (by simp)] at hsplit
  obtain ⟨rfl, hlast⟩ := List.append_inj' hsplit rfl
  obtain rfl := List.singleton_inj.mp hlast
  calc key
    _ = ofSegments (normalSegments key.segments) := hkey.isKey.symm
    _ = ofSegments (normalSegments other.segments) := by rw [hsegments, hsegments']
    _ = other := hother.isKey

/-! ## Plain names -/

theorem tagChars_of_small {c : Char} (h : c.isLower = true ∨ c.isDigit = true) :
    tagChars c = [c] ∧ isDash c = false := by
  have hchar : isTagChar c = true := by
    rw [isTagChar]
    rcases h with h | h <;> simp [h]
  have hlower := toLower_of_isTagChar hchar
  rcases isTagChar_cases hchar with ⟨halpha, -, hdash⟩ | ⟨hdigit, -, hdash⟩ | rfl
  · exact ⟨by simp [tagChars, Char.isAlphanum, halpha, hlower], hdash⟩
  · exact ⟨by simp [tagChars, Char.isAlphanum, hdigit, hlower], hdash⟩
  · simp at h

theorem flatMap_tagChars_of_letters (h : ∀ c ∈ s, c.isLower = true) : s.flatMap tagChars = s := by
  induction s with
  | nil => rfl
  | cons c s ih =>
    obtain ⟨hc, hs⟩ := List.forall_mem_cons.mp h
    rw [List.flatMap_cons, (tagChars_of_small (Or.inl hc)).1, ih hs]
    rfl

/-- A text of small letters, digits and slashes is read off from its tag. -/
theorem map_flatMap_tagChars (h : ∀ c ∈ s, c = '/' ∨ c.isLower = true ∨ c.isDigit = true) :
    (s.flatMap tagChars).map (fun c => if isDash c then '/' else c) = s := by
  induction s with
  | nil => rfl
  | cons c s ih =>
    obtain ⟨hc, hs⟩ := List.forall_mem_cons.mp h
    rw [List.flatMap_cons, List.map_append, ih hs]
    rcases hc with rfl | hc
    · rfl
    · obtain ⟨hchars, hdash⟩ := tagChars_of_small hc
      rw [hchars, List.map_singleton, hdash]
      rfl

/-- What shows below the folder has no slash at its ends. -/
theorem IsSourceBelow.ends (h : IsSourceBelow folder extension key) :
    (∃ c r, shown folder.normalize key = c :: r ∧ c ≠ '/') ∧
      ∃ r c, shown folder.normalize key = r ++ [c] ∧ c ≠ '/' := by
  obtain ⟨above, last, hpieces, hshown, -⟩ := h.exists_pieces
  rw [hshown]
  constructor
  · obtain ⟨first, rest, hfirst⟩ := List.exists_cons_of_ne_nil (List.concat_ne_nil last above)
    obtain ⟨hne, hslash⟩ := hpieces first (hfirst ▸ List.mem_cons_self)
    obtain ⟨c, r, rfl⟩ := List.exists_cons_of_ne_nil hne
    obtain ⟨more, hmore⟩ := Text.isPrefix_intercalate ['/'] (c :: r) rest
    exact ⟨c, r ++ more, by rw [hfirst, ← hmore, List.cons_append], fun e => hslash (e ▸ List.mem_cons_self)⟩
  · obtain ⟨hne, hslash⟩ := hpieces last (by simp)
    obtain ⟨r, c, rfl⟩ := (List.eq_nil_or_concat last).resolve_left hne
    rw [List.concat_eq_append] at hslash ⊢
    refine ⟨above.flatMap (· ++ ['/']) ++ r, c, ?_, fun e => hslash (by simp [e])⟩
    rw [intercalate_append above (by simp), List.append_assoc]
    simp

/-- A text of small letters and digits with slashes between them. -/
def IsSmall (s : List Char) : Prop := ∀ c ∈ s, c = '/' ∨ c.isLower = true ∨ c.isDigit = true

def IsSmallLetters (s : List Char) : Prop := ∀ c ∈ s, c = '/' ∨ c.isLower = true

theorem trimDashes_shown (h : IsSourceBelow folder extension key) (hsmall : IsSmall (shown folder.normalize key))
    (lead : List Char) : trimDashes ((lead ++ shown folder.normalize key).flatMap tagChars) =
      (lead.flatMap tagChars).dropWhile isDash ++ (shown folder.normalize key).flatMap tagChars := by
  obtain ⟨⟨c, r, hfirst, hc⟩, ⟨r', c', hlast, hc'⟩⟩ := h.ends
  have hc := tagChars_of_small ((hsmall c (by simp [hfirst])).resolve_left hc)
  have hc' := tagChars_of_small ((hsmall c' (by simp [hlast])).resolve_left hc')
  rw [List.flatMap_append]
  refine trimDashes_of_ends ?_ ?_ _
  · rw [hfirst, List.flatMap_cons, hc.1]
    simp [hc.2]
  · rw [hlast, List.flatMap_append, List.flatMap_singleton, hc'.1]
    simp [hc'.2]

theorem tag_ne_of_small (hkey : IsSourceBelow folder extension key) (hother : IsSourceBelow folder extension other)
    (hne : key ≠ other) (h : IsSmall (shown folder.normalize key)) (h' : IsSmall (shown folder.normalize other)) :
    (forPath key folder).tag ≠ (forPath other folder).tag := by
  intro htag
  obtain ⟨lead, -, hlead⟩ := exists_lead folder
  have htexts := congrArg String.toList htag
  rw [forPath_eq, forPath_eq, hlead _ _ hkey, hlead _ _ hother] at htexts
  simp only [ofStem, String.toList_append, String.toList_ofList] at htexts
  have hsame := List.append_cancel_left htexts
  rw [trimDashes_shown hkey h, trimDashes_shown hother h'] at hsame
  have hshown := congrArg (List.map fun c => if isDash c then '/' else c) (List.append_cancel_left hsame)
  rw [map_flatMap_tagChars h, map_flatMap_tagChars h'] at hshown
  exact hne (shown_inj hkey hother hshown)

/-- The letter, behind a slash if a word begins with it. -/
def spell (m : Bool × Char) : List Char := if m.1 then ['/', m.2] else [m.2]

theorem flatMap_spell (h : ∀ c ∈ s, c.isLower = true) :
    (wordMarks false s).flatMap spell = s ∧ (s ≠ [] → (wordMarks true s).flatMap spell = '/' :: s) := by
  induction s with
  | nil => exact ⟨rfl, fun hne => absurd rfl hne⟩
  | cons c s ih =>
    obtain ⟨hc, hs⟩ := List.forall_mem_cons.mp h
    have hdash := (tagChars_of_small (Or.inl hc)).2
    have hdigit : c.isDigit = false := by
      refine Bool.eq_false_iff.mpr fun hdigit => ?_
      have halpha := isAlpha_of_isDigit hdigit
      simp [Char.isAlpha, hc] at halpha
    simp [wordMarks, hdash, hdigit, spell, (ih hs).1]

/-- Names of small letters are words, so they are read off from them. -/
theorem flatMap_spell_words {ms : List (List Char)} (h : ∀ m ∈ ms, m ≠ [] ∧ ∀ c ∈ m, c.isLower = true)
    (hne : ms ≠ []) :
    (words (['/'].intercalate ms)).flatMap spell = '/' :: ['/'].intercalate ms := by
  induction ms with
  | nil => exact absurd rfl hne
  | cons m ms ih =>
    obtain ⟨⟨hm, hletters⟩, hms⟩ := List.forall_mem_cons.mp h
    have hspell := (flatMap_spell hletters).2 hm
    cases ms with
    | nil =>
      rw [List.intercalate_singleton, words, flatMap_tagChars_of_letters hletters]
      exact hspell
    | cons m' ms =>
      have hrest := ih hms (List.cons_ne_nil m' ms)
      have htag : (m ++ '/' :: ['/'].intercalate (m' :: ms)).flatMap tagChars =
          m ++ '-' :: (['/'].intercalate (m' :: ms)).flatMap tagChars := by
        rw [List.flatMap_append, flatMap_tagChars_of_letters hletters]
        rfl
      rw [words] at hrest
      rw [List.intercalate_cons_of_ne_nil (List.cons_ne_nil m' ms), List.append_assoc, List.singleton_append, words,
        htag, wordMarks_append_dash, List.flatMap_append, hspell, hrest]
      rfl

theorem words_append_lead {lead : List Char} (hlead : lead = [] ∨ ∃ front, lead = front ++ ['/']) (s : List Char) :
    words (lead ++ s) = words lead ++ words s := by
  rcases hlead with rfl | ⟨front, rfl⟩
  · rfl
  · have htag : ((front ++ ['/']) ++ s).flatMap tagChars = front.flatMap tagChars ++ '-' :: s.flatMap tagChars := by
      simp [show tagChars '/' = ['-'] from rfl]
    have hfront : (front ++ ['/']).flatMap tagChars = front.flatMap tagChars ++ '-' :: [] := by
      simp [show tagChars '/' = ['-'] from rfl]
    rw [words, words, words, htag, hfront, wordMarks_append_dash, wordMarks_append_dash, List.append_assoc]
    rfl

theorem words_ne_of_letters (hkey : IsSourceBelow folder extension key) (hother : IsSourceBelow folder extension other)
    (hne : key ≠ other) (h : IsSmallLetters (shown folder.normalize key))
    (h' : IsSmallLetters (shown folder.normalize other)) : words (shown folder key) ≠ words (shown folder other) := by
  intro hwords
  have hspell : ∀ k, IsSourceBelow folder extension k → IsSmallLetters (shown folder.normalize k) →
      (words (shown folder.normalize k)).flatMap spell = '/' :: shown folder.normalize k := by
    intro k hk hletters
    obtain ⟨above, last, hpieces, hshown, -⟩ := hk.exists_pieces
    rw [hshown] at hletters ⊢
    refine flatMap_spell_words (fun m hm => ⟨(hpieces m hm).1, fun c hc => ?_⟩) (by simp)
    exact (hletters c ((Text.infix_intercalate hm).subset hc)).resolve_left fun e => (hpieces m hm).2 (e ▸ hc)
  obtain ⟨lead, hends, hlead⟩ := exists_lead folder
  rw [hlead _ _ hkey, hlead _ _ hother, words_append_lead hends, words_append_lead hends] at hwords
  have hshown := congrArg (List.flatMap spell) (List.append_cancel_left hwords)
  rw [hspell key hkey h, hspell other hother h'] at hshown
  exact hne (shown_inj hkey hother (List.cons.inj hshown).2)

end Sources

end CustomElement

/-! ## Pages -/

namespace Component

/-- The script of the component declares the class of the element and defines the element. -/
def Defines (c : Component) (e : CustomElement) : Prop :=
  (Fragment.ofKind? c.fragments .script).map (·.body) =
    some ("<script>\n" ++ e.wrapScript (Text.trimmed c.script) ++ "\n</script>")

theorem defines_of_fragments {c : Component} {e : CustomElement}
    (h : c.fragments = Fragment.generate c.scopeClass c.script c.markup c.style (some e))
    (hscript : Text.trimmed c.script ≠ "") : c.Defines e := by
  have hempty : (Text.trimmed c.script).isEmpty = false := by simpa using hscript
  unfold Defines
  rw [h]
  simp [Fragment.generate, Fragment.ofKind?, hempty]

end Component

namespace CustomElement
open ComponentGraph ComponentSite.Path

theorem defines_on_page {folder root : Path} {options : CompileOptions} {calls : List Call} {page c : Component}
    {flat : List Component} (hon : options.webComponents = some folder)
    (hpage : (after options calls).get? root = some page)
    (hflat : (after options calls).flatten root = .ok flat) (hc : c ∈ page :: flat)
    (hscript : Text.trimmed c.script ≠ "") : c.Defines (forPath c.sourcePath folder) := by
  have hordered := (reachable_after options calls).inv.1
  have hmem := hordered.mem_components hpage hflat hc
  have hoptions : options.withElements (some folder) = options := by
    unfold CompileOptions.withElements
    rw [← hon]
  rw [← hoptions, after_withElements] at hmem
  obtain ⟨plain, -, rfl⟩ := List.mem_map.mp hmem
  exact Component.defines_of_fragments (by simp only [Component.withElement]; rfl) hscript

/-- Two sources below the app folder, with one extension, are named after different texts. Their
    class names are equal exactly if the texts have the same words, their tags exactly if the
    texts have the same letters and digits with the same gaps, and then they have the same words.
    Small letters and digits keep the tags apart, small letters alone the class names too. Every
    component of a page that has a script declares and defines the element of its source. -/
theorem names_clash_iff {folder key other : Path} {extension : String} (hkey : IsSourceBelow folder extension key)
    (hother : IsSourceBelow folder extension other) (hne : key ≠ other) :
    shown folder key ≠ shown folder other ∧
      ((forPath key folder).className = (forPath other folder).className ↔
        words (shown folder key) = words (shown folder other)) ∧
      ((forPath key folder).tag = (forPath other folder).tag ↔ gaps (shown folder key) = gaps (shown folder other)) ∧
      ((forPath key folder).tag = (forPath other folder).tag →
        words (shown folder key) = words (shown folder other)) ∧
      (IsSmall (shown folder.normalize key) → IsSmall (shown folder.normalize other) →
        (forPath key folder).tag ≠ (forPath other folder).tag) ∧
      (IsSmallLetters (shown folder.normalize key) → IsSmallLetters (shown folder.normalize other) →
        (forPath key folder).tag ≠ (forPath other folder).tag ∧
          (forPath key folder).className ≠ (forPath other folder).className) ∧
      ∀ (options : CompileOptions) (calls : List Call) (root : Path) (page : Component) (flat : List Component),
        options.webComponents = some folder → (after options calls).get? root = some page →
        (after options calls).flatten root = .ok flat →
        ∀ c ∈ page :: flat, Text.trimmed c.script ≠ "" → c.Defines (forPath c.sourcePath folder) := by
  have hclass : (forPath key folder).className = (forPath other folder).className ↔
      words (shown folder key) = words (shown folder other) := className_ofStem_inj
  have htag : (forPath key folder).tag = (forPath other folder).tag →
      words (shown folder key) = words (shown folder other) := fun h => hclass.mp (congrArg Text.pascalCase h)
  refine ⟨?_, hclass, tag_ofStem_inj, htag, tag_ne_of_small hkey hother hne, ?_, ?_⟩
  · intro hshown
    obtain ⟨lead, -, hlead⟩ := exists_lead folder
    rw [hlead _ _ hkey, hlead _ _ hother] at hshown
    exact hne (shown_inj hkey hother (List.append_cancel_left hshown))
  · intro h h'
    have hwords := words_ne_of_letters hkey hother hne h h'
    exact ⟨fun h => hwords (htag h), fun h => hwords (hclass.mp h)⟩
  · intro options calls root page flat hon hpage hflat c hc hscript
    exact defines_on_page hon hpage hflat hc hscript

/-- A folder behind a digit does not show in the class name. -/
theorem folder_behind_digit :
    let folder : Path := ⟨"./app"⟩
    (forPath ⟨"app/a1b.goo"⟩ folder).className = (forPath ⟨"app/a1/b.goo"⟩ folder).className ∧
      (forPath ⟨"app/a1b.goo"⟩ folder).tag ≠ (forPath ⟨"app/a1/b.goo"⟩ folder).tag := by
  intro folder
  have hkey : IsSourceBelow folder "goo" ⟨"app/a1b.goo"⟩ :=
    ⟨by decide, ⟨["a1b.goo"], by decide, by decide⟩, by decide⟩
  have hother : IsSourceBelow folder "goo" ⟨"app/a1/b.goo"⟩ :=
    ⟨by decide, ⟨["a1", "b.goo"], by decide, by decide⟩, by decide⟩
  obtain ⟨-, hclass, htag, -⟩ := names_clash_iff hkey hother (by decide)
  exact ⟨hclass.mpr (by decide), fun h => absurd (htag.mp h) (by decide)⟩

/-- A page whose two components have one tag and one class name. -/
theorem nav_bars_clash :
    let text (name : String) := "<script>" ++ name ++ "();</script><component>" ++ name ++ "</component>"
    let files : FileTree := { entries := [
      (["app"], .folder none),
      (["app", "page.goo"],
        .file (some ("<script>import A from './nav-bar.goo'\nimport B from './nav_bar.goo'</script>" ++
        "<component><A/><B/></component>")) 1),
      (["app", "nav-bar.goo"], .file (some (text "a")) 1),
      (["app", "nav_bar.goo"], .file (some (text "b")) 1)] }
    let options := ({ root := ⟨""⟩, webComponents := true } : Config).compileOptions 0
    let g := (empty.compilePage files options ⟨"app/page.goo"⟩ "Page").2
    let element : CustomElement := ⟨"goo-nav-bar", "GooNavBar"⟩
    let script (name : String) := "<script>\n" ++ element.wrapScript (name ++ "();") ++ "\n</script>"
    IsSourceBelow ⟨"app"⟩ "goo" ⟨"app/nav-bar.goo"⟩ ∧ IsSourceBelow ⟨"app"⟩ "goo" ⟨"app/nav_bar.goo"⟩ ∧
      forPath ⟨"app/nav-bar.goo"⟩ ⟨"app"⟩ = element ∧ forPath ⟨"app/nav_bar.goo"⟩ ⟨"app"⟩ = element ∧
      options.webComponents = some ⟨"app"⟩ ∧
      (g.flatten ⟨"app/page.goo"⟩).toOption.map (List.map fun c =>
          (c.sourcePath.text, (Fragment.ofKind? c.fragments .script).map (·.body))) =
        some [("app/nav-bar.goo", some (script "a")), ("app/nav_bar.goo", some (script "b"))] := by
  refine ⟨⟨by decide, ⟨["nav-bar.goo"], by decide, by decide⟩, by decide⟩,
    ⟨by decide, ⟨["nav_bar.goo"], by decide, by decide⟩, by decide⟩, ?_⟩
  decide +kernel

end CustomElement

end ComponentSite
