/-
  ComponentSite.Proofs.ElementNames — what the name of a custom element owes to the
  spelling of the app folder.

  A source has a normal path; the app folder is spelled as it was given. The folder is
  straight if it is spelled with the steps of its normal form (`Path.IsStraight`): without a
  leading `.`, and without a `..` behind a name. Only the steps of a straight folder can
  stand in front of a normal path (`isStraight_of_leading`). So the element of a source below
  a straight folder is named after the rest of its path (`forPath_of_straight`), below any
  other folder it is named after the whole path (`forPath_of_not_straight`).

  The steps in front show in the name, unless they have neither a letter nor a digit
  (`trimDashes_append_eq_iff`). Hence two spellings of one folder give the same names
  exactly if both are straight, or neither is, or nothing of the folder shows
  (`forPath_eq_iff`).
-/
import ComponentSite.CustomElement
import ComponentSite.Proofs.JoinedPath

namespace ComponentSite

namespace Path

variable {p base : Path} {steps front : List Segment} {n : String} {names : List String}

/-! ## Straight folders -/

/-- The steps are those of the normal form. -/
def IsStraight (p : Path) : Prop := normalSegments p.segments = p.segments

instance (p : Path) : Decidable p.IsStraight := inferInstanceAs (Decidable (_ = _))

theorem normalStack_of_ups {stack : List Segment} (h : ∀ s ∈ stack, s = .up) : NormalStack stack := by
  cases stack with
  | nil => exact .nil
  | cons s above =>
    obtain rfl := h s List.mem_cons_self
    exact .up fun t ht => h t (List.mem_cons_of_mem _ ht)

theorem NormalStack.of_suffix {stack bottom : List Segment} (h : NormalStack stack) (hs : bottom <:+ stack) :
    NormalStack bottom := by
  induction h with
  | nil => exact List.suffix_nil.mp hs ▸ .nil
  | root =>
    rcases List.suffix_cons_iff.mp hs with rfl | hs
    · exact .root
    · exact List.suffix_nil.mp hs ▸ .nil
  | up hall =>
    refine normalStack_of_ups fun s hmem => ?_
    rcases List.mem_cons.mp (hs.subset hmem) with rfl | hmem
    · rfl
    · exact hall s hmem
  | name hn hnormal ih =>
    rcases List.suffix_cons_iff.mp hs with rfl | hs
    · exact .name hn hnormal
    · exact ih hs

theorem IsKey.normal (hp : p.IsKey) : NormalStack p.segments.reverse := by
  rw [← hp, segments_normalize]
  exact normalSegments_normal p

theorem isStraight_of_leading (hp : p.IsKey) (h : base.segments <+: p.segments) : base.IsStraight :=
  normalSegments_of_normal (hp.normal.of_suffix (List.reverse_suffix.mpr h))

/-! ## Pieces of a normal path -/

theorem trimPieces_map_piece (steps : List Segment) :
    trimPieces (steps.map Segment.piece) = steps.map Segment.piece := by
  rcases List.eq_nil_or_concat steps with rfl | ⟨front, s, rfl⟩
  · rfl
  · rw [List.concat_eq_append, List.map_append, List.map_singleton, s.piece_eq]
    exact trimPieces_concat_some _ _ s

theorem dropSegments_map_piece (k : Nat) (steps : List Segment) :
    dropSegments k (steps.map Segment.piece) = (steps.drop k).map Segment.piece := by
  induction k generalizing steps with
  | zero => rw [dropSegments, List.drop_zero]
  | succ k ih =>
    cases steps with
    | nil => rfl
    | cons s rest =>
      rw [List.map_cons, s.piece_eq, dropSegments]
      exact ih rest

theorem normalSegments_of_normalize (h : p.normalize = base.normalize) :
    normalSegments p.segments = normalSegments base.segments := by
  rw [← segments_normalize, ← segments_normalize, h]

theorem segments_normalize_below (hn : ∀ n ∈ names, (Segment.name n).IsStep) (folder : Path) :
    (folder.below names).normalize.segments = normalSegments folder.segments ++ names.map .name := by
  rw [segments_normalize, segments_below hn, normalSegments_append_names]

theorem isStep_of_mem_map (hn : ∀ n ∈ names, (Segment.name n).IsStep) : ∀ s ∈ names.map Segment.name, s.IsStep := by
  intro s hs
  obtain ⟨n, hmem, rfl⟩ := List.mem_map.mp hs
  exact hn n hmem

/-- A normal path has a piece for every step, if its last step is a name. -/
theorem pieces_of_segments (hp : p.IsKey) (h : p.segments = front ++ [.name n]) :
    p.pieces = p.segments.map Segment.piece := by
  have hspelled : p = ofSegments p.segments := by
    rw [← hp, segments_normalize]
    rfl
  obtain ⟨steps, hsteps, hroot | hroot⟩ := hp.normal.shape
  · rw [List.reverse_reverse] at hroot
    have hne : steps ≠ [] := by
      rintro rfl
      simp [h] at hroot
    rw [hroot] at hspelled
    rw [hroot, hspelled, ofSegments_of_steps hsteps, pieces_ofSteps hsteps hne]
  · rw [List.reverse_reverse] at hroot
    have hne : steps ≠ [] := by
      rintro rfl
      have := congrArg List.getLast? (hroot.symm.trans h)
      simp at this
    rw [hroot] at hspelled
    rw [hroot, ← pieces_ofRoot hsteps hne, hspelled]
    rfl

theorem ofPieces_map_piece (hs : ∀ s ∈ steps, s.IsStep) : ofPieces (steps.map Segment.piece) = ofSegments steps := by
  have htexts : (steps.map Segment.piece).map (·.1) = steps.map (·.text.toList) := by
    rw [List.map_map]
    exact List.map_congr_left fun s hmem => congrArg Prod.fst (Segment.piece_of_step (hs s hmem))
  unfold ofPieces
  split
  · rename_i text hroot
    have hsteps := filterMap_map_piece steps
    rw [hroot] at hsteps
    exact absurd (hs .root (hsteps ▸ List.mem_singleton_self _)) id
  · rw [ofSegments_of_steps hs, htexts, ← String.ofList_toList (s := "/".intercalate _), String.toList_intercalate,
      List.map_map]
    rfl

theorem relativeTo?_of_names (hp : p.IsKey) (hn : ∀ n ∈ names, (Segment.name n).IsStep) (hne : names ≠ [])
    (h : p.segments = base.segments ++ names.map .name) : p.relativeTo? base = some (ofSegments (names.map .name)) := by
  have hpieces : p.pieces = p.segments.map Segment.piece := by
    obtain ⟨above, n, rfl⟩ := (List.eq_nil_or_concat names).resolve_left hne
    have hlast : p.segments = (base.segments ++ above.map .name) ++ [.name n] := by
      rw [h, List.concat_eq_append, List.map_append, List.append_assoc]
      rfl
    exact pieces_of_segments hp hlast
  have hleft : dropSegments base.segments.length p.pieces = (names.map Segment.name).map Segment.piece := by
    rw [hpieces, dropSegments_map_piece, h, List.drop_left]
  have hfirst : ((names.map Segment.name).map Segment.piece).dropWhile (·.2.isNone) =
      (names.map Segment.name).map Segment.piece := by
    cases names with
    | nil => rfl
    | cons => rfl
  have hlead : base.segments.isPrefixOf p.segments = true := List.isPrefixOf_iff_prefix.mpr ⟨_, h.symm⟩
  unfold relativeTo?
  rw [if_pos hlead]
  simp only [hleft, hfirst, ite_self]
  rw [trimPieces_map_piece, ofPieces_map_piece (isStep_of_mem_map hn)]

theorem relativeTo?_of_not_leading (h : ¬ base.segments <+: p.segments) : p.relativeTo? base = none := by
  unfold relativeTo?
  exact if_neg fun hlead => h (List.isPrefixOf_iff_prefix.mp hlead)

theorem relativeTo?_of_not_straight (hp : p.IsKey) (hs : ¬ base.IsStraight) : p.relativeTo? base = none :=
  relativeTo?_of_not_leading fun h => hs (isStraight_of_leading hp h)

def stem (front : List Segment) (n : String) : List Char :=
  ['/'].intercalate (front.map (·.piece.1) ++ [(cutExtension n.toList).1])

theorem toList_withoutExtension (h : p.pieces = (front ++ [Segment.name n]).map Segment.piece) :
    p.withoutExtension.text.toList = stem front n := by
  have hreverse : (trimPieces p.pieces).reverse = (n.toList, some (.name n)) :: (front.map Segment.piece).reverse := by
    rw [h, trimPieces_map_piece, List.map_append, List.reverse_append]
    rfl
  unfold withoutExtension
  rw [hreverse]
  simp only [List.reverse_reverse]
  unfold ofPieces
  split
  · rename_i hroot
    have := congrArg List.getLast? hroot
    simp at this
  · rw [String.toList_ofList, List.map_append, List.map_map]
    rfl

theorem intercalate_append {sep : List Char} (xs : List (List Char)) {ys : List (List Char)} (hys : ys ≠ []) :
    sep.intercalate (xs ++ ys) = xs.flatMap (· ++ sep) ++ sep.intercalate ys := by
  induction xs with
  | nil => rfl
  | cons x xs ih =>
    rw [List.cons_append, List.intercalate_cons_of_ne_nil (by simp [hys]), ih, List.flatMap_cons]
    simp only [List.append_assoc]

theorem stem_append (lead front : List Segment) (n : String) :
    stem (lead ++ front) n = lead.flatMap (·.piece.1 ++ ['/']) ++ stem front n := by
  unfold stem
  rw [List.map_append, List.append_assoc, intercalate_append _ (by simp), List.flatMap_map]

end Path

namespace CustomElement
open ComponentSite.Path

/-! ## Tags -/

def ofStem (stem : List Char) : CustomElement :=
  let tag := "goo-" ++ String.ofList (trimDashes (stem.flatMap tagChars))
  ⟨tag, Text.pascalCase tag⟩

theorem ofStem_inj {stem stem' : List Char} :
    ofStem stem = ofStem stem' ↔ trimDashes (stem.flatMap tagChars) = trimDashes (stem'.flatMap tagChars) := by
  constructor
  · intro h
    have htag := congrArg (·.tag.toList) h
    simpa [ofStem] using htag
  · intro h
    unfold ofStem
    rw [h]

theorem countP_dropWhile_isDash (s : List Char) :
    (s.dropWhile isDash).countP (!isDash ·) = s.countP (!isDash ·) := by
  induction s with
  | nil => rfl
  | cons c s ih => cases hc : isDash c <;> simp [hc, ih]

theorem countP_trimDashes (s : List Char) : (trimDashes s).countP (!isDash ·) = s.countP (!isDash ·) := by
  unfold trimDashes
  rw [List.countP_reverse, countP_dropWhile_isDash, List.countP_reverse, countP_dropWhile_isDash]

/-- What stands in front of a text is trimmed away with it if it is dashes only. -/
theorem trimDashes_append_eq_iff (front s : List Char) :
    trimDashes (front ++ s) = trimDashes s ↔ front.all isDash = true := by
  constructor
  · intro h
    have hcount := congrArg (List.countP (!isDash ·)) h
    rw [countP_trimDashes, countP_trimDashes, List.countP_append] at hcount
    have hnone : front.countP (!isDash ·) = 0 := by omega
    simpa using List.countP_eq_zero.mp hnone
  · intro h
    unfold trimDashes
    rw [List.dropWhile_append_of_pos (List.all_eq_true.mp h)]

/-- Nothing of the folder shows in a tag: its steps have neither letters nor digits. -/
def IsMute (folder : Path) : Prop :=
  (normalSegments folder.segments).all (fun s => (s.text.toList.flatMap tagChars).all isDash) = true

instance (folder : Path) : Decidable (IsMute folder) := inferInstanceAs (Decidable (_ = true))

theorem isMute_iff {folder : Path} :
    IsMute folder ↔
      (((normalSegments folder.segments).flatMap (·.piece.1 ++ ['/'])).flatMap tagChars).all isDash = true := by
  have hslash : (['/'].flatMap tagChars).all isDash = true := by decide
  have hstep : ∀ s : Segment, ((s.piece.1 ++ ['/']).flatMap tagChars).all isDash =
      (s.text.toList.flatMap tagChars).all isDash := by
    intro s
    rw [List.flatMap_append, List.all_append, hslash, Bool.and_true]
    cases s with
    | root => exact hslash.symm
    | here | up | name => rfl
  unfold IsMute
  rw [List.flatMap_assoc, List.all_flatMap]
  simp only [hstep]

/-! ## Names of sources below a folder -/

variable {folder other key : Path} {above names : List String} {n : String}

def shown (folder key : Path) : List Char := ((key.relativeTo? folder).getD key).withoutExtension.text.toList

theorem forPath_eq (key folder : Path) : forPath key folder = ofStem (shown folder key) := rfl

theorem shown_of_straight (hs : folder.IsStraight) (hkey : key.IsKey) (hn : ∀ m ∈ above ++ [n], (Segment.name m).IsStep)
    (h : key.segments = normalSegments folder.segments ++ (above ++ [n]).map .name) :
    shown folder key = stem (above.map .name) n := by
  have hpieces : (ofSegments ((above ++ [n]).map .name)).pieces =
      (above.map Segment.name ++ [Segment.name n]).map Segment.piece := by
    rw [ofSegments_of_steps (isStep_of_mem_map hn), pieces_ofSteps (isStep_of_mem_map hn) (by simp), List.map_append]
    rfl
  rw [hs] at h
  rw [shown, relativeTo?_of_names hkey hn (by simp) h, Option.getD_some, toList_withoutExtension hpieces]

theorem shown_of_not_straight (hs : ¬ folder.IsStraight) (hkey : key.IsKey)
    (h : key.segments = normalSegments folder.segments ++ (above ++ [n]).map .name) :
    shown folder key = stem (normalSegments folder.segments ++ above.map .name) n := by
  have hlast : key.segments = (normalSegments folder.segments ++ above.map .name) ++ [.name n] := by
    rw [h, List.map_append, List.append_assoc]
    rfl
  have hpieces := pieces_of_segments hkey hlast
  rw [hlast] at hpieces
  rw [shown, relativeTo?_of_not_straight hkey hs, Option.getD_none, toList_withoutExtension hpieces]

/-- A source below a straight folder is named after its path seen from there. -/
theorem forPath_of_straight (hs : folder.IsStraight) (hkey : key.IsKey)
    (hn : ∀ m ∈ above ++ [n], (Segment.name m).IsStep)
    (h : key.segments = normalSegments folder.segments ++ (above ++ [n]).map .name) :
    forPath key folder = ofStem (stem (above.map .name) n) := by
  rw [forPath_eq, shown_of_straight hs hkey hn h]

/-- Below any other folder it is named after its whole path. -/
theorem forPath_of_not_straight (hs : ¬ folder.IsStraight) (hkey : key.IsKey)
    (h : key.segments = normalSegments folder.segments ++ (above ++ [n]).map .name) :
    forPath key folder = ofStem (stem (normalSegments folder.segments ++ above.map .name) n) := by
  rw [forPath_eq, shown_of_not_straight hs hkey h]

/-- Both spellings are straight, or neither is, or nothing of the folder shows. -/
def NamedAlike (folder other : Path) : Prop := (folder.IsStraight ↔ other.IsStraight) ∨ IsMute folder

/-- What stands in front of the names shows in the element unless it is mute. -/
theorem ofStem_append_iff (folder : Path) :
    ofStem (stem (normalSegments folder.segments ++ above.map .name) n) = ofStem (stem (above.map .name) n) ↔
      IsMute folder := by
  rw [ofStem_inj, stem_append, List.flatMap_append, trimDashes_append_eq_iff, isMute_iff]

/-- Two spellings of a folder give a source below it one name exactly if they are alike. -/
theorem forPath_eq_iff (hfolder : other.normalize = folder.normalize) (hn : ∀ n ∈ names, (Segment.name n).IsStep)
    (hne : names ≠ []) :
    forPath (folder.below names).normalize folder = forPath (folder.below names).normalize other ↔
      NamedAlike folder other := by
  have hsteps := normalSegments_of_normalize hfolder
  have hkey := isKey_normalize (folder.below names)
  have h := segments_normalize_below hn folder
  have h' := h
  rw [← hsteps] at h'
  obtain ⟨above, n, rfl⟩ := (List.eq_nil_or_concat names).resolve_left hne
  rw [List.concat_eq_append] at *
  unfold NamedAlike
  by_cases hs : folder.IsStraight
  · rw [forPath_of_straight hs hkey hn h]
    by_cases hs' : other.IsStraight
    · rw [forPath_of_straight hs' hkey hn h']
      simp [hs, hs']
    · rw [forPath_of_not_straight hs' hkey h', hsteps, eq_comm, ofStem_append_iff]
      simp [hs, hs']
  · rw [forPath_of_not_straight hs hkey h]
    by_cases hs' : other.IsStraight
    · rw [forPath_of_straight hs' hkey hn h', ofStem_append_iff]
      simp [hs, hs']
    · rw [forPath_of_not_straight hs' hkey h', hsteps]
      simp [hs, hs']

/-- It is the name of the path seen from the folder exactly if the folder is straight or mute. -/
theorem forPath_eq_seen_iff (hn : ∀ n ∈ names, (Segment.name n).IsStep) (hne : names ≠ []) :
    forPath (folder.below names).normalize folder = forPath (ofSegments (names.map .name)) ⟨""⟩ ↔
      folder.IsStraight ∨ IsMute folder := by
  have hkey := isKey_normalize (folder.below names)
  have h := segments_normalize_below hn folder
  have hempty : normalSegments (Path.mk "").segments = [] ∧ (Path.mk "").IsStraight := by decide
  have hseen := segments_normalize_below hn ⟨""⟩
  have hspelled : ((Path.mk "").below names).normalize = ofSegments (names.map .name) := by
    unfold Path.normalize
    rw [segments_below hn, normalSegments_append_names, hempty.1]
    rfl
  obtain ⟨above, n, rfl⟩ := (List.eq_nil_or_concat names).resolve_left hne
  rw [List.concat_eq_append] at *
  rw [← hspelled, forPath_of_straight hempty.2 (isKey_normalize _) hn hseen]
  by_cases hs : folder.IsStraight
  · rw [forPath_of_straight hs hkey hn h]
    simp [hs]
  · rw [forPath_of_not_straight hs hkey h, ofStem_append_iff]
    simp [hs]

theorem forPath_of_outside (hkey : key.IsKey) (h : ¬ normalSegments folder.segments <+: key.segments) :
    forPath key folder = ofStem key.withoutExtension.text.toList := by
  have hnone : key.relativeTo? folder = none :=
    relativeTo?_of_not_leading fun hlead => h ((isStraight_of_leading hkey hlead).symm ▸ hlead)
  rw [forPath_eq, shown, hnone, Option.getD_none]

theorem forPath_congr (hfolder : other.normalize = folder.normalize) (hs : folder.IsStraight ↔ other.IsStraight)
    (hkey : key.IsKey) : forPath key folder = forPath key other := by
  suffices h : key.relativeTo? folder = key.relativeTo? other by
    unfold forPath
    rw [h]
  by_cases hf : folder.IsStraight
  · have hsteps : folder.segments = other.segments := by
      rw [← hf, ← hs.mp hf, normalSegments_of_normalize hfolder]
    unfold relativeTo?
    rw [hsteps]
  · rw [relativeTo?_of_not_straight hkey hf, relativeTo?_of_not_straight hkey fun ho => hf (hs.mpr ho)]

end CustomElement

end ComponentSite
