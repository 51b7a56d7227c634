/-
  ComponentSite.Proofs.JoinedPath — paths that names were joined to.

  A name joined to a path is one more piece behind the pieces of the path, whether the
  path is spelled with a slash at its end or not (`pieces_join`). So the path has one
  more step (`segments_join`) and is longer (`size_join_lt`), and the folder it lies in
  has the steps of the path it was joined to (`segments_parent_join`).

  Seen from a folder, what was joined to it are the names and nothing else, however the
  folder is spelled (`relativeTo?_of_segments`), and other names are another path
  (`below_inj_of_normalize`).
-/
import Mathlib.Data.List.DropRight
import ComponentSite.Proofs.PathKey

namespace ComponentSite

instance (s : Segment) : Decidable s.IsStep :=
  match s with
  | .name n => inferInstanceAs (Decidable (n.toList ≠ [] ∧ '/' ∉ n.toList ∧ n.toList ≠ ['.'] ∧ n.toList ≠ ['.', '.']))
  | .up => .isTrue trivial
  | .root => .isFalse id
  | .here => .isFalse id

theorem Segment.ofFirstPiece?_of_ne_nil {piece : List Char} (h : piece ≠ []) (b b' : Bool) :
    ofFirstPiece? b piece = ofFirstPiece? b' piece := by
  unfold ofFirstPiece?
  split
  · exact absurd rfl h
  · rfl
  · rfl

theorem Segment.ofFirstPiece?_ne_root {piece : List Char} (h : piece ≠ []) (b : Bool) :
    ofFirstPiece? b piece ≠ some .root := by
  unfold ofFirstPiece? ofPiece?
  repeat' split
  all_goals simp_all

theorem Segment.ofFirstPiece?_of_step {piece : List Char} {s : Segment} (h : ofPiece? piece = some s) (b : Bool) :
    ofFirstPiece? b piece = some s := by
  unfold ofFirstPiece?
  split
  · cases h
  · cases h
  · exact h

theorem Segment.ofFirstPiece?_ne_none {piece : List Char} {b : Bool} (h : piece ≠ [] ∨ b = true) :
    ofFirstPiece? b piece ≠ none := by
  unfold ofFirstPiece? ofPiece?
  repeat' split
  all_goals simp_all

namespace Path

/-- The path to what these names lead to from a folder, one after the other. -/
def below (p : Path) (names : List String) : Path := names.foldl (fun p n => p.join ⟨n⟩) p

variable {p base : Path} {n : String} {names : List String}

@[simp] theorem below_nil (p : Path) : p.below [] = p := rfl

@[simp] theorem below_cons (p : Path) (n : String) (names : List String) :
    p.below (n :: names) = (p.join ⟨n⟩).below names := rfl

theorem below_concat (p : Path) (names : List String) (n : String) :
    p.below (names ++ [n]) = (p.below names).join ⟨n⟩ := by
  unfold below
  rw [List.foldl_append]
  rfl

/-! ## Pieces -/

def innerPiece (text : List Char) : Piece := (text, Segment.ofPiece? text)

theorem pieces_of_split {first : List Char} {rest : List (List Char)} (h : p.text.toList.splitOn '/' = first :: rest) :
    p.pieces = (first, Segment.ofFirstPiece? (!rest.isEmpty) first) :: rest.map innerPiece := by
  unfold pieces
  rw [h]
  rfl

theorem isAbsolute_of_not_mem (hn : '/' ∉ n.toList) : isAbsolute ⟨n⟩ = false := by
  unfold isAbsolute
  cases h : n.toList with
  | nil => simp
  | cons c r =>
    have hc : c ≠ '/' := fun e => hn (by simp [h, e])
    simp [hc]

theorem join_of_absolute {q : Path} (hq : q.isAbsolute = true) (p : Path) : p.join q = q := if_pos hq

/-- The text of a path that another was joined to: a slash is put in between unless there
    is one. -/
theorem toList_join_of_relative {q : Path} (hq : q.isAbsolute = false) (hp : p.text ≠ "") :
    ∃ lead, (p.join q).text.toList = lead ++ '/' :: q.text.toList ∧
      (p.text.toList = lead ∨ p.text.toList = lead ++ ['/']) := by
  unfold join
  rw [hq]
  by_cases hlast : p.text.toList.getLast? = some '/'
  · obtain ⟨lead, hlead⟩ := List.getLast?_eq_some_iff.mp hlast
    refine ⟨lead, ?_, Or.inr hlead⟩
    simp [hlead]
  · refine ⟨p.text.toList, ?_, Or.inl rfl⟩
    simp [hlast, hp]

theorem toList_join (hn : '/' ∉ n.toList) (hp : p.text ≠ "") :
    ∃ lead, (p.join ⟨n⟩).text.toList = lead ++ '/' :: n.toList ∧
      (p.text.toList = lead ∨ p.text.toList = lead ++ ['/']) :=
  toList_join_of_relative (isAbsolute_of_not_mem hn) hp

/-- The first piece of a path with a text is read as if a slash followed: if it is empty,
    one does. -/
theorem pieces_of_ne {first : List Char} {rest : List (List Char)} (hp : p.text ≠ "")
    (h : p.text.toList.splitOn '/' = first :: rest) :
    p.pieces = (first, Segment.ofFirstPiece? true first) :: rest.map innerPiece := by
  rw [pieces_of_split h]
  cases rest with
  | cons => rfl
  | nil =>
    have hfirst : first ≠ [] := by
      intro hempty
      have htext : ['/'].intercalate (p.text.toList.splitOn '/') = p.text.toList := List.intercalate_splitOn '/'
      rw [h, hempty] at htext
      exact hp (String.toList_eq_nil_iff.mp htext.symm)
    rw [Segment.ofFirstPiece?_of_ne_nil hfirst _ true]

theorem pieces_of_slash {lead last first : List Char} {rest : List (List Char)}
    (h : p.text.toList = lead ++ '/' :: last) (hlead : lead.splitOn '/' = first :: rest) :
    p.pieces = ((first, Segment.ofFirstPiece? true first) :: rest.map innerPiece) ++
      (last.splitOn '/').map innerPiece := by
  have hsplit : p.text.toList.splitOn '/' = first :: (rest ++ last.splitOn '/') := by
    rw [h, List.splitOn_append_cons_self, hlead]
    rfl
  have hne : p.text ≠ "" := by
    intro hempty
    simp [hempty] at h
  rw [pieces_of_ne hne hsplit, List.map_append]
  rfl

/-- What is joined stands behind the pieces of the path less an empty one at its end. -/
theorem pieces_join_of_relative {q : Path} (hq : q.isAbsolute = false) (hp : p.text ≠ "") :
    ∃ lead, (p.join q).pieces = lead ++ (q.text.toList.splitOn '/').map innerPiece ∧
      (p.pieces = lead ∨ p.pieces = lead ++ [([], none)]) := by
  obtain ⟨s, htext, hs⟩ := toList_join_of_relative hq hp
  cases hsplit : s.splitOn '/' with
  | nil => exact absurd hsplit (List.splitOn_ne_nil _ _)
  | cons first rest =>
    refine ⟨(first, Segment.ofFirstPiece? true first) :: rest.map innerPiece, pieces_of_slash htext hsplit, ?_⟩
    rcases hs with hs | hs
    · exact Or.inl (pieces_of_ne hp (hs ▸ hsplit))
    · exact Or.inr (pieces_of_slash hs hsplit)

theorem pieces_join (hn : '/' ∉ n.toList) (hp : p.text ≠ "") :
    ∃ lead, (p.join ⟨n⟩).pieces = lead ++ [innerPiece n.toList] ∧
      (p.pieces = lead ∨ p.pieces = lead ++ [([], none)]) := by
  obtain ⟨lead, hjoin, hlead⟩ := pieces_join_of_relative (isAbsolute_of_not_mem hn) hp
  rw [List.splitOn_eq_singleton hn] at hjoin
  exact ⟨lead, hjoin, hlead⟩

theorem innerPiece_name (hn : (Segment.name n).IsStep) : innerPiece n.toList = (n.toList, some (.name n)) := by
  unfold innerPiece
  rw [show Segment.ofPiece? n.toList = some (.name n) from Segment.ofPiece?_text hn]

theorem pieces_slash (hp : p.text ≠ "") : (Path.mk (p.text ++ "/")).pieces = p.pieces ++ [([], none)] := by
  cases hsplit : p.text.toList.splitOn '/' with
  | nil => exact absurd hsplit (List.splitOn_ne_nil _ _)
  | cons first rest =>
    have htext : (Path.mk (p.text ++ "/")).text.toList = p.text.toList ++ '/' :: [] := by simp
    rw [pieces_of_ne hp hsplit, pieces_of_slash htext hsplit]
    rfl

theorem segments_join (hn : (Segment.name n).IsStep) : (p.join ⟨n⟩).segments = p.segments ++ [.name n] := by
  by_cases hp : p.text = ""
  · have hjoin : p.join ⟨n⟩ = ⟨n⟩ := by
      unfold join
      by_cases h : isAbsolute ⟨n⟩ = true <;> simp [h, hp]
    have hempty : p.segments = [] := by
      rw [show p = ⟨""⟩ by rw [← hp]]
      decide
    rw [hjoin, hempty]
    have hsplit : (Path.mk n).text.toList.splitOn '/' = n.toList :: [] := List.splitOn_eq_singleton hn.2.1
    have hfirst : Segment.ofFirstPiece? (!List.isEmpty ([] : List (List Char))) n.toList = some (.name n) :=
      Segment.ofFirstPiece?_text hn _
    unfold segments
    rw [pieces_of_split hsplit, hfirst]
    rfl
  · obtain ⟨lead, hjoin, hlead⟩ := pieces_join hn.2.1 hp
    unfold segments
    rw [hjoin, innerPiece_name hn, List.filterMap_append]
    rcases hlead with hlead | hlead <;> simp [hlead]

theorem segments_below (hn : ∀ n ∈ names, (Segment.name n).IsStep) :
    (p.below names).segments = p.segments ++ names.map .name := by
  induction names generalizing p with
  | nil => simp
  | cons n names ih =>
    rw [below_cons, ih fun m hm => hn m (by simp [hm]), segments_join (hn n (by simp))]
    simp

/-- Names stay at the end of a normal form. -/
theorem normalSegments_append_names (segments : List Segment) (names : List String) :
    normalSegments (segments ++ names.map .name) = normalSegments segments ++ names.map .name := by
  unfold normalSegments
  rw [List.foldl_append]
  generalize segments.foldl pushSegment [] = stack
  induction names generalizing stack with
  | nil => simp
  | cons n names ih =>
    have hpush : pushSegment stack (.name n) = .name n :: stack := rfl
    rw [List.map_cons, List.foldl_cons, hpush, ih, List.reverse_cons, List.append_assoc]
    rfl

/-- Below one folder, different names lead to different normal paths. -/
theorem below_inj_of_normalize {others : List String} (hn : ∀ n ∈ names, (Segment.name n).IsStep)
    (ho : ∀ n ∈ others, (Segment.name n).IsStep) (h : (p.below names).normalize = (p.below others).normalize) :
    names = others := by
  have hsegments := congrArg segments h
  rw [segments_normalize, segments_normalize, segments_below hn, segments_below ho, normalSegments_append_names,
    normalSegments_append_names] at hsegments
  exact List.map_injective_iff.mpr (fun _ _ => Segment.name.inj) (List.append_cancel_left hsegments)

/-! ## Size -/

theorem size_join_lt (hn : (Segment.name n).IsStep) (p : Path) :
    p.text.utf8ByteSize < (p.join ⟨n⟩).text.utf8ByteSize := by
  have hpos : 0 < n.utf8ByteSize := by
    refine Nat.pos_of_ne_zero fun h => hn.1 ?_
    rw [String.utf8ByteSize_eq_zero_iff.mp h]
    rfl
  by_cases hp : p.text = ""
  · unfold join
    by_cases h : isAbsolute ⟨n⟩ = true <;> simpa [h, hp] using hpos
  · obtain ⟨lead, htext, hlead⟩ := toList_join hn.2.1 hp
    have hsize : (p.join ⟨n⟩).text = String.ofList lead ++ "/" ++ n := by
      apply String.toList_injective
      simpa using htext
    have hslash : "/".utf8ByteSize = 1 := by decide
    rcases hlead with h | h
    · have : p.text = String.ofList lead := by rw [← h, String.ofList_toList]
      rw [hsize, this]
      simp only [String.utf8ByteSize_append]
      omega
    · have : p.text = String.ofList lead ++ "/" := String.toList_injective (by simpa using h)
      rw [hsize, this]
      simp only [String.utf8ByteSize_append]
      omega

theorem size_below_le (hn : ∀ n ∈ names, (Segment.name n).IsStep) (p : Path) :
    p.text.utf8ByteSize ≤ (p.below names).text.utf8ByteSize := by
  induction names generalizing p with
  | nil => simp
  | cons n names ih =>
    have hjoin := size_join_lt (hn n (by simp)) p
    have hrest := ih (fun m hm => hn m (by simp [hm])) (p.join ⟨n⟩)
    rw [below_cons]
    omega

theorem below_text_ne (hp : p.text ≠ "") (hn : ∀ n ∈ names, (Segment.name n).IsStep) : (p.below names).text ≠ "" := by
  intro h
  have := size_below_le hn p
  rw [h] at this
  exact hp (String.utf8ByteSize_eq_zero_iff.mp (Nat.le_zero.mp this))

/-! ## The folder of a path, and paths seen from a folder -/

theorem trimPieces_concat_some (pieces : List Piece) (text : List Char) (s : Segment) :
    trimPieces (pieces ++ [(text, some s)]) = pieces ++ [(text, some s)] := by
  simp [trimPieces]

theorem trimPieces_concat_none (pieces : List Piece) (text : List Char) :
    trimPieces (pieces ++ [(text, none)]) = trimPieces pieces := by
  simp [trimPieces]

theorem filterMap_trimPieces (pieces : List Piece) :
    (trimPieces pieces).filterMap (·.2) = pieces.filterMap (·.2) := by
  induction pieces using List.reverseRecOn with
  | nil => rfl
  | append_singleton pieces piece ih =>
    obtain ⟨text, s⟩ := piece
    cases s with
    | none => rw [trimPieces_concat_none, ih, List.filterMap_append]; simp
    | some s => rw [trimPieces_concat_some]

theorem filterMap_dropWhile_isNone (pieces : List Piece) :
    (pieces.dropWhile (·.2.isNone)).filterMap (·.2) = pieces.filterMap (·.2) := by
  induction pieces with
  | nil => rfl
  | cons piece pieces ih =>
    obtain ⟨text, s⟩ := piece
    cases s with
    | none => simpa using ih
    | some s => simp

theorem trimPieces_prefix (pieces : List Piece) : trimPieces pieces <+: pieces :=
  List.rdropWhile_prefix (fun piece : Piece => piece.2.isNone) pieces

/-- Pieces that stand between slashes are the pieces of their text, the root alone
    excepted, which is written with its slash. -/
theorem segments_ofPieces {first : List Char} {rest : List (List Char)} (hslash : ∀ l ∈ first :: rest, '/' ∉ l)
    (hone : rest = [] → first ≠ []) :
    (ofPieces ((first, Segment.ofFirstPiece? (!rest.isEmpty) first) :: rest.map innerPiece)).segments =
      ((first, Segment.ofFirstPiece? (!rest.isEmpty) first) :: rest.map innerPiece).filterMap (·.2) := by
  have hroot : ∀ s, (first, Segment.ofFirstPiece? (!rest.isEmpty) first) :: rest.map innerPiece ≠
      [(s, some .root)] := by
    intro s h
    obtain ⟨hfirst, hrest⟩ := List.cons.inj h
    exact Segment.ofFirstPiece?_ne_root (hone (List.map_eq_nil_iff.mp hrest)) _ (Prod.ext_iff.mp hfirst).2
  have htext : ofPieces ((first, Segment.ofFirstPiece? (!rest.isEmpty) first) :: rest.map innerPiece) =
      ⟨String.ofList (['/'].intercalate (first :: rest))⟩ := by
    unfold ofPieces
    split
    · exact absurd ‹_› (hroot _)
    · simp [innerPiece, Function.comp_def]
  have hsplit : (Path.mk (String.ofList (['/'].intercalate (first :: rest)))).text.toList.splitOn '/' =
      first :: rest := by
    rw [String.toList_ofList, List.splitOn_intercalate '/' hslash (List.cons_ne_nil _ _)]
  rw [htext]
  unfold segments
  rw [pieces_of_split hsplit]

/-- The first pieces of a path are a path of their steps. -/
theorem segments_ofPieces_lead {lead : List Piece} (h : lead <+: p.pieces) :
    (ofPieces lead).segments = lead.filterMap (·.2) := by
  cases hsplit : p.text.toList.splitOn '/' with
  | nil => exact absurd hsplit (List.splitOn_ne_nil _ _)
  | cons first rest =>
    have hslash : ∀ l ∈ first :: rest, '/' ∉ l := fun l hl => not_mem_of_mem_splitOn (hsplit ▸ hl)
    rw [pieces_of_split hsplit] at h
    rcases List.prefix_cons_iff.mp h with rfl | ⟨t, rfl, ht⟩
    · decide
    · obtain ⟨kept, hkept, rfl⟩ := List.prefix_map_iff.mp ht
      have hslash' : ∀ l ∈ first :: kept, '/' ∉ l :=
        fun l hl => hslash l ((List.cons_subset_cons _ hkept.subset) hl)
      by_cases hroot : kept = [] ∧ first = []
      · obtain ⟨rfl, rfl⟩ := hroot
        cases rest with
        | nil => decide
        | cons =>
          show (ofPieces [([], some .root)]).segments = [.root]
          decide
      · have hflag : Segment.ofFirstPiece? (!rest.isEmpty) first = Segment.ofFirstPiece? (!kept.isEmpty) first := by
          by_cases hfirst : first = []
          · cases kept with
            | nil => exact absurd ⟨rfl, hfirst⟩ hroot
            | cons =>
              cases rest with
              | nil => exact absurd (List.prefix_nil.mp hkept) (List.cons_ne_nil _ _)
              | cons => rfl
          · exact Segment.ofFirstPiece?_of_ne_nil hfirst _ _
        rw [hflag]
        exact segments_ofPieces hslash' fun hkept hfirst => hroot ⟨hkept, hfirst⟩

theorem segments_ofPieces_trimPieces (p : Path) : (ofPieces (trimPieces p.pieces)).segments = p.segments := by
  have hlead := trimPieces_prefix p.pieces
  rw [segments_ofPieces_lead hlead]
  exact filterMap_trimPieces p.pieces

/-- The folder that a joined name lies in is the path it was joined to. -/
theorem segments_parent_join (hn : (Segment.name n).IsStep) (hp : p.text ≠ "") :
    ∃ folder, (p.join ⟨n⟩).parent? = some folder ∧ folder.segments = p.segments := by
  obtain ⟨lead, hjoin, hlead⟩ := pieces_join hn.2.1 hp
  refine ⟨ofPieces (trimPieces p.pieces), ?_, segments_ofPieces_trimPieces p⟩
  have htrim : trimPieces p.pieces = trimPieces lead := by
    rcases hlead with h | h
    · rw [h]
    · rw [h, trimPieces_concat_none]
  unfold parent?
  rw [hjoin, innerPiece_name hn, trimPieces_concat_some, htrim]
  simp

theorem filterMap_dropSegments (k : Nat) (pieces : List Piece) :
    (dropSegments k pieces).filterMap (·.2) = (pieces.filterMap (·.2)).drop k := by
  fun_induction dropSegments k pieces with
  | case1 => simp
  | case2 => simp
  | case3 n text pieces ih => simpa using ih
  | case4 n text s pieces ih => simpa using ih

theorem dropSegments_suffix (k : Nat) (pieces : List Piece) : dropSegments k pieces <:+ pieces := by
  fun_induction dropSegments k pieces with
  | case1 => exact List.suffix_rfl
  | case2 => exact List.suffix_rfl
  | case3 n text pieces ih => exact ih.trans (List.suffix_cons _ _)
  | case4 n text s pieces ih => exact ih.trans (List.suffix_cons _ _)

theorem segments_ne_nil (hp : p.text ≠ "") : p.segments ≠ [] := by
  cases hsplit : p.text.toList.splitOn '/' with
  | nil => exact absurd hsplit (List.splitOn_ne_nil _ _)
  | cons first rest =>
    have hfirst : first ≠ [] ∨ (!rest.isEmpty) = true := by
      by_cases h : first = [] ∧ rest = []
      · have htext : ['/'].intercalate (p.text.toList.splitOn '/') = p.text.toList := List.intercalate_splitOn '/'
        rw [hsplit, h.1, h.2] at htext
        exact absurd (String.toList_eq_nil_iff.mp htext.symm) hp
      · by_cases hf : first = []
        · right
          cases rest with
          | nil => exact absurd ⟨hf, rfl⟩ h
          | cons => rfl
        · exact Or.inl hf
    obtain ⟨s, hs⟩ := Option.ne_none_iff_exists'.mp (Segment.ofFirstPiece?_ne_none hfirst)
    unfold segments
    rw [pieces_of_split hsplit, hs]
    simp

/-- The pieces after at least one step are pieces behind a slash. -/
theorem exists_dropSegments (k : Nat) (p : Path) :
    ∃ inner : List (List Char), (∀ l ∈ inner, '/' ∉ l) ∧ dropSegments (k + 1) p.pieces = inner.map innerPiece := by
  cases hsplit : p.text.toList.splitOn '/' with
  | nil => exact absurd hsplit (List.splitOn_ne_nil _ _)
  | cons first rest =>
    have hsuffix : dropSegments (k + 1) p.pieces <:+ rest.map innerPiece := by
      rw [pieces_of_split hsplit]
      cases Segment.ofFirstPiece? (!rest.isEmpty) first with
      | none =>
        rw [dropSegments]
        exact dropSegments_suffix (k + 1) _
      | some s =>
        rw [dropSegments]
        exact dropSegments_suffix k _
    obtain ⟨inner, hinner, h⟩ := List.suffix_map_iff.mp hsuffix
    refine ⟨inner, fun l hl => ?_, h⟩
    have hmem : l ∈ p.text.toList.splitOn '/' := hsplit ▸ List.mem_cons_of_mem _ (hinner.subset hl)
    exact not_mem_of_mem_splitOn hmem

/-- Pieces behind a slash, cut on both sides to begin and end with a step, are the pieces
    of their text. -/
theorem segments_ofPieces_inner {inner : List (List Char)} (hslash : ∀ l ∈ inner, '/' ∉ l) :
    (ofPieces (trimPieces ((inner.map innerPiece).dropWhile (·.2.isNone)))).segments =
      (inner.map innerPiece).filterMap (·.2) := by
  rw [← filterMap_dropWhile_isNone, ← filterMap_trimPieces]
  have hprefix := trimPieces_prefix ((inner.map innerPiece).dropWhile (·.2.isNone))
  have hhead := List.head?_dropWhile_not (fun piece : Piece => piece.2.isNone) (inner.map innerPiece)
  have hsuffix := List.dropWhile_suffix (l := inner.map innerPiece) fun piece : Piece => piece.2.isNone
  generalize (inner.map innerPiece).dropWhile (·.2.isNone) = left at hprefix hhead hsuffix ⊢
  obtain ⟨kept, hkept, rfl⟩ := List.suffix_map_iff.mp hsuffix
  obtain ⟨shown, hshown, htrim⟩ := List.prefix_map_iff.mp hprefix
  rw [htrim]
  cases shown with
  | nil => decide
  | cons first rest =>
    obtain ⟨more, rfl⟩ := hshown
    have hstep : Segment.ofPiece? first ≠ none := by
      intro h
      simp [innerPiece, h] at hhead
    obtain ⟨s, hs⟩ := Option.ne_none_iff_exists'.mp hstep
    have hfirst : innerPiece first = (first, Segment.ofFirstPiece? (!rest.isEmpty) first) := by
      rw [innerPiece, hs, Segment.ofFirstPiece?_of_step hs]
    rw [List.map_cons, hfirst]
    refine segments_ofPieces (fun l hl => hslash l (hkept.subset (List.mem_append_left more hl))) fun _ h => ?_
    rw [h] at hs
    cases hs

/-- What follows the steps of a folder in a path is the path seen from the folder. -/
theorem relativeTo?_of_segments {rest : List Segment} (hbase : base.text ≠ "")
    (h : p.segments = base.segments ++ rest) :
    ∃ q, p.relativeTo? base = some q ∧ q.segments = rest := by
  obtain ⟨k, hk⟩ := Nat.exists_eq_succ_of_ne_zero fun h0 => segments_ne_nil hbase (List.length_eq_zero_iff.mp h0)
  obtain ⟨inner, hslash, hinner⟩ := exists_dropSegments k p
  have hlead : base.segments.isPrefixOf p.segments = true := List.isPrefixOf_iff_prefix.mpr ⟨rest, h.symm⟩
  have hempty : base.segments.isEmpty = false := by simpa using segments_ne_nil hbase
  have hrest : (inner.map innerPiece).filterMap (·.2) = rest := by
    rw [← hinner, filterMap_dropSegments, ← Nat.succ_eq_add_one, ← hk]
    show p.segments.drop base.segments.length = rest
    rw [h, List.drop_left]
  unfold relativeTo?
  refine ⟨_, if_pos hlead, ?_⟩
  simp only [hempty, hk, Nat.succ_eq_add_one, hinner, Bool.false_eq_true, if_false]
  rw [segments_ofPieces_inner hslash, hrest]

end Path

end ComponentSite
