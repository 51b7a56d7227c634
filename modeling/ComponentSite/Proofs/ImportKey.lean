/-
  ComponentSite.Proofs.ImportKey — one key for a source, however it is reached.

  A relative path that is joined to a folder is walked behind the steps of the folder
  (`foldl_join`). So of the folder only the normal form counts for the normal form of the whole
  (`normalize_join_congr`), and what is joined in two turns may be joined in one
  (`normalize_join_join`). The normal form of a file lies in a folder with the normal form of the
  folder of the file (`exists_parent_normalize`).

  An import is a join to the folder of the importer. So a key does not show the spelling of the
  importer (`resolveImport_normalize`), and two imports in turn are one (`resolveImport_turn`), and
  so are any number (`foldl_resolveImport`).
-/
import ComponentSite.Proofs.JoinedPath

namespace ComponentSite.Path

variable {p q folder importer : Path} {front : List Segment} {n : String}

/-! ## From the root or not -/

theorem isAbsolute_iff : p.isAbsolute = true ↔ p.segments.head? = some .root := by
  unfold isAbsolute segments
  cases htext : p.text.toList with
  | nil =>
    have hsplit : p.text.toList.splitOn '/' = [[]] := by rw [htext, List.splitOn_nil]
    rw [pieces_of_split hsplit]
    decide
  | cons c rest =>
    cases hrest : rest.splitOn '/' with
    | nil => exact absurd hrest (List.splitOn_ne_nil _ _)
    | cons first more =>
      have hsplit : p.text.toList.splitOn '/' =
          if c = '/' then [] :: first :: more else (c :: first) :: more := by
        rw [htext, List.splitOn_cons_eq_if_modifyHead, hrest]
        by_cases hc : c = '/' <;> simp [hc]
      by_cases hc : c = '/'
      · rw [if_pos hc] at hsplit
        rw [pieces_of_split hsplit, hc]
        simp [Segment.ofFirstPiece?]
      · rw [if_neg hc] at hsplit
        have hne : c :: first ≠ [] := List.cons_ne_nil _ _
        obtain ⟨s, hs⟩ := Option.ne_none_iff_exists'.mp
          (Segment.ofFirstPiece?_ne_none (b := !more.isEmpty) (Or.inl hne))
        have hroot : s ≠ .root := fun h => Segment.ofFirstPiece?_ne_root hne _ (h ▸ hs)
        rw [pieces_of_split hsplit, hs]
        simp [hc, hroot]

theorem isAbsolute_join (hq : q.isAbsolute = false) (p : Path) : (p.join q).isAbsolute = p.isAbsolute := by
  by_cases hp : p.text = ""
  · have hjoin : p.join q = q := by
      unfold join
      simp [hq, hp]
    rw [hjoin, hq]
    simp [isAbsolute, hp]
  · obtain ⟨lead, htext, hlead⟩ := toList_join_of_relative hq hp
    unfold isAbsolute
    rw [htext]
    rcases hlead with h | h
    · have hne : lead ≠ [] := fun hnil => hp (String.toList_eq_nil_iff.mp (h.trans hnil))
      rw [h, List.head?_append_of_ne_nil _ hne]
    · rw [h, List.head?_append, List.head?_append]
      rfl

/-! ## Joining -/

/-- Behind a folder a leading `.` is no step, and it has no effect where it is one. -/
theorem foldl_inner (hq : q.isAbsolute = false) (stack : List Segment) :
    (((q.text.toList.splitOn '/').map innerPiece).filterMap (·.2)).foldl pushSegment stack =
      q.segments.foldl pushSegment stack := by
  cases hsplit : q.text.toList.splitOn '/' with
  | nil => exact absurd hsplit (List.splitOn_ne_nil _ _)
  | cons first rest =>
    have hpieces := pieces_of_split hsplit
    have hroot : q.segments.head? ≠ some .root := fun h => by simp [isAbsolute_iff.mpr h] at hq
    unfold segments at hroot ⊢
    rw [hpieces] at hroot ⊢
    by_cases hnil : first = []
    · subst hnil
      cases rest with
      | nil => rfl
      | cons => exact absurd rfl hroot
    by_cases hhere : first = ['.']
    · subst hhere
      rfl
    · have hfirst : Segment.ofFirstPiece? (!rest.isEmpty) first = Segment.ofPiece? first := by
        unfold Segment.ofFirstPiece?
        split
        · exact absurd rfl hnil
        · exact absurd rfl hhere
        · rfl
      rw [hfirst]
      rfl

theorem foldl_join (hq : q.isAbsolute = false) (p : Path) (stack : List Segment) :
    (p.join q).segments.foldl pushSegment stack =
      q.segments.foldl pushSegment (p.segments.foldl pushSegment stack) := by
  by_cases hp : p.text = ""
  · have hjoin : p.join q = q := by
      unfold join
      simp [hq, hp]
    have hempty : p.segments = [] := by
      rw [show p = ⟨""⟩ by rw [← hp]]
      decide
    rw [hjoin, hempty]
    rfl
  · obtain ⟨lead, hjoin, hlead⟩ := pieces_join_of_relative hq hp
    have hsegments : p.segments = lead.filterMap (·.2) := by
      unfold segments
      rcases hlead with h | h <;> simp [h]
    rw [← foldl_inner hq, hsegments, ← List.foldl_append, ← List.filterMap_append, ← hjoin]
    rfl

theorem normalize_congr (h : p.segments.foldl pushSegment [] = q.segments.foldl pushSegment []) :
    p.normalize = q.normalize := by
  rw [normalize, normalize, normalSegments, normalSegments, h]

theorem normalize_join_congr {other : Path}
    (h : folder.segments.foldl pushSegment [] = other.segments.foldl pushSegment []) (q : Path) :
    (folder.join q).normalize = (other.join q).normalize := by
  cases hq : q.isAbsolute with
  | true => rw [join_of_absolute hq, join_of_absolute hq]
  | false =>
    apply normalize_congr
    rw [foldl_join hq, foldl_join hq, h]

theorem foldl_normalize (p : Path) : p.normalize.segments.foldl pushSegment [] = p.segments.foldl pushSegment [] := by
  have hnormal := normalSegments_normal p
  rw [segments_normalize, ← List.reverse_reverse (normalSegments p.segments), foldl_pushSegment_reverse hnormal]
  exact List.reverse_reverse _

theorem normalize_join_join (p q r : Path) : ((p.join q).join r).normalize = (p.join (q.join r)).normalize := by
  cases hr : r.isAbsolute with
  | true => rw [join_of_absolute hr, join_of_absolute hr, join_of_absolute hr]
  | false =>
    cases hq : q.isAbsolute with
    | true =>
      have hjoin : (q.join r).isAbsolute = true := by rw [isAbsolute_join hr, hq]
      rw [join_of_absolute hq, join_of_absolute hjoin]
    | false =>
      have hjoin : (q.join r).isAbsolute = false := by rw [isAbsolute_join hr, hq]
      apply normalize_congr
      rw [foldl_join hr, foldl_join hq, foldl_join hjoin, foldl_join hr]

/-! ## The folder of a file -/

theorem segments_of_fileName? (h : p.fileName?.isSome) : ∃ front n, p.segments = front ++ [.name n] := by
  unfold fileName? at h
  split at h
  · obtain ⟨front, hfront⟩ := List.getLast?_eq_some_iff.mp ‹_›
    exact ⟨front, _, hfront⟩
  · cases h

theorem exists_parent (h : p.segments = front ++ [.name n]) :
    ∃ folder, p.parent? = some folder ∧ folder.segments = front := by
  have hsame : (trimPieces p.pieces).filterMap (·.2) = front ++ [.name n] := h ▸ filterMap_trimPieces p.pieces
  have hprefix := trimPieces_prefix p.pieces
  unfold parent?
  cases hlast : (trimPieces p.pieces).reverse with
  | nil =>
    rw [List.reverse_eq_nil_iff.mp hlast] at hsame
    simp at hsame
  | cons piece above =>
    obtain ⟨text, s⟩ := piece
    have htrim : trimPieces p.pieces = above.reverse ++ [(text, s)] := by
      rw [← List.reverse_reverse (trimPieces p.pieces), hlast, List.reverse_cons]
    have hsome : s ≠ none := by
      intro hnone
      have hhead := List.head?_dropWhile_not (fun piece : Piece => piece.2.isNone) p.pieces.reverse
      rw [trimPieces, List.reverse_reverse] at hlast
      simp [hlast, hnone] at hhead
    obtain ⟨s, rfl⟩ := Option.ne_none_iff_exists'.mp hsome
    rw [htrim, List.filterMap_append] at hsame
    obtain ⟨hfront, hs⟩ := List.append_inj' hsame rfl
    obtain rfl : s = .name n := by simpa using hs
    refine ⟨_, rfl, ?_⟩
    have habove := trimPieces_prefix above.reverse
    have hlead : trimPieces above.reverse <+: p.pieces :=
      (habove.trans (List.prefix_append _ _)).trans (htrim ▸ hprefix)
    rw [segments_ofPieces_lead hlead, filterMap_trimPieces, hfront]

theorem foldl_concat_name (front : List Segment) (n : String) (stack : List Segment) :
    (front ++ [Segment.name n]).foldl pushSegment stack = .name n :: front.foldl pushSegment stack := by
  rw [List.foldl_append]
  rfl

/-- The normal form of a file lies in the normal form of its folder. -/
theorem exists_parent_normalize (hq : q.segments.foldl pushSegment [] = .name n :: p.segments.foldl pushSegment []) :
    ∃ folder, q.normalize.parent? = some folder ∧
      folder.segments.foldl pushSegment [] = p.segments.foldl pushSegment [] := by
  have hsegments : q.normalize.segments = p.normalize.segments ++ [.name n] := by
    rw [segments_normalize, segments_normalize, normalSegments, normalSegments, hq, List.reverse_cons]
  obtain ⟨folder, hparent, hfolder⟩ := exists_parent hsegments
  exact ⟨folder, hparent, by rw [hfolder, foldl_normalize]⟩

theorem foldl_join_name (hq : q.segments = front ++ [.name n]) (hfolder : folder.segments = front) (p : Path) :
    (p.join q).segments.foldl pushSegment [] = .name n :: (p.join folder).segments.foldl pushSegment [] := by
  have hhead : q.isAbsolute = folder.isAbsolute := by
    rw [Bool.eq_iff_iff, isAbsolute_iff, isAbsolute_iff, hq, hfolder]
    cases front <;> simp
  cases habsolute : q.isAbsolute with
  | true => rw [join_of_absolute habsolute, join_of_absolute (hhead ▸ habsolute), hq, hfolder, foldl_concat_name]
  | false => rw [foldl_join habsolute, foldl_join (hhead ▸ habsolute), hq, hfolder, foldl_concat_name]

/-! ## Imports -/

def importFolder (p : Path) : Path := p.parent?.getD ⟨""⟩

theorem resolveImport_eq (importer : Path) (raw : String) :
    importer.resolveImport raw = (importer.importFolder.join ⟨raw⟩).normalize := rfl

theorem resolveImport_normalize (h : importer.fileName?.isSome) (raw : String) :
    importer.normalize.resolveImport raw = importer.resolveImport raw := by
  obtain ⟨front, n, hsegments⟩ := segments_of_fileName? h
  obtain ⟨folder, hparent, hfolder⟩ := exists_parent hsegments
  have hname : importer.segments.foldl pushSegment [] = .name n :: folder.segments.foldl pushSegment [] := by
    rw [hsegments, hfolder, foldl_concat_name]
  obtain ⟨normal, hnormal, hsame⟩ := exists_parent_normalize hname
  rw [resolveImport, resolveImport, hparent, hnormal]
  exact normalize_join_congr hsame ⟨raw⟩

/-- What an imported file imports is what its importer imports behind the folder of the file. -/
theorem resolveImport_turn {first : String} (h : (Path.mk first).fileName?.isSome) (importer : Path) (second : String) :
    (importer.resolveImport first).resolveImport second =
      importer.resolveImport ((Path.mk first).importFolder.join ⟨second⟩).text := by
  obtain ⟨front, n, hsegments⟩ := segments_of_fileName? h
  obtain ⟨above, hparent, habove⟩ := exists_parent hsegments
  have hfolder : (Path.mk first).importFolder = above := by rw [importFolder, hparent, Option.getD_some]
  obtain ⟨normal, hnormal, hsame⟩ := exists_parent_normalize (foldl_join_name hsegments habove importer.importFolder)
  have hkey : (importer.resolveImport first).importFolder = normal := by
    rw [resolveImport_eq, importFolder, hnormal, Option.getD_some]
  calc (importer.resolveImport first).resolveImport second
    _ = (normal.join ⟨second⟩).normalize := by rw [resolveImport_eq, hkey]
    _ = ((importer.importFolder.join above).join ⟨second⟩).normalize := normalize_join_congr hsame ⟨second⟩
    _ = (importer.importFolder.join (above.join ⟨second⟩)).normalize := normalize_join_join _ _ _
    _ = importer.resolveImport ((Path.mk first).importFolder.join ⟨second⟩).text := by rw [resolveImport_eq, hfolder]

def inTurn : List String → String → Path
  | [], last => ⟨last⟩
  | raw :: raws, last => (Path.mk raw).importFolder.join (inTurn raws last)

theorem foldl_resolveImport {raws : List String} (h : ∀ raw ∈ raws, (Path.mk raw).fileName?.isSome)
    (importer : Path) (last : String) :
    (raws ++ [last]).foldl resolveImport importer = importer.resolveImport (inTurn raws last).text := by
  induction raws generalizing importer with
  | nil => rfl
  | cons raw raws ih =>
    obtain ⟨hraw, hraws⟩ := List.forall_mem_cons.mp h
    rw [List.cons_append, List.foldl_cons, ih hraws, resolveImport_turn hraw]
    rfl

/-- An import of a file has a normal key, which is that of the import of the normal form of the
    file. What a file that it imports imports has the key that its own import has, read from the
    folder of that file. -/
theorem key_of_any_route (himporter : importer.fileName?.isSome) (raw : String) :
    (importer.resolveImport raw).IsKey ∧
      importer.resolveImport raw = importer.normalize.resolveImport raw ∧
      ∀ first second, (Path.mk first).fileName?.isSome →
        ∃ folder, (Path.mk first).parent? = some folder ∧
          (importer.resolveImport first).resolveImport second =
            importer.resolveImport (folder.join ⟨second⟩).text := by
  refine ⟨isKey_resolveImport importer raw, (resolveImport_normalize himporter raw).symm, ?_⟩
  intro first second hfirst
  obtain ⟨front, n, hsegments⟩ := segments_of_fileName? hfirst
  obtain ⟨folder, hparent, -⟩ := exists_parent hsegments
  refine ⟨folder, hparent, ?_⟩
  rw [resolveImport_turn hfirst, importFolder, hparent, Option.getD_some]

theorem icon_of_card :
    (Path.mk "app/../blog//page.goo").resolveImport "../../parts/../icon.goo" = ⟨"../icon.goo"⟩ ∧
      ((Path.mk "app/../blog//page.goo").resolveImport "../../parts/./card.goo").resolveImport "../icon.goo" =
        ⟨"../icon.goo"⟩ := by
  obtain ⟨-, -, hroute⟩ := @key_of_any_route ⟨"app/../blog//page.goo"⟩ (by decide) "../icon.goo"
  obtain ⟨folder, hparent, hkey⟩ := hroute "../../parts/./card.goo" "../icon.goo" (by decide)
  have hfolder : (Path.mk "../../parts/./card.goo").parent? = some ⟨"../../parts"⟩ := by decide
  obtain rfl := Option.some.inj (hfolder.symm.trans hparent)
  have hdirect : (Path.mk "app/../blog//page.goo").resolveImport "../../parts/../icon.goo" = ⟨"../icon.goo"⟩ := by
    decide
  exact ⟨hdirect, hkey.trans hdirect⟩

end ComponentSite.Path
