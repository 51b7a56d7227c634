/-
  ComponentSite.Proofs.PathKey — normal paths are keys.

  The normal form of a path is a stack of steps, the last first (`NormalStack`): the
  root alone, steps up, and names on top of either. Its plain spelling has these steps
  again (`segments_ofSegments`), so a normal form is its own normal form
  (`normalize_normalize`), and two normal paths that a look-up takes for one path are
  equal (`same_iff`).
-/
import ComponentSite.Path.Normal

namespace ComponentSite

/-! ## Steps -/

/-- A step that a piece between two slashes can stand for. -/
def Segment.IsStep : Segment → Prop
  | .name n => n.toList ≠ [] ∧ '/' ∉ n.toList ∧ n.toList ≠ ['.'] ∧ n.toList ≠ ['.', '.']
  | .up => True
  | _ => False

theorem Segment.ofPiece?_isStep {piece : List Char} {s : Segment} (hp : '/' ∉ piece)
    (h : ofPiece? piece = some s) : s.IsStep := by
  unfold ofPiece? at h
  split at h
  · cases h
  · cases h
  · cases h; trivial
  · rename_i h1 h2 h3
    cases h
    exact ⟨by simpa using h1, by simpa using hp, by simpa using h2, by simpa using h3⟩

theorem Segment.ofPiece?_text {s : Segment} (h : s.IsStep) : ofPiece? s.text.toList = some s := by
  cases s with
  | root => cases h
  | here => cases h
  | up => decide
  | name n =>
    obtain ⟨h1, h2, h3, h4⟩ := h
    unfold ofPiece? text
    split
    · contradiction
    · contradiction
    · contradiction
    · rw [String.ofList_toList]

theorem Segment.not_slash_mem_text {s : Segment} (h : s.IsStep) : '/' ∉ s.text.toList := by
  cases s with
  | root => cases h
  | here => cases h
  | up => decide
  | name n => exact h.2.1

theorem Segment.ofFirstPiece?_cases {piece : List Char} {b : Bool} {s : Segment} (hp : '/' ∉ piece)
    (h : ofFirstPiece? b piece = some s) : s = .root ∨ s = .here ∨ s.IsStep := by
  unfold ofFirstPiece? at h
  split at h
  · split at h
    · cases h; exact Or.inl rfl
    · cases h
  · cases h; exact Or.inr (Or.inl rfl)
  · exact Or.inr (Or.inr (ofPiece?_isStep hp h))

theorem Segment.ofFirstPiece?_text {s : Segment} (h : s.IsStep) (b : Bool) :
    ofFirstPiece? b s.text.toList = some s := by
  cases s with
  | root => cases h
  | here => cases h
  | up => cases b <;> decide
  | name n =>
    have := ofPiece?_text h
    unfold ofFirstPiece?
    split
    · exact absurd ‹_› h.1
    · exact absurd ‹_› h.2.2.1
    · exact this

def Segment.piece : Segment → Path.Piece
  | root => ([], some root)
  | s => (s.text.toList, some s)

theorem Segment.piece_of_step {s : Segment} (h : s.IsStep) : s.piece = (s.text.toList, some s) := by
  cases s with
  | root => cases h
  | here | up | name => rfl

@[simp] theorem Segment.piece_snd (s : Segment) : s.piece.2 = some s := by
  cases s <;> rfl

theorem Segment.piece_eq (s : Segment) : s.piece = (s.piece.1, some s) := Prod.ext rfl s.piece_snd

namespace Path

theorem filterMap_map_piece (steps : List Segment) : (steps.map Segment.piece).filterMap (·.2) = steps := by
  induction steps with
  | nil => rfl
  | cons s rest ih => rw [List.map_cons, List.filterMap_cons_some s.piece_snd, ih]

theorem not_mem_of_mem_splitOn {c : Char} {s l : List Char} (h : l ∈ s.splitOn c) : c ∉ l := by
  induction s generalizing l with
  | nil => simp [List.splitOn_nil] at h; simp [h]
  | cons d s ih =>
    rw [List.splitOn_cons_eq_if_modifyHead] at h
    split at h
    · rcases List.mem_cons.mp h with rfl | h
      · simp
      · exact ih h
    · rename_i hd
      cases hs : s.splitOn c with
      | nil => exact absurd hs (List.splitOn_ne_nil c s)
      | cons first rest =>
        rw [hs, List.modifyHead_cons] at h
        rcases List.mem_cons.mp h with rfl | h
        · simp only [List.mem_cons, not_or]
          exact ⟨fun e => hd (by simp [e]), ih (by simp [hs])⟩
        · exact ih (by simp [hs, h])

/-- A path is a run of steps, perhaps behind the root or a leading `.`. -/
theorem segments_shape (p : Path) :
    ∃ steps : List Segment, (∀ s ∈ steps, s.IsStep) ∧
      (p.segments = steps ∨ p.segments = .root :: steps ∨ p.segments = .here :: steps) := by
  unfold segments pieces
  split
  · exact ⟨[], by simp, by simp⟩
  · rename_i first rest hsplit
    have hpieces : ∀ l ∈ first :: rest, '/' ∉ l := fun l hl => not_mem_of_mem_splitOn (hsplit ▸ hl)
    let steps := rest.filterMap Segment.ofPiece?
    have hsteps : ∀ s ∈ steps, s.IsStep := by
      intro s hs
      obtain ⟨piece, hpiece, he⟩ := List.mem_filterMap.mp hs
      exact Segment.ofPiece?_isStep (hpieces piece (by simp [hpiece])) he
    have hrest : (rest.map fun piece => (piece, Segment.ofPiece? piece)).filterMap (·.2) = steps := by
      rw [List.filterMap_map]; rfl
    cases hf : Segment.ofFirstPiece? (!rest.isEmpty) first with
    | none => exact ⟨steps, hsteps, Or.inl hrest⟩
    | some s =>
      have he : ((first, some s) :: rest.map fun piece => (piece, Segment.ofPiece? piece)).filterMap (·.2) =
          s :: steps := by rw [List.filterMap_cons, hrest]
      rcases Segment.ofFirstPiece?_cases (hpieces first (by simp)) hf with rfl | rfl | hs
      · exact ⟨steps, hsteps, Or.inr (Or.inl he)⟩
      · exact ⟨steps, hsteps, Or.inr (Or.inr he)⟩
      · refine ⟨s :: steps, ?_, Or.inl he⟩
        intro t ht
        rcases List.mem_cons.mp ht with rfl | ht
        · exact hs
        · exact hsteps t ht

/-! ## Normal stacks -/

inductive NormalStack : List Segment → Prop
  | nil : NormalStack []
  | root : NormalStack [.root]
  | up {stack : List Segment} : (∀ s ∈ stack, s = .up) → NormalStack (.up :: stack)
  | name {n : String} {stack : List Segment} :
      (Segment.name n).IsStep → NormalStack stack → NormalStack (.name n :: stack)

theorem pushSegment_normal {stack : List Segment} {s : Segment} (h : NormalStack stack) (hs : s.IsStep) :
    NormalStack (pushSegment stack s) := by
  cases s with
  | root => cases hs
  | here => cases hs
  | name n => exact .name hs h
  | up =>
    cases h with
    | nil => exact .up (by simp)
    | root => exact .root
    | up hall => exact .up (by simpa using hall)
    | name _ above => exact above

theorem foldl_pushSegment_normal {steps stack : List Segment} (hs : ∀ s ∈ steps, s.IsStep)
    (h : NormalStack stack) : NormalStack (steps.foldl pushSegment stack) := by
  induction steps generalizing stack with
  | nil => exact h
  | cons s steps ih =>
    exact ih (fun t ht => hs t (by simp [ht])) (pushSegment_normal h (hs s (by simp)))

theorem normalSegments_normal (p : Path) : NormalStack (normalSegments p.segments).reverse := by
  rw [normalSegments, List.reverse_reverse]
  obtain ⟨steps, hs, h | h | h⟩ := segments_shape p
  · rw [h]; exact foldl_pushSegment_normal hs .nil
  · rw [h, List.foldl_cons]; exact foldl_pushSegment_normal hs .root
  · rw [h, List.foldl_cons]; exact foldl_pushSegment_normal hs .nil

/-- Bringing a normal form to its normal form changes nothing. -/
theorem foldl_pushSegment_reverse {stack : List Segment} (h : NormalStack stack) :
    stack.reverse.foldl pushSegment [] = stack := by
  induction h with
  | nil => rfl
  | root => rfl
  | @up stack hall =>
    have below : ∀ n, (List.replicate n Segment.up).foldl pushSegment [] = List.replicate n .up := by
      intro n
      induction n with
      | zero => rfl
      | succ n ih =>
        rw [List.replicate_succ', List.foldl_append, ih, ← List.replicate_succ', List.replicate_succ]
        cases n <;> rfl
    have he : stack = List.replicate stack.length .up := List.eq_replicate_of_mem hall
    have := below (stack.length + 1)
    rw [List.replicate_succ, ← he] at this
    rw [List.reverse_cons, he, List.reverse_replicate, ← List.replicate_succ', List.replicate_succ, ← he]
    exact this
  | name hn _ ih => rw [List.reverse_cons, List.foldl_append, ih]; rfl

theorem NormalStack.shape {stack : List Segment} (h : NormalStack stack) :
    ∃ steps : List Segment, (∀ s ∈ steps, s.IsStep) ∧
      (stack.reverse = steps ∨ stack.reverse = .root :: steps) := by
  induction h with
  | nil => exact ⟨[], by simp, Or.inl rfl⟩
  | root => exact ⟨[], by simp, Or.inr rfl⟩
  | @up stack hall =>
    refine ⟨(Segment.up :: stack).reverse, ?_, Or.inl rfl⟩
    intro s hs
    have : s = .up := by
      rcases List.mem_cons.mp (List.mem_reverse.mp hs) with e | hs
      · exact e
      · exact hall s hs
    rw [this]; trivial
  | @name n _ hn _ ih =>
    obtain ⟨steps, hsteps, he⟩ := ih
    have hmem : ∀ s ∈ steps ++ [Segment.name n], s.IsStep := by
      intro s hs
      rcases List.mem_append.mp hs with hs | hs
      · exact hsteps s hs
      · rw [List.mem_singleton.mp hs]; exact hn
    refine ⟨steps ++ [.name n], hmem, ?_⟩
    rcases he with he | he
    · left; rw [List.reverse_cons, he]
    · right; rw [List.reverse_cons, he]; rfl

/-! ## Spelling -/

theorem splitOn_intercalate_text {steps : List Segment} (hs : ∀ s ∈ steps, s.IsStep) (hne : steps ≠ []) :
    ("/".intercalate (steps.map Segment.text)).toList.splitOn '/' = steps.map (·.text.toList) := by
  rw [String.toList_intercalate, List.map_map, show "/".toList = ['/'] from by decide,
    List.splitOn_intercalate '/' _ (by simpa using hne)]
  · rfl
  · intro l hl
    obtain ⟨s, hmem, rfl⟩ := List.mem_map.mp hl
    exact Segment.not_slash_mem_text (hs s hmem)

theorem map_ofPiece?_text {steps : List Segment} (hs : ∀ s ∈ steps, s.IsStep) :
    ((steps.map (·.text.toList)).map fun piece => (piece, Segment.ofPiece? piece)) = steps.map Segment.piece := by
  rw [List.map_map]
  refine List.map_congr_left fun s hmem => ?_
  rw [Segment.piece_of_step (hs s hmem)]
  exact congrArg (Prod.mk s.text.toList) (Segment.ofPiece?_text (hs s hmem))

theorem pieces_ofSteps {steps : List Segment} (hs : ∀ s ∈ steps, s.IsStep) (hne : steps ≠ []) :
    (Path.mk ("/".intercalate (steps.map Segment.text))).pieces = steps.map Segment.piece := by
  unfold pieces
  rw [splitOn_intercalate_text hs hne]
  cases steps with
  | nil => exact absurd rfl hne
  | cons s rest =>
    have hrest := map_ofPiece?_text fun t ht => hs t (List.mem_cons_of_mem _ ht)
    have hstep := hs s List.mem_cons_self
    simp only [List.map_cons, Segment.ofFirstPiece?_text hstep, Segment.piece_of_step hstep, hrest]

theorem pieces_ofRoot {steps : List Segment} (hs : ∀ s ∈ steps, s.IsStep) (hne : steps ≠ []) :
    (Path.mk ("/" ++ "/".intercalate (steps.map Segment.text))).pieces = (Segment.root :: steps).map Segment.piece := by
  have hsplit : (Path.mk ("/" ++ "/".intercalate (steps.map Segment.text))).text.toList.splitOn '/' =
      [] :: steps.map (·.text.toList) := by
    rw [String.toList_append, show "/".toList = ['/'] from by decide, List.cons_append,
      List.splitOn_cons_eq_if_modifyHead, ← splitOn_intercalate_text hs hne]
    simp
  have hslash : (!(steps.map (·.text.toList)).isEmpty) = true := by simpa using hne
  unfold pieces
  rw [hsplit]
  simp only [map_ofPiece?_text hs, hslash]
  rfl

theorem segments_ofSteps {steps : List Segment} (hs : ∀ s ∈ steps, s.IsStep) :
    (Path.mk ("/".intercalate (steps.map Segment.text))).segments = steps := by
  by_cases hne : steps = []
  · rw [hne]
    decide
  · unfold segments
    rw [pieces_ofSteps hs hne, filterMap_map_piece]

theorem segments_ofRoot {steps : List Segment} (hs : ∀ s ∈ steps, s.IsStep) :
    (Path.mk ("/" ++ "/".intercalate (steps.map Segment.text))).segments = .root :: steps := by
  by_cases hne : steps = []
  · rw [hne]
    decide
  · unfold segments
    rw [pieces_ofRoot hs hne, filterMap_map_piece]

theorem ofSegments_of_steps {steps : List Segment} (hs : ∀ s ∈ steps, s.IsStep) :
    ofSegments steps = ⟨"/".intercalate (steps.map Segment.text)⟩ := by
  unfold ofSegments
  split
  · exact absurd (hs .root List.mem_cons_self) id
  · rfl

theorem segments_ofSegments {segments : List Segment} (h : NormalStack segments.reverse) :
    (ofSegments segments).segments = segments := by
  obtain ⟨steps, hs, he | he⟩ := h.shape
  · rw [List.reverse_reverse] at he
    subst he
    rw [ofSegments_of_steps hs, segments_ofSteps hs]
  · rw [List.reverse_reverse] at he
    subst he
    exact segments_ofRoot hs

theorem segments_normalize (p : Path) : p.normalize.segments = normalSegments p.segments :=
  segments_ofSegments (normalSegments_normal p)

theorem normalSegments_of_normal {segments : List Segment} (h : NormalStack segments.reverse) :
    normalSegments segments = segments := by
  have := foldl_pushSegment_reverse h
  rw [List.reverse_reverse] at this
  rw [normalSegments, this, List.reverse_reverse]

theorem normalize_normalize (p : Path) : p.normalize.normalize = p.normalize := by
  rw [normalize, segments_normalize, normalSegments_of_normal (normalSegments_normal p), normalize]

/-! ## Keys -/

def IsKey (p : Path) : Prop := p.normalize = p

instance (p : Path) : Decidable p.IsKey := inferInstanceAs (Decidable (_ = _))

theorem isKey_normalize (p : Path) : p.normalize.IsKey := normalize_normalize p

theorem isKey_resolveImport (importer : Path) (raw : String) : (importer.resolveImport raw).IsKey :=
  isKey_normalize _

theorem same_refl (p : Path) : p.same p = true := beq_self_eq_true p.segments

/-- Two keys that are one path to every look-up are equal. -/
theorem same_iff {p q : Path} (hp : p.IsKey) (hq : q.IsKey) : p.same q = true ↔ p = q := by
  constructor
  · intro h
    have hseg : p.segments = q.segments := eq_of_beq h
    rw [← hp, ← hq, normalize, normalize, hseg]
  · rintro rfl
    exact same_refl p

end Path

end ComponentSite
