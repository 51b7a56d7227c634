/-
  ComponentSite.Proofs.TreeWalk — where a path leads after a name was joined to it.

  A walk along two lists of steps is a walk along the first and then, from where it
  ended and with the links it left, along the second (`walk_append`). So a name joined
  to the path of a folder is one more step from this folder (`resolve_join_eq`): it
  leads to the entry of that name, if the path is not too long (`resolve_join`), and
  nowhere if there is no such entry (`entry?_of_walk_name`).

  A file system has one entry at a place, names that are names, and entries in folders
  only (`WellFormed`). Then every place above an entry is a folder
  (`isFolderAt_above`).
-/
import Mathlib.Data.List.Nodup
import ComponentSite.FileTree
import ComponentSite.Proofs.JoinedPath

namespace ComponentSite.FileTree

variable {t : FileTree} {p : Path} {n : String} {place here : Location} {e : Entry}

/-! ## Walks in two parts -/

/-- The rest of the steps is never looked at, or they are walked from some place. -/
def Parts (t : FileTree) (run : List (Option Segment) → Except ReadFailure Location) : Prop :=
  (∃ cause, ∀ rest, run rest = .error cause) ∨ ∃ place left, ∀ rest, run rest = t.walk false left place rest

theorem parts_of_step {follow : Location → List (Option Segment) → Except ReadFailure Location}
    {s : Option Segment} {next : Location} {first : List (Option Segment)}
    (hstep : ∀ rest, t.walkWith false follow here (s :: rest) =
      if t.isFolderAt here then t.walkWith false follow next rest else .error .notAFolder)
    (hnext : t.Parts fun rest => t.walkWith false follow next (first ++ rest)) :
    t.Parts fun rest => t.walkWith false follow here (s :: (first ++ rest)) := by
  simp only [hstep]
  split
  · exact hnext
  · exact Or.inl ⟨.notAFolder, fun rest => rfl⟩

theorem walkWith_parts {links : Nat} {follow : Location → List (Option Segment) → Except ReadFailure Location}
    (hwalk : t.walk false links = t.walkWith false follow)
    (hfollow : ∀ start first, t.Parts fun rest => follow start (first ++ rest)) (start : Location)
    (first : List (Option Segment)) : t.Parts fun rest => t.walkWith false follow start (first ++ rest) := by
  induction first generalizing start with
  | nil => exact Or.inr ⟨start, links, fun rest => by rw [hwalk]; rfl⟩
  | cons s first ih =>
    simp only [List.cons_append]
    cases s with
    | none => exact parts_of_step (fun rest => rfl) (ih start)
    | some s =>
      cases s with
      | root => exact ih []
      | here => exact parts_of_step (fun rest => rfl) (ih start)
      | up => exact parts_of_step (fun rest => rfl) (ih start.dropLast)
      | name n =>
        by_cases hfolder : t.isFolderAt start = true
        · by_cases hlong : n.utf8ByteSize > maxNameBytes
          · exact Or.inl ⟨.nameTooLong, fun rest => by simp [walkWith, hfolder, hlong]⟩
          · simp only [walkWith, hfolder, if_neg hlong, Bool.not_true, Bool.false_eq_true, if_false, Bool.false_and]
            cases he : t.entry? (start ++ [n]) with
            | none => exact Or.inl ⟨.notFound, fun rest => rfl⟩
            | some e =>
              cases e with
              | file text modified => exact ih _
              | folder modified => exact ih _
              | link target =>
                have := hfollow start (steps target ++ first)
                simpa only [List.append_assoc] using this
        · exact Or.inl ⟨.notAFolder, fun rest => by simp [walkWith, hfolder]⟩

/-- A walk fails within its first steps, whatever follows, or goes on from where these
    lead. -/
theorem walk_append (t : FileTree) (links : Nat) (start : Location) (first : List (Option Segment)) :
    t.Parts fun rest => t.walk false links start (first ++ rest) := by
  induction links generalizing start first with
  | zero =>
    have hwalk : t.walk false 0 = t.walkWith false fun _ _ => .error .tooManyLinks := rfl
    exact walkWith_parts hwalk (fun _ _ => Or.inl ⟨.tooManyLinks, fun _ => rfl⟩) start first
  | succ links ih =>
    have hwalk : t.walk false (links + 1) = t.walkWith false (t.walk false links) := rfl
    exact walkWith_parts hwalk ih start first

theorem exists_follow (t : FileTree) (links : Nat) : ∃ follow, t.walk false links = t.walkWith false follow := by
  cases links with
  | zero => exact ⟨_, rfl⟩
  | succ links => exact ⟨_, rfl⟩

@[simp] theorem walk_nil (t : FileTree) (links : Nat) (start : Location) : t.walk false links start [] = .ok start := by
  cases links <;> rfl

variable {links : Nat} {start : Location} {first : List (Option Segment)}

theorem walk_of_ok (h : t.walk false links start first = .ok place) :
    ∃ left, ∀ rest, t.walk false links start (first ++ rest) = t.walk false left place rest := by
  rcases walk_append t links start first with ⟨cause, hfail⟩ | ⟨place', left, hgo⟩
  · have := hfail []
    simp only [List.append_nil, h] at this
    cases this
  · have := hgo []
    simp only [List.append_nil, h, walk_nil] at this
    cases this
    exact ⟨left, hgo⟩

/-- An empty piece at the end is a step that stays in a folder. -/
theorem walk_of_empty (h : t.walk false links start (first ++ [none]) = .ok place) :
    t.walk false links start first = .ok place := by
  rcases walk_append t links start first with ⟨cause, hfail⟩ | ⟨place', left, hgo⟩
  · rw [show t.walk false links start (first ++ [none]) = _ from hfail [none]] at h
    cases h
  · have hfirst : t.walk false links start first = .ok place' := by simpa using hgo []
    have hlast : t.walk false left place' [none] = .ok place := (hgo [none]).symm.trans h
    obtain ⟨follow, hwalk⟩ := exists_follow t left
    rw [hwalk] at hlast
    by_cases hfolder : t.isFolderAt place' = true
    · simp only [walkWith, if_pos hfolder] at hlast
      rw [hfirst, hlast]
    · simp [walkWith, hfolder] at hlast

/-! ## A name below a folder -/

theorem resolve_eq_ok (h : t.resolve p = .ok place) :
    (∀ c ∈ p.text.toList, c.toNat ≠ 0) ∧ p.text ≠ "" ∧ p.text.utf8ByteSize ≤ maxPathBytes ∧
      t.walk false maxLinks t.start (steps p) = .ok place := by
  unfold resolve walkPath at h
  split at h
  · cases h
  split at h
  · cases h
  split at h
  · cases h
  rename_i hnul hempty hsize
  refine ⟨?_, by simpa using hempty, by omega, h⟩
  simpa using hnul

/-- What is joined to a path is one more step from where the path leads. -/
theorem resolve_join_eq (h : t.resolve p = .ok place) (hn : '/' ∉ n.toList)
    (hnul : ∀ c ∈ (p.join ⟨n⟩).text.toList, c.toNat ≠ 0) (hsize : (p.join ⟨n⟩).text.utf8ByteSize ≤ maxPathBytes) :
    ∃ left, t.resolve (p.join ⟨n⟩) = t.walk false left place [Segment.ofPiece? n.toList] := by
  obtain ⟨-, hp, -, hwalk⟩ := resolve_eq_ok h
  obtain ⟨lead, hjoin, hlead⟩ := Path.pieces_join hn hp
  have hlead' : t.walk false maxLinks t.start (lead.map (·.2)) = .ok place := by
    unfold steps at hwalk
    rcases hlead with hlead | hlead
    · rwa [hlead] at hwalk
    · rw [hlead, List.map_append] at hwalk
      exact walk_of_empty hwalk
  obtain ⟨left, hgo⟩ := walk_of_ok hlead'
  have hne : (p.join ⟨n⟩).text ≠ "" := by
    obtain ⟨s, htext, -⟩ := Path.toList_join hn hp
    intro hempty
    simp [hempty] at htext
  have hchars : (p.join ⟨n⟩).text.toList.any (·.toNat == 0) = false := by simpa using hnul
  refine ⟨left, Eq.trans ?_ (hgo _)⟩
  unfold resolve walkPath
  rw [hchars, if_neg Bool.false_ne_true, if_neg (by simpa using hne), if_neg (by omega)]
  unfold steps
  rw [hjoin, List.map_append, List.map_singleton]
  rfl

/-- A slash at the end of the path of a folder changes nothing. -/
theorem resolve_slash (h : t.resolve p = .ok place) (hfolder : t.isFolderAt place = true)
    (hsize : p.text.utf8ByteSize < maxPathBytes) : t.resolve ⟨p.text ++ "/"⟩ = .ok place := by
  obtain ⟨hnul, hp, -, hwalk⟩ := resolve_eq_ok h
  have hslash : (p.text ++ "/").utf8ByteSize = p.text.utf8ByteSize + 1 := String.utf8ByteSize_append
  have hchars : (p.text ++ "/").toList.any (·.toNat == 0) = false := by simpa using hnul
  have hsteps : steps ⟨p.text ++ "/"⟩ = steps p ++ [none] := by
    unfold steps
    rw [Path.pieces_slash hp, List.map_append, List.map_singleton]
  obtain ⟨left, hgo⟩ := walk_of_ok hwalk
  obtain ⟨follow, hfollow⟩ := exists_follow t left
  unfold resolve walkPath
  simp only [hchars, hsteps, hgo, hfollow, walkWith, hfolder]
  rw [if_neg Bool.false_ne_true, if_neg (by simp), if_neg (by omega)]
  rfl

theorem entry?_of_walk_name {left : Nat} {place' : Location}
    (h : t.walk false left place [some (.name n)] = .ok place') :
    t.isFolderAt place = true ∧ ∃ e, t.entry? (place ++ [n]) = some e := by
  obtain ⟨follow, hwalk⟩ := exists_follow t left
  rw [hwalk] at h
  by_cases hfolder : t.isFolderAt place = true
  · cases he : t.entry? (place ++ [n]) with
    | some e => exact ⟨hfolder, e, rfl⟩
    | none => by_cases hlong : n.utf8ByteSize > maxNameBytes <;> simp [walkWith, hfolder, he, hlong] at h
  · simp [walkWith, hfolder] at h

theorem walk_name {left : Nat} (hfolder : t.isFolderAt here = true) (hlong : n.utf8ByteSize ≤ maxNameBytes)
    (he : t.entry? (here ++ [n]) = some e) (hlink : ∀ target, e ≠ .link target) :
    t.walk false left here [some (.name n)] = .ok (here ++ [n]) := by
  obtain ⟨follow, hwalk⟩ := exists_follow t left
  rw [hwalk]
  simp only [walkWith, hfolder, he, if_neg (Nat.not_lt.mpr hlong)]
  cases e with
  | file text modified => rfl
  | folder modified => rfl
  | link target => exact absurd rfl (hlink target)

theorem entry?_of_isFolderAt (h : t.isFolderAt here = true) : ∃ m, t.entry? here = some (.folder m) := by
  unfold isFolderAt at h
  cases he : t.entry? here with
  | none => simp [he] at h
  | some e =>
    cases e with
    | folder modified => exact ⟨modified, rfl⟩
    | file text modified => simp [he] at h
    | link target => simp [he] at h

theorem place_of_isFolder (h : t.isFolder p = true) :
    ∃ place, t.resolve p = .ok place ∧ t.isFolderAt place = true := by
  unfold isFolder lookup at h
  cases hres : t.resolve p with
  | error cause => simp [hres, Except.bind] at h
  | ok place =>
    refine ⟨place, rfl, ?_⟩
    unfold isFolderAt
    cases he : t.entry? place with
    | none => simp [hres, Except.bind, he] at h
    | some e =>
      cases e with
      | folder modified => simp only
      | file text modified => simp [hres, Except.bind, he] at h
      | link target => simp [hres, Except.bind, he] at h

/-! ## File systems -/

def IsName (n : String) : Prop :=
  (Segment.name n).IsStep ∧ n.utf8ByteSize ≤ maxNameBytes ∧ ∀ c ∈ n.toList, c.toNat ≠ 0

-- The instance for the characters of a list is given, as there is one for all characters.
instance (n : String) : Decidable (IsName n) :=
  @instDecidableAnd _ _ inferInstance (@instDecidableAnd _ _ inferInstance (List.decidableBAll _ n.toList))

/-- What every file system keeps: one entry at a place, names of its own form, and entries
    in folders only. -/
structure WellFormed (t : FileTree) : Prop where
  distinct : (t.entries.map (·.1)).Nodup
  names : ∀ l ∈ t.entries.map (·.1), ∀ n ∈ l, IsName n
  parents : ∀ l ∈ t.entries.map (·.1), t.isFolderAt l.dropLast = true

theorem entry?_of_mem (hw : t.WellFormed) {l : Location} (hl : l ≠ []) (h : (l, e) ∈ t.entries) :
    t.entry? l = some e := by
  unfold entry?
  rw [if_neg (by simpa using hl)]
  cases hf : t.entries.find? (·.1 == l) with
  | none => exact absurd (beq_self_eq_true l) (List.find?_eq_none.mp hf (l, e) h)
  | some found =>
    have hsame : found.1 = l := by simpa using List.find?_some hf
    have : found = (l, e) := List.inj_on_of_nodup_map hw.distinct (List.mem_of_find?_eq_some hf) h hsame
    rw [this]
    rfl

theorem mem_of_entry?_eq_some {l : Location} (hl : l ≠ []) (h : t.entry? l = some e) : (l, e) ∈ t.entries := by
  unfold entry? at h
  rw [if_neg (by simpa using hl)] at h
  obtain ⟨⟨l', _⟩, hf, rfl⟩ := Option.map_eq_some_iff.mp h
  have hsame : l' = l := by simpa using List.find?_some hf
  exact hsame ▸ List.mem_of_find?_eq_some hf

theorem isName_of_entry?_eq_some (hw : t.WellFormed) {l : Location} (hl : l ≠ []) (h : t.entry? l = some e) :
    ∀ n ∈ l, IsName n :=
  hw.names l (List.mem_map.mpr ⟨_, mem_of_entry?_eq_some hl h, rfl⟩)

theorem isFolderAt_above (hw : t.WellFormed) {l m : Location} (hm : m ≠ []) (h : (l ++ m, e) ∈ t.entries) :
    t.isFolderAt l = true := by
  induction m using List.reverseRecOn generalizing e with
  | nil => exact absurd rfl hm
  | append_singleton m n ih =>
    have hparent := hw.parents _ (List.mem_map.mpr ⟨_, h, rfl⟩)
    simp only [← List.append_assoc, List.dropLast_concat] at hparent
    by_cases hempty : m = []
    · rwa [hempty, List.append_nil] at hparent
    · have hne : l ++ m ≠ [] := List.append_ne_nil_of_right_ne_nil l hempty
      obtain ⟨modified, he⟩ := entry?_of_isFolderAt hparent
      exact ih hempty (mem_of_entry?_eq_some hne he)

theorem lastName_eq_some {l : Location} :
    (if l.dropLast == here then l.getLast? else none) = some n ↔ l = here ++ [n] := by
  constructor
  · intro h
    split at h
    · rename_i hl
      obtain ⟨above, rfl⟩ := List.getLast?_eq_some_iff.mp h
      rw [List.dropLast_concat] at hl
      rw [eq_of_beq hl]
    · cases h
  · intro h
    simp [h]

theorem mem_namesIn : n ∈ t.namesIn here ↔ here ++ [n] ∈ t.entries.map (·.1) := by
  unfold namesIn
  rw [List.mem_filterMap, List.mem_map]
  constructor
  · rintro ⟨⟨l, e⟩, hmem, h⟩
    exact ⟨_, hmem, lastName_eq_some.mp h⟩
  · rintro ⟨⟨l, e⟩, hmem, h⟩
    exact ⟨_, hmem, lastName_eq_some.mpr h⟩

theorem nodup_namesIn (hw : t.WellFormed) (here : Location) : (t.namesIn here).Nodup := by
  have hnames : t.namesIn here =
      (t.entries.map (·.1)).filterMap fun l => if l.dropLast == here then l.getLast? else none := by
    unfold namesIn
    rw [List.filterMap_map]
    rfl
  rw [hnames]
  refine List.Nodup.filterMap (fun l l' n h h' => ?_) hw.distinct
  exact (lastName_eq_some.mp h).trans (lastName_eq_some.mp h').symm

/-- The name leads from a folder to the entry, unless the path is too long. -/
theorem resolve_join (hw : t.WellFormed) (h : t.resolve p = .ok here)
    (hfolder : t.isFolderAt here = true) (he : t.entry? (here ++ [n]) = some e)
    (hlink : ∀ target, e ≠ .link target) (hsize : (p.join ⟨n⟩).text.utf8ByteSize ≤ maxPathBytes) :
    t.resolve (p.join ⟨n⟩) = .ok (here ++ [n]) := by
  obtain ⟨hstep, hlong, hnul⟩ := isName_of_entry?_eq_some hw (by simp) he n (by simp)
  have hchars : ∀ c ∈ (p.join ⟨n⟩).text.toList, c.toNat ≠ 0 := by
    obtain ⟨hpnul, hp, -, -⟩ := resolve_eq_ok h
    obtain ⟨s, htext, hs⟩ := Path.toList_join hstep.2.1 hp
    have hsub : ∀ c ∈ s, c ∈ p.text.toList := by
      intro c hc
      rcases hs with hs | hs
      · rwa [hs]
      · rw [hs]
        exact List.mem_append_left _ hc
    intro c hc
    rw [htext] at hc
    rcases List.mem_append.mp hc with hc | hc
    · exact hpnul c (hsub c hc)
    · rcases List.mem_cons.mp hc with rfl | hc
      · decide
      · exact hnul c hc
  obtain ⟨left, hres⟩ := resolve_join_eq h hstep.2.1 hchars hsize
  rw [hres, show Segment.ofPiece? n.toList = some (.name n) from Segment.ofPiece?_text hstep]
  exact walk_name hfolder hlong he hlink

end ComponentSite.FileTree
