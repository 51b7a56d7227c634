/-
  ComponentSite.Proofs.CleanedScript — a script without its component imports.

  A script without carriage returns is its lines, with line feeds between them. The scan sorts
  them: those that import a component become the imports, in order, and the others stay
  (`scanLines_sorts`). What stays is put together again and trimmed at its two ends.

  Trimming takes white space off the first line and the last one and drops blank lines, so a
  line of a trimmed text is a line of the text but for white space around it
  (`exists_padded_line`). That has no part in whether it imports a component, so no line of what
  stays does, and another scan changes nothing (`scan_cleaned`).
-/
import ComponentSite.Proofs.ImportPattern
import Mathlib.Data.List.Forall2

namespace ComponentSite.Imports
open Text

def ImportsComponent (extension : String) (line : List Char) : Prop := ∃ i, ImportsAs extension line i

theorem importsComponent_iff {extension : String} {line : List Char} :
    ImportsComponent extension line ↔ classify extension line ≠ .kept := by
  constructor
  · rintro ⟨i, hi⟩
    rw [classify_of_importsAs hi]
    split <;> exact Line.noConfusion
  · intro h
    by_contra hnone
    exact h (classify_of_not fun i hi => hnone ⟨i, hi⟩)

instance (extension : String) (line : List Char) : Decidable (ImportsComponent extension line) :=
  decidable_of_iff _ importsComponent_iff.symm

theorem not_importsComponent_nil (extension : String) : ¬ ImportsComponent extension [] := by
  rintro ⟨i, clause, path, ⟨r, htext, -⟩, -⟩
  simp [Reading.text] at htext

/-! ## The lines of a text -/

/-- The last line of a text goes on in the first line of what follows. -/
theorem splitOn_append (c : Char) (s t : List Char) :
    ∃ pieces last first more, s.splitOn c = pieces ++ [last] ∧ t.splitOn c = first :: more ∧
      (s ++ t).splitOn c = pieces ++ (last ++ first) :: more := by
  induction s with
  | nil =>
    obtain ⟨first, more, h⟩ := List.exists_cons_of_ne_nil (List.splitOn_ne_nil c t)
    exact ⟨[], [], first, more, List.splitOn_nil _, h, h⟩
  | cons d s ih =>
    obtain ⟨pieces, last, first, more, hs, ht, hst⟩ := ih
    rw [List.cons_append, List.splitOn_cons_eq_if_modifyHead, List.splitOn_cons_eq_if_modifyHead, hs, hst]
    by_cases hd : (d == c) = true
    · rw [if_pos hd, if_pos hd]
      exact ⟨[] :: pieces, last, first, more, rfl, ht, rfl⟩
    · rw [if_neg hd, if_neg hd]
      cases pieces with
      | nil => exact ⟨[], d :: last, first, more, rfl, ht, rfl⟩
      | cons piece pieces => exact ⟨(d :: piece) :: pieces, last, first, more, rfl, ht, rfl⟩

theorem infix_of_mem_splitOn {c : Char} {s l : List Char} (h : l ∈ s.splitOn c) : l <:+: s := by
  have hl : l <:+: [c].intercalate (s.splitOn c) := infix_intercalate h
  rwa [List.intercalate_splitOn] at hl

theorem isBlank_of_infix {s l : List Char} (h : l <:+: s) (hs : s.all isBlank = true) : l.all isBlank = true :=
  List.all_eq_true.mpr fun c hc => List.all_eq_true.mp hs c (h.subset hc)

/-- A line of a text is a line of the text with white space around it, but for white space
    around the line. -/
theorem exists_padded_line {lead text behind line : List Char} (hlead : lead.all isBlank = true)
    (hbehind : behind.all isBlank = true) (h : line ∈ text.splitOn '\n') :
    ∃ a b, a.all isBlank = true ∧ b.all isBlank = true ∧
      a ++ (line ++ b) ∈ (lead ++ (text ++ behind)).splitOn '\n' := by
  obtain ⟨b, hb, hline⟩ : ∃ b, b.all isBlank = true ∧ line ++ b ∈ (text ++ behind).splitOn '\n' := by
    obtain ⟨pieces, last, first, more, htext, hfirst, hwhole⟩ := splitOn_append '\n' text behind
    rw [htext] at h
    rw [hwhole]
    rcases List.mem_append.mp h with hmem | hlast
    · exact ⟨[], rfl, by simp [hmem]⟩
    · obtain rfl := List.mem_singleton.mp hlast
      exact ⟨first, isBlank_of_infix (infix_of_mem_splitOn (hfirst ▸ List.mem_cons_self)) hbehind, by simp⟩
  obtain ⟨pieces, last, first, more, hlast, hfirst, hwhole⟩ := splitOn_append '\n' lead (text ++ behind)
  rw [hfirst] at hline
  rw [hwhole]
  rcases List.mem_cons.mp hline with rfl | hmem
  · have hmem : last ∈ lead.splitOn '\n' := hlast ▸ List.mem_concat_self
    exact ⟨last, b, isBlank_of_infix (infix_of_mem_splitOn hmem) hlead, hb, by simp⟩
  · exact ⟨[], b, rfl, hb, by simp [hmem]⟩

/-- Without carriage returns the lines are what the line feeds divide, less an empty last one. -/
theorem lines_of_not_mem {s : List Char} (h : '\r' ∉ s) :
    s.splitOn '\n' = lines s ∨ s.splitOn '\n' = lines s ++ [[]] := by
  obtain ⟨front, last, hpieces⟩ := (List.eq_nil_or_concat (s.splitOn '\n')).resolve_left (List.splitOn_ne_nil _ _)
  rw [List.concat_eq_append] at hpieces
  have hclosed : front.map (fun line => if line.getLast? = some '\r' then line.dropLast else line) = front := by
    conv_rhs => rw [← List.map_id front]
    refine List.map_congr_left fun line hline => if_neg fun hlast => ?_
    have hmem : line ∈ s.splitOn '\n' := hpieces ▸ List.mem_append_left _ hline
    exact h ((infix_of_mem_splitOn hmem).subset (List.mem_of_getLast? hlast))
  unfold lines
  simp only [hpieces, List.dropLast_concat, hclosed, List.getLast?_concat]
  cases last with
  | nil => exact Or.inr rfl
  | cons c last => exact Or.inl rfl

/-! ## Trimming -/

structure IsTrimOf (text whole : List Char) : Prop where
  around : ∃ lead behind, lead.all isBlank = true ∧ behind.all isBlank = true ∧ whole = lead ++ (text ++ behind)
  head : text.head?.all (!isBlank ·) = true
  last : text.getLast?.all (!isBlank ·) = true

theorem trim_isTrimOf (s : List Char) : IsTrimOf (trim s) s := by
  obtain ⟨lead, hlead, hs⟩ := exists_blanks s
  obtain ⟨behind, hbehind, htrim⟩ := exists_blanks_behind (trimStart s)
  refine ⟨⟨lead, behind, hlead, hbehind, ?_⟩, ?_, ?_⟩
  · rw [trim, ← htrim]
    exact hs
  · cases hhead : trim s with
    | nil => rfl
    | cons c r =>
      rw [← trim, hhead] at htrim
      simp [trimStart_head htrim]
  · rw [trim, trimEnd, List.getLast?_reverse]
    cases hlast : (trimStart s).reverse.dropWhile isBlank with
    | nil => rfl
    | cons c r =>
      have hc : isBlank c = false := trimStart_head hlast
      simp [hc]

theorem IsTrimOf.isInfix {text whole : List Char} (h : IsTrimOf text whole) : text <:+: whole := by
  obtain ⟨lead, behind, -, -, rfl⟩ := h.around
  exact ⟨lead, behind, List.append_assoc _ _ _⟩

theorem IsTrimOf.trim_eq {text whole : List Char} (h : IsTrimOf text whole) : trim text = text := by
  obtain ⟨-, hhead, hlast⟩ := h
  cases text with
  | nil => rfl
  | cons c r =>
    have hstart : trimStart (c :: r) = c :: r := trimStart_of_head (by simpa using hhead)
    have hend : trimEnd (c :: r) = c :: r := by
      refine trimEnd_of_last ?_
      rw [List.getLast?_eq_some_getLast (List.cons_ne_nil c r)] at hlast ⊢
      exact hlast
    rw [trim, hstart, hend]

theorem intercalate_concat_nil {sep : List Char} {ls : List (List Char)} (h : ls ≠ []) :
    sep.intercalate (ls ++ [[]]) = sep.intercalate ls ++ sep := by
  induction ls with
  | nil => exact absurd rfl h
  | cons first more ih =>
    cases more with
    | nil => simp [List.intercalate_cons_cons]
    | cons second more =>
      have hmore := ih (List.cons_ne_nil second more)
      rw [List.cons_append] at hmore
      rw [List.cons_append, List.cons_append, List.intercalate_cons_cons, hmore, List.intercalate_cons_cons]
      simp only [List.append_assoc]

theorem trim_blanks {blanks : List Char} (h : blanks.all isBlank = true) (s : List Char) :
    trim (s ++ blanks) = trim s := by
  rw [trim, trim]
  rcases trimStart_append_blanks h s with ⟨hnil, hs⟩ | ⟨hcut, -⟩
  · rw [hnil, hs]
  · rw [hcut, trimEnd_blanks h]

/-- An empty line at the end is trimmed away. -/
theorem trim_intercalate_concat_nil (ls : List (List Char)) :
    trim (['\n'].intercalate (ls ++ [[]])) = trim (['\n'].intercalate ls) := by
  by_cases h : ls = []
  · rw [h]
    rfl
  · rw [intercalate_concat_nil h, trim_blanks (by decide)]

/-! ## Scanning -/

section
variable {extension : String}

theorem scanLines_sorts {ls kept : List (List Char)} {imports : List ImportReference}
    (h : scanLines extension ls = .ok (kept, imports)) :
    List.Forall₂ (ImportsAs extension) (ls.filter (ImportsComponent extension ·)) imports ∧
      kept = ls.filter (¬ ImportsComponent extension ·) := by
  induction ls generalizing kept imports with
  | nil =>
    cases h
    exact ⟨.nil, rfl⟩
  | cons line ls ih =>
    rw [scanLines] at h
    by_cases himport : ImportsComponent extension line
    · obtain ⟨i, hi⟩ := himport
      rw [classify_of_importsAs hi] at h
      by_cases hnames : i.names = []
      · rw [if_pos hnames] at h
        cases h
      · rw [if_neg hnames] at h
        cases hrest : scanLines extension ls with
        | error e =>
          rw [hrest] at h
          cases h
        | ok sorted =>
          rw [hrest] at h
          cases h
          obtain ⟨himports, hkept⟩ := ih hrest
          rw [List.filter_cons_of_pos (by simpa using ⟨i, hi⟩), List.filter_cons_of_neg (by simpa using ⟨i, hi⟩)]
          exact ⟨.cons hi himports, hkept⟩
    · rw [classify_of_not fun i hi => himport ⟨i, hi⟩] at h
      cases hrest : scanLines extension ls with
      | error e =>
        rw [hrest] at h
        cases h
      | ok sorted =>
        rw [hrest] at h
        cases h
        obtain ⟨himports, hkept⟩ := ih hrest
        rw [List.filter_cons_of_neg (by simpa using himport), List.filter_cons_of_pos (by simpa using himport)]
        exact ⟨himports, congrArg (line :: ·) hkept⟩

theorem scanLines_of_kept {ls : List (List Char)} (h : ∀ line ∈ ls, ¬ ImportsComponent extension line) :
    scanLines extension ls = .ok (ls, []) := by
  induction ls with
  | nil => rfl
  | cons line ls ih =>
    obtain ⟨hline, hls⟩ := List.forall_mem_cons.mp h
    rw [scanLines, classify_of_not fun i hi => hline ⟨i, hi⟩]
    simp only [ih hls]
    rfl

theorem filter_lines {s : List Char} (hreturn : '\r' ∉ s) (extension : String) :
    (s.splitOn '\n').filter (ImportsComponent extension ·) = (lines s).filter (ImportsComponent extension ·) ∧
      trim (['\n'].intercalate ((s.splitOn '\n').filter (¬ ImportsComponent extension ·))) =
        trim (['\n'].intercalate ((lines s).filter (¬ ImportsComponent extension ·))) := by
  rcases lines_of_not_mem hreturn with he | he
  · rw [he]
    exact ⟨rfl, rfl⟩
  · rw [he, List.filter_append, List.filter_append]
    simp [not_importsComponent_nil, trim_intercalate_concat_nil]

theorem lines_intercalate_kept {kept : List (List Char)}
    (h : ∀ line ∈ kept, '\n' ∉ line ∧ ¬ ImportsComponent extension line) :
    ∀ line ∈ (['\n'].intercalate kept).splitOn '\n', ¬ ImportsComponent extension line := by
  intro line hline
  by_cases hempty : kept = []
  · rw [hempty] at hline
    obtain rfl : line = [] := by simpa using hline
    exact not_importsComponent_nil extension
  · rw [List.splitOn_intercalate '\n' (fun l hl => (h l hl).1) hempty] at hline
    exact (h line hline).2

/-- Trimming makes no line one that imports. -/
theorem IsTrimOf.lines_kept {text whole : List Char} (htrim : IsTrimOf text whole)
    (h : ∀ line ∈ whole.splitOn '\n', ¬ ImportsComponent extension line) :
    ∀ line ∈ text.splitOn '\n', ¬ ImportsComponent extension line := by
  rintro line hline ⟨i, hi⟩
  obtain ⟨lead, behind, hlead, hbehind, rfl⟩ := htrim.around
  obtain ⟨a, b, ha, hb, hpadded⟩ := exists_padded_line hlead hbehind hline
  exact h _ hpadded ⟨i, (importsAs_padded_iff ha hb).mpr hi⟩

variable {script : String} (hreturn : '\r' ∉ script.toList)
include hreturn

/-- A text in which no line imports a component is trimmed, and that is all. -/
theorem scan_of_kept (h : ∀ line ∈ script.toList.splitOn '\n', ¬ ImportsComponent extension line) (path : Path) :
    scan extension script path = .ok ⟨trimmed script, []⟩ := by
  have hlines : ∀ line ∈ lines script.toList, ¬ ImportsComponent extension line := by
    intro line hline
    refine h line ?_
    rcases lines_of_not_mem hreturn with he | he
    · exact he ▸ hline
    · exact he ▸ List.mem_append_left _ hline
  have hjoin : trim (['\n'].intercalate (lines script.toList)) = trim script.toList := by
    have hwhole : ['\n'].intercalate (script.toList.splitOn '\n') = script.toList := List.intercalate_splitOn '\n'
    rcases lines_of_not_mem hreturn with he | he
    · rw [← he, hwhole]
    · rw [← trim_intercalate_concat_nil, ← he, hwhole]
  rw [scan, scanLines_of_kept hlines]
  simp only [hjoin]
  rfl

/-- A scan takes the lines that import a component out, as its imports in order. The others stay
    as they are, with line feeds between them, and are trimmed at the two ends of the text. None
    of what stays imports a component: it is its own scan. -/
theorem scan_cleaned {path : Path} {scanned : ScannedScript} (h : scan extension script path = .ok scanned) :
    List.Forall₂ (ImportsAs extension) ((script.toList.splitOn '\n').filter (ImportsComponent extension ·))
        scanned.imports ∧
      IsTrimOf scanned.cleaned.toList
        (['\n'].intercalate ((script.toList.splitOn '\n').filter (¬ ImportsComponent extension ·))) ∧
      ∀ path', scan extension scanned.cleaned path' = .ok ⟨scanned.cleaned, []⟩ := by
  obtain ⟨kept, imports, hsorted, rfl⟩ : ∃ kept imports,
      scanLines extension (lines script.toList) = .ok (kept, imports) ∧
      scanned = ⟨String.ofList (trim (['\n'].intercalate kept)), imports⟩ := by
    unfold scan at h
    split at h
    · rename_i kept imports hsorted
      exact ⟨kept, imports, hsorted, (Except.ok.inj h).symm⟩
    · cases h
  obtain ⟨himports, rfl⟩ := scanLines_sorts hsorted
  obtain ⟨himporting, hcleaned⟩ := filter_lines hreturn extension
  rw [himporting, ← hcleaned, String.toList_ofList]
  have hkept : ∀ line ∈ (script.toList.splitOn '\n').filter (¬ ImportsComponent extension ·),
      '\n' ∉ line ∧ '\r' ∉ line ∧ ¬ ImportsComponent extension line := by
    intro line hline
    obtain ⟨hmem, hkept⟩ := List.mem_filter.mp hline
    have hpart := infix_of_mem_splitOn hmem
    exact ⟨Path.not_mem_of_mem_splitOn hmem, fun hm => hreturn (hpart.subset hm), by simpa using hkept⟩
  generalize (script.toList.splitOn '\n').filter (¬ ImportsComponent extension ·) = kept at hkept
  have htrim := trim_isTrimOf (['\n'].intercalate kept)
  generalize trim (['\n'].intercalate kept) = cleaned at htrim
  refine ⟨himports, htrim, fun path' => ?_⟩
  have hreturn' : '\r' ∉ cleaned := by
    intro hm
    rcases mem_of_mem_intercalate (htrim.isInfix.subset hm) with h | ⟨line, hline, h⟩
    · simp at h
    · exact (hkept line hline).2.1 h
  have hwhole := lines_intercalate_kept fun line hline => ⟨(hkept line hline).1, (hkept line hline).2.2⟩
  have hlines := htrim.lines_kept hwhole
  have hagain : scan extension (String.ofList cleaned) path' = .ok ⟨trimmed (String.ofList cleaned), []⟩ :=
    scan_of_kept (by rwa [String.toList_ofList]) (by rwa [String.toList_ofList]) path'
  rwa [trimmed, String.toList_ofList, htrim.trim_eq] at hagain

end

/-- Imports of a component between a blank line, an import of another kind, and an import in a
    comment with white space behind it. -/
theorem scan_cleaned_between :
    let script := "import Card from './card.goo';\t// top\n\n  run(); \nimport confetti from 'c.js' /* c */\n" ++
      "\timport \x7b Nav, Foot as F \x7d from \x22../nav.goo\x22 \nend(); // import X from './x.goo' \u00a0\n"
    let cleaned := "run(); \nimport confetti from 'c.js' /* c */\nend(); // import X from './x.goo'"
    '\r' ∉ script.toList ∧
      scan "goo" script ⟨"a.goo"⟩ = .ok ⟨cleaned, [⟨"./card.goo", ["Card"]⟩, ⟨"../nav.goo", ["Nav", "F"]⟩]⟩ ∧
      ∀ path, scan "goo" cleaned path = .ok ⟨cleaned, []⟩ := by
  intro script cleaned
  have hreturn : '\r' ∉ script.toList := by decide +kernel
  have hscan : scan "goo" script ⟨"a.goo"⟩ =
      .ok ⟨cleaned, [⟨"./card.goo", ["Card"]⟩, ⟨"../nav.goo", ["Nav", "F"]⟩]⟩ := by
    decide +kernel
  exact ⟨hreturn, hscan, (scan_cleaned hreturn hscan).2.2⟩

end ComponentSite.Imports
