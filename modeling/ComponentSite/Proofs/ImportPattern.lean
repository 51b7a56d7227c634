/-
  ComponentSite.Proofs.ImportPattern — the lines that import, as a pattern.

  A line is an import if it can be read as one (`Reading`): the word `import`, a clause, the
  word `from` and a path in quotes, with white space between them, and behind the path a
  semicolon and a comment, each optional. A line may have many readings. The one that counts
  gives `import` all the white space behind it that it can, and then has the shortest clause
  (`Reading.Precedes`, `IsReading`).

  A line with a reading is split (`Reading.splitLine_isSome`), and the way it is split is the
  reading that counts, up to the blank that stands for a clause of white space
  (`isReading_of_splitLine`). No name is in such a clause. So the reading that counts tells what
  the scan makes of a line (`classify_of_importsAs`, `classify_of_not`), and it is the same
  whatever white space is around the line (`importsAs_padded_iff`).
-/
import ComponentSite.Proofs.ImportLine
import Mathlib.Data.List.DropRight

namespace ComponentSite.Imports
open Text

/-! ## The pattern -/

def EndsLine (s : List Char) : Prop :=
  ∃ (blanks more : List Char) (semicolon : Bool) (comment : LineComment),
    s = blanks ++ (if semicolon then [';'] else []) ++ more ++ comment.text ∧
      (blanks ++ more ++ comment.blanks).all isBlank = true

structure Source where
  beforeFrom : List Char
  afterFrom : List Char
  opening : Char
  path : List Char
  closing : Char
  tail : List Char

namespace Source

def text (s : Source) : List Char :=
  s.beforeFrom ++ ("from".toList ++ (s.afterFrom ++ s.opening :: (s.path ++ s.closing :: s.tail)))

structure Sound (s : Source) : Prop where
  beforeFrom : s.beforeFrom.all isBlank = true ∧ s.beforeFrom ≠ []
  afterFrom : s.afterFrom.all isBlank = true ∧ s.afterFrom ≠ []
  opening : isQuote s.opening = true
  path : s.path ≠ [] ∧ ∀ c ∈ s.path, isQuote c = false
  closing : isQuote s.closing = true
  tail : EndsLine s.tail

end Source

structure Reading where
  indent : List Char
  afterImport : List Char
  clause : List Char
  source : Source

namespace Reading

def text (r : Reading) : List Char :=
  r.indent ++ ("import".toList ++ (r.afterImport ++ (r.clause ++ r.source.text)))

structure Sound (r : Reading) : Prop where
  indent : r.indent.all isBlank = true
  afterImport : r.afterImport.all isBlank = true ∧ r.afterImport ≠ []
  clause : r.clause ≠ []
  source : r.source.Sound

/-- The word `import` takes all the white space behind it that it can, and then the clause is
    as short as it can be. -/
def Precedes (r r' : Reading) : Prop :=
  r'.afterImport.length < r.afterImport.length ∨
    r'.afterImport.length = r.afterImport.length ∧ r.clause.length ≤ r'.clause.length

end Reading

/-- The clause and the path of a line, in the reading that precedes the others. -/
def IsReading (line clause path : List Char) : Prop :=
  ∃ r : Reading, r.text = line ∧ r.Sound ∧ r.clause = clause ∧ r.source.path = path ∧
    ∀ r' : Reading, r'.text = line → r'.Sound → r.Precedes r'

/-! ## Behind the clause -/

theorem exists_blanks (s : List Char) : ∃ blanks, blanks.all isBlank = true ∧ s = blanks ++ trimStart s :=
  ⟨s.takeWhile isBlank, List.all_takeWhile, List.takeWhile_append_dropWhile.symm⟩

theorem exists_blanks_behind (s : List Char) : ∃ blanks, blanks.all isBlank = true ∧ s = trimEnd s ++ blanks := by
  refine ⟨(s.reverse.takeWhile isBlank).reverse, ?_, ?_⟩
  · rw [List.all_reverse]
    exact List.all_takeWhile
  · rw [trimEnd, ← List.reverse_append, List.takeWhile_append_dropWhile, List.reverse_reverse]

theorem exists_comment {s : List Char} (h : isClosingComment s = true) :
    ∃ comment : LineComment, s = comment.text ∧ comment.blanks.all isBlank = true := by
  unfold isClosingComment at h
  split at h
  next text => exact ⟨.line text, rfl, rfl⟩
  next body =>
    obtain ⟨text, htext⟩ := List.isSuffixOf_iff_suffix.mp h
    obtain ⟨blanks, hblanks, hbody⟩ := exists_blanks_behind body
    refine ⟨.block text blanks, ?_, hblanks⟩
    rw [hbody, ← htext]
    rfl
  next => cases h

theorem endsLine_iff {s : List Char} : endsLine s = true ↔ EndsLine s := by
  constructor
  · intro h
    -- white space and a comment, or nothing
    have hcomment : ∀ {t : List Char}, ((trimStart t).isEmpty || isClosingComment (trimStart t)) = true →
        ∃ (more : List Char) (comment : LineComment), t = more ++ comment.text ∧
          more.all isBlank = true ∧ comment.blanks.all isBlank = true := by
      intro t ht
      obtain ⟨more, hmore, hcut⟩ := exists_blanks t
      rcases (Bool.or_eq_true _ _).mp ht with hnil | hclosing
      · refine ⟨more, .none, ?_, hmore, rfl⟩
        rw [hcut, List.isEmpty_iff.mp hnil]
        rfl
      · obtain ⟨comment, htext, hblanks⟩ := exists_comment hclosing
        exact ⟨more, comment, htext ▸ hcut, hmore, hblanks⟩
    unfold endsLine at h
    simp only at h
    split at h
    next r hr =>
      obtain ⟨blanks, hblanks, hcut⟩ := exists_blanks s
      obtain ⟨more, comment, htext, hmore, hbehind⟩ := hcomment h
      refine ⟨blanks, more, true, comment, ?_, ?_⟩
      · rw [hcut, hr, htext]
        simp
      · simp [hblanks, hmore, hbehind, List.all_append]
    next =>
      obtain ⟨more, comment, htext, hmore, hbehind⟩ := hcomment h
      refine ⟨more, [], false, comment, ?_, ?_⟩
      · simpa using htext
      · simp [hmore, hbehind, List.all_append]
  · rintro ⟨blanks, more, semicolon, comment, rfl, hblanks⟩
    simp only [List.all_append, Bool.and_eq_true] at hblanks
    exact endsLine_text semicolon hblanks.1.1 hblanks.1.2 hblanks.2

theorem afterBlank?_eq_some_iff {s t : List Char} :
    afterBlank? s = some t ↔ s.takeWhile isBlank ≠ [] ∧ trimStart s = t := by
  cases s with
  | nil => simp [afterBlank?]
  | cons c r =>
    cases hc : isBlank c with
    | true => simp [afterBlank?, hc, trimStart_cons_of_isBlank hc]
    | false => simp [afterBlank?, hc]

theorem exists_afterBlank {s t : List Char} (h : afterBlank? s = some t) :
    ∃ blanks, blanks.all isBlank = true ∧ blanks ≠ [] ∧ s = blanks ++ t := by
  obtain ⟨hne, rfl⟩ := afterBlank?_eq_some_iff.mp h
  exact ⟨s.takeWhile isBlank, List.all_takeWhile, hne, List.takeWhile_append_dropWhile.symm⟩

theorem quotedPath?_eq_some_iff {s path : List Char} :
    quotedPath? s = some path ↔ ∃ q q' tail, s = q :: (path ++ q' :: tail) ∧ isQuote q = true ∧ isQuote q' = true ∧
      (path ≠ [] ∧ ∀ c ∈ path, isQuote c = false) ∧ EndsLine tail := by
  constructor
  · intro h
    cases s with
    | nil => cases h
    | cons q r =>
      rw [quotedPath?] at h
      split at h
      next hq =>
        simp only at h
        split at h
        next q' tail hdrop =>
          split at h
          next hcond =>
            obtain ⟨hne, hends⟩ := (Bool.and_eq_true _ _).mp hcond
            obtain rfl := Option.some.inj h
            have hq' : isQuote q' = true := by
              have hhead := List.head?_dropWhile_not (fun c => !isQuote c) r
              simpa [hdrop] using hhead
            refine ⟨q, q', tail, ?_, hq, hq', ⟨by simpa using hne, fun c hc => ?_⟩, endsLine_iff.mp hends⟩
            · rw [← hdrop, List.takeWhile_append_dropWhile]
            · simpa using List.mem_takeWhile_imp hc
          next => cases h
        next => cases h
      next => cases h
  · rintro ⟨q, q', tail, rfl, hq, hq', ⟨hne, hfree⟩, htail⟩
    have hpath : ∀ c ∈ path, (!isQuote c) = true := fun c hc => by rw [hfree c hc]; rfl
    obtain ⟨htake, hdrop⟩ := takeWhile_append_of_head hpath (t := q' :: tail) (by simp [hq'])
    have hnonempty : path.isEmpty = false := List.isEmpty_eq_false_iff.mpr hne
    simp only [quotedPath?, hq, if_true, htake, hdrop, hnonempty, endsLine_iff.mpr htail]
    rfl

/-- White space, the word and a path are behind a clause exactly if a source is. -/
theorem source_iff {rest path : List Char} :
    (afterBlank? rest).bind fromPath? = some path ↔ ∃ s : Source, s.text = rest ∧ s.Sound ∧ s.path = path := by
  constructor
  · intro h
    obtain ⟨t, ht, h⟩ := Option.bind_eq_some_iff.mp h
    obtain ⟨s₁, h₁, h⟩ := Option.bind_eq_some_iff.mp h
    obtain ⟨s₂, h₂, h⟩ := Option.bind_eq_some_iff.mp h
    obtain ⟨before, hbefore, hbeforeNe, hrest⟩ := exists_afterBlank ht
    obtain ⟨after, hafter, hafterNe, hs₁⟩ := exists_afterBlank h₂
    obtain ⟨q, q', tail, hs₂, hq, hq', hpath, htail⟩ := quotedPath?_eq_some_iff.mp h
    refine ⟨⟨before, after, q, path, q', tail⟩, ?_, ?_, rfl⟩
    · rw [Source.text, ← hs₂, ← hs₁, hrest, rest?_eq_some h₁]
    · exact ⟨⟨hbefore, hbeforeNe⟩, ⟨hafter, hafterNe⟩, hq, hpath, hq', htail⟩
  · rintro ⟨s, rfl, hs, rfl⟩
    obtain ⟨⟨hbefore, hbeforeNe⟩, ⟨hafter, hafterNe⟩, hq, hpath, hq', htail⟩ := hs
    have hword : ∀ t, trimStart ("from".toList ++ t) = "from".toList ++ t := fun t => trimStart_of_head (by rfl)
    have hquote : ∀ t, trimStart (s.opening :: t) = s.opening :: t :=
      trimStart_cons_of_not_isBlank (isBlank_of_isQuote hq)
    rw [Source.text, afterBlank?_blanks hbefore hbeforeNe, hword, Option.bind_some, fromPath?, rest?_append,
      Option.bind_eq_bind, Option.bind_some, afterBlank?_blanks hafter hafterNe, hquote]
    exact quotedPath?_eq_some_iff.mpr ⟨_, _, _, rfl, hq, hq', hpath, htail⟩

/-! ## The shortest clause -/

def Cut (body clause : List Char) (source : Source) : Prop :=
  body = clause ++ source.text ∧ clause ≠ [] ∧ source.Sound

theorem cut_cons_iff {c : Char} {body clause : List Char} {source : Source} :
    Cut (c :: body) clause source ↔
      (clause = [c] ∧ source.text = body ∧ source.Sound) ∨ ∃ more, clause = c :: more ∧ Cut body more source := by
  constructor
  · rintro ⟨htext, hne, hsource⟩
    obtain ⟨d, more, rfl⟩ := List.exists_cons_of_ne_nil hne
    obtain ⟨rfl, hrest⟩ := List.cons.inj htext
    by_cases hmore : more = []
    · subst hmore
      exact Or.inl ⟨rfl, hrest.symm, hsource⟩
    · exact Or.inr ⟨more, rfl, hrest, hmore, hsource⟩
  · rintro (⟨rfl, rfl, hsource⟩ | ⟨more, rfl, rfl, -, hsource⟩)
    · exact ⟨rfl, List.cons_ne_nil _ _, hsource⟩
    · exact ⟨rfl, List.cons_ne_nil _ _, hsource⟩

theorem not_cut_of_splitClause {body : List Char} (h : splitClause body = none) (clause : List Char) (source : Source) :
    ¬ Cut body clause source := by
  induction body generalizing clause with
  | nil => exact fun hcut => hcut.2.1 (List.append_eq_nil_iff.mp hcut.1.symm).1
  | cons c body ih =>
    rw [splitClause] at h
    split at h
    · cases h
    next hnone =>
      intro hcut
      rcases cut_cons_iff.mp hcut with ⟨-, htext, hsource⟩ | ⟨more, -, hcut⟩
      · rw [source_iff.mpr ⟨source, htext, hsource, rfl⟩] at hnone
        cases hnone
      · exact ih (Option.map_eq_none_iff.mp h) more hcut

theorem splitClause_shortest {body clause path : List Char} (h : splitClause body = some (clause, path)) :
    (∃ source, Cut body clause source ∧ source.path = path) ∧
      ∀ clause' source', Cut body clause' source' → clause.length ≤ clause'.length := by
  induction body generalizing clause with
  | nil => cases h
  | cons c body ih =>
    rw [splitClause] at h
    split at h
    next found hfound =>
      obtain ⟨rfl, rfl⟩ := Prod.mk.inj (Option.some.inj h)
      obtain ⟨source, htext, hsource, hpath⟩ := source_iff.mp hfound
      refine ⟨⟨source, cut_cons_iff.mpr (Or.inl ⟨rfl, htext, hsource⟩), hpath⟩, fun clause' source' hcut => ?_⟩
      exact List.length_pos_iff.mpr hcut.2.1
    next hnone =>
      obtain ⟨⟨more, found⟩, hfound, hpair⟩ := Option.map_eq_some_iff.mp h
      obtain ⟨rfl, rfl⟩ := Prod.mk.inj hpair
      obtain ⟨⟨source, hcut, hpath⟩, hshortest⟩ := ih hfound
      refine ⟨⟨source, cut_cons_iff.mpr (Or.inr ⟨more, rfl, hcut⟩), hpath⟩, fun clause' source' hcut' => ?_⟩
      rcases cut_cons_iff.mp hcut' with ⟨-, htext, hsource⟩ | ⟨more', rfl, hmore⟩
      · rw [source_iff.mpr ⟨source', htext, hsource, rfl⟩] at hnone
        cases hnone
      · exact Nat.succ_le_succ (hshortest more' source' hmore)

/-! ## The reading that counts -/

/-- What stands behind `import` in a reading of the line. -/
theorem Reading.splitLine_start {r : Reading} (h : r.Sound) :
    rest? "import".toList (trimStart r.text) = some (r.afterImport ++ (r.clause ++ r.source.text)) := by
  have hword : ∀ t, trimStart ("import".toList ++ t) = "import".toList ++ t := fun t => trimStart_of_head (by rfl)
  rw [Reading.text, trimStart_blanks h.indent, hword, rest?_append]

/-- A clause of white space leaves it to `import` all but itself and what stands in front of
    `from`. Any other clause could begin behind the white space. -/
theorem Reading.clause_cases {r : Reading} (h : r.Sound) {s : List Char}
    (hs : r.afterImport ++ (r.clause ++ r.source.text) = s) :
    (∃ lead clause, r.clause = lead ++ clause ∧ s.takeWhile isBlank = r.afterImport ++ lead ∧
        Cut (trimStart s) clause r.source) ∨
      r.clause.all isBlank = true ∧ r.afterImport.length + 2 ≤ (s.takeWhile isBlank).length ∧
        fromPath? (trimStart s) = some r.source.path := by
  obtain ⟨hafter, -⟩ := h.afterImport
  have htake : s.takeWhile isBlank = r.afterImport ++ (r.clause ++ r.source.text).takeWhile isBlank := by
    rw [← hs]
    exact List.takeWhile_append_of_pos (List.all_eq_true.mp hafter)
  have hbody : trimStart s = trimStart (r.clause ++ r.source.text) := by rw [← hs, trimStart_blanks hafter]
  by_cases hblank : r.clause.all isBlank = true
  · refine Or.inr ⟨hblank, ?_, ?_⟩
    · have hbefore : r.source.text.takeWhile isBlank ≠ [] := by
        obtain ⟨c, more, hc⟩ := List.exists_cons_of_ne_nil h.source.beforeFrom.2
        have hcBlank : isBlank c = true := List.all_eq_true.mp h.source.beforeFrom.1 c (hc ▸ List.mem_cons_self)
        rw [Source.text, hc, List.cons_append, List.takeWhile_cons_of_pos hcBlank]
        exact List.cons_ne_nil _ _
      rw [htake, List.takeWhile_append_of_pos (List.all_eq_true.mp hblank)]
      have hone := List.length_pos_iff.mpr h.clause
      have htwo := List.length_pos_iff.mpr hbefore
      simp only [List.length_append]
      omega
    · obtain ⟨t, ht, hpath⟩ := Option.bind_eq_some_iff.mp (source_iff.mpr ⟨r.source, rfl, h.source, rfl⟩)
      obtain ⟨-, rfl⟩ := afterBlank?_eq_some_iff.mp ht
      rw [hbody, trimStart_blanks hblank]
      exact hpath
  · obtain ⟨lead, hlead, hclause⟩ := exists_blanks r.clause
    cases hc : trimStart r.clause with
    | nil =>
      rw [hc, List.append_nil] at hclause
      exact absurd (hclause ▸ hlead) hblank
    | cons c clause =>
      have hcBlank : isBlank c = false := trimStart_head hc
      rw [hc] at hclause
      refine Or.inl ⟨lead, c :: clause, hclause, ?_, ?_, List.cons_ne_nil _ _, h.source⟩
      · rw [htake, hclause, List.append_assoc, List.takeWhile_append_of_pos (List.all_eq_true.mp hlead)]
        simp [hcBlank]
      · rw [hbody, hclause, List.append_assoc, trimStart_blanks hlead]
        exact trimStart_cons_of_not_isBlank hcBlank _

theorem exists_concat_concat {l : List Char} (h : 3 ≤ l.length) : ∃ front c d, l = front ++ [c, d] ∧ front ≠ [] := by
  obtain ⟨most, d, rfl⟩ := (List.eq_nil_or_concat l).resolve_left (by rintro rfl; simp at h)
  obtain ⟨front, c, rfl⟩ := (List.eq_nil_or_concat most).resolve_left (by rintro rfl; simp at h)
  refine ⟨front, c, d, by simp, ?_⟩
  rintro rfl
  simp at h

/-- What `splitLine` goes by: the text behind `import`. -/
theorem splitLine_eq {line s : List Char} (hs : rest? "import".toList (trimStart line) = some s)
    (hblank : s.takeWhile isBlank ≠ []) :
    splitLine line =
      match splitClause (trimStart s), s.takeWhile isBlank with
      | some found, _ => some found
      | none, _ :: clause :: _ :: _ => (fromPath? (trimStart s)).map fun path => ([clause], path)
      | none, _ => none := by
  unfold splitLine
  rw [hs, Option.bind_eq_bind, Option.bind_some, afterBlank?_eq_some_iff.mpr ⟨hblank, rfl⟩]
  rfl

theorem Reading.splitLine_isSome {r : Reading} (h : r.Sound) : (splitLine r.text).isSome = true := by
  have hs := r.splitLine_start h
  generalize hrest : r.afterImport ++ (r.clause ++ r.source.text) = s at hs
  have hcases := Reading.clause_cases h hrest
  have hblank : s.takeWhile isBlank ≠ [] := by
    obtain ⟨hafter, hne⟩ := h.afterImport
    rw [← hrest, List.takeWhile_append_of_pos (List.all_eq_true.mp hafter)]
    exact fun hnil => hne (List.append_eq_nil_iff.mp hnil).1
  rw [splitLine_eq hs hblank]
  cases hsplit : splitClause (trimStart s) with
  | some found => rfl
  | none =>
    rcases hcases with ⟨lead, clause, -, -, hcut⟩ | ⟨-, hlength, hpath⟩
    · exact absurd hcut (not_cut_of_splitClause hsplit clause r.source)
    · have hone := List.length_pos_iff.mpr h.afterImport.2
      match hblanks : s.takeWhile isBlank with
      | [] => exact absurd hblanks hblank
      | [_] | [_, _] =>
        rw [hblanks] at hlength
        simp only [List.length_cons, List.length_nil] at hlength
        omega
      | _ :: _ :: _ :: _ =>
        simp only [hpath]
        rfl

section
variable {line s : List Char} (hs : rest? "import".toList (trimStart line) = some s)
include hs

theorem exists_indent : ∃ indent, indent.all isBlank = true ∧
    line = indent ++ ("import".toList ++ (s.takeWhile isBlank ++ trimStart s)) := by
  obtain ⟨indent, hindent, hline⟩ := exists_blanks line
  have hcut : s.takeWhile isBlank ++ trimStart s = s := List.takeWhile_append_dropWhile
  rw [rest?_eq_some hs] at hline
  exact ⟨indent, hindent, by rw [hcut, ← hline]⟩

theorem Reading.start_eq {r : Reading} (htext : r.text = line) (h : r.Sound) :
    r.afterImport ++ (r.clause ++ r.source.text) = s := by
  subst htext
  exact Option.some.inj ((r.splitLine_start h).symm.trans hs)

/-- A clause that is found is the one of the reading that counts. -/
theorem isReading_of_splitClause {clause path : List Char} (hblank : s.takeWhile isBlank ≠ [])
    (hsplit : splitClause (trimStart s) = some (clause, path)) : IsReading line clause path := by
  obtain ⟨indent, hindent, hline⟩ := exists_indent hs
  obtain ⟨⟨source, ⟨htext, hne, hsource⟩, hpath⟩, hshortest⟩ := splitClause_shortest hsplit
  refine ⟨⟨indent, s.takeWhile isBlank, clause, source⟩, ?_,
    ⟨hindent, ⟨List.all_takeWhile, hblank⟩, hne, hsource⟩, rfl, hpath, fun r' hr' hsound => ?_⟩
  · rw [Reading.text, ← htext, ← hline]
  · unfold Reading.Precedes
    rcases Reading.clause_cases hsound (Reading.start_eq hs hr' hsound) with
      ⟨lead, clause', hclause', hlead, hcut'⟩ | ⟨-, hlength, -⟩
    · have hle := hshortest clause' r'.source hcut'
      simp only [hclause', hlead, List.length_append]
      omega
    · exact Or.inl (by simp only; omega)

/-- Without one the clause is a blank: the last but one, as the last is in front of `from`. -/
theorem isReading_of_blanks {front path : List Char} {c d : Char} (hblanks : s.takeWhile isBlank = front ++ [c, d])
    (hfront : front ≠ []) (hsplit : splitClause (trimStart s) = none) (hfound : fromPath? (trimStart s) = some path) :
    IsReading line [c] path := by
  obtain ⟨indent, hindent, hline⟩ := exists_indent hs
  have hall : (s.takeWhile isBlank).all isBlank = true := List.all_takeWhile
  rw [hblanks] at hall hline
  simp only [List.all_append, List.all_cons, List.all_nil, Bool.and_eq_true] at hall
  obtain ⟨hallFront, hc, hd, -⟩ := hall
  have hbehind : (afterBlank? (d :: trimStart s)).bind fromPath? = some path := by
    have htrim : trimStart (trimStart s) = trimStart s := List.dropWhile_idempotent _ _
    rw [afterBlank?, if_pos hd, htrim]
    exact hfound
  obtain ⟨source, htext, hsource, hpath⟩ := source_iff.mp hbehind
  refine ⟨⟨indent, front, [c], source⟩, ?_,
    ⟨hindent, ⟨hallFront, hfront⟩, List.cons_ne_nil _ _, hsource⟩, rfl, hpath, fun r' hr' hsound => ?_⟩
  · rw [Reading.text, htext, hline]
    simp
  · unfold Reading.Precedes
    rcases Reading.clause_cases hsound (Reading.start_eq hs hr' hsound) with
      ⟨_, clause', -, -, hcut'⟩ | ⟨-, hlength, -⟩
    · exact absurd hcut' (not_cut_of_splitClause hsplit clause' r'.source)
    · rw [hblanks] at hlength
      have hone := List.length_pos_iff.mpr hsound.clause
      simp only [List.length_append, List.length_cons, List.length_nil] at hlength ⊢
      omega

end

/-- The reading that counts is found, with another blank for the clause if that is blank. -/
theorem isReading_of_splitLine {line clause path : List Char} (h : splitLine line = some (clause, path)) :
    ∃ clause', IsReading line clause' path ∧
      (clause' = clause ∨ clause'.all isBlank = true ∧ clause.all isBlank = true) := by
  obtain ⟨s, hs, hrest⟩ := Option.bind_eq_some_iff.mp h
  obtain ⟨body, hbody, -⟩ := Option.bind_eq_some_iff.mp hrest
  obtain ⟨hblank, -⟩ := afterBlank?_eq_some_iff.mp hbody
  rw [splitLine_eq hs hblank] at h
  split at h
  next found hsplit =>
    obtain rfl := Option.some.inj h
    exact ⟨clause, isReading_of_splitClause hs hblank hsplit, Or.inl rfl⟩
  next first second third more hsplit hblanks =>
    obtain ⟨found, hfound, hpair⟩ := Option.map_eq_some_iff.mp h
    obtain ⟨rfl, rfl⟩ := Prod.mk.inj hpair
    obtain ⟨front, c, d, hcut, hfront⟩ :=
      exists_concat_concat (show 3 ≤ (first :: second :: third :: more).length by simp)
    have hall : ∀ b ∈ s.takeWhile isBlank, isBlank b = true := List.all_eq_true.mp List.all_takeWhile
    have hsecond : isBlank second = true := hall second (by simp [hblanks])
    have hc : isBlank c = true := hall c (by simp [hblanks, hcut])
    exact ⟨[c], isReading_of_blanks hs (hblanks.trans hcut) hfront hsplit hfound,
      Or.inr ⟨by simp [hc], by simp [hsecond]⟩⟩
  next => cases h

theorem IsReading.unique {line clause path clause' path' : List Char} (h : IsReading line clause path)
    (h' : IsReading line clause' path') : clause = clause' ∧ path = path' := by
  obtain ⟨r, htext, hr, rfl, rfl, hfirst⟩ := h
  obtain ⟨r', htext', hr', rfl, rfl, hfirst'⟩ := h'
  have hprecedes := hfirst r' htext' hr'
  have hprecedes' := hfirst' r htext hr
  unfold Reading.Precedes at hprecedes hprecedes'
  have hstart : r.afterImport ++ (r.clause ++ r.source.text) = r'.afterImport ++ (r'.clause ++ r'.source.text) := by
    refine Option.some.inj ((r.splitLine_start hr).symm.trans ?_)
    rw [htext, ← htext']
    exact r'.splitLine_start hr'
  obtain ⟨-, hbehind⟩ := List.append_inj hstart (by omega)
  obtain ⟨hclause, hsource⟩ := List.append_inj hbehind (by omega)
  have hpath := source_iff.mpr ⟨r.source, hsource, hr.source, rfl⟩
  have hpath' := source_iff.mpr ⟨r'.source, rfl, hr'.source, rfl⟩
  exact ⟨hclause, Option.some.inj (hpath.symm.trans hpath')⟩

theorem boundNames_of_isBlank {clause : List Char} (h : clause.all isBlank = true) : boundNames clause = [] := by
  have hdivides : clause.all divides = true := by
    refine List.all_eq_true.mpr fun c hc => ?_
    rw [divides, List.all_eq_true.mp h c hc]
    rfl
  have hitems : items clause = [] := by
    rw [← List.append_nil clause, items_divided hdivides, items_nil]
  rw [boundNames_eq, hitems]
  rfl

/-! ## What a line imports -/

/-- The line imports this: its path has the extension of components. The names may be none. -/
def ImportsAs (extension : String) (line : List Char) (i : ImportReference) : Prop :=
  ∃ clause path, IsReading line clause path ∧ (Path.mk (String.ofList path)).extension? = some extension ∧
    i = ⟨String.ofList path, boundNames clause⟩

theorem classify_of_importsAs {extension : String} {line : List Char} {i : ImportReference}
    (h : ImportsAs extension line i) :
    classify extension line = if i.names = [] then .unnamed i.raw else .component i := by
  obtain ⟨clause, path, hreading, hextension, rfl⟩ := h
  obtain ⟨⟨clause', path'⟩, hsplit⟩ : ∃ found, splitLine line = some found := by
    obtain ⟨r, rfl, hr, -⟩ := hreading
    exact Option.isSome_iff_exists.mp (Reading.splitLine_isSome hr)
  obtain ⟨found, hfound, hclause⟩ := isReading_of_splitLine hsplit
  obtain ⟨rfl, rfl⟩ := hreading.unique hfound
  have hnames : boundNames clause' = boundNames clause := by
    rcases hclause with rfl | ⟨hblank, hblank'⟩
    · rfl
    · rw [boundNames_of_isBlank hblank, boundNames_of_isBlank hblank']
  unfold classify
  rw [hsplit]
  simp only [hextension, beq_self_eq_true, if_true, hnames]
  split
  next hnil => rw [if_pos hnil]
  next hnil => rw [if_neg hnil]

theorem classify_of_not {extension : String} {line : List Char} (h : ∀ i, ¬ ImportsAs extension line i) :
    classify extension line = .kept := by
  unfold classify
  cases hsplit : splitLine line with
  | none => rfl
  | some found =>
    obtain ⟨clause, path⟩ := found
    obtain ⟨clause', hreading, -⟩ := isReading_of_splitLine hsplit
    have hextension : ((Path.mk (String.ofList path)).extension? == some extension) = false := by
      refine beq_eq_false_iff_ne.mpr fun he => ?_
      exact h _ ⟨clause', path, hreading, he, rfl⟩
    simp only [hextension]
    rfl

/-! ## White space around a line -/

theorem isClosingComment_of_ne {c : Char} (h : c ≠ '/') (s : List Char) : isClosingComment (c :: s) = false := by
  unfold isClosingComment
  split <;> simp_all

theorem isClosingComment_slash_of_ne {c : Char} (h : c ≠ '/') (h' : c ≠ '*') (s : List Char) :
    isClosingComment ('/' :: c :: s) = false := by
  unfold isClosingComment
  split <;> simp_all

theorem endsLine_of_ne {s r : List Char} {c : Char} (hs : trimStart s = c :: r) (hc : c ≠ ';') :
    endsLine s = isClosingComment (c :: r) := by
  unfold endsLine
  rw [hs]
  simp only
  split
  · rename_i he
    exact absurd (List.cons.inj he).1 hc
  · rfl

section
variable {blanks : List Char} (h : blanks.all isBlank = true)
include h

theorem isClosingComment_blanks (s : List Char) : isClosingComment (s ++ blanks) = isClosingComment s := by
  have hslash : '/' ∉ blanks := not_mem_of_isBlank rfl h
  have hstar : '*' ∉ blanks := not_mem_of_isBlank rfl h
  cases s with
  | nil =>
    cases blanks with
    | nil => rfl
    | cons c blanks => exact isClosingComment_of_ne (List.ne_of_not_mem_cons hslash).symm _
  | cons a s =>
    by_cases ha : a = '/'
    · subst ha
      cases s with
      | nil =>
        cases blanks with
        | nil => rfl
        | cons c blanks =>
          exact isClosingComment_slash_of_ne (List.ne_of_not_mem_cons hslash).symm
            (List.ne_of_not_mem_cons hstar).symm _
      | cons c body =>
        by_cases hc : c = '/'
        · subst hc
          rfl
        · by_cases hc' : c = '*'
          · subst hc'
            show "*/".toList.isSuffixOf (trimEnd (body ++ blanks)) = _
            rw [trimEnd_blanks h]
            rfl
          · rw [List.cons_append, List.cons_append, isClosingComment_slash_of_ne hc hc',
              isClosingComment_slash_of_ne hc hc']
    · rw [List.cons_append, isClosingComment_of_ne ha, isClosingComment_of_ne ha]

theorem trimStart_append_blanks (s : List Char) :
    trimStart (s ++ blanks) = [] ∧ trimStart s = [] ∨
      trimStart (s ++ blanks) = trimStart s ++ blanks ∧ trimStart s ≠ [] := by
  have happend : trimStart (s ++ blanks) = if (trimStart s).isEmpty then trimStart blanks else trimStart s ++ blanks :=
    List.dropWhile_append
  by_cases hs : trimStart s = []
  · rw [if_pos (List.isEmpty_iff.mpr hs)] at happend
    exact Or.inl ⟨happend.trans (List.dropWhile_eq_nil_iff.mpr (List.all_eq_true.mp h)), hs⟩
  · rw [if_neg fun he => hs (List.isEmpty_iff.mp he)] at happend
    exact Or.inr ⟨happend, hs⟩

theorem endsLine_blanks (s : List Char) : endsLine (s ++ blanks) = endsLine s := by
  rcases trimStart_append_blanks h s with ⟨hnil, hs⟩ | ⟨hcut, hs⟩
  · unfold endsLine
    rw [hnil, hs]
  · obtain ⟨c, r, hr⟩ := List.exists_cons_of_ne_nil hs
    rw [hr, List.cons_append] at hcut
    by_cases hc : c = ';'
    · subst hc
      unfold endsLine
      rw [hcut, hr]
      -- white space may follow the semicolon
      rcases trimStart_append_blanks h r with ⟨hnil, ht⟩ | ⟨htail, ht⟩
      · simp only [hnil, ht]
      · have hne : trimStart r ++ blanks ≠ [] := by simp [ht]
        simp only [htail, isClosingComment_blanks h, List.isEmpty_eq_false_iff.mpr ht,
          List.isEmpty_eq_false_iff.mpr hne]
    · rw [endsLine_of_ne hcut hc, endsLine_of_ne hr hc, ← List.cons_append, isClosingComment_blanks h]

/-- White space behind a text goes to what is behind its last other character. -/
theorem exists_tail {s front tail : List Char} {c : Char} (hc : isBlank c = false)
    (hs : front ++ c :: tail = s ++ blanks) :
    ∃ more, tail = more ++ blanks ∧ s = front ++ c :: more := by
  have hmem : c ∉ blanks := not_mem_of_isBlank hc h
  rcases List.append_eq_append_iff.mp hs with ⟨more, rfl, htail⟩ | ⟨more, rfl, hblanks⟩
  · cases more with
    | nil =>
      rw [List.nil_append] at htail
      exact absurd (htail ▸ List.mem_cons_self) hmem
    | cons d more =>
      obtain ⟨rfl, rfl⟩ := List.cons.inj htail
      exact ⟨more, rfl, rfl⟩
  · exact absurd (hblanks ▸ List.mem_append_right more List.mem_cons_self) hmem

theorem exists_front {s front tail : List Char} {c : Char} (hc : isBlank c = false)
    (hs : front ++ c :: tail = blanks ++ s) :
    ∃ more, front = blanks ++ more ∧ s = more ++ c :: tail := by
  have hmem : c ∉ blanks := not_mem_of_isBlank hc h
  rcases List.append_eq_append_iff.mp hs with ⟨more, rfl, htail⟩ | ⟨more, rfl, hcut⟩
  · cases more with
    | nil => exact ⟨[], by simp, htail.symm⟩
    | cons d more =>
      obtain ⟨rfl, -⟩ := List.cons.inj htail
      exact absurd (List.mem_append_right front List.mem_cons_self) hmem
  · exact ⟨more, rfl, hcut⟩

end

namespace Reading

/-- Readings that differ in nothing that counts. -/
def Alike (r r' : Reading) : Prop :=
  r.afterImport = r'.afterImport ∧ r.clause = r'.clause ∧ r.source.path = r'.source.path

theorem Alike.symm {r r' : Reading} (h : r.Alike r') : r'.Alike r := ⟨h.1.symm, h.2.1.symm, h.2.2.symm⟩

theorem Precedes.congr {r s r' s' : Reading} (h : r.Precedes r') (hr : r.Alike s) (hr' : r'.Alike s') :
    s.Precedes s' := by
  unfold Precedes at h ⊢
  rwa [← hr.1, ← hr.2.1, ← hr'.1, ← hr'.2.1]

variable {r : Reading} {lead line blanks : List Char} (hlead : lead.all isBlank = true)
  (hblanks : blanks.all isBlank = true)
  (hr : r.Sound)
include hlead hblanks hr

theorem exists_trimmed (htext : r.text = lead ++ (line ++ blanks)) :
    ∃ r' : Reading, r'.text = line ∧ r'.Sound ∧ r'.Alike r := by
  obtain ⟨hindent, hafter, hclause, hsource⟩ := hr
  obtain ⟨hbefore, hfrom, hopening, hpath, hclosing, htail⟩ := hsource
  have hword : r.indent ++ 'i' :: ("mport".toList ++ (r.afterImport ++ (r.clause ++ r.source.text))) =
      lead ++ (line ++ blanks) := htext
  obtain ⟨indent, hindent', hrest⟩ := exists_front hlead rfl hword
  have hquote : indent ++ ("import".toList ++ (r.afterImport ++ (r.clause ++ (r.source.beforeFrom ++ ("from".toList ++
      (r.source.afterFrom ++ r.source.opening :: r.source.path)))))) ++ r.source.closing :: r.source.tail =
      line ++ blanks := by
    rw [hrest]
    simp [Source.text]
  obtain ⟨tail, htail', hline⟩ := exists_tail hblanks (isBlank_of_isQuote hclosing) hquote
  refine ⟨{ r with indent, source := { r.source with tail } }, ?_,
    ⟨?_, hafter, hclause, hbefore, hfrom, hopening, hpath, hclosing, ?_⟩, rfl, rfl, rfl⟩
  · rw [hline]
    simp [text, Source.text]
  · rw [hindent', List.all_append, Bool.and_eq_true] at hindent
    exact hindent.2
  · rw [htail'] at htail
    exact endsLine_iff.mp ((endsLine_blanks hblanks tail).symm.trans (endsLine_iff.mpr htail))

theorem exists_padded : ∃ r' : Reading, r'.text = lead ++ (r.text ++ blanks) ∧ r'.Sound ∧ r'.Alike r := by
  obtain ⟨hindent, hafter, hclause, hsource⟩ := hr
  obtain ⟨hbefore, hfrom, hopening, hpath, hclosing, htail⟩ := hsource
  refine ⟨{ r with indent := lead ++ r.indent, source := { r.source with tail := r.source.tail ++ blanks } }, ?_,
    ⟨?_, hafter, hclause, hbefore, hfrom, hopening, hpath, hclosing, ?_⟩, rfl, rfl, rfl⟩
  · simp [text, Source.text]
  · simp [hlead, hindent]
  · exact endsLine_iff.mp ((endsLine_blanks hblanks _).trans (endsLine_iff.mpr htail))

end Reading

section
variable {lead line blanks : List Char} (hlead : lead.all isBlank = true) (hblanks : blanks.all isBlank = true)
include hlead hblanks

/-- White space around a line has no part in how it is read. -/
theorem isReading_padded_iff {clause path : List Char} :
    IsReading (lead ++ (line ++ blanks)) clause path ↔ IsReading line clause path := by
  constructor
  · rintro ⟨r, htext, hr, rfl, rfl, hfirst⟩
    obtain ⟨r', htext', hr', halike⟩ := Reading.exists_trimmed hlead hblanks hr htext
    refine ⟨r', htext', hr', halike.2.1, halike.2.2, ?_⟩
    rintro q rfl hq
    obtain ⟨q', hq', hsound, hqalike⟩ := Reading.exists_padded hlead hblanks hq
    exact (hfirst q' hq' hsound).congr halike.symm hqalike
  · rintro ⟨r, rfl, hr, rfl, rfl, hfirst⟩
    obtain ⟨r', htext', hr', halike⟩ := Reading.exists_padded hlead hblanks hr
    refine ⟨r', htext', hr', halike.2.1, halike.2.2, fun q hq hsound => ?_⟩
    obtain ⟨q', hq', hsound', hqalike⟩ := Reading.exists_trimmed hlead hblanks hsound hq
    exact (hfirst q' hq' hsound').congr halike.symm hqalike

theorem importsAs_padded_iff {extension : String} {i : ImportReference} :
    ImportsAs extension (lead ++ (line ++ blanks)) i ↔ ImportsAs extension line i := by
  unfold ImportsAs
  simp only [isReading_padded_iff hlead hblanks]

end

end ComponentSite.Imports
