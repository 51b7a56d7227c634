/-
  ComponentSite.Proofs.StyleStatements — the statements of a stylesheet, each on its own.

  A prelude holds no brace and no semicolon outside of its comments, which are closed
  (`IsPrelude`); a block that is closed holds braces in pairs (`openBraces`). Reading stops
  exactly behind such a prelude and such a block (`takePrelude_ended`, `takeBlock_closed`,
  and the other way round `takePrelude_eq`, `closed_or_open`). So nothing is carried over
  from one statement to the next: statements are scoped as if each stood alone, and a block
  of rules as if it were a sheet (`scoped_append`).
-/
import ComponentSite.Proofs.ContentText
import ComponentSite.Style.Scope

namespace ComponentSite.Style
open Text

/-! ## Preludes -/

/-- Where the next character stands, `d` being that character. -/
def Zone.next : Zone → (c : Char) → (d : Option Char) → Zone
  | code, c, d => if c == '/' && d == some '*' then comment else code
  | comment, c, d => if c == '*' && d == some '/' then closing else comment
  | closing, _, _ => code

def Zone.behind : Zone → List Char → Zone
  | z, [] => z
  | z, c :: r => (z.next c r.head?).behind r

/-- A brace or a semicolon, outside of comments. -/
def endsPrelude (c : Char) : Bool := c == '\x7b' || c == ';'

/-- No prelude ends in the text. -/
def Unended : Zone → List Char → Prop
  | _, [] => True
  | z, c :: r => (z = .code → endsPrelude c = false) ∧ Unended (z.next c r.head?) r

/-- A prelude with its comments closed. -/
def IsPrelude (p : List Char) : Prop := Unended .code p ∧ Zone.code.behind p = .code

theorem takePrelude_cons {z : Zone} {c : Char} (h : z = .code → endsPrelude c = false) (r : List Char) :
    takePrelude z (c :: r) = (c :: (takePrelude (z.next c r.head?) r).1, (takePrelude (z.next c r.head?) r).2) := by
  cases z with
  | code =>
    have hc : ¬ (c == '\x7b' || c == ';') = true := ne_true_of_eq_false (h rfl)
    rw [takePrelude, if_neg hc]
    rfl
  | comment => rfl
  | closing => rfl

theorem takePrelude_ends {c : Char} (h : endsPrelude c = true) (r : List Char) :
    takePrelude .code (c :: r) = ([], c :: r) := by
  have hc : (c == '\x7b' || c == ';') = true := h
  rw [takePrelude, if_pos hc]

theorem Zone.next_ends (z : Zone) (a : Char) {c : Char} (hc : endsPrelude c = true) (p r : List Char) :
    z.next a (p ++ c :: r).head? = z.next a p.head? := by
  cases p with
  | cons b p => rfl
  | nil =>
    have hne : c ≠ '*' ∧ c ≠ '/' := by
      constructor <;> rintro rfl <;> exact absurd hc (by decide)
    cases z <;> simp [next, hne.1, hne.2]

theorem takePrelude_ended {z : Zone} {p : List Char} (hp : Unended z p) (hz : z.behind p = .code) {c : Char}
    (hc : endsPrelude c = true) (r : List Char) : takePrelude z (p ++ c :: r) = (p, c :: r) := by
  induction p generalizing z with
  | nil =>
    obtain rfl : z = .code := hz
    exact takePrelude_ends hc r
  | cons a p ih =>
    rw [List.cons_append, takePrelude_cons hp.1, z.next_ends a hc, ih hp.2 hz]

theorem takePrelude_of_unended {z : Zone} {p : List Char} (hp : Unended z p) : takePrelude z p = (p, []) := by
  induction p generalizing z with
  | nil => cases z <;> rfl
  | cons a p ih => rw [takePrelude_cons hp.1, ih hp.2]

theorem takePrelude_eq {z : Zone} {s p rest : List Char} (h : takePrelude z s = (p, rest)) :
    Unended z p ∧ (rest = [] ∨ ∃ c r, rest = c :: r ∧ endsPrelude c = true ∧ z.behind p = .code) := by
  induction s generalizing z p with
  | nil =>
    have : takePrelude z [] = ([], []) := by cases z <;> rfl
    obtain ⟨rfl, rfl⟩ := Prod.mk.inj (this.symm.trans h)
    exact ⟨trivial, Or.inl rfl⟩
  | cons a s ih =>
    by_cases ha : z = .code ∧ endsPrelude a = true
    · obtain ⟨rfl, ha⟩ := ha
      rw [takePrelude_ends ha] at h
      obtain ⟨rfl, rfl⟩ := Prod.mk.inj h
      exact ⟨trivial, Or.inr ⟨a, s, rfl, ha, rfl⟩⟩
    · have ha : z = .code → endsPrelude a = false := fun hz => by simpa [hz] using ha
      rcases htake : takePrelude (z.next a s.head?) s with ⟨p', rest'⟩
      rw [takePrelude_cons ha, htake] at h
      obtain ⟨rfl, rfl⟩ := Prod.mk.inj h
      obtain ⟨hp, hrest⟩ := ih htake
      have hs : s = p' ++ rest' := by simpa [htake] using (takePrelude_append (z.next a s.head?) s).symm
      -- the character behind `a` is one of the prelude, or ends it
      have hnext : z.next a s.head? = z.next a p'.head? := by
        rcases hrest with rfl | ⟨c, r, rfl, hc, -⟩
        · rw [hs, List.append_nil]
        · rw [hs, z.next_ends a hc]
      rw [hnext] at hp hrest
      exact ⟨⟨ha, hp⟩, hrest⟩

def IsPlainPrelude (p : List Char) : Prop := '\x7b' ∉ p ∧ ';' ∉ p ∧ Lacks ['/', '*'] p

theorem isPlainPrelude_of_not_mem {p : List Char} (hbrace : '\x7b' ∉ p) (hsemicolon : ';' ∉ p) (hstar : '*' ∉ p) :
    IsPlainPrelude p :=
  ⟨hbrace, hsemicolon, fun h => hstar (h.subset (by decide))⟩

theorem IsPlainPrelude.isPrelude {p : List Char} (h : IsPlainPrelude p) : IsPrelude p := by
  induction p with
  | nil => exact ⟨trivial, rfl⟩
  | cons c p ih =>
    obtain ⟨hbrace, hsemicolon, hmark⟩ := h
    rw [List.mem_cons, not_or] at hbrace hsemicolon
    obtain ⟨hp, hz⟩ := ih ⟨hbrace.2, hsemicolon.2, hmark.of_part (List.suffix_cons c p).isInfix⟩
    have hends : endsPrelude c = false := by simp [endsPrelude, Ne.symm hbrace.1, Ne.symm hsemicolon.1]
    have hnext : Zone.code.next c p.head? = .code := by
      refine if_neg fun h => hmark ?_
      obtain ⟨hc, hhead⟩ := (Bool.and_eq_true _ _).mp h
      obtain ⟨r, rfl⟩ := List.head?_eq_some_iff.mp (eq_of_beq hhead)
      exact ⟨[], r, by rw [eq_of_beq hc]; rfl⟩
    exact ⟨⟨fun _ => hends, by rwa [hnext]⟩, by rwa [Zone.behind, hnext]⟩

/-! ## Blocks -/

/-- How many braces are open behind a character; none if it closes one that is not open. -/
def braceStep (depth : Nat) (c : Char) : Option Nat :=
  if c == '\x7b' then some (depth + 1)
  else if c == '\x7d' then if depth = 0 then none else some (depth - 1)
  else some depth

theorem braceStep_eq_none {depth : Nat} {c : Char} (h : braceStep depth c = none) : c = '\x7d' ∧ depth = 0 := by
  unfold braceStep at h
  by_cases hopen : c = '\x7b'
  · simp [hopen] at h
  · by_cases hclose : c = '\x7d'
    · simpa [hopen, hclose] using h
    · simp [hopen, hclose] at h

/-- How many braces are open behind the text, `depth` being so before it. -/
def openBraces (depth : Nat) (s : List Char) : Option Nat := s.foldlM braceStep depth

theorem openBraces_cons (d : Nat) (c : Char) (r : List Char) :
    openBraces d (c :: r) = (braceStep d c).bind (openBraces · r) := List.foldlM_cons

theorem takeBlock_of_step {d d' : Nat} {c : Char} (h : braceStep d c = some d') (r : List Char) :
    takeBlock (d + 1) (c :: r) = (c :: (takeBlock (d' + 1) r).1, (takeBlock (d' + 1) r).2) := by
  unfold braceStep at h
  by_cases hopen : c = '\x7b'
  · subst hopen
    cases h
    rfl
  · by_cases hclose : c = '\x7d'
    · subst hclose
      cases d with
      | zero => cases h
      | succ d =>
        cases h
        rw [takeBlock, if_neg (by simp)]
        rfl
    · rw [if_neg (by simpa using hopen), if_neg (by simpa using hclose)] at h
      cases h
      rw [takeBlock, if_neg (by simp [hclose])]
      simp [hopen, hclose]

/-- A text is read through as long as the brace in front of it stays open. -/
theorem takeBlock_of_open {d n : Nat} {inner : List Char} (h : openBraces d inner = some n) (s : List Char) :
    takeBlock (d + 1) (inner ++ s) = (inner ++ (takeBlock (n + 1) s).1, (takeBlock (n + 1) s).2) := by
  induction inner generalizing d with
  | nil =>
    cases h
    rfl
  | cons c inner ih =>
    rw [openBraces_cons] at h
    obtain ⟨d', hstep, h⟩ := Option.bind_eq_some_iff.mp h
    rw [List.cons_append, takeBlock_of_step hstep, ih h]
    rfl

/-- A block that is closed is read up to its last brace. -/
theorem takeBlock_closed {inner : List Char} (h : openBraces 0 inner = some 0) (rest : List Char) :
    takeBlock 0 ('\x7b' :: inner ++ '\x7d' :: rest) = ('\x7b' :: inner ++ ['\x7d'], rest) := by
  have hbrace : takeBlock 0 ('\x7b' :: (inner ++ '\x7d' :: rest)) =
      ('\x7b' :: (takeBlock 1 (inner ++ '\x7d' :: rest)).1, (takeBlock 1 (inner ++ '\x7d' :: rest)).2) := rfl
  rw [List.cons_append, hbrace, takeBlock_of_open h]
  rfl

/-- One that is not is all there is. -/
theorem takeBlock_unclosed {n : Nat} {inner : List Char} (h : openBraces 0 inner = some n) :
    takeBlock 0 ('\x7b' :: inner) = ('\x7b' :: inner, []) := by
  have hbrace : takeBlock 0 ('\x7b' :: inner) = ('\x7b' :: (takeBlock 1 inner).1, (takeBlock 1 inner).2) := rfl
  have hinner := takeBlock_of_open h []
  rw [List.append_nil] at hinner
  rw [hbrace, hinner]
  simp [takeBlock]

/-- Behind a brace the brace that closes it is found, or all braces are open. -/
theorem closed_or_open (d : Nat) (s : List Char) :
    (∃ inner rest, s = inner ++ '\x7d' :: rest ∧ openBraces d inner = some 0) ∨ ∃ n, openBraces d s = some n := by
  induction s generalizing d with
  | nil => exact Or.inr ⟨d, rfl⟩
  | cons c s ih =>
    rw [openBraces_cons]
    cases hstep : braceStep d c with
    | none =>
      left
      obtain ⟨rfl, rfl⟩ := braceStep_eq_none hstep
      exact ⟨[], s, rfl, rfl⟩
    | some d' =>
      rcases ih d' with ⟨inner, rest, rfl, h⟩ | h
      · exact Or.inl ⟨c :: inner, rest, rfl, by rw [openBraces_cons, hstep]; exact h⟩
      · exact Or.inr h

theorem blockBody_closed (inner : List Char) :
    blockBody ('\x7b' :: inner ++ ['\x7d']) = inner ∧ blockEnd ('\x7b' :: inner ++ ['\x7d']) = ['\x7d'] := by
  constructor
  · simp [blockBody]
  · simp [blockEnd]

/-! ## Rules -/

def scopeRule (cls prelude block : List Char) : List Char × List (List Char) :=
  if isAtRule prelude then
    if isNestingRule prelude then
      (prelude ++ '\x7b' :: (scopeRules cls (blockBody block)).1 ++ blockEnd block,
        (scopeRules cls (blockBody block)).2)
    else (prelude ++ block, [])
  else ((scopeSelectorList cls prelude).1 ++ block, (scopeSelectorList cls prelude).2)

variable {cls css prelude rest : List Char}

theorem scopeRules_end (h : takePrelude .code css = (prelude, [])) : scopeRules cls css = (prelude, []) := by
  rw [scopeRules]
  split
  · rename_i e
    cases h.symm.trans e
    rfl
  · rename_i e
    cases h.symm.trans e

theorem scopeRules_semicolon (h : takePrelude .code css = (prelude, ';' :: rest)) :
    scopeRules cls css = (prelude ++ ';' :: (scopeRules cls rest).1, (scopeRules cls rest).2) := by
  rw [scopeRules]
  split
  · rename_i e
    cases h.symm.trans e
  · rename_i e
    cases h.symm.trans e
    rfl

theorem scopeRules_block {c : Char} (h : takePrelude .code css = (prelude, c :: rest)) (hc : c ≠ ';') :
    scopeRules cls css =
      ((scopeRule cls prelude (takeBlock 0 (c :: rest)).1).1 ++ (scopeRules cls (takeBlock 0 (c :: rest)).2).1,
        (scopeRule cls prelude (takeBlock 0 (c :: rest)).1).2 ++ (scopeRules cls (takeBlock 0 (c :: rest)).2).2) := by
  rw [scopeRules]
  split
  · rename_i e
    cases h.symm.trans e
  · rename_i e
    cases h.symm.trans e
    rw [if_neg (by simpa using hc)]
    unfold scopeRule
    split
    · split <;> rfl
    · rfl

/-! ## Complete statements -/

inductive Statement
  | semicolon (prelude : List Char)
  | block (prelude inner : List Char)

namespace Statement

def text : Statement → List Char
  | semicolon prelude => prelude ++ [';']
  | block prelude inner => prelude ++ '\x7b' :: inner ++ ['\x7d']

def Complete : Statement → Prop
  | semicolon prelude => IsPlainPrelude prelude
  | block prelude inner => IsPlainPrelude prelude ∧ openBraces 0 inner = some 0

def qualified (cls : List Char) : Statement → List Char × List (List Char)
  | semicolon prelude => (prelude ++ [';'], [])
  | block prelude inner => scopeRule cls prelude ('\x7b' :: inner ++ ['\x7d'])

/-- Scoping goes on behind a statement as it began in front of it. -/
theorem scopeRules_append {s : Statement} (h : s.Complete) (cls rest : List Char) :
    scopeRules cls (s.text ++ rest) =
      ((s.qualified cls).1 ++ (scopeRules cls rest).1, (s.qualified cls).2 ++ (scopeRules cls rest).2) := by
  cases s with
  | semicolon prelude =>
    obtain ⟨hp, hz⟩ := IsPlainPrelude.isPrelude h
    have hcut : (semicolon prelude).text ++ rest = prelude ++ ';' :: rest := by simp [text]
    rw [hcut, scopeRules_semicolon (takePrelude_ended hp hz (by decide) rest)]
    simp [qualified]
  | block prelude inner =>
    obtain ⟨hp, hz⟩ := h.1.isPrelude
    have hcut : (block prelude inner).text ++ rest = prelude ++ '\x7b' :: (inner ++ '\x7d' :: rest) := by simp [text]
    have hblock := takeBlock_closed h.2 rest
    rw [List.cons_append] at hblock
    rw [hcut, scopeRules_block (takePrelude_ended hp hz (by decide) _) (by decide), hblock]
    rfl

/-- A run of statements: each is scoped by itself. -/
theorem scopeRules_run {statements : List Statement} (h : ∀ s ∈ statements, s.Complete) (cls rest : List Char) :
    scopeRules cls (statements.flatMap text ++ rest) =
      (statements.flatMap (fun s => (s.qualified cls).1) ++ (scopeRules cls rest).1,
        statements.flatMap (fun s => (s.qualified cls).2) ++ (scopeRules cls rest).2) := by
  induction statements with
  | nil => rfl
  | cons s statements ih =>
    rw [List.flatMap_cons, List.append_assoc, scopeRules_append (h s List.mem_cons_self),
      ih fun t ht => h t (List.mem_cons_of_mem s ht)]
    simp

end Statement

theorem scopeRules_nil (cls : List Char) : scopeRules cls [] = ([], []) := scopeRules_end rfl

theorem nesting_of_start {rule : String} (hrule : rule ∈ nestingRules) {prelude : List Char}
    (h : rule.toList <+: prelude) :
    isAtRule prelude = true ∧ isNestingRule prelude = true := by
  have hat : ∀ r ∈ nestingRules, r.toList.head? = some '@' := by decide
  obtain ⟨r, e⟩ := List.head?_eq_some_iff.mp (hat rule hrule)
  obtain ⟨t, rfl⟩ := h
  have htrim : trimStart (rule.toList ++ t) = rule.toList ++ t := by
    rw [e, List.cons_append, trimStart_cons_of_not_isBlank (by decide)]
  constructor
  · rw [isAtRule, htrim, e]
    rfl
  · rw [isNestingRule, htrim]
    exact List.any_eq_true.mpr ⟨rule, hrule, List.isPrefixOf_iff_prefix.mpr (List.prefix_append _ t)⟩

/-- A block of rules is scoped as a sheet of its own. -/
theorem scopeRules_nesting {rule : String} (hrule : rule ∈ nestingRules) {prelude inner : List Char}
    (hstart : rule.toList <+: prelude) (h : (Statement.block prelude inner).Complete) (cls : List Char) :
    scopeRules cls (Statement.block prelude inner).text =
      (prelude ++ '\x7b' :: (scopeRules cls inner).1 ++ ['\x7d'], (scopeRules cls inner).2) := by
  obtain ⟨hat, hnesting⟩ := nesting_of_start hrule hstart
  obtain ⟨hbody, hend⟩ := blockBody_closed inner
  have hrun := Statement.scopeRules_append h cls []
  rw [List.append_nil, scopeRules_nil, List.append_nil, List.append_nil] at hrun
  rw [hrun, Statement.qualified, scopeRule, if_pos hat, if_pos hnesting, hbody, hend]

theorem mem_scopedTags {style markup scopeClass tag : String} :
    tag ∈ (scope style markup scopeClass).scopedTags ↔ tag.toList ∈ (scopeRules scopeClass.toList style.toList).2 := by
  simp only [scope, sortedOnce, List.mem_eraseDups, List.mem_mergeSort, List.mem_map]
  constructor
  · rintro ⟨t, ht, rfl⟩
    rwa [String.toList_ofList]
  · exact fun ht => ⟨tag.toList, ht, String.ofList_toList⟩

/-- Behind complete statements a stylesheet is scoped as without them, and a block of rules as a
    stylesheet. -/
theorem scoped_append {statements : List Statement} (h : ∀ s ∈ statements, s.Complete) (b markup scopeClass : String) :
    let a := String.ofList (statements.flatMap Statement.text)
    (scope (a ++ b) markup scopeClass).style =
        (scope a markup scopeClass).style ++ (scope b markup scopeClass).style ∧
      (∀ tag, tag ∈ (scope (a ++ b) markup scopeClass).scopedTags ↔
        tag ∈ (scope a markup scopeClass).scopedTags ∨ tag ∈ (scope b markup scopeClass).scopedTags) ∧
      ∀ prelude inner : String, IsPlainPrelude prelude.toList →
        (∃ rule ∈ nestingRules, rule.toList <+: prelude.toList) →
        openBraces 0 inner.toList = some 0 →
        (scope (prelude ++ "\x7b" ++ inner ++ "\x7d") markup scopeClass).style =
            prelude ++ "\x7b" ++ (scope inner markup scopeClass).style ++ "\x7d" ∧
          (scope (prelude ++ "\x7b" ++ inner ++ "\x7d") markup scopeClass).scopedTags =
            (scope inner markup scopeClass).scopedTags := by
  intro a
  have hrun := Statement.scopeRules_run h scopeClass.toList
  have ha := hrun []
  rw [List.append_nil, scopeRules_nil, List.append_nil, List.append_nil] at ha
  have htext : (a ++ b).toList = statements.flatMap Statement.text ++ b.toList := by
    rw [String.toList_append, String.toList_ofList]
  refine ⟨?_, fun tag => ?_, fun prelude inner hprelude ⟨rule, hrule, hstart⟩ hinner => ?_⟩
  · simp only [scope, htext, hrun, a, String.toList_ofList, ha, String.ofList_append]
  · simp only [mem_scopedTags, htext, hrun, a, String.toList_ofList, ha, List.mem_append]
  · have hnested := scopeRules_nesting hrule hstart (show (Statement.block _ _).Complete from ⟨hprelude, hinner⟩)
      scopeClass.toList
    have hblock : (prelude ++ "\x7b" ++ inner ++ "\x7d").toList =
        (Statement.block prelude.toList inner.toList).text := by
      simp [Statement.text, String.toList_append]
    constructor
    · refine String.toList_injective ?_
      simp only [scope, hblock, hnested, String.toList_ofList, String.toList_append]
      simp
    · simp only [scope, hblock, hnested]

/-- An import and a media query with two rules, in front of a rule that is not complete. -/
theorem scoped_append_of_media_query :
    let statements : List Statement := [.semicolon "@import a".toList,
      .block "@media print".toList "p \x7bx: y\x7d ul li \x7b\x7d".toList]
    (∀ s ∈ statements, s.Complete) ∧
      (scope (String.ofList (statements.flatMap Statement.text) ++ "h1:hover, p \x7b") "" "s").style =
        "@import a;@media print\x7bp.s \x7bx: y\x7d ul.s li \x7b\x7d\x7dh1.s:hover, p.s \x7b" ∧
      "ul" ∈ (scope ("@media print" ++ "\x7b" ++ "p \x7bx: y\x7d ul li \x7b\x7d" ++ "\x7d") "" "s").scopedTags := by
  intro statements
  have himport : IsPlainPrelude "@import a".toList := isPlainPrelude_of_not_mem (by decide) (by decide) (by decide)
  have hmedia : IsPlainPrelude "@media print".toList := isPlainPrelude_of_not_mem (by decide) (by decide) (by decide)
  have hcomplete : ∀ s ∈ statements, s.Complete :=
    List.forall_mem_cons.mpr ⟨himport, List.forall_mem_singleton.mpr ⟨hmedia, by decide⟩⟩
  obtain ⟨hstyle, -, hnested⟩ := scoped_append hcomplete "h1:hover, p \x7b" "" "s"
  refine ⟨hcomplete, ?_, ?_⟩
  · rw [hstyle]
    decide +kernel
  · rw [(hnested _ _ hmedia ⟨"@media", by decide, by decide⟩ (by decide)).2, mem_scopedTags]
    decide +kernel

end ComponentSite.Style
