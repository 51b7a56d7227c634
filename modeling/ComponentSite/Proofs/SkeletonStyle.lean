/-
  ComponentSite.Proofs.SkeletonStyle — style and markup that are scoped to any class.

  Which selectors are qualified and which elements get the class is told from the source, in
  which there are no classes yet. So a stylesheet and a markup are scoped to skeletons with
  the class of their source behind a dot, in a class attribute of its own or behind the
  classes of another (`exists_scope`).
-/
import ComponentSite.Proofs.Skeleton
import ComponentSite.Proofs.StyleStatements

namespace ComponentSite.Skeleton
open Text Style

variable {S : Path → Prop} {source : Path} (hsource : S source)

/-! ## Stylesheets -/

/-- A skeleton and tags that are the same for all classes. -/
def Scoped (S : Path → Prop) (result : (Path → String) → List Char × List (List Char)) : Prop :=
  ∃ t tags, Guarded S false t ∧ ∀ classOf, result classOf = (fill classOf t, tags)

include hsource

theorem exists_scopeSelector (selector : List Char) :
    ∃ t tag, Guarded S false t ∧ ∀ classOf : Path → String,
      scopeSelector (classOf source).toList selector = (fill classOf t, tag) := by
  cases h : bareTag? ((trimStart selector).takeWhile (!endsCompound ·)) with
  | none =>
    exact ⟨ofChars selector, none, guarded_ofChars false selector,
      fun _ => by simp only [scopeSelector, h, fill_ofChars]⟩
  | some bare =>
    obtain ⟨tag, pseudos⟩ := bare
    refine ⟨between (selector.takeWhile isBlank ++ tag ++ ['.']) source
      (pseudos ++ (trimStart selector).dropWhile (!endsCompound ·)), some tag,
        guarded_between _ (by decide) hsource _, fun _ => ?_⟩
    simp [scopeSelector, h]

theorem scoped_selectors (selectors : List (List Char)) :
    Scoped S fun classOf =>
      let results := selectors.map (scopeSelector (classOf source).toList)
      (List.intercalate [','] (results.map (·.1)), results.filterMap (·.2)) := by
  induction selectors with
  | nil => exact ⟨[], [], trivial, fun _ => rfl⟩
  | cons selector rest ih =>
    obtain ⟨t, tag, ht, e⟩ := exists_scopeSelector hsource selector
    obtain ⟨ts, tags, hts, es⟩ := ih
    cases rest with
    | nil =>
      refine ⟨t, tag.toList, ht, fun classOf => ?_⟩
      cases tag <;> simp [e classOf]
    | cons next rest =>
      refine ⟨t ++ .char ',' :: ts, tag.toList ++ tags, ht.append hts, fun classOf => ?_⟩
      obtain ⟨es, etags⟩ := Prod.mk.inj (es classOf)
      simp only [List.map_cons, List.intercalate_cons_cons, e classOf] at es etags ⊢
      rw [es, List.filterMap_cons, etags]
      cases tag <;> simp

theorem scoped_rule (prelude block : List Char)
    (hbody : Scoped S fun classOf => scopeRules (classOf source).toList (blockBody block)) :
    Scoped S fun classOf => scopeRule (classOf source).toList prelude block := by
  unfold scopeRule
  split
  · split
    · obtain ⟨t, tags, ht, e⟩ := hbody
      refine ⟨ofChars (prelude ++ ['\x7b']) ++ t ++ ofChars (blockEnd block), tags, ?_, fun classOf => ?_⟩
      · exact ((guarded_ofChars false _).append ht).append (guarded_ofChars false _)
      · simp [e classOf]
    · exact ⟨ofChars (prelude ++ block), [], guarded_ofChars false _, fun _ => by rw [fill_ofChars]⟩
  · obtain ⟨t, tags, ht, e⟩ := scoped_selectors hsource (prelude.splitOn ',')
    refine ⟨t ++ ofChars block, tags, ht.append (guarded_ofChars false _), fun classOf => ?_⟩
    simp only [scopeSelectorList, e classOf, fill_append, fill_ofChars]

/-- Rule after rule, and in blocks of rules the same again. -/
theorem scoped_rules (css : List Char) : Scoped S fun classOf => scopeRules (classOf source).toList css := by
  rcases h : takePrelude .code css with ⟨prelude, _ | ⟨c, rest⟩⟩
  · exact ⟨ofChars prelude, [], guarded_ofChars false _, fun _ => by simp only [scopeRules_end h, fill_ofChars]⟩
  · have hlt := takePrelude_rest_length h
    by_cases hc : c = ';'
    · subst hc
      obtain ⟨t, tags, ht, e⟩ := scoped_rules rest
      refine ⟨ofChars (prelude ++ [';']) ++ t, tags, (guarded_ofChars false _).append ht, fun classOf => ?_⟩
      simp [scopeRules_semicolon h, e classOf]
    · have hbody := Nat.lt_of_le_of_lt (takeBlock_body_length 0 c rest) hlt
      have hafter := Nat.lt_of_le_of_lt (takeBlock_rest_length 0 c rest) hlt
      obtain ⟨head, headTags, hhead, e⟩ := scoped_rule hsource prelude (takeBlock 0 (c :: rest)).1 (scoped_rules _)
      obtain ⟨t, tags, ht, e'⟩ := scoped_rules (takeBlock 0 (c :: rest)).2
      refine ⟨head ++ t, headTags ++ tags, hhead.append ht, fun classOf => ?_⟩
      simp only [scopeRules_block h hc, e classOf, e' classOf, fill_append]
termination_by css.length

/-! ## Markup -/

theorem exists_addClass (attributes : List Char) :
    ∃ t, Guarded S false t ∧ ∀ classOf : Path → String,
      addClass (classOf source).toList attributes = fill classOf t := by
  unfold addClass classAttribute
  cases findClass false attributes with
  | none =>
    refine ⟨between ((' ' :: "class=".toList) ++ ['\x22']) source ('\x22' :: attributes), ?_, fun classOf => ?_⟩
    · exact guarded_between _ (by decide) hsource _
    · simp
  | some found =>
    obtain ⟨before, value, rest⟩ := found
    cases hvalue : (trim value).isEmpty with
    | true =>
      refine ⟨between (before ++ "class=".toList ++ ['\x22']) source ('\x22' :: rest), ?_, fun classOf => ?_⟩
      · exact guarded_between _ (by decide) hsource _
      · simp [hvalue]
    | false =>
      refine ⟨between (before ++ "class=\x22".toList ++ value ++ [' ']) source ('\x22' :: rest), ?_, fun classOf => ?_⟩
      · exact guarded_between _ (by decide) hsource _
      · simp [hvalue]

theorem exists_markRoots (tags : List (List Char)) (depth : Nat) (pieces : List MarkupPiece) :
    ∃ t, Guarded S false t ∧ ∀ classOf : Path → String,
      markRoots (classOf source).toList tags depth pieces = fill classOf t := by
  induction pieces generalizing depth with
  | nil => exact ⟨[], trivial, fun _ => rfl⟩
  | cons piece rest ih =>
    -- a piece that stays as it is, whatever is open behind it
    have hkept : ∀ below, ∃ t, Guarded S false t ∧
        ∀ classOf : Path → String, piece.text ++ markRoots (classOf source).toList tags below rest =
          fill classOf t := by
      intro below
      obtain ⟨t, ht, e⟩ := ih below
      exact ⟨ofChars piece.text ++ t, (guarded_ofChars false _).append ht,
        fun classOf => by rw [e classOf, fill_append, fill_ofChars]⟩
    cases piece with
    | char c => exact hkept depth
    | comment body => exact hkept depth
    | tag closing name attributes selfClosing =>
      cases closing with
      | true => exact hkept (depth - 1)
      | false =>
        cases hroot : depth == 0 && tags.contains name with
        | false =>
          simp only [markRoots, hroot, Bool.false_eq_true, if_false]
          exact hkept _
        | true =>
          obtain ⟨marked, hmarked, e⟩ := exists_addClass hsource attributes
          obtain ⟨t, ht, e'⟩ := ih (if standsAlone name selfClosing then depth else depth + 1)
          refine ⟨ofChars ('<' :: name) ++ marked ++ ofChars ((if selfClosing then ['/'] else []) ++ ['>']) ++ t, ?_,
            fun classOf => ?_⟩
          · exact (((guarded_ofChars false _).append hmarked).append (guarded_ofChars false _)).append ht
          · simp only [markRoots, hroot, if_true, e classOf, e' classOf]
            simp [MarkupPiece.text]

/-! ## Both -/

theorem exists_scope (style markup : String) :
    ∃ sheet marked, Guarded S false sheet ∧ Guarded S false marked ∧ ∀ classOf : Path → String,
      (scope style markup (classOf source)).style = String.ofList (fill classOf sheet) ∧
        (scope style markup (classOf source)).markup = String.ofList (fill classOf marked) := by
  obtain ⟨sheet, tags, hsheet, e⟩ := scoped_rules hsource style.toList
  obtain ⟨marked, hmarked, e'⟩ : ∃ t, Guarded S false t ∧
      ∀ classOf : Path → String, markRootElements (classOf source).toList tags markup.toList = fill classOf t := by
    unfold markRootElements
    split
    · exact ⟨ofChars markup.toList, guarded_ofChars false _, fun _ => by rw [fill_ofChars]⟩
    · exact exists_markRoots hsource tags 0 _
  refine ⟨sheet, marked, hsheet, hmarked, fun classOf => ?_⟩
  simp only [scope, e classOf, e' classOf, and_self]

end ComponentSite.Skeleton
