/-
  ComponentSite.Proofs.SkeletonLayout — the anchors of a layout are not looked for in scope
  classes.

  Styles, content and scripts go into a layout one after the other, and the later anchors are
  looked for in a text that holds classes already. Where a tag of the layout begins and ends
  does not depend on them (`uniform_layoutTag?`, `uniform_bodyTag?`), so neither does the first
  such tag nor the last (`uniform_cutFirst`, `uniform_cutLast`), and the layout with its points
  is a skeleton (`exists_withPoints`).
-/
import ComponentSite.Proofs.LayoutPoints
import ComponentSite.Proofs.Skeleton

namespace ComponentSite.Skeleton
open Text

variable {S : Path → Prop} {free : Bool} {s : Skeleton} {classOf : Path → String}

/-! ## Tags in any letter case -/

theorem restAnyCase?_cons (a c : Char) (lead s : List Char) :
    Layout.restAnyCase? (a :: lead) (c :: s) = if c.toLower = a then Layout.restAnyCase? lead s else none := by
  unfold Layout.restAnyCase?
  by_cases h : c.toLower = a <;> simp [h]

theorem isFree_of_toLower {c : Char} (h : isFree c.toLower = false) : isFree c = false := by
  by_contra hfree
  have hfree : (((c = ' ' ∨ c = '\n') ∨ c = '\x22') ∨ c = '-') ∨ c = '.' := by
    simpa only [isFree, Bool.not_eq_false, Bool.or_eq_true, beq_iff_eq] using hfree
  rcases hfree with (((rfl | rfl) | rfl) | rfl) | rfl <;> exact absurd h (by decide)

theorem uniform_restAnyCase? {lead : List Char} (hlead : IsWord lead) (h : Guarded S false s) :
    Uniform S fill (fun t => Guarded S false t ∧ t <:+ s) fun classOf => Layout.restAnyCase? lead (fill classOf s) := by
  induction lead generalizing s with
  | nil => exact .some s ⟨h, List.suffix_rfl⟩ fun _ _ => by simp [Layout.restAnyCase?]
  | cons a lead ih =>
    rcases s with _ | ⟨c | _, s⟩
    · exact .none fun _ _ => by simp [Layout.restAnyCase?]
    · simp only [fill_char, restAnyCase?_cons]
      by_cases e : c.toLower = a
      · have hfree := isFree_of_toLower (e ▸ hlead a List.mem_cons_self : isFree c.toLower = false)
        have h : Guarded S false s := hfree ▸ h.tail
        simp only [if_pos e]
        exact (ih hlead.tail h).imp fun t ht => ⟨ht.1, ht.2.trans (List.suffix_cons _ s)⟩
      · exact .none fun _ _ => if_neg e
    · exact absurd h.1 (by decide)

abbrev Tag := Skeleton × Skeleton

def fillTag (classOf : Path → String) (t : Tag) : List Char × List Char := (fill classOf t.1, fill classOf t.2)

def GuardedTag (S : Path → Prop) (t : Tag) : Prop := Guarded S false t.1 ∧ Guarded S false t.2

/-- The tag is what stands in front of the rest. -/
theorem uniform_found (h : Guarded S false s) {result : (Path → String) → Option (List Char)}
    (hresult : Uniform S fill (fun t => Guarded S false t ∧ t <:+ s) result) :
    Uniform S fillTag (GuardedTag S) fun classOf =>
      (result classOf).map fun rest => ((fill classOf s).take ((fill classOf s).length - rest.length), rest) := by
  refine hresult.map (f := fun classOf rest => ((fill classOf s).take ((fill classOf s).length - rest.length), rest))
    (fun rest => (s.take (s.length - rest.length), rest)) ?_ ?_
  · rintro rest ⟨hrest, found, rfl⟩
    refine ⟨?_, hrest⟩
    show Guarded S false ((found ++ rest).take _)
    rw [List.length_append, Nat.add_sub_cancel, List.take_left]
    exact h.of_append.1
  · rintro rest ⟨-, found, rfl⟩ classOf -
    rw [fillTag, fill_append, Layout.take_found, List.length_append, Nat.add_sub_cancel, List.take_left]

theorem closingTag?_eq (name : String) (s : List Char) :
    Layout.closingTag? name s =
      ((Layout.restAnyCase? ("</".toList ++ name.toList) s).bind fun after => rest? ['>'] (trimStart after)).map
        fun rest => (s.take (s.length - rest.length), rest) := by
  unfold Layout.closingTag?
  cases Layout.restAnyCase? ("</".toList ++ name.toList) s with
  | none => rfl
  | some after =>
    simp only [Option.bind_eq_bind, Option.bind_some]
    cases rest? ['>'] (trimStart after) <;> rfl

theorem uniform_layoutTag? {name : String} (hname : IsWord name.toList) (h : Guarded S false s) :
    Uniform S fillTag (GuardedTag S) fun classOf => Layout.closingTag? name (fill classOf s) := by
  have hlead : IsWord ("</".toList ++ name.toList) := (isWord_of_all (by decide)).append hname
  have hrest : Uniform S fill (fun t => Guarded S false t ∧ t <:+ s) fun classOf =>
      (Layout.restAnyCase? ("</".toList ++ name.toList) (fill classOf s)).bind
        fun after => rest? ['>'] (trimStart after) :=
    (uniform_restAnyCase? hlead h).bind fun after hafter =>
      (uniform_closeTag hafter.1).imp fun rest hrest => ⟨hrest.guarded, hrest.suffix.trans hafter.2⟩
  simp only [closingTag?_eq]
  exact uniform_found h hrest

def afterBody? (s : List Char) : Option (List Char) :=
  if (s.head?.map isWord).getD false then none else (s.dropWhile (· != '>')).tail?

theorem bodyTag?_eq (s : List Char) :
    Layout.bodyTag? s =
      ((Layout.restAnyCase? "<body".toList s).bind afterBody?).map
        fun rest => (s.take (s.length - rest.length), rest) := by
  unfold Layout.bodyTag?
  cases Layout.restAnyCase? "<body".toList s with
  | none => rfl
  | some after =>
    simp only [Option.bind_eq_bind, Option.bind_some, afterBody?]
    split
    · rfl
    · cases after.dropWhile (· != '>') <;> rfl

/-- The start of a body goes on to the next angle bracket, past any class. -/
theorem uniform_afterBody? (h : Guarded S false s) :
    Uniform S fill (fun t => Guarded S false t ∧ t <:+ s) fun classOf => afterBody? (fill classOf s) := by
  rcases cut_at (c := '>') h (by decide) (by decide) with hnone | ⟨inner, body, hsplit, -, hbody, hcut⟩
  · exact .none fun classOf hn => by simp [afterBody?, hnone classOf hn]
  · have hsome : ∀ classOf, Names S classOf →
        afterBody? (fill classOf s) =
          if ((fill classOf s).head?.map isWord).getD false then none else some (fill classOf body) :=
      fun classOf hn => by simp only [afterBody?, (hcut classOf hn).2, List.tail?_cons]
    have hpart : Guarded S false body ∧ body <:+ s := ⟨hbody, (List.suffix_cons _ body).trans ⟨inner, hsplit.symm⟩⟩
    rcases s with _ | ⟨c | _, s⟩
    · exact .some body hpart hsome
    · cases hc : isWord c with
      | true => exact .none fun classOf hn => by rw [hsome classOf hn, fill_char]; simp [hc]
      | false => exact .some body hpart fun classOf hn => by rw [hsome classOf hn, fill_char]; simp [hc]
    · exact absurd h.1 (by decide)

theorem uniform_bodyTag? (h : Guarded S false s) :
    Uniform S fillTag (GuardedTag S) fun classOf => Layout.bodyTag? (fill classOf s) := by
  simp only [bodyTag?_eq]
  refine uniform_found h ((uniform_restAnyCase? (isWord_of_all (by decide)) h).bind fun after hafter => ?_)
  exact (uniform_afterBody? hafter.1).imp fun rest hrest => ⟨hrest.1, hrest.2.trans hafter.2⟩

/-! ## The first and the last tag -/

abbrev Cut := Skeleton × Tag

def fillCut (classOf : Path → String) (cut : Cut) : List Char × List Char × List Char :=
  (fill classOf cut.1, fillTag classOf cut.2)

def GuardedCut (S : Path → Prop) (free : Bool) (cut : Cut) : Prop := Guarded S free cut.1 ∧ GuardedTag S cut.2

/-- The cut at a tag that the skeleton starts with. -/
theorem uniform_here {result : (Path → String) → Option (List Char × List Char)}
    (h : Uniform S fillTag (GuardedTag S) result) :
    Uniform S fillCut (GuardedCut S free) fun classOf => (result classOf).map fun tag => ([], tag) := by
  refine h.map (f := fun _ tag => ([], tag)) (fun tag => ([], tag)) ?_ fun _ _ _ _ => rfl
  exact fun tag ht => ⟨trivial, ht⟩

theorem uniform_before {free' : Bool} {result : (Path → String) → Option (List Char × List Char × List Char)} (p : Slot)
    (h : Uniform S fillCut (GuardedCut S free') result) (hp : ∀ {t}, Guarded S free' t → Guarded S free (p :: t)) :
    Uniform S fillCut (GuardedCut S free) fun classOf => (result classOf).map
      fun cut => (fill classOf [p] ++ cut.1, cut.2) := by
  refine h.map (f := fun classOf cut => (fill classOf [p] ++ cut.1, cut.2)) (fun cut => (p :: cut.1, cut.2)) ?_ ?_
  · exact fun cut hcut => ⟨hp hcut.1, hcut.2⟩
  · intro cut _ classOf _
    show (fill classOf [p] ++ fill classOf cut.1, _) = (fill classOf ([p] ++ cut.1), _)
    rw [fill_append]
    rfl

theorem cutFirst_cons (pattern? : List Char → Option (List Char × List Char)) (c : Char) (r : List Char) :
    Layout.cutFirst pattern? (c :: r) =
      ((pattern? (c :: r)).map fun tag => ([], tag)).or
        ((Layout.cutFirst pattern? r).map fun cut => ([c] ++ cut.1, cut.2)) := by
  rw [Layout.cutFirst]
  cases pattern? (c :: r) <;> rfl

theorem cutLast_cons (pattern? : List Char → Option (List Char × List Char)) (c : Char) (r : List Char) :
    Layout.cutLast pattern? (c :: r) =
      ((Layout.cutLast pattern? r).map fun cut => ([c] ++ cut.1, cut.2)).or
        ((pattern? (c :: r)).map fun tag => ([], tag)) := by
  rw [Layout.cutLast]
  cases Layout.cutLast pattern? r <;> rfl

section Cut

variable {pattern? : List Char → Option (List Char × List Char)} (hpattern : ∀ c r, c ≠ '<' → pattern? (c :: r) = none)
include hpattern

theorem cutFirst_append_of_not_mem {p : List Char} (hp : '<' ∉ p) (q : List Char) :
    Layout.cutFirst pattern? (p ++ q) =
      (Layout.cutFirst pattern? q).map fun cut => (p ++ cut.1, cut.2) := by
  induction p with
  | nil => simp
  | cons c p ih =>
    rw [List.mem_cons, not_or] at hp
    rw [List.cons_append, Layout.cutFirst, hpattern c _ (Ne.symm hp.1), ih hp.2, Option.map_map]
    rfl

theorem cutLast_append_of_not_mem {p : List Char} (hp : '<' ∉ p) (q : List Char) :
    Layout.cutLast pattern? (p ++ q) =
      (Layout.cutLast pattern? q).map fun cut => (p ++ cut.1, cut.2) := by
  induction p with
  | nil => simp
  | cons c p ih =>
    rw [List.mem_cons, not_or] at hp
    rw [List.cons_append, Layout.cutLast, hpattern c _ (Ne.symm hp.1), ih hp.2]
    cases Layout.cutLast pattern? q <;> rfl

variable (htag : ∀ {s}, Guarded S false s → Uniform S fillTag (GuardedTag S) fun classOf => pattern? (fill classOf s))
include htag

theorem uniform_cutFirst (h : Guarded S free s) :
    Uniform S fillCut (GuardedCut S free) fun classOf => Layout.cutFirst pattern? (fill classOf s) := by
  induction s generalizing free with
  | nil => exact .none fun _ _ => rfl
  | cons p s ih =>
    cases p with
    | char c =>
      refine ((uniform_here (htag (s := .char c :: s) h)).or (uniform_before (.char c) (ih h.tail) id)).congr
        fun classOf _ => ?_
      exact cutFirst_cons pattern? c (fill classOf s)
    | hole source =>
      refine (uniform_before (.hole source) (ih h.2.2) fun ht => ⟨h.1, h.2.1, ht⟩).congr fun classOf hn => ?_
      rw [fill_hole, cutFirst_append_of_not_mem hpattern ((hn source h.2.1).not_mem (by decide)), fill_hole, fill_nil,
        List.append_nil]

theorem uniform_cutLast (h : Guarded S free s) :
    Uniform S fillCut (GuardedCut S free) fun classOf => Layout.cutLast pattern? (fill classOf s) := by
  induction s generalizing free with
  | nil => exact .none fun _ _ => rfl
  | cons p s ih =>
    cases p with
    | char c =>
      refine ((uniform_before (.char c) (ih h.tail) id).or (uniform_here (htag (s := .char c :: s) h))).congr
        fun classOf _ => ?_
      exact cutLast_cons pattern? c (fill classOf s)
    | hole source =>
      refine (uniform_before (.hole source) (ih h.2.2) fun ht => ⟨h.1, h.2.1, ht⟩).congr fun classOf hn => ?_
      rw [fill_hole, cutLast_append_of_not_mem hpattern ((hn source h.2.1).not_mem (by decide)), fill_hole, fill_nil,
        List.append_nil]

end Cut

/-! ## Insertion points -/

def pointsOf (kind : FragmentKind) (sources : List Path) : Skeleton :=
  sources.flatMap fun source =>
    ofChars "\x7b\x7b#> ".toList ++ nameOf kind source ++ ofChars "\x7d\x7d\x7b\x7b/".toList ++ nameOf kind source ++
      ofChars "\x7d\x7d\n".toList

theorem fill_pointsOf (kind : FragmentKind) (sources : List Path) :
    fill classOf (pointsOf kind sources) = (Layout.pointLines kind (sources.map classOf)).toList := by
  rw [Layout.pointLines, String.toList_join, List.map_map, List.flatMap_map]
  induction sources with
  | nil => rfl
  | cons source rest ih =>
    rw [pointsOf, List.flatMap_cons, fill_append, List.flatMap_cons]
    congr 1
    simp [fill_nameOf, Layout.insertionPoint, String.toList_append]

theorem guarded_pointsOf (kind : FragmentKind) {sources : List Path} (h : ∀ source ∈ sources, S source) :
    Guarded S false (pointsOf kind sources) := by
  induction sources with
  | nil => trivial
  | cons source rest ih =>
    have hname := guarded_nameOf kind (h source List.mem_cons_self)
    have hline := (((((guarded_ofChars false "\x7b\x7b#> ".toList).append hname).append
      (guarded_ofChars false "\x7d\x7d\x7b\x7b/".toList)).append hname).append
        (guarded_ofChars false "\x7d\x7d\n".toList))
    exact hline.append (ih fun source hs => h source (List.mem_cons_of_mem _ hs))

/-! ## The layout with its points -/

section Points

variable {layout : Skeleton} (h : Guarded S false layout)
include h

theorem exists_insertStyles {styles : Skeleton} (hstyles : Guarded S false styles) :
    ∃ t, Guarded S false t ∧ ∀ classOf, Names S classOf →
      Layout.insertStyles (fill classOf styles) (fill classOf layout) = fill classOf t := by
  cases uniform_cutFirst (fun _ r hc => Layout.closingTag?_of_ne "head" hc r)
    (uniform_layoutTag? (isWord_of_all (by decide))) h with
  | none hnone =>
    refine ⟨styles ++ layout, hstyles.append h, fun classOf hn => ?_⟩
    rw [Layout.insertStyles, hnone classOf hn, fill_append]
  | some cut hcut hsome =>
    refine ⟨cut.1 ++ styles ++ cut.2.1 ++ cut.2.2, ((hcut.1.append hstyles).append hcut.2.1).append hcut.2.2,
      fun classOf hn => ?_⟩
    rw [Layout.insertStyles, hsome classOf hn]
    simp only [fillCut, fillTag, fill_append]

theorem exists_insertContent {content : Skeleton} (hcontent : Guarded S false content) :
    ∃ t, Guarded S false t ∧ ∀ classOf, Names S classOf →
      Layout.insertContent (fill classOf content) (fill classOf layout) = fill classOf t := by
  have hline : Guarded S false (.char '\n' :: content) := hcontent.relax
  cases uniform_cutFirst (fun _ r hc => Layout.bodyTag?_of_ne hc r) uniform_bodyTag? h with
  | none hnone =>
    refine ⟨layout ++ .char '\n' :: content, h.append hline, fun classOf hn => ?_⟩
    rw [Layout.insertContent, hnone classOf hn, fill_append, fill_char]
  | some cut hcut hsome =>
    refine ⟨cut.1 ++ cut.2.1 ++ .char '\n' :: content ++ cut.2.2,
      ((hcut.1.append hcut.2.1).append hline).append hcut.2.2, fun classOf hn => ?_⟩
    rw [Layout.insertContent, hsome classOf hn]
    simp only [fillCut, fillTag, fill_append, fill_char]

theorem exists_insertScripts {scripts : Skeleton} (hscripts : Guarded S false scripts) :
    ∃ t, Guarded S false t ∧ ∀ classOf, Names S classOf →
      Layout.insertScripts (fill classOf scripts) (fill classOf layout) = fill classOf t := by
  have hline : Guarded S false (.char '\n' :: scripts) := hscripts.relax
  cases uniform_cutLast (fun _ r hc => Layout.closingTag?_of_ne "body" hc r)
    (uniform_layoutTag? (isWord_of_all (by decide))) h with
  | none hnone =>
    refine ⟨layout ++ .char '\n' :: scripts, h.append hline, fun classOf hn => ?_⟩
    rw [Layout.insertScripts, hnone classOf hn, fill_append, fill_char]
  | some cut hcut hsome =>
    refine ⟨cut.1 ++ scripts ++ cut.2.1 ++ cut.2.2, ((hcut.1.append hscripts).append hcut.2.1).append hcut.2.2,
      fun classOf hn => ?_⟩
    rw [Layout.insertScripts, hsome classOf hn]
    simp only [fillCut, fillTag, fill_append]

end Points

/-- The layout with the points of a page and its components is the same for all classes. -/
theorem exists_withPoints (layout : String) {page : Path} {flat : List Path}
    (hpage : S page) (hflat : ∀ source ∈ flat, S source) :
    ∃ t, ∀ classOf, Names S classOf →
      (Layout.withPoints layout (classOf page) (flat.map classOf)).toList = fill classOf t := by
  have howners : ∀ source ∈ page :: flat, S source := by
    intro source hs
    rcases List.mem_cons.mp hs with rfl | hs
    · exact hpage
    · exact hflat source hs
  obtain ⟨styled, hstyled, e₁⟩ :=
    exists_insertStyles (guarded_ofChars false layout.toList) (guarded_pointsOf .style howners)
  obtain ⟨filled, hfilled, e₂⟩ := exists_insertContent hstyled
    (guarded_pointsOf .content (List.forall_mem_singleton.mpr hpage))
  obtain ⟨scripted, -, e₃⟩ := exists_insertScripts hfilled (guarded_pointsOf .script howners)
  refine ⟨scripted, fun classOf hn => ?_⟩
  have e₁ := e₁ classOf hn
  have e₂ := e₂ classOf hn
  have e₃ := e₃ classOf hn
  rw [fill_pointsOf, fill_ofChars] at e₁
  rw [fill_pointsOf] at e₂ e₃
  simp only [Layout.withPoints, String.toList_ofList]
  rw [← List.map_cons, e₁]
  exact (congrArg _ e₂).trans e₃

end ComponentSite.Skeleton
