/-
  ComponentSite.Proofs.SkeletonPasses — tag passes do not look into scope classes.

  Where an element begins and ends in a filled skeleton does not depend on the classes
  (`uniform_element?`): it begins with an angle bracket and its name, behind which there is no
  hole, and what may stand in its opening tag is told by blanks and the last character. So a
  pass makes of a skeleton a skeleton (`exists_replaceIn`).
-/
import ComponentSite.Proofs.ComponentNames
import ComponentSite.Proofs.Skeleton
import ComponentSite.Proofs.TagPasses

namespace ComponentSite.Skeleton
open Text ComponentTag

variable {S : Path → Prop} {free : Bool} {name : List Char} {s : Skeleton}

theorem isWord_of_isComponentName (h : Imports.isComponentName name = true) : IsWord name := by
  intro c hc
  by_contra hfree
  have hfree : (((c = ' ' ∨ c = '\n') ∨ c = '\x22') ∨ c = '-') ∨ c = '.' := by
    simpa only [isFree, Bool.not_eq_false, Bool.or_eq_true, beq_iff_eq] using hfree
  rcases hfree with (((rfl | rfl) | rfl) | rfl) | rfl <;> exact Imports.not_mem_componentName h (by decide) hc

theorem Behind.trans {t u : Skeleton} (h : Behind S s t) (h' : Behind S t u) : Behind S s u :=
  ⟨h'.guarded, h'.suffix.trans h.suffix, Nat.lt_trans h'.shorter h.shorter⟩

/-! ## Elements -/

theorem uniform_closingTag? (hname : IsWord name) (h : Guarded S free s) :
    Uniform S fill (Behind S s) fun classOf => closingTag? name (fill classOf s) := by
  have hlead : IsWord (['<', '/'] ++ name) := (isWord_of_all (by decide)).append hname
  exact (uniform_rest? (by decide) hlead h).bind fun t ht => (uniform_closeTag ht.guarded).imp fun u hu => ht.trans hu

theorem afterClosingTag?_cons (name : List Char) (c : Char) (r : List Char) :
    afterClosingTag? name (c :: r) = (closingTag? name (c :: r)).or (afterClosingTag? name r) := by
  rw [afterClosingTag?]
  cases closingTag? name (c :: r) <;> rfl

theorem uniform_afterClosingTag? (hname : IsWord name) (h : Guarded S free s) :
    Uniform S fill (Behind S s) fun classOf => afterClosingTag? name (fill classOf s) := by
  induction s generalizing free with
  | nil => exact .none fun _ _ => rfl
  | cons p s ih =>
    cases p with
    | char c =>
      refine ((uniform_closingTag? hname h).or ((ih h.tail).imp fun t ht => ht.cons _)).congr fun classOf _ => ?_
      rw [fill_char, afterClosingTag?_cons]
    | hole source =>
      refine ((ih h.2.2).imp fun t ht => ht.cons _).congr fun classOf hn => ?_
      rw [fill_hole, afterClosingTag?_append ((hn source h.2.1).not_mem (by decide))]

/-- Whether the inside of a tag leaves it open is told without the classes. -/
theorem exists_opensPair (h : Guarded S false s) :
    ∃ b, ∀ classOf, Names S classOf → opensPair (fill classOf s) = b := by
  match s, h with
  | [], _ => exact ⟨true, fun _ _ => rfl⟩
  | .char c :: s, h =>
    refine ⟨isBlank c && (s.all Slot.isBlank || !(s.getLast? == some (.char '/'))), fun classOf hn => ?_⟩
    have h : Guarded S (isFree c) s := h
    rw [fill_char, opensPair, all_isBlank_fill h hn, bne, getLast?_fill h hn (by decide)]
  | .hole _ :: _, h => exact absurd h.1 (by decide)

theorem closesItself_cons (c : Char) (r : List Char) :
    closesItself (c :: r) = (c == '/' && r.isEmpty || isBlank c && r.getLast? == some '/') := by
  unfold closesItself
  split
  · rename_i e
    cases e
    rfl
  · rename_i d r' hother e
    obtain ⟨rfl, rfl⟩ := List.cons.inj e
    have hslash : (c == '/' && r.isEmpty) = false := by
      rw [Bool.and_eq_false_imp, beq_iff_eq]
      rintro rfl
      rw [List.isEmpty_eq_false_iff]
      rintro rfl
      exact hother rfl rfl
    rw [hslash, Bool.false_or]
  · rename_i e
    cases e

/-- Nor does it take them to tell whether it closes the tag. -/
theorem exists_closesItself (h : Guarded S false s) :
    ∃ b, ∀ classOf, Names S classOf → closesItself (fill classOf s) = b := by
  match s, h with
  | [], _ => exact ⟨false, fun _ _ => rfl⟩
  | .char c :: s, h =>
    refine ⟨c == '/' && s.isEmpty || isBlank c && s.getLast? == some (.char '/'), fun classOf hn => ?_⟩
    have h : Guarded S (isFree c) s := h
    rw [fill_char, closesItself_cons, isEmpty_fill h hn, getLast?_fill h hn (by decide)]
  | .hole _ :: _, h => exact absurd h.1 (by decide)

/-- An element ends with its closing tag or, if it has none, where its opening tag closes itself. -/
theorem element?_of_cut {s rest inner body : List Char} (hrest : rest? ('<' :: name) s = some rest)
    (hinner : rest.takeWhile (· != '>') = inner) (hbody : rest.dropWhile (· != '>') = '>' :: body) :
    element? name s =
      (if opensPair inner then afterClosingTag? name body else none).or
        (if closesItself inner then some body else none) := by
  unfold element?
  rw [hrest, Option.bind_eq_bind, Option.bind_some, hinner, hbody]
  dsimp only
  cases (if opensPair inner then afterClosingTag? name body else none) <;> rfl

theorem uniform_element? (hname : IsWord name) (h : Guarded S free s) :
    Uniform S fill (Behind S s) fun classOf => element? name (fill classOf s) := by
  have hlead : IsWord ('<' :: name) := IsWord.append (s := ['<']) (isWord_of_all (by decide)) hname
  cases uniform_rest? (by decide) hlead h with
  | none hrest =>
    refine .none fun classOf hn => ?_
    rw [element?, hrest classOf hn]
    rfl
  | some t ht hrest =>
    rcases cut_at (c := '>') ht.guarded (by decide) (by decide)
        with hnone | ⟨inner, body, hsplit, hinner, hguarded, hcut⟩
    · refine .none fun classOf hn => ?_
      rw [element?, hrest classOf hn, Option.bind_eq_bind, Option.bind_some, hnone classOf hn]
    · have hbody : Behind S s body := by
        refine ht.trans ⟨hguarded, ?_, ?_⟩
        · exact (List.suffix_cons _ body).trans ⟨inner, hsplit.symm⟩
        · rw [hsplit, List.length_append, List.length_cons]
          omega
      obtain ⟨opens, hopens⟩ := exists_opensPair hinner
      obtain ⟨closes, hcloses⟩ := exists_closesItself hinner
      have hpair : Uniform S fill (Behind S s) fun classOf =>
          if opens then afterClosingTag? name (fill classOf body) else none := by
        cases opens with
        | false => exact .none fun _ _ => rfl
        | true => exact (uniform_afterClosingTag? hname hbody.guarded).imp fun u hu => hbody.trans hu
      have hself : Uniform S fill (Behind S s) fun classOf => if closes then some (fill classOf body) else none := by
        cases closes with
        | false => exact .none fun _ _ => rfl
        | true => exact .some body hbody fun _ _ => rfl
      refine (hpair.or hself).congr fun classOf hn => ?_
      obtain ⟨htake, hdrop⟩ := hcut classOf hn
      rw [element?_of_cut (hrest classOf hn) htake hdrop, hopens classOf hn, hcloses classOf hn]

/-! ## Passes -/

theorem exists_replaceIn (hname : IsWord name) {replacement : Skeleton} (hreplacement : Guarded S false replacement)
    (s : Skeleton) {free : Bool} (h : Guarded S free s) :
    ∃ t, Guarded S free t ∧
      ∀ classOf, Names S classOf → (replaceIn name (fill classOf replacement) (fill classOf s)).1 = fill classOf t := by
  match s, h with
  | [], _ => exact ⟨[], trivial, fun _ _ => by rw [fill_nil, replaceIn]⟩
  | .hole source :: s, h =>
    obtain ⟨t, ht, e⟩ := exists_replaceIn hname hreplacement s h.2.2
    refine ⟨.hole source :: t, ⟨h.1, h.2.1, ht⟩, fun classOf hn => ?_⟩
    rw [fill_hole, replaceIn_append ((hn source h.2.1).not_mem (by decide)), e classOf hn, fill_hole]
  | .char c :: s, h =>
    cases uniform_element? hname h with
    | none hnone =>
      obtain ⟨t, ht, e⟩ := exists_replaceIn hname hreplacement s h.tail
      refine ⟨.char c :: t, ht, fun classOf hn => ?_⟩
      have hnone := hnone classOf hn
      rw [fill_char] at hnone ⊢
      rw [replaceIn_of_none hnone, e classOf hn, fill_char]
    | some rest hrest hsome =>
      obtain ⟨t, ht, e⟩ := exists_replaceIn hname hreplacement rest hrest.guarded
      refine ⟨replacement ++ t, (hreplacement.weaken free).append ht, fun classOf hn => ?_⟩
      have hsome := hsome classOf hn
      rw [fill_char] at hsome ⊢
      rw [replaceIn_of_element hsome, e classOf hn, fill_append]
termination_by s.length
decreasing_by
  · exact Nat.lt_add_one s.length
  · exact Nat.lt_add_one s.length
  · exact hrest.shorter

end ComponentSite.Skeleton
