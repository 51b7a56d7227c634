/-
  ComponentSite.Proofs.SelectorMarks — where the marks in a list of selectors stand.

  A mark begins with a dot, and behind a bare tag there is never a dot: what stands there is
  a pseudo-class, the end of the compound or the end of the selector (`BareTag.head_tail`).
  So a list with a mark differs from the list without it at the first mark, whatever stands
  behind both (`noneBare_of_append_eq`). The first mark is in front of everything that
  is read differently for it (`exists_first_mark`).
-/
import ComponentSite.Proofs.SheetTree

namespace ComponentSite.Style
open Text

/-- What stands behind the name of a bare tag. -/
theorem BareTag.head_tail {lead tag tail : List Char} (h : BareTag lead tag tail) :
    tail.head?.all (fun c => c == ':' || endsCompound c) = true := by
  obtain ⟨pseudos, rest, rfl, hpseudos, -, hrest⟩ := h.tail
  cases pseudos with
  | nil =>
    rw [List.nil_append]
    cases rest with
    | nil => rfl
    | cons c rest => exact (Bool.or_eq_true _ _).mpr (Or.inr hrest)
  | cons c pseudos =>
    by_cases hc : c = ':'
    · exact (Bool.or_eq_true _ _).mpr (Or.inl (by simpa using hc))
    · simp [isPseudos, PseudoState.next?, hc] at hpseudos

theorem BareTag.head?_tail_ne {lead tag tail : List Char} (h : BareTag lead tag tail) : tail.head? ≠ some '.' := by
  intro e
  have hhead := h.head_tail
  rw [e] at hhead
  exact absurd hhead (by decide)

theorem BareTag.ends_tag {lead tag tail : List Char} (h : BareTag lead tag tail) :
    tail.head?.all (!isTagChar ·) = true := by
  have hhead := h.head_tail
  cases tail with
  | nil => rfl
  | cons c tail =>
    cases hc : isTagChar c with
    | false => simp [hc]
    | true =>
      have hcolon : c ≠ ':' := fun e => absurd hc (e ▸ by decide)
      simp [hcolon, endsCompound_of_isTagChar hc] at hhead

/-- Behind white space and a name there is one rest. -/
theorem tail_unique {lead tag tail lead' tag' tail' : List Char} (hlead : lead.all isBlank = true)
    (hlead' : lead'.all isBlank = true) (htag : IsTag tag) (htag' : IsTag tag')
    (htail : tail.head?.all (!isTagChar ·) = true)
    (htail' : tail'.head?.all (!isTagChar ·) = true) (e : lead ++ tag ++ tail = lead' ++ tag' ++ tail') :
    tail = tail' := by
  have hname : ∀ {tag : List Char} (r : List Char), IsTag tag → (tag ++ r).head?.all (!isBlank ·) = true := by
    intro tag r htag
    obtain ⟨c, r', rfl, -, hc⟩ := htag.exists_cons
    simp [isBlank_of_isTagChar hc]
  rw [List.append_assoc, List.append_assoc] at e
  have hnames := (takeWhile_append_of_head (List.all_eq_true.mp hlead) (hname tail htag)).2
  rw [e, (takeWhile_append_of_head (List.all_eq_true.mp hlead') (hname tail' htag')).2] at hnames
  have htails := (takeWhile_append_of_head (List.all_eq_true.mp htag.2) htail).2
  rw [← hnames, (takeWhile_append_of_head (List.all_eq_true.mp htag'.2) htail').2] at htails
  exact htails.symm

def IsBare (s : List Char) : Prop := ∃ lead tag tail, s = lead ++ tag ++ tail ∧ BareTag lead tag tail

theorem isBare_iff {s : List Char} : IsBare s ↔ (scopeSelector [] s).2.isSome = true := by
  constructor
  · rintro ⟨lead, tag, tail, rfl, h⟩
    rw [h.scopeSelector_text]
    rfl
  · intro h
    refine (bareTag_or_unscoped s).resolve_right fun hsame => ?_
    rw [hsame] at h
    cases h

theorem scopeSelector_of_not_isBare {s : List Char} (h : ¬ IsBare s) (cls : List Char) :
    scopeSelector cls s = (s, none) :=
  (bareTag_or_unscoped s).resolve_left h cls

instance (s : List Char) : Decidable (IsBare s) := decidable_of_iff _ isBare_iff.symm

/-! ## Lists of selectors -/

/-- No selector of the list is a bare one. -/
def NoneBare (prelude : List Char) : Prop := ∀ s ∈ prelude.splitOn ',', ¬ IsBare s

instance (prelude : List Char) : Decidable (NoneBare prelude) := inferInstanceAs (Decidable (∀ s ∈ _, _))

namespace Selector

theorem wellFormed_other {s : List Char} (hcomma : ',' ∉ s) (h : ¬ IsBare s) : (other s).WellFormed :=
  ⟨hcomma, fun lead tag tail e hbare => h ⟨lead, tag, tail, e, hbare⟩⟩

theorem listWith_cons (mark : List Char) (s : Selector) (rest : List Selector) :
    listWith mark (s :: rest) = s.textWith mark ++ rest.flatMap fun t => ',' :: t.textWith mark := by
  induction rest generalizing s with
  | nil => simp [listWith]
  | cons t rest ih =>
    have ih := ih t
    simp only [listWith, List.map_cons, List.intercalate_cons_cons] at ih ⊢
    rw [ih]
    simp

theorem listWith_append {a b : List Selector} (ha : a ≠ []) (hb : b ≠ []) (mark : List Char) :
    listWith mark (a ++ b) = listWith mark a ++ ',' :: listWith mark b := by
  obtain ⟨s, a, rfl⟩ := List.exists_cons_of_ne_nil ha
  obtain ⟨t, b, rfl⟩ := List.exists_cons_of_ne_nil hb
  simp [listWith_cons]

/-- Marks stand behind bare tags only. -/
theorem listWith_of_no_tags {selectors : List Selector} (h : selectors.filterMap tag? = []) (mark : List Char) :
    listWith mark selectors = listWith [] selectors := by
  have hother : ∀ s ∈ selectors, s.textWith mark = s.textWith [] := by
    intro s hs
    cases s with
    | bare lead tag tail => exact absurd (List.filterMap_eq_nil_iff.mp h _ hs) (Option.some_ne_none tag)
    | other s => rfl
  rw [listWith, listWith, List.map_congr_left hother]

end Selector

def qualifiedTags (prelude : List Char) : List (List Char) := (scopeSelectorList [] prelude).2

theorem qualifiedTags_listWith {selectors : List Selector} (hne : selectors ≠ []) (h : ∀ s ∈ selectors, s.WellFormed) :
    qualifiedTags (Selector.listWith [] selectors) = selectors.filterMap Selector.tag? := by
  rw [qualifiedTags, Selector.scopeSelectorList_text hne h]

/-- Which tags are qualified does not depend on the class. -/
theorem scopeSelectorList_tags (cls prelude : List Char) :
    (scopeSelectorList cls prelude).2 = qualifiedTags prelude := by
  obtain ⟨selectors, hne, h, rfl⟩ := Selector.exists_list prelude
  rw [Selector.scopeSelectorList_text hne h, qualifiedTags_listWith hne h]

theorem scopeSelectorList_of_no_tags {prelude : List Char} (h : qualifiedTags prelude = []) (cls : List Char) :
    scopeSelectorList cls prelude = (prelude, []) := by
  obtain ⟨selectors, hne, hwell, rfl⟩ := Selector.exists_list prelude
  rw [qualifiedTags_listWith hne hwell] at h
  rw [Selector.scopeSelectorList_text hne hwell, h, Selector.listWith_of_no_tags h]

theorem noneBare_iff {prelude : List Char} : NoneBare prelude ↔ qualifiedTags prelude = [] := by
  obtain ⟨selectors, hne, h, rfl⟩ := Selector.exists_list prelude
  have hselector : ∀ s ∈ selectors, ¬ IsBare s.text ↔ s.tag? = none := by
    intro s hs
    rw [isBare_iff, Selector.scopeSelector_text (h s hs), Option.isSome_iff_ne_none, not_ne_iff]
  rw [NoneBare, Selector.splitOn_listWith hne h, qualifiedTags_listWith hne h,
    List.forall_mem_map, List.filterMap_eq_nil_iff]
  exact forall₂_congr hselector

theorem scopeSelectorList_append (cls a b : List Char) :
    scopeSelectorList cls (a ++ ',' :: b) =
      ((scopeSelectorList cls a).1 ++ ',' :: (scopeSelectorList cls b).1, qualifiedTags a ++ qualifiedTags b) := by
  obtain ⟨ss, hss, hs, rfl⟩ := Selector.exists_list a
  obtain ⟨ts, hts, ht, rfl⟩ := Selector.exists_list b
  have hne : ss ++ ts ≠ [] := fun e => hss (List.append_eq_nil_iff.mp e).1
  have hall : ∀ s ∈ ss ++ ts, s.WellFormed := fun s hmem => (List.mem_append.mp hmem).elim (hs s) (ht s)
  rw [← Selector.listWith_append hss hts, Selector.scopeSelectorList_text hne hall, Selector.listWith_append hss hts,
    Selector.scopeSelectorList_text hss hs, Selector.scopeSelectorList_text hts ht, qualifiedTags_listWith hss hs,
    qualifiedTags_listWith hts ht, List.filterMap_append]

theorem scopeSelectorList_of_not_mem {s : List Char} (h : ',' ∉ s) (cls : List Char) :
    scopeSelectorList cls s = ((scopeSelector cls s).1, (scopeSelector cls s).2.toList) := by
  obtain ⟨selector, hselector, rfl⟩ := Selector.exists_text h
  have hlist : selector.text = Selector.listWith [] [selector] := by simp [Selector.listWith_cons, Selector.text]
  rw [Selector.scopeSelector_text hselector, hlist,
    Selector.scopeSelectorList_text (List.cons_ne_nil selector []) (List.forall_mem_singleton.mpr hselector),
    Selector.listWith_cons, List.flatMap_nil, List.append_nil]
  cases selector <;> rfl

theorem scopeSelectorList_first {s : List Char} (h : ',' ∉ s) (cls rest : List Char) :
    scopeSelectorList cls (s ++ ',' :: rest) =
      ((scopeSelector cls s).1 ++ ',' :: (scopeSelectorList cls rest).1,
        (scopeSelector cls s).2.toList ++ qualifiedTags rest) := by
  rw [scopeSelectorList_append, ← scopeSelectorList_tags cls s, scopeSelectorList_of_not_mem h]

/-! ## The first mark -/

/-- Behind white space, at the beginning or behind a comma. -/
def StartsSelector (u : List Char) : Prop :=
  ∃ front lead, u = front ++ lead ∧ lead.all isBlank = true ∧ front.getLast?.all (· == ',') = true

/-- In a list with bare tags there is a first one. Up to it the marks change nothing. -/
theorem Selector.exists_first_mark {selectors : List Selector} (h : ∀ s ∈ selectors, s.WellFormed)
    (htags : selectors.filterMap tag? ≠ []) (mark : List Char) :
    ∃ u tag v w, listWith [] selectors = u ++ tag ++ v ∧ listWith mark selectors = u ++ tag ++ mark ++ w ∧
      StartsSelector u ∧ IsTag tag ∧ v.head? ≠ some '.' := by
  induction selectors with
  | nil => exact absurd rfl htags
  | cons s rest ih =>
    obtain ⟨hs, hrest⟩ := List.forall_mem_cons.mp h
    cases s with
    | bare lead tag tail =>
      refine ⟨lead, tag, tail ++ rest.flatMap fun t => ',' :: t.textWith [],
        tail ++ rest.flatMap fun t => ',' :: t.textWith mark,
        by simp [listWith_cons, textWith], by simp [listWith_cons, textWith],
        ⟨[], lead, rfl, hs.2.lead, rfl⟩, hs.2.tag, ?_⟩
      cases tail with
      | nil => cases rest <;> simp
      | cons c tail => exact hs.2.head?_tail_ne
    | other s =>
      obtain ⟨s', rest, rfl⟩ := List.exists_cons_of_ne_nil (l := rest) fun e => htags (by rw [e]; rfl)
      obtain ⟨u, tag, v, w, hu, hw, ⟨front, lead, rfl, hlead, hfront⟩, htag, hv⟩ := ih hrest htags
      have hcut : ∀ m, listWith m (.other s :: s' :: rest) = s ++ ',' :: listWith m (s' :: rest) :=
        fun m => by simp [listWith_cons, textWith]
      refine ⟨s ++ ',' :: (front ++ lead), tag, v, w, by rw [hcut, hu]; simp, by rw [hcut, hw]; simp,
        ⟨s ++ ',' :: front, lead, by simp, hlead, ?_⟩, htag, hv⟩
      cases front with
      | nil => simp
      | cons c front => rwa [List.getLast?_append_of_ne_nil _ (by simp), List.getLast?_cons_cons]

theorem exists_first_mark {prelude : List Char} (h : qualifiedTags prelude ≠ []) (cls : List Char) :
    ∃ u tag v w, prelude = u ++ tag ++ v ∧ (scopeSelectorList cls prelude).1 = u ++ tag ++ '.' :: w ∧
      StartsSelector u ∧ IsTag tag ∧ v.head? ≠ some '.' := by
  obtain ⟨selectors, hne, hwell, rfl⟩ := Selector.exists_list prelude
  rw [qualifiedTags_listWith hne hwell] at h
  obtain ⟨u, tag, v, w, hu, hw, hrest⟩ := Selector.exists_first_mark hwell h ('.' :: cls)
  refine ⟨u, tag, v, cls ++ w, hu, ?_, hrest⟩
  rw [Selector.scopeSelectorList_text hne hwell, hw]
  simp

/-- Two texts that begin with a list and with the same list scoped differ at the first mark. -/
theorem noneBare_of_append_eq {cls prelude r r' : List Char}
    (h : (scopeSelectorList cls prelude).1 ++ r = prelude ++ r')
    (hr : r'.head? ≠ some '.') : NoneBare prelude := by
  rw [noneBare_iff]
  by_contra htags
  obtain ⟨u, tag, v, w, hu, hw, -, -, hv⟩ := exists_first_mark htags cls
  rw [hw, hu, List.append_assoc (u ++ tag), List.append_assoc (u ++ tag)] at h
  have hhead : some '.' = (v ++ r').head? := congrArg List.head? (List.append_cancel_left h)
  cases v with
  | nil => exact hr hhead.symm
  | cons c v => exact hv hhead.symm

end ComponentSite.Style
