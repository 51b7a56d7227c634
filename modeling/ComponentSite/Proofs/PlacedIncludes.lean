/-
  ComponentSite.Proofs.PlacedIncludes — what the passes leave of a content, piece by piece.

  After all passes a content is made of characters that it held before, in their order, and
  of includes that the passes put in (`madeOf_replaceAll`). The includes stay whole. An
  element begins with an angle bracket, of which an include has only the one behind its two
  braces, and it ends with a bracket that has no brace in front (`exists_of_element?`). So a
  pass takes an include away with all that is around it, or leaves it (`exists_pieces_replaceIn`).
-/
import ComponentSite.Proofs.TagsGone

namespace ComponentSite

namespace ComponentTag
open Text

variable {name : List Char}

theorem exists_of_afterClosingTag? {s rest : List Char} (h : afterClosingTag? name s = some rest) :
    ∃ front t, s = front ++ t ∧ closingTag? name t = some rest := by
  induction s with
  | nil => cases h
  | cons c r ih =>
    unfold afterClosingTag? at h
    split at h
    · rename_i after hc
      cases h
      exact ⟨[], c :: r, rfl, hc⟩
    · obtain ⟨front, t, rfl, ht⟩ := ih h
      exact ⟨c :: front, t, rfl, ht⟩

theorem getLast?_of_closesItself {inner : List Char} (h : closesItself inner = true) : inner.getLast? = some '/' := by
  unfold closesItself at h
  split at h
  · rfl
  · rename_i c r _
    obtain ⟨-, hr⟩ := Bool.and_eq_true_iff.mp h
    rw [List.getLast?_cons, eq_of_beq hr]
    rfl
  · cases h

/-- An element ends with a bracket that has no brace in front of it. -/
theorem exists_of_element? (hname : '\x7b' ∉ name) {s rest : List Char} (h : element? name s = some rest) :
    ∃ front, s = front ++ '>' :: rest ∧ front.getLast? ≠ some '\x7b' := by
  obtain ⟨inner, body, -, rfl, ⟨-, hbody⟩ | ⟨hinner, rfl⟩⟩ := element?_eq_some h
  · obtain ⟨front, t, rfl, ht⟩ := exists_of_afterClosingTag? hbody
    obtain ⟨blanks, hblanks, rfl⟩ := closingTag?_eq_some ht
    refine ⟨'<' :: name ++ (inner ++ '>' :: (front ++ ['<'])) ++ ('/' :: name ++ blanks), by simp, fun e => ?_⟩
    rw [List.getLast?_append_of_ne_nil _ (by simp)] at e
    rcases List.mem_append.mp (List.mem_of_getLast? e) with hmem | hmem
    · rcases List.mem_cons.mp hmem with he | hmem
      · cases he
      · exact hname hmem
    · exact not_mem_of_isBlank rfl hblanks hmem
  · refine ⟨'<' :: name ++ inner, by simp, fun e => ?_⟩
    have hne : inner ≠ [] := by
      rintro rfl
      cases hinner
    rw [List.getLast?_append_of_ne_nil _ hne, getLast?_of_closesItself hinner] at e
    cases e

end ComponentTag

namespace Composition
open Text ComponentTag

/-! ## Pieces -/

inductive Piece
  | own (c : Char)
  | placed (template : String)

namespace Piece

def source : Piece → List Char
  | own c => [c]
  | placed template => (includeTag template).toList

def own? : Piece → Option Char
  | own c => some c
  | placed _ => none

def written (pieces : List Piece) : List Char := pieces.flatMap source

def Placed (T : String → Prop) (pieces : List Piece) : Prop := ∀ template, placed template ∈ pieces → T template

theorem written_own (s : List Char) : written (s.map own) = s := by
  rw [written, List.flatMap_map]
  exact List.flatMap_singleton' s

theorem filterMap_own? (s : List Char) : (s.map own).filterMap own? = s := by
  rw [List.filterMap_map]
  exact List.filterMap_some

/-- The one bracket in an include has a brace in front of it. -/
theorem getLast?_of_bracket {template : String} (h : '>' ∉ template.toList) {front rest : List Char}
    (e : (includeTag template).toList = front ++ '>' :: rest) : front.getLast? = some '\x7b' := by
  rw [toList_includeTag] at e
  rcases List.append_eq_append_iff.mp e with ⟨u, rfl, hu⟩ | ⟨u, hmark, hu⟩
  · have hmem : '>' ∈ includeRest template.toList := by
      rw [hu]
      exact List.mem_append_right _ List.mem_cons_self
    simp [includeRest, h] at hmem
  · rw [includeMark] at hmark
    rcases front with _ | ⟨_, _ | ⟨_, _ | ⟨_, _ | ⟨_, front⟩⟩⟩⟩
    · obtain rfl := hmark
      cases hu
    · obtain ⟨rfl, rfl⟩ := List.cons.inj hmark
      cases hu
    · obtain ⟨rfl, h⟩ := List.cons.inj hmark
      obtain ⟨rfl, rfl⟩ := List.cons.inj h
      rfl
    · obtain rfl : u = [] := by simpa using congrArg List.length hmark
      cases hu
    · have := congrArg List.length hmark
      simp at this

/-- A closing bracket without a brace in front of it is no part of an include. -/
theorem exists_of_bracket {pieces : List Piece} (hT : Placed (fun n => '>' ∉ n.toList) pieces) {front rest : List Char}
    (h : written pieces = front ++ '>' :: rest) (hfront : front.getLast? ≠ some '\x7b') :
    ∃ before after, pieces = before ++ own '>' :: after ∧ written after = rest := by
  induction pieces generalizing front with
  | nil => simp [written] at h
  | cons piece pieces ih =>
    have hcons : written (piece :: pieces) = piece.source ++ written pieces := rfl
    rw [hcons] at h
    have hrest : Placed (fun n => '>' ∉ n.toList) pieces := fun n hn => hT n (List.mem_cons_of_mem _ hn)
    -- the bracket is behind this piece, or in it
    have hcases : (∃ u, front = piece.source ++ u ∧ written pieces = u ++ '>' :: rest) ∨
        ∃ u, piece.source = front ++ '>' :: u ∧ rest = u ++ written pieces := by
      rcases List.append_eq_append_iff.mp h with h | ⟨u, hsource, hu⟩
      · exact Or.inl h
      · cases u with
        | nil => exact Or.inl ⟨[], by simpa using hsource.symm, hu.symm⟩
        | cons x u =>
          cases hu
          exact Or.inr ⟨u, hsource, rfl⟩
    rcases hcases with ⟨u, rfl, hu⟩ | ⟨u, hsource, rfl⟩
    · have hlast : u.getLast? ≠ some '\x7b' := by
        intro e
        rw [List.getLast?_append, e] at hfront
        exact hfront rfl
      obtain ⟨before, after, rfl, hafter⟩ := ih hrest hu hlast
      exact ⟨piece :: before, after, rfl, hafter⟩
    · cases piece with
      | own c =>
        obtain ⟨rfl, hu⟩ | ⟨-, hu⟩ := List.append_eq_singleton_iff.mp hsource.symm
        · cases hu
          exact ⟨[], pieces, rfl, rfl⟩
        · cases hu
      | placed template => exact absurd (getLast?_of_bracket (hT template List.mem_cons_self) hsource) hfront

end Piece

/-! ## Passes -/

open Piece (written Placed)

/-- A pass that puts in includes of `T`, or nothing. -/
theorem exists_pieces_replaceIn {T : String → Prop} (hT : ∀ n, T n → '<' ∉ n.toList ∧ '>' ∉ n.toList)
    {name replacement : List Char} (hname : '\x7b' ∉ name)
    (hput : replacement = [] ∨ ∃ n, T n ∧ replacement = (includeTag n).toList)
    (pieces : List Piece) (hpieces : Placed T pieces) :
    ∃ after, (replaceIn name replacement (written pieces)).1 = written after ∧
      (after.filterMap Piece.own?).Sublist (pieces.filterMap Piece.own?) ∧ Placed T after := by
  match pieces, hpieces with
  | [], h => exact ⟨[], by rw [written, List.flatMap_nil, replaceIn], .slnil, h⟩
  | .placed n :: rest, h =>
    obtain ⟨after, hafter, hown, hplaced⟩ :=
      exists_pieces_replaceIn hT hname hput rest fun n hn => h n (List.mem_cons_of_mem _ hn)
    refine ⟨.placed n :: after, ?_, hown, fun m hm => ?_⟩
    · show (replaceIn name replacement ((includeTag n).toList ++ written rest)).1 =
        (includeTag n).toList ++ written after
      rw [replaceIn_append, hafter]
      rw [toList_includeTag]
      exact not_mem_include (hT n (h n List.mem_cons_self)).1
    · rcases List.mem_cons.mp hm with hm | hm
      · exact h m (hm ▸ List.mem_cons_self)
      · exact hplaced m hm
  | .own c :: rest, h =>
    have hcons : written (.own c :: rest) = c :: written rest := rfl
    rw [hcons]
    cases he : element? name (c :: written rest) with
    | none =>
      obtain ⟨after, hafter, hown, hplaced⟩ :=
        exists_pieces_replaceIn hT hname hput rest fun n hn => h n (List.mem_cons_of_mem _ hn)
      refine ⟨.own c :: after, ?_, hown.cons_cons c, fun m hm => ?_⟩
      · rw [replaceIn_of_none he, hafter]
        rfl
      · rcases List.mem_cons.mp hm with hm | hm
        · cases hm
        · exact hplaced m hm
    | some left =>
      -- what is left begins behind a bracket of the content, so it is made of whole pieces
      obtain ⟨front, hcut, hfront⟩ := exists_of_element? hname he
      obtain ⟨before, kept, hkept, rfl⟩ :=
        Piece.exists_of_bracket (fun n hn => (hT n (h n hn)).2) (hcons.trans hcut) hfront
      have hlen : kept.length < (Piece.own c :: rest).length := by
        rw [hkept]
        simp
        omega
      obtain ⟨after, hafter, hown, hplaced⟩ := exists_pieces_replaceIn hT hname hput kept fun n hn => h n (by
        rw [hkept]
        exact List.mem_append_right _ (List.mem_cons_of_mem _ hn))
      have hsub : (kept.filterMap Piece.own?).Sublist ((Piece.own c :: rest).filterMap Piece.own?) := by
        rw [hkept]
        exact List.Sublist.filterMap _ ((List.sublist_cons_self _ _).trans (List.sublist_append_right _ _))
      rw [replaceIn_of_element he, hafter]
      rcases hput with rfl | ⟨n, hn, rfl⟩
      · exact ⟨after, rfl, hown.trans hsub, hplaced⟩
      · refine ⟨.placed n :: after, rfl, hown.trans hsub, fun m hm => ?_⟩
        rcases List.mem_cons.mp hm with hm | hm
        · cases hm
          exact hn
        · exact hplaced m hm
termination_by pieces.length
decreasing_by
  · exact Nat.lt_add_one rest.length
  · exact Nat.lt_add_one rest.length
  · exact hlen

/-- The text is made of characters of `before`, in their order, and of includes of `T`. -/
def MadeOf (T : String → Prop) (before text : String) : Prop :=
  ∃ pieces, text.toList = written pieces ∧ (pieces.filterMap Piece.own?).Sublist before.toList ∧ Placed T pieces

theorem MadeOf.refl (T : String → Prop) (text : String) : MadeOf T text text := by
  refine ⟨text.toList.map .own, (Piece.written_own _).symm, by rw [Piece.filterMap_own?], fun n hn => ?_⟩
  obtain ⟨_, -, e⟩ := List.mem_map.mp hn
  cases e

/-- A component whose elements become an include of `T` or nothing, under names without a brace. -/
structure Placeable (T : String → Prop) (c : Component) : Prop where
  names : ∀ n ∈ c.names, '\x7b' ∉ n.toList
  include_eq : includeFor c = "" ∨ ∃ n, T n ∧ includeFor c = includeTag n

section Passes

variable {T : String → Prop} (hT : ∀ n, T n → '<' ∉ n.toList ∧ '>' ∉ n.toList) {before text : String}
include hT

theorem MadeOf.replace {name replacement : String} (hname : '\x7b' ∉ name.toList)
    (hput : replacement = "" ∨ ∃ n, T n ∧ replacement = includeTag n) (h : MadeOf T before text) :
    MadeOf T before (ComponentTag.replace name text replacement).1 := by
  obtain ⟨pieces, htext, hown, hplaced⟩ := h
  have hput : replacement.toList = [] ∨ ∃ n, T n ∧ replacement.toList = (includeTag n).toList := by
    rcases hput with rfl | ⟨n, hn, rfl⟩
    · exact Or.inl rfl
    · exact Or.inr ⟨n, hn, rfl⟩
  obtain ⟨after, hafter, hsub, hT'⟩ := exists_pieces_replaceIn hT hname hput pieces hplaced
  refine ⟨after, ?_, hsub.trans hown, hT'⟩
  simp only [ComponentTag.replace, String.toList_ofList]
  rw [htext, hafter]

theorem MadeOf.replaceElements {target : Component} (ht : Placeable T target) (h : MadeOf T before text) :
    MadeOf T before (replaceElements text target) := by
  unfold Composition.replaceElements
  have hnames := ht.names
  generalize target.names = names at hnames
  induction names generalizing text with
  | nil => exact h
  | cons name names ih =>
    exact ih (h.replace hT (hnames name List.mem_cons_self) ht.include_eq)
      fun n hn => hnames n (List.mem_cons_of_mem _ hn)

theorem madeOf_replaceAll {targets : List Component} (ht : ∀ t ∈ targets, Placeable T t) (text : String) :
    MadeOf T text (replaceAll targets text) := by
  suffices h : ∀ now, MadeOf T text now → MadeOf T text (replaceAll targets now) from h text (.refl T text)
  induction targets with
  | nil => exact fun _ h => h
  | cons t targets ih =>
    exact fun now h => ih (fun u hu => ht u (List.mem_cons_of_mem _ hu)) _
      (h.replaceElements hT (ht t List.mem_cons_self))

end Passes

end Composition

end ComponentSite
