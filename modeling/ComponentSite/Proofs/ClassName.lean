/-
  ComponentSite.Proofs.ClassName — what scope classes and custom elements are named.

  Their names are letters, digits and dashes (`isPlain_classOf`, `isPlain_tag`), so that
  they mean nothing to the markup and the templates they are put into; no letter of a scope
  class is a capital one (`isClassName_classOf`).

  A hashed class is the start of the digest of the path's characters, encoded one by one
  (`hashed_eq_ofChars`). That of some paths is kept in a table (`hashed_eq_ofTable`), so
  that projects of these paths can be run without taking digests.
-/
import ComponentSite.Config
import ComponentSite.Style.Markup
import ComponentSite.Style.Selector

namespace ComponentSite

open Style (isMarkupNameChar isTagChar)

/-- Nothing but letters, digits and dashes. -/
def IsPlain (s : List Char) : Prop := ∀ c ∈ s, isMarkupNameChar c = true

theorem isPlain_of_all {s : List Char} (h : s.all isMarkupNameChar = true) : IsPlain s := List.all_eq_true.mp h

theorem IsPlain.append {s t : List Char} (hs : IsPlain s) (ht : IsPlain t) : IsPlain (s ++ t) :=
  fun c hc => (List.mem_append.mp hc).elim (hs c) (ht c)

structure IsClassName (s : String) : Prop where
  ne_nil : s.toList ≠ []
  chars : ∀ c ∈ s.toList, isTagChar c = true

instance (s : String) : Decidable (IsClassName s) :=
  decidable_of_iff (s.toList ≠ [] ∧ s.toList.all isTagChar = true)
    ⟨fun h => ⟨h.1, List.all_eq_true.mp h.2⟩, fun h => ⟨h.ne_nil, List.all_eq_true.mpr h.chars⟩⟩

theorem isMarkupNameChar_of_isTagChar {c : Char} (h : isTagChar c = true) : isMarkupNameChar c = true := by
  unfold isTagChar at h
  unfold isMarkupNameChar
  delta Char.isAlphanum Char.isAlpha
  simp only [Bool.or_eq_true] at h ⊢
  rcases h with (h | h) | h
  · exact Or.inl (Or.inl (Or.inr h))
  · exact Or.inl (Or.inr h)
  · exact Or.inr h

theorem isBlank_of_isMarkupNameChar {c : Char} (h : isMarkupNameChar c = true) : Text.isBlank c = false := by
  unfold isMarkupNameChar at h
  unfold Text.isBlank
  delta Char.isAlphanum Char.isAlpha Char.isUpper Char.isLower Char.isDigit at h
  simp only [UInt32.le_iff_toNat_le, Bool.or_eq_true, Bool.and_eq_true, decide_eq_true_eq, beq_iff_eq] at h
  have hn : c.toNat = 45 ∨ (48 ≤ c.toNat ∧ c.toNat ≤ 57) ∨ (65 ≤ c.toNat ∧ c.toNat ≤ 90) ∨
      (97 ≤ c.toNat ∧ c.toNat ≤ 122) := by
    rcases h with ((h | h) | h) | rfl
    · exact Or.inr (Or.inr (Or.inl h))
    · exact Or.inr (Or.inr (Or.inr h))
    · exact Or.inr (Or.inl h)
    · exact Or.inl rfl
  simp
  omega

theorem isBlank_of_isTagChar {c : Char} (h : isTagChar c = true) : Text.isBlank c = false :=
  isBlank_of_isMarkupNameChar (isMarkupNameChar_of_isTagChar h)

theorem IsClassName.isPlain {s : String} (h : IsClassName s) : IsPlain s.toList := fun c hc =>
  isMarkupNameChar_of_isTagChar (h.chars c hc)

theorem isTagChar_digitChar {n : Nat} (h : n < 16) : isTagChar n.digitChar = true := by
  have : ∀ i : Fin 16, isTagChar (Nat.digitChar i) = true := by decide
  exact this ⟨n, h⟩

theorem isTagChar_of_mem_toDigits (n : Nat) : ∀ c ∈ Nat.toDigits 16 n, isTagChar c = true := by
  induction n using Nat.strongRecOn with
  | _ n ih =>
    intro c hc
    by_cases h : n < 16
    · rw [Nat.toDigits_of_lt_base h] at hc
      exact List.mem_singleton.mp hc ▸ isTagChar_digitChar h
    · rw [Nat.toDigits_of_base_le (by decide) (by omega)] at hc
      rcases List.mem_append.mp hc with hc | hc
      · exact ih (n / 16) (by omega) c hc
      · exact List.mem_singleton.mp hc ▸ isTagChar_digitChar (Nat.mod_lt _ (by decide))

theorem isTagChar_of_mem_hexDigest (message : List UInt8) : ∀ c ∈ Sha256.hexDigest message, isTagChar c = true := by
  intro c hc
  obtain ⟨w, _, hc⟩ := List.mem_flatMap.mp hc
  rcases List.mem_append.mp hc with hc | hc
  · exact (List.eq_of_mem_replicate hc) ▸ rfl
  · exact isTagChar_of_mem_toDigits _ c hc

theorem ScopeStrategy.isClassName_classOf (strategy : ScopeStrategy) (seed : Nat) (path : Path) :
    IsClassName (strategy.classOf seed path) := by
  have hclass : ∀ s : List Char, (∀ c ∈ s, isTagChar c = true) → IsClassName (ScopeClass.lead ++ String.ofList s) := by
    intro s hs
    have hlead : ScopeClass.lead.toList = ['g', 'o', 'o', '-'] := by decide
    refine ⟨by simp [String.toList_append, hlead], fun c hc => ?_⟩
    rw [String.toList_append, String.toList_ofList, hlead] at hc
    rcases List.mem_append.mp hc with hc | hc
    · exact List.all_eq_true.mp (show ['g', 'o', 'o', '-'].all isTagChar = true by decide) c hc
    · exact hs c hc
  cases strategy with
  | random =>
    have hletters := List.all_eq_true.mp (show ScopeClass.alphabet.all isTagChar = true by decide)
    refine hclass _ fun c hc => ?_
    obtain ⟨w, _, rfl⟩ := List.mem_map.mp hc
    rw [List.getD_eq_getElem?_getD]
    cases hi : ScopeClass.alphabet[w.toNat % ScopeClass.alphabet.length]? with
    | none => rfl
    | some c => exact hletters c (List.mem_of_getElem? hi)
  | hashed => exact hclass _ fun c hc => isTagChar_of_mem_hexDigest _ c (List.mem_of_mem_take hc)

/-- A scope class is made of letters, digits and dashes. -/
theorem ScopeStrategy.isPlain_classOf (strategy : ScopeStrategy) (seed : Nat) (path : Path) :
    IsPlain (strategy.classOf seed path).toList :=
  (strategy.isClassName_classOf seed path).isPlain

theorem isAlphanum_toLower {c : Char} (h : c.isAlphanum = true) : c.toLower.isAlphanum = true := by
  unfold Char.toLower
  split
  · rename_i hu
    have h1 := UInt32.le_iff_toNat_le.mp hu.1
    have h2 := UInt32.le_iff_toNat_le.mp hu.2
    delta Char.isAlphanum Char.isAlpha Char.isUpper Char.isLower Char.isDigit at h ⊢
    simp only [UInt32.le_iff_toNat_le, Bool.or_eq_true, decide_eq_true_eq, UInt32.toNat_add, UInt32.toNat_sub] at *
    simp at *
    omega
  · exact h

theorem CustomElement.isPlain_tag (path appDir : Path) : IsPlain (CustomElement.forPath path appDir).tag.toList := by
  have hlead : IsPlain "goo-".toList := isPlain_of_all (by decide)
  simp only [forPath, String.toList_append, String.toList_ofList]
  refine hlead.append fun c hc => ?_
  have hc : c ∈ (((path.relativeTo? appDir).getD path).withoutExtension.text.toList.flatMap tagChars) := by
    have h1 := (List.dropWhile_sublist _).subset (List.mem_reverse.mp hc)
    exact (List.dropWhile_sublist _).subset (List.mem_reverse.mp h1)
  obtain ⟨d, _, hd⟩ := List.mem_flatMap.mp hc
  unfold tagChars at hd
  split at hd
  · rename_i halnum
    rw [List.mem_singleton.mp hd, isMarkupNameChar, isAlphanum_toLower halnum, Bool.true_or]
  · split at hd
    · exact List.mem_singleton.mp hd ▸ rfl
    · split at hd
      · rcases List.mem_cons.mp hd with rfl | hd
        · rfl
        · exact List.mem_singleton.mp hd ▸ rfl
      · exact List.mem_singleton.mp hd ▸ rfl

/-! ## Hashed classes -/

theorem toList_loop (bytes : ByteArray) (i : Nat) (acc : List UInt8) :
    ByteArray.toList.loop bytes i acc = acc.reverse ++ bytes.data.toList.drop i := by
  fun_induction ByteArray.toList.loop bytes i acc with
  | case1 i acc hi ih =>
    have hi' : i < bytes.data.toList.length := by simpa using hi
    have hget : bytes.get! i = bytes.data.toList[i] := by
      show bytes.data[i]! = _
      rw [getElem!_pos bytes.data i hi]
      rfl
    rw [ih, hget, List.reverse_cons, List.append_assoc, List.singleton_append, List.getElem_cons_drop]
  | case2 i acc hi =>
    have hi' : bytes.data.toList.length ≤ i := by simpa using hi
    rw [List.drop_eq_nil_of_le hi', List.append_nil]

theorem toList_toUTF8 (s : String) : s.toUTF8.toList = s.toList.flatMap String.utf8EncodeChar := by
  have h : s.toUTF8 = s.toList.utf8Encode := String.utf8Encode_toList.symm
  rw [ByteArray.toList, toList_loop, h, List.utf8Encode, List.toList_data_toByteArray]
  rfl

/-- The class of a path, taken of its characters encoded one by one. -/
def ScopeClass.ofChars (path : Path) : String :=
  lead ++ String.ofList ((Sha256.hexDigest (path.text.toList.flatMap String.utf8EncodeChar)).take size)

theorem ScopeClass.hashed_eq_ofChars : hashed = ofChars := by
  funext path
  rw [hashed, ofChars, toList_toUTF8]

/-- Some paths with their hashed classes. -/
def ScopeClass.table : List (String × String) :=
  [("p.goo", "goo-b172c3cb"), ("a.goo", "goo-00a2fd28"), ("b.goo", "goo-392fc485"), ("e.goo", "goo-bf4770a5"),
    ("adh0.goo", "goo-0d083b7c"), ("aee0.goo", "goo-0d083b7c")]

theorem ScopeClass.ofChars_of_mem_table : ∀ entry ∈ table, ofChars ⟨entry.1⟩ = entry.2 := by decide +kernel

/-- The hashed class of a path, looked up where the table has it. -/
def ScopeClass.ofTable (path : Path) : String := (table.lookup path.text).getD (ofChars path)

theorem ScopeClass.hashed_eq_ofTable : hashed = ofTable := by
  rw [hashed_eq_ofChars]
  funext path
  unfold ofTable
  cases hfound : table.lookup path.text with
  | none => rfl
  | some scopeClass =>
    obtain ⟨before, after, htable, -⟩ := List.lookup_eq_some_iff.mp hfound
    exact ofChars_of_mem_table (path.text, scopeClass) (by simp [htable])

theorem Config.compileOptions_hashed (seed : Nat) :
    ({ scopeStrategy := .hashed } : Config).compileOptions seed = { classOf := ScopeClass.ofTable } := by
  rw [← ScopeClass.hashed_eq_ofTable]
  rfl

end ComponentSite
