/-
  ComponentSite.Text.Blank — white space, and texts without it at their ends.

  Text is scanned as a list of characters. `trim` takes the white space off both
  ends, so what `trimStart` leaves begins with another character
  (`trimStart_head`).
-/

namespace ComponentSite.Text

/-- The characters with Unicode's White_Space property. -/
def isBlank (c : Char) : Bool :=
  let n := c.toNat
  (0x09 ≤ n && n ≤ 0x0D) || n == 0x20 || n == 0x85 || n == 0xA0 || n == 0x1680 ||
    (0x2000 ≤ n && n ≤ 0x200A) || n == 0x2028 || n == 0x2029 || n == 0x202F ||
    n == 0x205F || n == 0x3000

def trimStart (s : List Char) : List Char := s.dropWhile isBlank

def trimEnd (s : List Char) : List Char := (s.reverse.dropWhile isBlank).reverse

def trim (s : List Char) : List Char := trimEnd (trimStart s)

def trimmed (s : String) : String := String.ofList (trim s.toList)

theorem not_mem_of_isBlank {c : Char} (hc : isBlank c = false) {blanks : List Char} (h : blanks.all isBlank = true) :
    c ∉ blanks := fun hm => Bool.noConfusion (hc.symm.trans (List.all_eq_true.mp h c hm))

/-! ## What trimming leaves -/

theorem trimStart_cons_of_isBlank {c : Char} (h : isBlank c = true) (s : List Char) :
    trimStart (c :: s) = trimStart s := by
  simp [trimStart, h]

theorem trimStart_cons_of_not_isBlank {c : Char} (h : isBlank c = false) (s : List Char) :
    trimStart (c :: s) = c :: s := by
  simp [trimStart, h]

theorem trimStart_head {s r : List Char} {c : Char} (h : trimStart s = c :: r) :
    isBlank c = false := by
  induction s with
  | nil => simp [trimStart] at h
  | cons a s ih =>
    by_cases ha : isBlank a = true
    · exact ih (by rwa [trimStart_cons_of_isBlank ha] at h)
    · have ha : isBlank a = false := by simpa using ha
      rw [trimStart_cons_of_not_isBlank ha] at h
      cases h; exact ha

end ComponentSite.Text
