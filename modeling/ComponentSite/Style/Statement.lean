/-
  ComponentSite.Style.Statement — the statements of a stylesheet.

  A stylesheet is a run of statements: a prelude and a semicolon, or a prelude and
  a block in braces. Braces and semicolons in comments do not count while a prelude
  is read; inside a block only braces count, wherever they stand. What is read is
  never changed: prelude, block and rest together are the text
  (`takePrelude_append`, `takeBlock_append`).
-/
import ComponentSite.Text.Search

namespace ComponentSite.Style

/-- Where in a prelude a character stands. `closing` is the slash that ends a
    comment. The star of the opening may be that of the closing, so `/*/` is a whole
    comment. -/
inductive Zone
  | code
  | comment
  | closing
  deriving DecidableEq, Repr

/-- The text up to the brace or semicolon that ends the prelude, and the rest. -/
def takePrelude : Zone → List Char → List Char × List Char
  | _, [] => ([], [])
  | .code, c :: r =>
    if c == '\x7b' || c == ';' then ([], c :: r)
    else
      let zone := if c == '/' && r.head? == some '*' then Zone.comment else Zone.code
      let (prelude, rest) := takePrelude zone r
      (c :: prelude, rest)
  | .comment, c :: r =>
    let zone := if c == '*' && r.head? == some '/' then Zone.closing else Zone.comment
    let (prelude, rest) := takePrelude zone r
    (c :: prelude, rest)
  | .closing, c :: r =>
    let (prelude, rest) := takePrelude .code r
    (c :: prelude, rest)

/-- The text up to the brace that closes the block, `depth` being open, and the
    rest. An unclosed block is all there is. -/
def takeBlock (depth : Nat) : List Char → List Char × List Char
  | [] => ([], [])
  | c :: r =>
    if c == '\x7d' && depth ≤ 1 then ([c], r)
    else
      let depth := if c == '\x7b' then depth + 1 else if c == '\x7d' then depth - 1 else depth
      let (block, rest) := takeBlock depth r
      (c :: block, rest)

/-- What is between the braces of a block, without the last brace if there is one. -/
def blockBody (block : List Char) : List Char :=
  let body := block.drop 1
  if body.getLast? == some '\x7d' then body.dropLast else body

def blockEnd (block : List Char) : List Char :=
  if (block.drop 1).getLast? == some '\x7d' then ['\x7d'] else []

/-! ## Nothing is lost -/

theorem takePrelude_append (z : Zone) (s : List Char) :
    (takePrelude z s).1 ++ (takePrelude z s).2 = s := by
  fun_induction takePrelude z s <;> simp_all

theorem takeBlock_append (d : Nat) (s : List Char) :
    (takeBlock d s).1 ++ (takeBlock d s).2 = s := by
  fun_induction takeBlock d s <;> simp_all

theorem takeBlock_ne_nil (d : Nat) (c : Char) (r : List Char) : (takeBlock d (c :: r)).1 ≠ [] := by
  unfold takeBlock
  split <;> simp

theorem takePrelude_length (z : Zone) (s : List Char) : (takePrelude z s).2.length ≤ s.length := by
  have := congrArg List.length (takePrelude_append z s)
  simp at this; omega

theorem takePrelude_rest_length {z : Zone} {s prelude rest : List Char} {c : Char}
    (h : takePrelude z s = (prelude, c :: rest)) : rest.length < s.length := by
  have := takePrelude_length z s
  rw [h, List.length_cons] at this
  exact this

theorem takeBlock_length (d : Nat) (c : Char) (r : List Char) :
    (takeBlock d (c :: r)).1.length + (takeBlock d (c :: r)).2.length = r.length + 1 := by
  have := congrArg List.length (takeBlock_append d (c :: r))
  simpa using this

theorem takeBlock_rest_length (d : Nat) (c : Char) (r : List Char) :
    (takeBlock d (c :: r)).2.length ≤ r.length := by
  have := takeBlock_length d c r
  have := List.length_pos_iff.mpr (takeBlock_ne_nil d c r)
  omega

theorem blockBody_length {block : List Char} (h : block ≠ []) :
    (blockBody block).length < block.length := by
  have hpos : 0 < block.length := List.length_pos_iff.mpr h
  unfold blockBody
  simp only
  split <;> simp <;> omega

theorem takeBlock_body_length (d : Nat) (c : Char) (r : List Char) :
    (blockBody (takeBlock d (c :: r)).1).length ≤ r.length := by
  have := takeBlock_length d c r
  have := blockBody_length (takeBlock_ne_nil d c r)
  omega

end ComponentSite.Style
