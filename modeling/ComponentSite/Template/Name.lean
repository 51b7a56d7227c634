/-
  ComponentSite.Template.Name — the words of tags.

  White space may stand between any two parts of a tag, but not inside a name. A name
  goes on as far as it can. Names of templates have dots and slashes in place of the
  dollar sign.
-/
import ComponentSite.Text.Search

namespace ComponentSite.Template
open Text

def isTagSpace (c : Char) : Bool := c == ' ' || c == '\t' || c == '\n' || c == '\r'

def skipSpace (s : List Char) : List Char := s.dropWhile isTagSpace

def token? (t : String) (s : List Char) : Option (List Char) := rest? t.toList (skipSpace s)

def isPlainNameChar (c : Char) : Bool := c.isAlphanum || c == '_' || c == '-' || 0x80 ≤ c.toNat

def isNameChar (c : Char) : Bool := isPlainNameChar c || c == '$'

def isTemplateNameChar (c : Char) : Bool := isPlainNameChar c || c == '/' || c == '.'

def word? (p : Char → Bool) (s : List Char) : Option (List Char × List Char) :=
  let w := s.takeWhile p
  if w.isEmpty then none else some (w, s.dropWhile p)

def endsName (s : List Char) : Bool := !(s.head?.map isNameChar).getD false

/-- The name of a template: a word, or a text in apostrophes, which belong to it. -/
def templateName? (s : List Char) : Option (List Char × List Char) :=
  word? isTemplateNameChar s <|>
    match s with
    | '\x27' :: r =>
      match word? (· != '\x27') r with
      | some (w, _ :: after) => some ('\x27' :: w ++ ['\x27'], after)
      | _ => none
    | _ => none

def isTemplateName (s : List Char) : Bool := (templateName? s).any fun (_, after) => after.isEmpty

/-- The name in a tag that closes a block, which may be that of a template. -/
def closingName? (s : List Char) : Option (List Char × List Char) :=
  word? (fun c => isNameChar c || isTemplateNameChar c) s <|> templateName? s

end ComponentSite.Template
