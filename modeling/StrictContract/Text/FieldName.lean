import StrictContract.Text.Letter

/-! # Field names — words that can name the fields of a record

A **field name** is a word of letters, digits and underscores that does not begin with a digit and
is not one of the **keywords**. -/

namespace StrictContract.Text

/-- The words that are no field names. -/
def keywords : List String :=
  ["False", "None", "True", "and", "as", "assert", "async", "await", "break", "class", "continue",
   "def", "del", "elif", "else", "except", "finally", "for", "from", "global", "if", "import", "in",
   "is", "lambda", "nonlocal", "not", "or", "pass", "raise", "return", "try", "while", "with",
   "yield"]

/-- Whether a text is a field name. -/
def isFieldName (s : String) : Bool :=
  match s.toList with
  | [] => false
  | c :: rest =>
    (c == '_' || isLetter c) && rest.all (fun c => c == '_' || isLetter c || isMark c) &&
      !keywords.contains s

end StrictContract.Text
