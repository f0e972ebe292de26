/-!
# Text — templates

A template is a text with holes, written `%s`, that arguments fill in order; a percent sign is
written twice.  A template filled with no arguments at all stands as it is.
-/

namespace ScriptLift.Text

/-- The template with its holes filled, if there are as many holes as arguments. -/
def fillHoles : List Char → List (List Char) → Option (List Char)
  | [], [] => some []
  | [], _ :: _ => none
  | '%' :: '%' :: rest, args => (fillHoles rest args).map ('%' :: ·)
  | '%' :: 's' :: rest, arg :: args => (fillHoles rest args).map (arg ++ ·)
  | '%' :: _, _ => none
  | c :: rest, args => (fillHoles rest args).map (c :: ·)

/-- The text that a template and its arguments give. -/
def fill? (template : String) (args : List String) : Option String :=
  if args.isEmpty then some template
  else (fillHoles template.toList (args.map (·.toList))).map .ofList

end ScriptLift.Text
