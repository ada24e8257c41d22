import MailTrace.Text.Cut

/-!
# Paths

A path is a text in which a slash divides the names of directories and files.
-/

namespace MailTrace.Path

open MailTrace.Text

/-- A path below another. One that starts at the root is not below any. -/
def join (dir name : String) : String :=
  if name.startsWith "/" || dir.isEmpty then name
  else if dir.endsWith "/" then dir ++ name
  else dir ++ "/" ++ name

/-- The name of a path directly below a directory. -/
def nameIn? (dir path : String) : Option String :=
  (((pieces (· == '/') path.toList).getLast?).map String.ofList).filter fun name =>
    !name.isEmpty && join dir name == path

end MailTrace.Path
