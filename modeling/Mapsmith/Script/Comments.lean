/-!
# Comments

`Script.comments`: the comments of a script, which its tokens leave out, by the lines they
stand on. A mark of comment within a string or a raw identifier does not count.
-/

namespace Mapsmith.Script

/-- A comment is all but the carriage returns at its end. -/
def commentText (comment : List Char) : String :=
  String.ofList (comment.reverse.dropWhile (· = '\r')).reverse

/-- What a reader of comments is in: nothing, a literal up to its quote, or a
comment, which is listed from the last character to the first. -/
inductive CommentState where
  | plain
  | quoted (quote : Char)
  | comment (taken : List Char)

/-- The comments of the text ahead, which goes on in the given line, after those
found before, which are listed from the last to the first. -/
def commentsFrom : List Char → CommentState → Nat → List (Nat × String) → List (Nat × String)
  | [], .comment taken, line, found => ((line, commentText taken.reverse) :: found).reverse
  | [], _, _, found => found.reverse
  | '\n' :: rest, .comment taken, line, found =>
    commentsFrom rest .plain (line + 1) ((line, commentText taken.reverse) :: found)
  | '\n' :: rest, state, line, found => commentsFrom rest state (line + 1) found
  | c :: rest, .comment taken, line, found =>
    commentsFrom rest (.comment (c :: taken)) line found
  | '\\' :: c :: rest, .quoted '"', line, found =>
    commentsFrom rest (.quoted '"') (if c = '\n' then line + 1 else line) found
  | c :: rest, .quoted quote, line, found =>
    commentsFrom rest (if c = quote then .plain else .quoted quote) line found
  | '/' :: '/' :: rest, .plain, line, found => commentsFrom rest (.comment ['/', '/']) line found
  | c :: rest, .plain, line, found =>
    commentsFrom rest (if c = '"' ∨ c = '\'' then .quoted c else .plain) line found

/-- The comments of a text in order, each with its line. -/
def comments (text : String) : List (Nat × String) := commentsFrom text.toList .plain 1 []

end Mapsmith.Script
