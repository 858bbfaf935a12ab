import CodeAtlas.Syntax.Tree
/-!
What the comments and the texts in front of a definition say, in the languages that put
documentation into block comments and bodies into braces.
-/

namespace CodeAtlas.Outline

/-- Drops blank texts from both ends. -/
def trimBlankLines (ls : List String) : List String :=
  ((ls.dropWhile Text.isAllBlank).reverse.dropWhile Text.isAllBlank).reverse

/-- A line of a block comment without its star. -/
def withoutStar (line : String) : String :=
  let line := Text.trim line
  ((Text.afterStart? "* " line).or (Text.afterStart? "*" line)).getD line

/-- The text of a block comment: neither its delimiters nor a star that opens a line belong to
it, nor blank lines at its ends. -/
def blockText (raw : String) : Option String :=
  let opened := ((Text.afterStart? "/**" raw).or (Text.afterStart? "/*" raw)).getD raw
  let inner := (Text.beforeEnd? "*/" opened).getD opened
  match trimBlankLines ((Text.lines inner).map withoutStar) with
  | [] => none
  | ls => some (Text.trimRight ("\n".intercalate ls))

/-- The text of a decorator or marker without the leading sign. -/
def decoratorName (src : Source) (t : Tree) : String :=
  Text.trim (Text.trimLeftWhile (· == '@') (Text.trim (t.text src)))

/-- The text of a definition up to where its body starts, on one line, without decorators in
front and without semicolons at the end. Where there is no body, the text ends at the first
brace, or else at the end of the line. -/
def signature (src : Source) (t : Tree) (body : Option Tree) : String :=
  let start := ((t.children.find? fun c => c.kind != .decorator && c.kind != .comment).map
    Tree.start).getD t.start
  let raw := match body.filter (start < ·.start) with
    | some body => .ofList (src.extract start body.start).toList
    | none =>
      let text := t.text src
      if text.toList.contains '\x7b' then Text.before (· == '\x7b') text
      else ((Text.lines text).head?).getD ""
  Text.collapse (Text.trimRightWhile (· == ';') (Text.trim raw))

end CodeAtlas.Outline
