/-! Escapes in text that is typed on one line: `\n` for a line break, `\0` for a null character and
`\\` for a backslash. They are replaced kind after kind, each from left to right; so a backslash
that is left over by one kind may begin an escape of the next. -/

namespace Brainfuck.Text

/-- The text with each backslash before `letter` replaced, together with it, by `meaning`. -/
def replaceEscape (letter meaning : Char) : List Char → List Char
  | [] => []
  | [c] => [c]
  | c :: d :: rest =>
    if c = '\\' ∧ d = letter then meaning :: replaceEscape letter meaning rest
    else c :: replaceEscape letter meaning (d :: rest)

/-- The text that a text with escapes stands for. -/
def unescape (text : List Char) : List Char :=
  replaceEscape '\\' '\\' (replaceEscape '0' '\x00' (replaceEscape 'n' '\n' text))

end Brainfuck.Text
