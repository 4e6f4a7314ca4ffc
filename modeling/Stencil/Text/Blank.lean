import Stencil.Text.Basic

/-!
Blank units: the white space and line terminators that trimming, tag scanning and splitting into
words skip. All of them lie below U+10000.
-/

namespace Stencil

/-- Tab to carriage return, the spaces of the separator category, both Unicode line ends and the
byte order mark. -/
def CodeUnit.isBlank (u : CodeUnit) : Bool :=
  (0x09 ≤ u && u ≤ 0x0D) || u == 0x20 || u == 0xA0 || u == 0x1680 || (0x2000 ≤ u && u ≤ 0x200A) ||
    u == 0x2028 || u == 0x2029 || u == 0x202F || u == 0x205F || u == 0x3000 || u == 0xFEFF

/-- The units that end a line. -/
def CodeUnit.isLineEnd (u : CodeUnit) : Bool := u == 0x0A || u == 0x0D || u == 0x2028 || u == 0x2029

namespace Text

def trimLeft (t : Text) : Text := t.dropWhile CodeUnit.isBlank

def trimRight (t : Text) : Text := (t.reverse.dropWhile CodeUnit.isBlank).reverse

def trim (t : Text) : Text := trimRight (trimLeft t)

/-- The words between runs of blanks; `word` holds the current one backwards. -/
def wordsFrom : Text → Text → List Text
  | word, [] => if word.isEmpty then [] else [word.reverse]
  | word, u :: rest =>
    if u.isBlank then (if word.isEmpty then wordsFrom [] rest else word.reverse :: wordsFrom [] rest)
    else wordsFrom (u :: word) rest

/-- The words between runs of blanks. -/
def words (t : Text) : List Text := wordsFrom [] t

end Text
end Stencil
