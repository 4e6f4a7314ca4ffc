import Stencil.Template.Token

/-!
Why a source is not a template. Every error names one line.
-/

namespace Stencil

inductive SyntaxCause where
  | unclosedComment
  | unclosedRaw
  | unclosedTag (tag : TagKind)
  | unclosedString
  | strayUnit (unit : CodeUnit)
  | strayBracket (op : Operator)
  | expected (wanted : String) (found : TokenKind)
  | unexpected (found : TokenKind)
  | expressionExpected (found : TokenKind)
  | bodyNotEnded (words : List String)
  | tagNameExpected
  | unknownTag (word : Text)
  | notAssignable (kind : String)
  | defaultBeforePlain
  | positionalAfterKeyword
  | memberExpected
  | unknownFilter (name : Text)
  | unknownTest (name : Text)
deriving DecidableEq, Repr

namespace SyntaxCause

def message : SyntaxCause → String
  | unclosedComment => "Missing end of comment tag"
  | unclosedRaw => "Missing end of raw directive"
  | unclosedTag tag => s!"Unexpected end of template; missing '{tag.closeMark}'"
  | unclosedString => "Unexpected end of string"
  | strayUnit u => s!"Unexpected char '{Text.toString [u]}'"
  | strayBracket op => s!"Unexpected '{op.symbol}'"
  | expected wanted found => s!"expected {wanted}, got {found.describe}"
  | unexpected found => s!"unexpected {found.describe}"
  | expressionExpected found => s!"Expected an expression, got {found.describe}"
  | bodyNotEnded words =>
    "Unexpected end of template; expected one of " ++ ", ".intercalate (words.map fun w => s!"'{w}'")
  | tagNameExpected => "tag name expected"
  | unknownTag word => s!"Encountered unknown tag '{word.toString}'"
  | notAssignable kind => s!"can't assign to '{kind}'"
  | defaultBeforePlain => "non-default argument follows default argument"
  | positionalAfterKeyword => "positional argument follows keyword argument"
  | memberExpected => "expected name or number"
  | unknownFilter name => s!"No filter named '{name.toString}'"
  | unknownTest name => s!"No test named '{name.toString}'"

end SyntaxCause

structure SyntaxError where
  cause : SyntaxCause
  line : Nat
deriving DecidableEq, Repr

def SyntaxError.message (e : SyntaxError) : String := s!"{e.cause.message} (line {e.line})"

/-- Outcome of reading a source that yields nothing: it is malformed, or the fuel ran out. -/
inductive Unreadable where
  | malformed (error : SyntaxError)
  | exhausted
deriving DecidableEq, Repr

end Stencil
