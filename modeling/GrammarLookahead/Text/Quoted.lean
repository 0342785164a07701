import GrammarLookahead.Text.ExtendingMark
import GrammarLookahead.Text.Unprintable

namespace GrammarLookahead.Text

/-- The code point in hexadecimal, in braces after `\u`, lower case and without leading zeros. -/
def codePointEscape (c : Char) : List Char :=
  ['\\', 'u', '\x7b'] ++ Nat.toDigits 16 c.toNat ++ ['\x7d']

/-- The written form of one character. The quote, the backslash and four controls have escapes of
two characters; other characters that cannot be shown on their own are escaped by code point. -/
def escape (c : Char) : List Char :=
  match c with
  | '\x00' => ['\\', '0']
  | '\t' => ['\\', 't']
  | '\n' => ['\\', 'n']
  | '\r' => ['\\', 'r']
  | '"' => ['\\', '"']
  | '\\' => ['\\', '\\']
  | c => if isExtendingMark c || isUnprintable c then codePointEscape c else [c]

/-- The text between double quotes, escaped character by character. -/
def quote (text : String) : String :=
  String.ofList ('"' :: text.toList.flatMap escape ++ ['"'])

end GrammarLookahead.Text
