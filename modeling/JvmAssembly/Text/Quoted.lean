import JvmAssembly.Text.GraphemeExtend
import JvmAssembly.Text.Hex
import JvmAssembly.Text.Invisible

/-!
Text in quotes, such that every character can be seen: quotes and backslashes are escaped, and so
is what shows nothing by itself or would join the character before it.
-/
namespace JvmAssembly

namespace Quoted

/-- Characters with an escape of their own. -/
def shortEscape? (c : Char) : Option String :=
  if c == '"' then some "\\\""
  else if c == '\\' then some "\\\\"
  else if c == '\n' then some "\\n"
  else if c == '\r' then some "\\r"
  else if c == '\t' then some "\\t"
  else if c.toNat = 0 then some "\\0"
  else none

def codeEscape (c : Char) : String := "\\u\x7b" ++ Hex.digits 1 c.toNat ++ "\x7d"

/-- The two halfwidth sound marks extend the letter before them but take up a place of their own. -/
def isSoundMark (c : Char) : Bool := c.toNat == 0xff9e || c.toNat == 0xff9f

/-- Whether a character would be drawn onto the one before it. -/
def joinsPrevious (c : Char) : Bool := isGraphemeExtend c && !isSoundMark c

def escape (c : Char) : String :=
  match shortEscape? c with
  | some text => text
  | none => if joinsPrevious c || isInvisible c then codeEscape c else String.singleton c

end Quoted

def quoted (s : String) : String := "\"" ++ String.join (s.toList.map Quoted.escape) ++ "\""

end JvmAssembly
