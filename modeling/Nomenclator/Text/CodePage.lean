import Nomenclator.Text.Utf8

/-!
# The code page of archives — one octet for every character

Names in archives that do not say that they are UTF-8 are written in code page 437: its
first half is ASCII, and its second half is a table.
-/

namespace Nomenclator.Text

/-- The characters of the octets from 128 on. -/
def codePageUpper : List Char :=
  ("ÇüéâäàåçêëèïîìÄÅÉæÆôöòûùÿÖÜ¢£¥₧ƒ" ++
   "áíóúñÑªº¿⌐¬½¼¡«»░▒▓│┤╡╢╖╕╣║╗╝╜╛┐" ++
   "└┴┬├─┼╞╟╚╔╩╦╠═╬╧╨╤╥╙╘╒╓╫╪┘┌█▄▌▐▀" ++
   "αßΓπΣσµτΦΘΩδ∞φε∩≡±≥≤⌠⌡÷≈°∙·√ⁿ²■\u00a0").toList

/-- The character of an octet in code page 437. -/
def codePageChar (b : UInt8) : Char :=
  if b < 0x80 then Char.ofNat b.toNat else codePageUpper.getD (b.toNat - 0x80) ' '

/-- The text that octets stand for in code page 437. -/
def decodeCodePage (bytes : Bytes) : List Char := bytes.map codePageChar

end Nomenclator.Text
