import EntityLoom.Bytes

/-!
# Code page 437

The encoding of names in archives that do not claim to be UTF-8.  The lower half is ASCII.
-/

namespace EntityLoom.Text.CodePage437

/-- The characters of the upper half, from 128 on. -/
def upperHalf : List Char :=
  ("ÇüéâäàåçêëèïîìÄÅÉæÆôöòûùÿÖÜ¢£¥₧ƒáíóúñÑªº¿⌐¬½¼¡«»░▒▓│┤╡╢╖╕╣║╗╝╜╛┐" ++
    "└┴┬├─┼╞╟╚╔╩╦╠═╬╧╨╤╥╙╘╒╓╫╪┘┌█▄▌▐▀αßΓπΣσµτΦΘΩδ∞φε∩≡±≥≤⌠⌡÷≈°∙·√ⁿ²■\u00A0").toList

/-- The character of a byte. -/
def charOf (b : UInt8) : Char :=
  if b.toNat < 128 then Char.ofNat b.toNat else upperHalf.getD (b.toNat - 128) '?'

/-- The text of a byte string. -/
def decode (bs : Bytes) : String :=
  String.ofList (bs.map charOf)

end EntityLoom.Text.CodePage437
