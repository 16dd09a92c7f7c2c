
set_option autoImplicit false

namespace Relabel.Text.Numeral

def hex (n : Nat) : String := "0x" ++ String.ofList (Nat.toDigits 16 n)

def hex8 (n : Nat) : String :=
  let digits := Nat.toDigits 16 n
  "0x" ++ String.ofList (List.replicate (8 - digits.length) '0' ++ digits)

end Relabel.Text.Numeral
