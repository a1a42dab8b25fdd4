import StackCode.Numeral.Shortest

namespace StackCode

def decimalDigits (n : Nat) : List Char :=
  Nat.toDigits 10 n

def intText (v : Int) : String :=
  if v < 0 then "-" ++ String.ofList (decimalDigits v.natAbs)
  else String.ofList (decimalDigits v.natAbs)

def natText (n : Nat) : String :=
  String.ofList (decimalDigits n)

namespace Decimal

def leading (d : Decimal) : Int :=
  d.exponent + (decimalDigits d.digits).length - 1

def positional (d : Decimal) (whole : List Char) : List Char :=
  let ds := decimalDigits d.digits
  if 0 ≤ d.exponent then ds ++ List.replicate d.exponent.toNat '0' ++ whole
  else
    let places := (-d.exponent).toNat
    if places < ds.length then
      ds.take (ds.length - places) ++ '.' :: ds.drop (ds.length - places)
    else '0' :: '.' :: List.replicate (places - ds.length) '0' ++ ds

def scientific (d : Decimal) : List Char :=
  match decimalDigits d.digits with
  | [] => []
  | c :: cs => c :: (if cs = [] then [] else '.' :: cs) ++ 'e' :: (intText d.leading).toList

end Decimal

namespace Binary

variable {f : FloatFormat}

private def signed (x : Binary f) (text : List Char) : String :=
  String.ofList (if x.negative then '-' :: text else text)

def literalText (x : Binary f) : String :=
  match x.magnitude with
  | .nan => "NaN"
  | .infinite => x.signed "inf".toList
  | .finite 0 _ => x.signed "0.0".toList
  | .finite m q =>
    let d := shortest f m q
    if -4 ≤ d.leading ∧ d.leading < 16 then x.signed (d.positional ".0".toList)
    else x.signed d.scientific

def plainText (x : Binary f) : String :=
  match x.magnitude with
  | .nan => "NaN"
  | .infinite => x.signed "inf".toList
  | .finite 0 _ => x.signed "0".toList
  | .finite m q => x.signed ((shortest f m q).positional [])

end Binary

end StackCode
