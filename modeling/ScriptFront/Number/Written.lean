import ScriptFront.Number.Shortest
/-! Numbers as text. Both layouts write the shortest digits that read back. -/
namespace ScriptFront.Number

/-- How digits are laid out: whether whole numbers get the fraction `.0`, and for which powers of
ten of the leading digit the digits are written without an exponent; `none` stands for all. -/
structure Layout where
  pointZero : Bool
  plain : Option (Int × Int)

/-- The layout of token texts and messages: `1`, `0.00001`, `10000000000000000`. -/
def Layout.short : Layout := ⟨false, none⟩

/-- The layout of dumps: `1.0`, `1e-5`, `1e16`. -/
def Layout.full : Layout := ⟨true, some (-4, 15)⟩

def zeros (n : Nat) : List Char := List.replicate n '0'

def plainText (pointZero : Bool) (digits : List Char) (exponent : Int) : List Char :=
  let whole := digits.length + exponent
  if 0 ≤ exponent then
    digits ++ zeros exponent.toNat ++ if pointZero then ['.', '0'] else []
  else if 0 < whole then digits.take whole.toNat ++ '.' :: digits.drop whole.toNat
  else '0' :: '.' :: zeros (-whole).toNat ++ digits

def exponentText (digits : List Char) (exponent : Int) : List Char :=
  let power := (toString (digits.length + exponent - 1)).toList
  match digits with
  | [] => []
  | [d] => d :: 'e' :: power
  | d :: ds => d :: '.' :: ds ++ 'e' :: power

def Layout.decimal (layout : Layout) (d : Decimal) : List Char :=
  let digits := Nat.toDigits 10 d.digits
  let leading := digits.length + d.exponent - 1
  let isPlain := match layout.plain with
    | none => true
    | some (least, greatest) => d.digits == 0 || least ≤ leading && leading ≤ greatest
  if isPlain then plainText layout.pointZero digits d.exponent else exponentText digits d.exponent

def Layout.write (layout : Layout) (x : Float) : String :=
  let bits := x.toBits
  let sign := if bits.toNat / twoTo 63 = 0 then [] else ['-']
  let size := bits.toNat % twoTo 63
  if 0x7ff0000000000000 < size then "NaN"
  else if size = 0x7ff0000000000000 then String.ofList (sign ++ ['i', 'n', 'f'])
  else if size = 0 then String.ofList (sign ++ layout.decimal ⟨0, 0⟩)
  else String.ofList (sign ++ layout.decimal (Binary.ofBits bits).shortest)

end ScriptFront.Number
