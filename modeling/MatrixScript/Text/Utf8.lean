/-! Text as bytes. -/
namespace MatrixScript.Text

/-- A character that is not complete yet: its bits so far, how many bytes are missing, and the
bounds of the next one. -/
structure Partial where
  bits : Nat
  missing : Nat
  least : Nat
  greatest : Nat

/-- The first byte of a character, which may be all of it. `none` stands for bytes that are part of
no character. -/
def decodeFirst (b : Nat) : List (Option Char) × Option Partial :=
  if b < 0x80 then ([some (Char.ofNat b)], none)
  else if b < 0xC2 then ([none], none)
  else if b < 0xE0 then ([], some ⟨b - 0xC0, 1, 0x80, 0xBF⟩)
  else if b < 0xF0 then
    ([], some ⟨b - 0xE0, 2, if b = 0xE0 then 0xA0 else 0x80, if b = 0xED then 0x9F else 0xBF⟩)
  else if b < 0xF5 then
    ([], some ⟨b - 0xF0, 3, if b = 0xF0 then 0x90 else 0x80, if b = 0xF4 then 0x8F else 0xBF⟩)
  else ([none], none)

/-- One more byte. Where it does not continue a character it starts the next one. -/
def decodeNext (p : Option Partial) (b : Nat) : List (Option Char) × Option Partial :=
  match p with
  | none => decodeFirst b
  | some p =>
    if p.least ≤ b && b ≤ p.greatest then
      let bits := p.bits * 64 + b % 64
      if p.missing ≤ 1 then ([some (Char.ofNat bits)], none)
      else ([], some ⟨bits, p.missing - 1, 0x80, 0xBF⟩)
    else
      let (chars, next) := decodeFirst b
      (none :: chars, next)

def decodeFrom (p : Option Partial) : List UInt8 → List (Option Char)
  | [] => if p.isSome then [none] else []
  | b :: bs =>
    let (chars, next) := decodeNext p b.toNat
    chars ++ decodeFrom next bs

/-- The characters of a text, if its bytes are valid. -/
def decode? (bytes : List UInt8) : Option (List Char) :=
  (decodeFrom none bytes).mapM id

/-- The characters of a text, with a replacement for each invalid sequence. -/
def decodeLossy (bytes : List UInt8) : List Char :=
  (decodeFrom none bytes).map (·.getD '\uFFFD')

end MatrixScript.Text
