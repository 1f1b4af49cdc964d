import ScopeLint.Text.Quoted

/-!
UTF-8 read strictly. The first ill-formed sequence stops the reading, and the error names the bytes
that were taken for it.
-/
namespace ScopeLint.Text.Utf8

inductive Reason where
  | invalidStart
  | invalidContinuation
  | unexpectedEnd
deriving DecidableEq, Repr

def Reason.text : Reason → String
  | .invalidStart => "invalid start byte"
  | .invalidContinuation => "invalid continuation byte"
  | .unexpectedEnd => "unexpected end of data"

/-- `count` bytes from `first` on, the first of them `lead`, form no character. -/
structure DecodeError where
  lead : UInt8
  first : Nat
  count : Nat
  reason : Reason
deriving DecidableEq, Repr

def DecodeError.message (e : DecodeError) : String :=
  let place :=
    if e.count = 1 then
      "byte 0x" ++ String.ofList (hexDigits 2 e.lead.toNat) ++ " in position " ++ toString e.first
    else "bytes in position " ++ toString e.first ++ "-" ++ toString (e.first + e.count - 1)
  "'utf-8' codec can't decode " ++ place ++ ": " ++ e.reason.text

def isContinuation (b : UInt8) : Bool := 0x80 ≤ b && b < 0xC0

/-- The second byte rules out long forms, surrogates and code points past the last. -/
def fitsSecond (lead b : UInt8) : Bool :=
  isContinuation b && (lead != 0xE0 || 0xA0 ≤ b) && (lead != 0xED || b < 0xA0) &&
    (lead != 0xF0 || 0x90 ≤ b) && (lead != 0xF4 || b < 0x90)

/-- The six bits that a continuation byte carries. -/
def low (b : UInt8) : Nat := b.toNat % 64

def decodeFrom (pos : Nat) (read : List Char) : List UInt8 → Except DecodeError (List Char)
  | [] => .ok read.reverse
  | lead :: r0 =>
    let fault (count : Nat) (reason : Reason) : Except DecodeError (List Char) :=
      .error ⟨lead, pos, count, reason⟩
    if lead < 0x80 then decodeFrom (pos + 1) (Char.ofNat lead.toNat :: read) r0
    else if lead < 0xC2 || 0xF5 ≤ lead then fault 1 .invalidStart
    else match r0 with
    | [] => fault 1 .unexpectedEnd
    | b1 :: r1 =>
      if !fitsSecond lead b1 then fault 1 .invalidContinuation
      else if lead < 0xE0 then
        decodeFrom (pos + 2) (Char.ofNat ((lead.toNat - 0xC0) * 64 + low b1) :: read) r1
      else match r1 with
      | [] => fault 2 .unexpectedEnd
      | b2 :: r2 =>
        if !isContinuation b2 then fault 2 .invalidContinuation
        else if lead < 0xF0 then
          let code := ((lead.toNat - 0xE0) * 64 + low b1) * 64 + low b2
          decodeFrom (pos + 3) (Char.ofNat code :: read) r2
        else match r2 with
        | [] => fault 3 .unexpectedEnd
        | b3 :: r3 =>
          if !isContinuation b3 then fault 3 .invalidContinuation
          else
            let code := (((lead.toNat - 0xF0) * 64 + low b1) * 64 + low b2) * 64 + low b3
            decodeFrom (pos + 4) (Char.ofNat code :: read) r3

def decode (bytes : List UInt8) : Except DecodeError (List Char) := decodeFrom 0 [] bytes

/-- Drops one leading byte order mark; what is only the beginning of a mark is dropped too. -/
def dropMark : List UInt8 → List UInt8
  | [0xEF] => []
  | [0xEF, 0xBB] => []
  | 0xEF :: 0xBB :: 0xBF :: rest => rest
  | bytes => bytes

end ScopeLint.Text.Utf8
