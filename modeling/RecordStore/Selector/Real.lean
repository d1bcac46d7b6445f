import RecordStore.Number.Decimal
import RecordStore.Selector.Error
import RecordStore.Selector.Integer

/-!
# Real notations of plain scalars

A real has a point: `1.5`, `.5`, `1.`, with an exponent that must be signed (`1.5e+3`), in base 60 (`1:30.5`), or as
one of the words for infinity and for what is not a number. Only notations with a digit before the point take a sign,
and infinity. A notation may denote nothing: it may have no digit at all (`._`), or lie outside the range of reals.
-/

namespace RecordStore.Selector

/-- Digits, a point, digits, and perhaps a signed exponent; underscores may stand among the digits. -/
structure Pointed where
  whole : List Char
  fraction : List Char
  exponent : Option (Bool × List Char)
deriving DecidableEq, Repr

def isDigitOrUnderscore (c : Char) : Bool := c.isDigit || c = '_'

/-- The sign and the digits of an exponent, nothing left over. -/
def exponent? : List Char → Option (Bool × List Char)
  | e :: s :: ds =>
    if (e = 'e' ∨ e = 'E') ∧ (s = '+' ∨ s = '-') ∧ ds ≠ [] ∧ ds.all Char.isDigit then some (s = '-', ds) else none
  | _ => none

/-- Reads a numeral with a point, nothing left over. -/
def Pointed.ofChars? (cs : List Char) : Option Pointed :=
  match cs.dropWhile isDigitOrUnderscore with
  | '.' :: rest =>
    let whole := cs.takeWhile isDigitOrUnderscore
    let fraction := rest.takeWhile isDigitOrUnderscore
    match rest.dropWhile isDigitOrUnderscore with
    | [] => some ⟨whole, fraction, none⟩
    | tail => (exponent? tail).map fun e => ⟨whole, fraction, some e⟩
  | _ => none

/-- A numeral that may take a sign: it begins with a digit. -/
def Pointed.startsWithDigit (p : Pointed) : Bool := p.whole.head?.any Char.isDigit

/-- A numeral that takes no sign: it begins with the point, and something stands after that. -/
def Pointed.startsWithPoint (p : Pointed) : Bool := p.whole = [] && p.fraction ≠ []

/-- The numeral without its underscores. -/
def Pointed.text (p : Pointed) : List Char :=
  withoutUnderscores p.whole ++ '.' :: withoutUnderscores p.fraction ++
    match p.exponent with
    | none => []
    | some (negative, ds) => 'e' :: (if negative then '-' else '+') :: ds

def Pointed.decimal (p : Pointed) : Decimal :=
  .ofDigits (withoutUnderscores p.whole) (withoutUnderscores p.fraction)
    (match p.exponent with
    | none => 0
    | some (negative, ds) => if negative then -Int.ofNat (Nat.ofDigitChars 10 ds 0) else Nat.ofDigitChars 10 ds 0)

def Pointed.hasDigit (p : Pointed) : Bool := (p.whole ++ p.fraction).any Char.isDigit

/-- The real nearest to a decimal whose text is given, unless the decimal is too large or rounds to zero without being
zero. -/
def realOfDecimal (text : List Char) (d : Decimal) : Except Error Binary64 :=
  let x := d.nearest false
  if !x.isFinite || (x.magnitude = 0 && d.digits ≠ 0) then .error (.unreadableReal (.ofList text)) else .ok x

def Pointed.real (p : Pointed) : Except Error Binary64 :=
  if p.hasDigit then realOfDecimal p.text p.decimal else .error (.unreadableReal (.ofList p.text))

/-- The real that digits without a point denote. -/
def wholeReal (ds : List Char) : Except Error Binary64 := realOfDecimal ds (.ofDigits ds [] 0)

/-- A numeral in base 60 whose last part has a point: the parts before it without underscores, and the last one. -/
structure SexagesimalReal where
  parts : List (List Char)
  last : Pointed
deriving DecidableEq, Repr

def SexagesimalReal.ofChars? (cs : List Char) : Option SexagesimalReal :=
  match Text.pieces ':' cs with
  | first :: more =>
    match more.getLast?.bind Pointed.ofChars? with
    | some last =>
      if first.head?.any Char.isDigit && first.all isDigitOrUnderscore
          && more.dropLast.all isSexagesimalDigit
          && isSexagesimalDigit last.whole && last.exponent.isNone then
        some ⟨withoutUnderscores first :: more.dropLast, last⟩
      else none
    | none => none
  | [] => none

/-- Each part is rounded to a real, and so is every intermediate value. -/
def SexagesimalReal.real (n : SexagesimalReal) : Except Error Binary64 := do
  let value ← n.parts.foldlM (fun acc part => return acc.appendDigit 60 (← wholeReal part)) Binary64.zero
  return value.appendDigit 60 (← n.last.real)

/-- The real that a notation without its sign denotes; `none` where this is no such notation. -/
def unsignedReal? (cs : List Char) : Option (Except Error Binary64) :=
  if cs ∈ [".inf".toList, ".Inf".toList, ".INF".toList] then some (.ok .infinity)
  else
    match Pointed.ofChars? cs with
    | some p => if p.startsWithDigit then some p.real else none
    | none => (SexagesimalReal.ofChars? cs).map SexagesimalReal.real

/-- The real that a notation denotes; `none` where the text is no notation of a real. -/
def real? (cs : List Char) : Option (Except Error Binary64) :=
  if cs ∈ [".nan".toList, ".NaN".toList, ".NAN".toList] then some (.ok .nan)
  else
    match (Pointed.ofChars? cs).filter Pointed.startsWithPoint with
    | some p => some p.real
    | none =>
      let (negative, body) := takeSign cs
      (unsignedReal? body).map fun x => x.map fun x => if negative then x.neg else x

end RecordStore.Selector
