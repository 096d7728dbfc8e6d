import ApeServer.Json.Document
import ApeServer.Json.Parser

/-!
# The language of documents

What a document looks like as a text, said without a parser: tokens, white space between them,
members behind one another, containers inside one another.  It is JSON, except that a point needs no
digit behind it, that a lone `0` takes no exponent, that bytes from `0x80` on stand for themselves, and
that containers lie fifteen deep at most.

* `Inside` — the inside of a string, and the bytes it stands for;
* `ScalarText` — a scalar with the white space behind it;
* `Members.Listed` — members, separated by commas;
* `DocumentText` — **the text of a document**.
-/

namespace Ape.Json

/-! ## White space -/

/-- A blank. -/
def IsBlank (c : UInt8) : Prop := c = 32 ∨ c = 9 ∨ c = 10 ∨ c = 13

instance (c : UInt8) : Decidable (IsBlank c) := inferInstanceAs (Decidable (_ ∨ _))

/-- Nothing but blanks. -/
def Blank (t : List UInt8) : Prop := ∀ c ∈ t, IsBlank c

instance (t : List UInt8) : Decidable (Blank t) := List.decidableBAll _ t

/-! ## Strings -/

/-- A hexadecimal digit and what it is worth. -/
inductive HexDigit : UInt8 → Nat → Prop
  | decimal {c : UInt8} (low : 48 ≤ c.toNat) (high : c.toNat ≤ 57) : HexDigit c (c.toNat - 48)
  | upper {c : UInt8} (low : 65 ≤ c.toNat) (high : c.toNat ≤ 70) : HexDigit c (c.toNat - 55)
  | lower {c : UInt8} (low : 97 ≤ c.toNat) (high : c.toNat ≤ 102) : HexDigit c (c.toNat - 87)

/-- Four of them: a code unit of UTF-16. -/
inductive CodeUnit : List UInt8 → Nat → Prop
  | digits {a b c d : UInt8} {p q r s : Nat} (first : HexDigit a p) (second : HexDigit b q)
      (third : HexDigit c r) (fourth : HexDigit d s) :
      CodeUnit [a, b, c, d] (((p * 16 + q) * 16 + r) * 16 + s)

/-- The escapes of one character behind the backslash, each with the byte it stands for. -/
def escapes : List (UInt8 × UInt8) :=
  [(34, 34), (92, 92), (47, 47), (98, 8), (102, 12), (110, 10), (114, 13), (116, 9)]

/-- **The inside of a string**, and the bytes it stands for: an escaped code point stands for its
UTF-8, outside the first plane as two surrogates. -/
inductive Inside : List UInt8 → List UInt8 → Prop
  | nil : Inside [] []
  | plain {c : UInt8} {t s : List UInt8} (low : 32 ≤ c.toNat) (quote : c ≠ 34)
      (backslash : c ≠ 92) (rest : Inside t s) : Inside (c :: t) (c :: s)
  | escape {x b : UInt8} {t s : List UInt8} (pair : (x, b) ∈ escapes) (rest : Inside t s) :
      Inside (92 :: x :: t) (b :: s)
  | unicode {c : Char} {ds t s : List UInt8} (unit : CodeUnit ds c.toNat) (rest : Inside t s) :
      Inside (92 :: 117 :: (ds ++ t)) (String.utf8EncodeChar c ++ s)
  | surrogates {c : Char} {hs ls t s : List UInt8} {high low : Nat}
      (first : CodeUnit hs (0xD800 + high)) (second : CodeUnit ls (0xDC00 + low))
      (ranges : high < 0x400 ∧ low < 0x400) (point : c.toNat = 0x10000 + (high * 0x400 + low))
      (rest : Inside t s) :
      Inside (92 :: 117 :: (hs ++ 92 :: 117 :: (ls ++ t))) (String.utf8EncodeChar c ++ s)

/-! ## Numbers -/

/-- Nothing but digits. -/
def Digits (t : List UInt8) : Prop := ∀ c ∈ t, isDigit c = true

/-- A minus, or nothing. -/
def Sign (t : List UInt8) : Prop := t = [] ∨ t = [45]

/-- Digits without a leading zero, or a zero. -/
def Whole (t : List UInt8) : Prop :=
  t = [48] ∨ ∃ d ds, t = d :: ds ∧ isDigit d = true ∧ d ≠ 48 ∧ Digits ds

/-- An exponent. -/
def Exponent (t : List UInt8) : Prop :=
  ∃ e sign d ds, t = e :: (sign ++ d :: ds) ∧ (e = 101 ∨ e = 69) ∧
    (sign = [] ∨ sign = [43] ∨ sign = [45]) ∧ isDigit d = true ∧ Digits ds

/-- The number that a sign and some digits spell, or the nearest one of 64 bits. -/
def integerOf (sign digits : List UInt8) : Int64 :=
  if sign = [45] then Int64.ofInt (max (-(Decimal.value digits : Int)) (-2 ^ 63))
  else Int64.ofInt (min (Decimal.value digits : Int) (2 ^ 63 - 1))

section Libc

variable (libc : Libc)

/-- **A number** with the white space behind it, which `strtod` is given as well. -/
inductive NumberText : List UInt8 → List UInt8 → Scalar → Prop
  | integer {sign whole ws : List UInt8} (hsign : Sign sign) (hwhole : Whole whole) :
      NumberText (sign ++ whole) ws (.integer (integerOf sign whole))
  | fraction {sign whole ds e ws : List UInt8} (hsign : Sign sign) (hwhole : Whole whole)
      (hds : Digits ds) (he : e = [] ∨ Exponent e) :
      NumberText (sign ++ whole ++ 46 :: (ds ++ e)) ws
        (.float (libc.strtod (sign ++ whole ++ libc.decimalPoint :: (ds ++ e) ++ ws)))
  | power {sign whole e ws : List UInt8} (hsign : Sign sign) (hwhole : Whole whole)
      (hzero : whole ≠ [48]) (he : Exponent e) :
      NumberText (sign ++ whole ++ e) ws (.float (libc.strtod (sign ++ whole ++ e ++ ws)))

/-- **A scalar** with the white space behind it. -/
inductive ScalarText : List UInt8 → Scalar → Prop
  | string {t s ws : List UInt8} (inside : Inside t s) (blank : Blank ws) :
      ScalarText (34 :: (t ++ 34 :: ws)) (.string s)
  | number {t ws : List UInt8} {value : Scalar} (text : NumberText libc t ws value)
      (blank : Blank ws) : ScalarText (t ++ ws) value
  | null {ws : List UInt8} (blank : Blank ws) : ScalarText (110 :: 117 :: 108 :: 108 :: ws) .null
  | true {ws : List UInt8} (blank : Blank ws) : ScalarText (116 :: 114 :: 117 :: 101 :: ws) .true
  | false {ws : List UInt8} (blank : Blank ws) :
      ScalarText (102 :: 97 :: 108 :: 115 :: 101 :: ws) .false

/-! ## Containers -/

/-- What stands in front of a value: white space, and in an object the key and a colon. -/
def LabelText : (kind : Kind) → kind.Label → List UInt8 → Prop
  | .array, _, t => Blank t
  | .object, key, t => ∃ a k b c, t = a ++ 34 :: (k ++ 34 :: (b ++ 58 :: c)) ∧
      Blank a ∧ Inside k key ∧ Blank b ∧ Blank c

/-- The opening bracket. -/
def Kind.opens : Kind → UInt8
  | .object => 123
  | .array => 91

/-- The closing bracket. -/
def Kind.closes : Kind → UInt8
  | .object => 125
  | .array => 93

/-- **One or more members**, separated by commas, with containers at most `depth` deep in them. -/
def Members.Listed : {kind : Kind} → Members kind → Nat → List UInt8 → Prop
  | _, .nil, _, _ => False
  | kind, .scalar label value rest, depth, t => ∃ l v r, t = l ++ (v ++ r) ∧
      LabelText kind label l ∧ ScalarText libc v value ∧
      (rest = .nil ∧ r = [] ∨ ∃ r', r = 44 :: r' ∧ rest.Listed depth r')
  | kind, .nest label inner members rest, depth, t => ∃ l i ws r,
      t = l ++ inner.opens :: (i ++ inner.closes :: (ws ++ r)) ∧ LabelText kind label l ∧
      0 < depth ∧ (members = .nil ∧ Blank i ∨ members.Listed (depth - 1) i) ∧ Blank ws ∧
      (rest = .nil ∧ r = [] ∨ ∃ r', r = 44 :: r' ∧ rest.Listed depth r')

/-- The text between two brackets. -/
def Members.Text {kind : Kind} (m : Members kind) (depth : Nat) (t : List UInt8) : Prop :=
  m = .nil ∧ Blank t ∨ m.Listed libc depth t

/-- The text behind a member. -/
def Members.Behind {kind : Kind} (rest : Members kind) (depth : Nat) (t : List UInt8) : Prop :=
  rest = .nil ∧ t = [] ∨ ∃ t', t = 44 :: t' ∧ rest.Listed libc depth t'

/-- **The text of a document.** -/
def DocumentText {kind : Kind} (m : Members kind) (t : List UInt8) : Prop :=
  ∃ a i b, t = a ++ kind.opens :: (i ++ kind.closes :: b) ∧ Blank a ∧ m.Text libc 14 i ∧ Blank b

end Libc

end Ape.Json
