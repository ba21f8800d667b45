import Mathlib.Algebra.Order.Ring.Int
import Mathlib.Data.List.Basic
import Mathlib.Tactic.Common

/-!
# `strtol` (`src/libc/stdlib.c`, `src/libc/ctype.c`)

A pointer into a string is the rest of the string from there to its NUL. Reading behind
the NUL has no value (`none`).

`DIG_IN_BASE` is a macro, and the loop that skips the digits of a number out of range hands
it `*(++cur)`: every use of the argument moves the pointer. A macro is therefore a tree of
the uses of its argument (`Macro`), which is run on a value or on the pointer.
-/

namespace KoalemOS.Libc

/-! ## Strings -/

/-- The characters of a string from a pointer up to the NUL. -/
abbrev Str := List UInt8

/-- The value of a `char`, which is signed. -/
def charVal (c : UInt8) : Int := if c.toNat < 128 then c.toNat else c.toNat - 256

/-- `*cur` -/
def peek (cur : Str) : Int := charVal (cur.headD 0)

/-- `cur[i]` -/
def charAt (cur : Str) (i : Nat) : Option Int := (cur ++ [0])[i]?.map charVal

/-- `cur += n` -/
def advance (cur : Str) (n : Nat) : Option Str := if n ≤ cur.length then some (cur.drop n) else none

/-! ## `ctype.c` -/

/-- `isalnum` -/
def isalnum (ch : Int) : Bool :=
  (48 ≤ ch ∧ ch ≤ 57) ∨ (97 ≤ ch ∧ ch ≤ 122) ∨ (65 ≤ ch ∧ ch ≤ 90)

/-- `isdigit` -/
def isdigit (ch : Int) : Bool := 48 ≤ ch ∧ ch ≤ 57

/-- `isspace` -/
def isspace (ch : Int) : Bool :=
  ch = 32 ∨ ch = 12 ∨ ch = 10 ∨ ch = 13 ∨ ch = 9 ∨ ch = 11

/-! ## `DIG_IN_BASE` -/

/-- What a macro does with the values of its argument, one use after the other. -/
inductive Macro where
  | done (result : Bool)
  | use (next : Int → Macro)

/-- The macro on an argument without side effect. -/
def Macro.eval (c : Int) : Macro → Bool
  | done b => b
  | use next => (next c).eval c

/-- The macro on `*(++cur)`: its value and where the pointer is then. -/
def Macro.evalNext : Macro → Str → Option (Bool × Str)
  | done b, cur => some (b, cur)
  | use next, cur => (advance cur 1).bind fun cur => (next (peek cur)).evalNext cur

/-- The last alternative of `DIG_IN_BASE`: `C >= 'A' && C < 'A'+B-10` -/
def upperInBase (base : Int) : Macro :=
  .use fun c => if c ≥ 65 then .use fun c => .done (c < 65 + base - 10) else .done false

/-- `DIG_IN_BASE` -/
def digInBase (base : Int) : Macro :=
  if base > 10 then
    .use fun c =>
      if isdigit c then .done true
      else .use fun c =>
        if c ≥ 97 then .use fun c => if c < 97 + base - 10 then .done true else upperInBase base
        else upperInBase base
  else .use fun c => if c ≥ 48 then .use fun c => .done (c < 48 + base) else .done false

/-! ## `strtol` -/

/-- The values `errno` is set to. -/
inductive Errno where
  | EINVAL
  | ERANGE
  deriving DecidableEq, Repr

/-- `LONG_MAX` -/
abbrev longMax : Int := 2 ^ 63 - 1

/-- `LONG_MIN` -/
abbrev longMin : Int := -2 ^ 63

/-- `while(isspace(*cur)) cur++;` -/
def skipSpaces : Str → Str
  | [] => []
  | c :: cur => if isspace (charVal c) then skipSpaces cur else c :: cur

/-- The branch for a leading `0`: the base and the pointer behind the prefix. -/
def zeroPrefix (base : Int) (cur : Str) : Option (Int × Str) := do
  let c₁ ← charAt cur 1
  if c₁ = 120 ∧ (base = 16 ∨ base = 0) then
    let c₂ ← charAt cur 2
    if isalnum c₂ then
      let cur ← advance cur 2
      return (16, cur)
    else return (base, cur)
  else if (base = 8 ∨ base = 0) ∧ isalnum c₁ then
    let cur ← advance cur 1
    return (8, cur)
  else return (base, cur)

/-- The base in use and the pointer to the digits. -/
def detectBase (base : Int) (cur : Str) : Option (Int × Str) := do
  let (base, cur) ← if peek cur = 48 then zeroPrefix base cur else some (base, cur)
  return (if base = 0 then 10 else base, cur)

/-- What is known when the loop over the digits starts. -/
structure Start where
  neg : Bool
  base : Int
  cur : Str

/-- `strtol` up to the loop over the digits. -/
def scanStart (str : Str) (base : Int) : Option Start := do
  let cur := skipSpaces str
  let neg : Bool := peek cur = 45
  let cur ← if neg then advance cur 1 else some cur
  let (base, cur) ← detectBase base cur
  return ⟨neg, base, cur⟩

/-- The value of a digit. -/
def digitVal (c : Int) : Int :=
  if isdigit c then c - 48 else if c ≥ 97 ∧ c ≤ 122 then 10 + c - 97 else 10 + c - 65

/-- The range test before a digit is added. `/` of C rounds towards zero. -/
def outOfRange (neg : Bool) (base ret d : Int) : Bool :=
  if neg then ret < longMin.tdiv base + d else ret > longMax.tdiv base - d

/-- One more digit. -/
def addDigit (neg : Bool) (base ret d : Int) : Int :=
  if neg then ret * base - d else ret * base + d

/-- `while(DIG_IN_BASE(*(++cur), base));` -/
def skipDigits (base : Int) : Nat → Str → Option Str
  | 0, _ => none
  | fuel + 1, cur => do
    let (more, cur) ← (digInBase base).evalNext cur
    if more then skipDigits base fuel cur else return cur

/-- The loop over the digits: the value, what `errno` is set to, and the pointer. The NUL is
a digit in no base. -/
def digitLoop (neg : Bool) (base : Int) : Int → Str → Option (Int × Option Errno × Str)
  | ret, [] => some (ret, none, [])
  | ret, c :: cur =>
    if (digInBase base).eval (charVal c) then
      if outOfRange neg base ret (digitVal (charVal c)) then do
        let last ← skipDigits base (cur.length + 2) (c :: cur)
        return (if neg then longMin else longMax, some .ERANGE, last)
      else digitLoop neg base (addDigit neg base ret (digitVal (charVal c))) cur
    else some (ret, none, c :: cur)

/-- What a call returns and stores. -/
structure Result where
  value : Int
  strEnd : Option Str
  errno : Option Errno

/-- `strtol`; `wantsEnd`: whether `str_end` is a pointer. -/
def strtol (str : Str) (wantsEnd : Bool) (base : Int) : Option Result :=
  if base > 36 ∨ base < 0 ∨ base = 1 then some ⟨0, none, some .EINVAL⟩
  else do
    let start ← scanStart str base
    let (ret, errno, cur) ← digitLoop start.neg start.base 0 start.cur
    return ⟨ret, if wantsEnd then some cur else none, errno⟩

end KoalemOS.Libc
