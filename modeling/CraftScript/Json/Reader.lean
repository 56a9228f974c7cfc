import CraftScript.Amount.Scaled
import CraftScript.Json.Basic

/-! Reading JSON text. The grammar is strict: no trailing commas, leading zeros, lone surrogates,
raw controls or comments, and only four blanks. Where the text goes wrong the value read so far ends
in a fault. -/
namespace CraftScript.Json

def isSpace (c : Char) : Bool :=
  c == ' ' || c == '\t' || c == '\n' || c == '\r'

def dropSpaces (t : Text) : Text :=
  t.dropWhile isSpace

def word : Text → (expected : Text) → Except Fault Text
  | t, [] => .ok t
  | [], _ :: _ => .error .truncated
  | c :: t, e :: expected => if c = e then word t expected else .error .malformed

def hexValue? (c : Char) : Option Nat :=
  let n := c.toNat
  if 0x30 ≤ n && n ≤ 0x39 then some (n - 0x30)
  else if 0x41 ≤ n && n ≤ 0x46 then some (n - 0x37)
  else if 0x61 ≤ n && n ≤ 0x66 then some (n - 0x57)
  else none

def fourHex (t : Text) : Except Fault Nat :=
  let digits := t.take 4
  if Text.byteSize digits < 4 then .error .truncated
  else match digits.mapM hexValue? with
    | some [a, b, c, d] => .ok (((a * 16 + b) * 16 + c) * 16 + d)
    | _ => .error .malformed

/-- The character of a `\u` escape, whose digits begin the text, and how many characters it takes.
Characters beyond 16 bits are written as two escapes, high surrogate first. A reader who is not
`strict` does not care for the pairing. -/
def unicodeEscape (strict : Bool) (t : Text) : Except Fault (Char × Nat) := do
  let high ← fourHex t
  if 0xD800 ≤ high && high ≤ 0xDFFF && !strict then return (' ', 4)
  if 0xDC00 ≤ high && high ≤ 0xDFFF then throw .malformed
  if high < 0xD800 || 0xDFFF < high then return (Char.ofNat high, 4)
  let t ← word (t.drop 4) ['\\', 'u']
  let low ← fourHex t
  if low < 0xDC00 || 0xDFFF < low then throw .malformed
  return (Char.ofNat (0x10000 + (high - 0xD800) * 0x400 + (low - 0xDC00)), 10)

def escape (strict : Bool) : Text → Except Fault (Char × Nat)
  | [] => .error .truncated
  | 'u' :: t => (unicodeEscape strict t).map fun (c, taken) => (c, taken + 1)
  | c :: _ =>
    match c with
    | '"' => .ok ('"', 1)
    | '\\' => .ok ('\\', 1)
    | '/' => .ok ('/', 1)
    | 'b' => .ok ('\x08', 1)
    | 'f' => .ok ('\x0c', 1)
    | 'n' => .ok ('\n', 1)
    | 'r' => .ok ('\r', 1)
    | 't' => .ok ('\t', 1)
    | _ => .error .malformed

def stringFrom (strict : Bool) : (taken : Nat) → Text → Except Fault (Text × Text)
  | _, [] => .error .truncated
  | taken + 1, _ :: t => stringFrom strict taken t
  | 0, '"' :: t => .ok ([], t)
  | 0, '\\' :: t =>
    match escape strict t with
    | .error fault => .error fault
    | .ok (c, taken) => (stringFrom strict taken t).map fun (rest, t) => (c :: rest, t)
  | 0, c :: t =>
    if c.toNat < 0x20 then .error .malformed
    else (stringFrom strict 0 t).map fun (rest, t) => (c :: rest, t)

structure Numeral where
  negative : Bool
  whole : Text
  fraction : Text
  exponent : Option Int

def digits (t : Text) : Except (Fault × Fault) (Text × Text) :=
  match t.takeWhile Text.isAsciiDigit with
  | [] => .error (if t.isEmpty then .truncated else .malformed, .malformed)
  | run => .ok (run, t.dropWhile Text.isAsciiDigit)

def wholeDigits (t : Text) : Except (Fault × Fault) (Text × Text) := do
  let (whole, rest) ← digits t
  match whole with
  | '0' :: _ :: _ => throw (.malformed, .malformed)
  | _ => return (whole, rest)

def exponent : Text → Except (Fault × Fault) (Int × Text)
  | '+' :: t => (digits t).map fun (run, rest) => ((Text.digitsValue 0 run : Nat), rest)
  | '-' :: t => (digits t).map fun (run, rest) => (-(Text.digitsValue 0 run : Nat), rest)
  | t => (digits t).map fun (run, rest) => ((Text.digitsValue 0 run : Nat), rest)

def signed : Text → Bool × Text
  | '-' :: t => (true, t)
  | t => (false, t)

def fractionDigits : Text → Except (Fault × Fault) (Text × Text)
  | '.' :: t => digits t
  | t => .ok ([], t)

def exponentPart : Text → Except (Fault × Fault) (Option Int × Text)
  | 'e' :: t | 'E' :: t => (exponent t).map fun (e, t) => (some e, t)
  | t => .ok (none, t)

def numeral (t : Text) : Except (Fault × Fault) (Numeral × Text) := do
  let (negative, t) := signed t
  let (whole, t) ← wholeDigits t
  let (fraction, t) ← fractionDigits t
  let (exponent, t) ← exponentPart t
  return ({ negative, whole, fraction, exponent }, t)

def Numeral.value? (n : Numeral) : Option Number :=
  let magnitude := Text.digitsValue 0 n.whole
  let integral := n.fraction.isEmpty && n.exponent.isNone
  if integral && !n.negative && magnitude < UInt64.size then some (.integer magnitude)
  else if integral && n.negative && 0 < magnitude && 2 * magnitude ≤ UInt64.size then
    some (.integer (-magnitude))
  else
    match Amount.ofNumeral n.negative n.whole n.fraction (n.exponent.getD 0) with
    | .infinite _ => none
    | a => some (.real a)

def Obstacle.all (fault : Fault) : Obstacle :=
  ⟨fault, some fault⟩

def broken (fault : Fault) : Json × Option Text :=
  (.unreadable (.all fault), none)

def named (value : Json) (t : Text) (expected : Text) : Json × Option Text :=
  match word t expected with
  | .ok rest => (value, some rest)
  | .error fault => broken fault

def stringValue (t : Text) : Json × Option Text :=
  match stringFrom true 0 t with
  | .ok (s, rest) => (.string (String.ofList s), some rest)
  | .error wanted =>
    match stringFrom false 0 t with
    | .ok (_, rest) => (.unreadable ⟨wanted, none⟩, some rest)
    | .error passed => (.unreadable ⟨wanted, some passed⟩, none)

def numberValue (t : Text) : Json × Option Text :=
  match numeral t with
  | .error (wanted, passed) => (.unreadable ⟨wanted, some passed⟩, none)
  | .ok (n, rest) =>
    match n.value? with
    | some value => (.number value, some rest)
    | none => (.unreadable ⟨.malformed, none⟩, some rest)

mutual

def valueFrom : (fuel : Nat) → Text → Json × Option Text
  | 0, _ => broken .malformed
  | fuel + 1, t =>
    match dropSpaces t with
    | [] => broken .truncated
    | '"' :: t => stringValue t
    | '[' :: t =>
      match dropSpaces t with
      | [] => (.array [] (some .truncated), none)
      | ']' :: t => (.array [] none, some t)
      | t =>
        let (items, fault, rest) := itemsFrom fuel t
        (.array items fault, rest)
    | '{' :: t =>
      match dropSpaces t with
      | [] => (.object [] (some (.all .truncated)), none)
      | '}' :: t => (.object [] none, some t)
      | t =>
        let (members, obstacle, rest) := membersFrom fuel t
        (.object members obstacle, rest)
    | 'n' :: t => named .null t "ull".toList
    | 't' :: t => named (.bool true) t "rue".toList
    | 'f' :: t => named (.bool false) t "alse".toList
    | c :: t =>
      if c = '-' || Text.isAsciiDigit c then numberValue (c :: t) else broken .malformed

def itemsFrom : (fuel : Nat) → Text → List Json × Option Fault × Option Text
  | 0, _ => ([], some .malformed, none)
  | fuel + 1, t =>
    match valueFrom fuel t with
    | (item, none) => ([item], none, none)
    | (item, some t) =>
      match dropSpaces t with
      | [] => ([item], some .truncated, none)
      | ']' :: t => ([item], none, some t)
      | ',' :: t =>
        match dropSpaces t with
        | [] => ([item], some .truncated, none)
        | ']' :: _ => ([item], some .malformed, none)
        | t =>
          let (items, rest) := itemsFrom fuel t
          (item :: items, rest)
      | _ => ([item], some .malformed, none)

/-- The members of an object from one of them on. A key that only a reader who passes by can read
hides what follows it from any other. -/
def membersFrom : (fuel : Nat) → Text → List (String × Json) × Option Obstacle × Option Text
  | 0, _ => ([], some (.all .malformed), none)
  | fuel + 1, '"' :: t =>
    match stringFrom true 0 t with
    | .ok (key, t) => memberFrom fuel (String.ofList key) t
    | .error wanted =>
      match stringFrom false 0 t with
      | .error passed => ([], some ⟨wanted, some passed⟩, none)
      | .ok (_, t) =>
        let (members, obstacle, rest) := memberFrom fuel "" t
        ([], some ⟨wanted, passing? (.object members obstacle)⟩, rest)
  | _ + 1, _ => ([], some (.all .malformed), none)

def memberFrom :
    (fuel : Nat) → String → Text → List (String × Json) × Option Obstacle × Option Text
  | 0, _, _ => ([], some (.all .malformed), none)
  | fuel + 1, key, t =>
    match dropSpaces t with
    | [] => ([(key, (broken .truncated).1)], none, none)
    | ':' :: t =>
      match valueFrom fuel t with
      | (value, none) => ([(key, value)], none, none)
      | (value, some t) =>
        match dropSpaces t with
        | [] => ([(key, value)], some (.all .truncated), none)
        | '}' :: t => ([(key, value)], none, some t)
        | ',' :: t =>
          match dropSpaces t with
          | [] => ([(key, value)], some (.all .truncated), none)
          | t =>
            let (members, rest) := membersFrom fuel t
            ((key, value) :: members, rest)
        | _ => ([(key, value)], some (.all .malformed), none)
    | _ => ([(key, (broken .malformed).1)], none, none)

end

/-- The value that a text begins with, and the text behind it. Every step of the reader takes a
character or is followed by one that does, so the fuel never runs out. -/
def read (t : Text) : Json × Option Text :=
  valueFrom (2 * t.length + 2) t

end CraftScript.Json
