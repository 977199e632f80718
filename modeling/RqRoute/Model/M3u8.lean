import RqRoute.Model.Arith
import RqRoute.Library.Lines
import RqRoute.Library.Buffer

/-! # Playlists

`m3u8.c` and `segment_list.c`. A stream is the text that was not read yet, and a file
name is what the C string functions see of the buffer. -/

namespace RqRoute

open Checked Memory Text

/-! ## Numbers in `sscanf` -/

def isHexDigit (c : Char) : Bool :=
  c.isDigit || ('a' ≤ c && c ≤ 'f') || ('A' ≤ c && c ≤ 'F')

/-- Digits with at most one point among them; at least one digit. -/
def scanMantissa (isDigit : Char → Bool) (s : Str) : Option (Str × Str) :=
  let whole := s.takeWhile isDigit
  match s.dropWhile isDigit with
  | '.' :: rest =>
    let frac := rest.takeWhile isDigit
    if whole = [] ∧ frac = [] then none
    else some (whole ++ '.' :: frac, rest.dropWhile isDigit)
  | rest => if whole = [] then none else some (whole, rest)

/-- An exponent, if there is one: the letter, a sign, and digits. -/
def scanExponent (letter : Char) (s : Str) : Str × Str :=
  match s with
  | c :: rest =>
    if c.toLower = letter then
      let sign := rest.take (if rest.head? = some '+' ∨ rest.head? = some '-' then 1 else 0)
      let digits := (rest.drop sign.length).takeWhile Char.isDigit
      if digits = [] then ([], s)
      else (c :: sign ++ digits, (rest.drop sign.length).dropWhile Char.isDigit)
    else ([], s)
  | [] => ([], [])

/-- A word in any case at the start of a text. -/
def scanWord (word : Str) (s : Str) : Option (Str × Str) :=
  let head := s.take word.length
  if head.map Char.toLower = word then some (head, s.drop word.length) else none

/-- The short word for infinity; a text that goes on with the long one has to end it. -/
def scanInf (s : Str) : Option (Str × Str) := do
  let r ← scanWord ['i', 'n', 'f'] s
  if r.2.head?.map Char.toLower = some 'i' then none else some r

/-- The unsigned part of a number. The prefix of a hexadecimal number is not taken back when
nothing of the number follows; only a point makes it the number 0. -/
def scanMagnitude (s : Str) : Option (Str × Str) :=
  match scanWord ['0', 'x'] s with
  | some (x, rest) =>
    match scanMantissa isHexDigit rest with
    | some (mant, rest) =>
      let exp := scanExponent 'p' rest
      some (x ++ mant ++ exp.1, exp.2)
    | none => if rest.head? = some '.' then some (x.take 1, s.drop 1) else none
  | none =>
    let dec : Option (Str × Str) := do
      let (mant, rest) ← scanMantissa Char.isDigit s
      let exp := scanExponent 'e' rest
      some (mant ++ exp.1, exp.2)
    dec <|> scanWord ['i', 'n', 'f', 'i', 'n', 'i', 't', 'y'] s <|> scanInf s <|>
      scanWord ['n', 'a', 'n'] s

def isSpace (c : Char) : Bool := c = ' ' || ('\t' ≤ c && c ≤ '\r')

/-- `sscanf(s, "%lg,", ..)`: the text of the number that was converted, `none` when the
call does not return 1. -/
def sscanfLg (s : Str) : Option Str :=
  let s := s.dropWhile isSpace
  let sign := s.take (if s.head? = some '+' ∨ s.head? = some '-' then 1 else 0)
  (scanMagnitude (s.drop sign.length)).map fun r => sign ++ r.1

/-! ## Reading entries -/

/-- What a call of `m3u8_get_next_ent` leaves behind: the value returned, the text of the
last duration, the file name, and the rest of the stream. -/
structure NextEnt where
  found : Bool
  duration : Str
  filename : Str
  rest : Str
deriving DecidableEq, Repr

/-- Chop the ending newline off the file name. -/
def chopNewline (buf : Str) : Except Fault Str := do
  let filename := cstr buf
  check (filename.length > 0) .entryLength
  return if filename.getLast? = some '\n' then filename.dropLast else filename

def extinf : Str := ['#', 'E', 'X', 'T', 'I', 'N', 'F', ':']

theorem ne_nil_of_take_cstr {r : Str} (h : (cstr r).take extinf.length = extinf) : r ≠ [] := by
  rintro rfl
  exact absurd h (by decide)

theorem ne_nil_of_head? {r : Str} {c : Char} (h : r.head? = some c) : r ≠ [] := by
  rintro rfl
  cases h

/-- The loop of `m3u8_get_next_ent`. A buffer that starts with a terminator goes to the
test of the loop like any other. -/
def m3u8GetNextEnt (filename_arrsize : ℕ) (duration fp : Str) : Except Fault NextEnt :=
  match h : fgets filename_arrsize fp with
  | none => .ok { found := false, duration, filename := [], rest := fp }
  | some (r, rest) =>
    if hx : (cstr r).take extinf.length = extinf then
      match sscanfLg ((cstr r).drop extinf.length) with
      | none => .ok { found := false, duration, filename := cstr r, rest }
      | some d =>
        have := fgets_lt h (ne_nil_of_take_cstr hx)
        m3u8GetNextEnt filename_arrsize d rest
    else if hc : r.head? = some '#' then
      have := fgets_lt h (ne_nil_of_head? hc)
      m3u8GetNextEnt filename_arrsize duration rest
    else do
      let filename ← chopNewline r
      return { found := true, duration, filename, rest }
termination_by fp.length

def dummyM3u8GetNextEnt (filename_arrsize : ℕ) (fp : Str) : Except Fault NextEnt :=
  match h : fgets filename_arrsize fp with
  | none => .ok { found := false, duration := [], filename := [], rest := fp }
  | some (r, rest) =>
    if hc : r.head? = some '#' then
      have := fgets_lt h (ne_nil_of_head? hc)
      dummyM3u8GetNextEnt filename_arrsize rest
    else do
      let filename ← chopNewline r
      return { found := true, duration := [], filename, rest }
termination_by fp.length

/-! ## The dummy playlist -/

/-- The pattern that `segment.sh` gives to `awk`. -/
def extinfMark : Str := ['#', 'E', 'X', 'T', 'I', 'N', 'F']

/-- What `segment.sh` makes of `list.m3u8`: the lines without the pattern, each of them
printed with a newline. -/
def dummyPlaylist (text : Str) : Str :=
  ((lines text).filter fun l => ¬extinfMark <:+: l).flatMap (· ++ ['\n'])

end RqRoute
