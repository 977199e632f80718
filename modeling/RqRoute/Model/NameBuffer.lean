import RqRoute.Library.CString
import RqRoute.Model.SegmentList
import RqRoute.Model.Sender

/-! # File names in memory

The same readers and their callers, with the buffer that the names are stored in:
`fnam_buf` in `sender.c` and `fullpath` in `segment_list.c`. A store outside of the
buffer is a fault. The bytes of a new buffer are arbitrary. -/

namespace RqRoute.InMemory

open Checked Memory Text

/-! ## The readers -/

/-- What a call leaves behind: the value returned, the text of the last duration, the rest
of the stream, and the buffer. -/
structure NextEnt where
  found : Bool
  duration : Str
  rest : Str
  buf : Buffer Char

/-- The duration after a line was looked at, `none` when an `EXTINF` cannot be parsed. -/
def parseExtinf (duration r : Str) : Option Str :=
  if r.take extinf.length = extinf then sscanfLg (r.drop extinf.length) else some duration

/-- Chop the ending newline off the file name at offset `filename_ret`. -/
def chopNewline (buf : Buffer Char) (filename_ret : ℕ) : Except Fault (Buffer Char) := do
  let l := (stringAt buf filename_ret).length
  check (l > 0) .entryLength
  if buf.cell (filename_ret + (l - 1)) = '\n' then
    orElse (buf.store? (filename_ret + (l - 1)) '\x00') .outOfBounds
  else return buf

/-- The loop that both readers share; they differ in what they do with a line. An empty string
in the buffer goes to the test of the loop like any other. A round that takes nothing off the
stream would repeat for ever. -/
def getNextEnt (parse : Str → Str → Option Str) (filename_arrsize filename_ret : ℕ)
    (duration fp : Str) (buf : Buffer Char) : Except Fault NextEnt :=
  match fgets filename_arrsize fp with
  | none => return { found := false, duration, rest := fp, buf }
  | some (r, rest) => do
    let buf ← orElse (storeString buf filename_ret r) .outOfBounds
    match parse duration (stringAt buf filename_ret) with
    | none => return { found := false, duration, rest, buf }
    | some duration =>
      if buf.cell filename_ret = '#' then
        if _h : rest.length < fp.length then
          getNextEnt parse filename_arrsize filename_ret duration rest buf
        else .error .endlessLoop
      else
        let buf ← chopNewline buf filename_ret
        return { found := true, duration, rest, buf }
termination_by fp.length

def m3u8GetNextEnt : ℕ → ℕ → Str → Str → Buffer Char → Except Fault NextEnt :=
  getNextEnt parseExtinf

def dummyM3u8GetNextEnt (filename_arrsize filename_ret : ℕ) (fp : Str) (buf : Buffer Char) :
    Except Fault NextEnt :=
  getNextEnt (fun duration _ => some duration) filename_arrsize filename_ret [] fp buf

/-! ## The callers -/

def listM3u8 : Str := ['l', 'i', 's', 't', '.', 'm', '3', 'u', '8']

/-- The loop of `send_segments`: what it transmits, when no store leaves `fnam_buf`. A
transmission that fails ends it. -/
def sendSegmentsFrom (xmit : (filename : Str) → (file_nbr : ℤ) → Xmit Unit) (fnam_p : ℕ)
    (file_nbr : ℤ) (duration fpp : Str) (fnam_buf : Buffer Char) : Except Fault (Xmit Unit) := do
  let e ← m3u8GetNextEnt lenPbuf fnam_p duration fpp fnam_buf
  if e.found then
    let x := xmit (stringAt e.buf 0) file_nbr
    match x.result with
    | .error _ => return x
    | .ok () =>
      if _h : e.rest.length < fpp.length then
        let next ← sendSegmentsFrom xmit fnam_p (toInt (file_nbr + 1)) e.duration e.rest e.buf
        return (do x; next)
      else .error .endlessLoop
  else return (pure ())
termination_by fpp.length

/-- The name of a file, from its directory on: `malloc`, `strcpy`, and the slash. -/
def directoryPath (fresh : ℕ → Char) (directory : Str) (room : ℕ) (listing : Str) :
    Except Fault (Buffer Char) := do
  let l_directory := (cstr directory).length
  let buf ← orElse (storeString { size := l_directory + room, cell := fresh } 0 (cstr directory))
    .outOfBounds
  let buf ← orElse (buf.store? l_directory '/') .outOfBounds
  orElse (storeString buf (l_directory + 1) listing) .outOfBounds

def sendSegments (fresh : ℕ → Char) (xmit : (filename : Str) → (file_nbr : ℤ) → Xmit Unit)
    (dirname : Str) (fpp : Option Str) : Except Fault (Xmit Unit) := do
  let fnam_buf ← directoryPath fresh dirname lenPbuf listM3u8
  match fpp with
  | none => return Xmit.failed
  | some fpp => sendSegmentsFrom xmit ((cstr dirname).length + 1) 0 [] fpp fnam_buf

def dummyPlaylistM3u8 : Str :=
  ['d', 'u', 'm', 'm', 'y', '_', 'p', 'l', 'a', 'y', 'l', 'i', 's', 't', '.', 'm', '3', 'u', '8']

/-- The loop of `segment_list_load`: the names that `strdup` copies out of `fullpath`. -/
def segmentListNames (relative_name : ℕ) (fp : Str) (fullpath : Buffer Char) :
    Except Fault (List Str) := do
  let e ← dummyM3u8GetNextEnt maxlenFn relative_name fp fullpath
  if e.found then
    if _h : e.rest.length < fp.length then
      let names ← segmentListNames relative_name e.rest e.buf
      return stringAt e.buf 0 :: names
    else .error .endlessLoop
  else return []
termination_by fp.length

def segmentListLoad (fresh : ℕ → Char) (directory : Str) (fp : Option Str) :
    Except Fault (Option (List Str)) := do
  let fullpath ← directoryPath fresh directory (maxlenFn + 2) dummyPlaylistM3u8
  match fp with
  | none => return none
  | some fp => do
    let names ← segmentListNames ((cstr directory).length + 1) fp fullpath
    return some names

end RqRoute.InMemory
