import RqRoute.Model.M3u8

/-! # The receiver's segment table

`segment_list.c`: an array of file names that doubles whenever it is full. -/

namespace RqRoute

open Checked Memory Text

structure Segment where
  file_name : Str
deriving DecidableEq, Repr

/-- The entries of a new array are not initialised; they are `none` until stored. -/
structure SegmentList where
  n_segments : ℤ
  segments : Buffer (Option Segment)

/-- `arrsz * sizeof(*L->segments)` bytes from `malloc` or `realloc`. A negative `arrsz`
turns into a size that no allocation can meet, and gives the null pointer. -/
def allocSegments (arrsz : ℤ) (old : ℕ → Option Segment) : Buffer (Option Segment) :=
  if arrsz < 0 then { size := 0, cell := fun _ => none } else { size := arrsz.toNat, cell := old }

/-- The array under construction, with the number of entries it has room for. -/
structure SegmentListLoad where
  L : SegmentList
  arrsz : ℤ

def segmentListLoadInit : SegmentListLoad :=
  { L := { n_segments := 0, segments := allocSegments 16 fun _ => none }, arrsz := 16 }

/-- The body of the loop: store one entry, and double the array when it is full. -/
def segmentListAppend (s : SegmentListLoad) (fullpath : Str) : Except Fault SegmentListLoad := do
  check (0 ≤ s.L.n_segments) .outOfBounds
  let segments ← orElse (s.L.segments.store? s.L.n_segments.toNat
    (some { file_name := fullpath })) .outOfBounds
  let n_segments := toInt (s.L.n_segments + 1)
  if n_segments = s.arrsz then
    let arrsz := toInt (s.arrsz * 2)
    return { L := { n_segments, segments := allocSegments arrsz segments.cell }, arrsz }
  else
    return { s with L := { n_segments, segments } }

/-- `maxlen_fn`. -/
def maxlenFn : ℕ := 40

/-- The loop over the entries. Each round takes something off the stream; one that does
not would repeat for ever. -/
def segmentListEntries (directory : Str) (s : SegmentListLoad) (fp : Str) :
    Except Fault SegmentListLoad := do
  let e ← dummyM3u8GetNextEnt maxlenFn fp
  if e.found then
    let s ← segmentListAppend s (directory ++ '/' :: e.filename)
    if _h : e.rest.length < fp.length then segmentListEntries directory s e.rest
    else .error .endlessLoop
  else return s
termination_by fp.length

/-- `fp` is the text of the dummy playlist, `none` when it cannot be opened. -/
def segmentListLoad (directory : Str) (fp : Option Str) : Except Fault (Option SegmentList) :=
  match fp with
  | none => return none
  | some fp => do
    let s ← segmentListEntries directory segmentListLoadInit fp
    return some s.L

end RqRoute
