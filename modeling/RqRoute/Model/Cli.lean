import RqRoute.Library.Lines

/-! # The command line of the sender

`get_next_line` of `cli.c` with its static buffer. A call is a function of the buffer and of
what its calls of `read` return. -/

namespace RqRoute

open Text

/-- `sizeof(buf)` in `get_next_line`. -/
def sizeofBuf : ℕ := 256

/-- `strchr`: nothing past the terminator is searched. -/
def strchr (s : Str) (c : Char) : Option ℕ :=
  if c ∈ cstr s then some ((cstr s).idxOf c) else none

/-- What `read` returns on the non-blocking descriptor. -/
inductive Read where
  /-- -1, with `EAGAIN` or `EWOULDBLOCK` -/
  | again
  /-- -1, with another error -/
  | error
  /-- 0 -/
  | eof
  | bytes (chunk : Str)
deriving DecidableEq, Repr

inductive LineResult where
  /-- true, with the string in `dest` -/
  | line (dest : Str)
  /-- false -/
  | none
  /-- the process exits -/
  | exit
deriving DecidableEq, Repr

/-- What a call leaves behind: `buf` stands before the terminator, and `counts` are the values
of `n_bytes_in_buf` after each read. -/
structure LineCall where
  result : LineResult
  buf : Str
  counts : List ℕ
deriving DecidableEq, Repr

/-- A newline was found at `p`. -/
def takeLine (dest_sz : ℕ) (buf : Str) (p : ℕ) : LineCall :=
  let dest := if dest_sz > p then buf.take p else buf.take (dest_sz - 1)
  { result := .line (cstr dest), buf := buf.drop (p + 1), counts := [] }

/-- The loop of `get_next_line`, from the position `p_search` of its static buffer on. `reads`
are the results of its calls of `read`, no more and no fewer; a chunk is not longer than what
was asked for. -/
def getNextLine (dest_sz : ℕ) (buf : Str) (p_search : ℕ) (reads : List Read) : Option LineCall :=
  match strchr (buf.drop p_search) '\n' with
  | some i => if reads = [] then some (takeLine dest_sz buf (p_search + i)) else none
  | none =>
    match reads with
    | [] => none
    | .again :: reads | .error :: reads =>
      if reads = [] then some { result := .none, buf, counts := [] } else none
    | .eof :: reads => if reads = [] then some { result := .exit, buf, counts := [] } else none
    | .bytes chunk :: reads =>
      if chunk ≠ [] ∧ chunk.length ≤ sizeofBuf - buf.length - 1 then
        let n_bytes_in_buf := buf.length + chunk.length
        let call :=
          -- a line that fills the buffer is discarded
          if n_bytes_in_buf = sizeofBuf - 1 then getNextLine dest_sz [] 0 reads
          else getNextLine dest_sz (buf ++ chunk) buf.length reads
        call.map fun call => { call with counts := n_bytes_in_buf :: call.counts }
      else none

/-- The size of `buf` in `cli_commands`. -/
def cliLineSize : ℕ := 80

/-- The static buffer of the reader, and whether the process has exited. -/
structure LineReader where
  buf : Str
  exited : Bool
deriving DecidableEq, Repr

def LineReader.init : LineReader := { buf := [], exited := false }

inductive LineEvent where
  | filled (n_bytes_in_buf : ℕ)
  | line (dest : Str)
deriving DecidableEq, Repr

def LineResult.events : LineResult → List LineEvent
  | .line dest => [.line dest]
  | .none | .exit => []

/-- One call of `get_next_line`, as `cli_commands` makes it. -/
def LineReader.Step (s : LineReader) (reads : List Read) (s' : LineReader)
    (es : List LineEvent) : Prop :=
  s.exited = false ∧ ∃ call, getNextLine cliLineSize s.buf 0 reads = some call ∧
    s' = { buf := call.buf, exited := decide (call.result = .exit) } ∧
    es = call.counts.map .filled ++ call.result.events

end RqRoute
