import RqRoute.Library.Transition
import RqRoute.Model.Cli

/-! # The lines of the command reader

A call of `get_next_line` finds a line in its buffer or reads until there is one. While no
read fills the buffer, the lines do not depend on how the input is cut into chunks; a read
that fills it throws away what is in it, complete lines included. -/

namespace RqRoute

open Text Transition

/-- The bytes that a read has brought. -/
def Read.chunk? : Read → Option Str
  | .bytes chunk => some chunk
  | .again | .error | .eof => none

def readChunks (reads : List Read) : List Str := reads.filterMap Read.chunk?

@[simp] theorem readChunks_nil : readChunks [] = [] := rfl

@[simp] theorem readChunks_bytes (chunk : Str) (reads : List Read) :
    readChunks (.bytes chunk :: reads) = chunk :: readChunks reads := rfl

/-- No chunk, together with the unfinished line before it, fills the buffer. -/
def NeverFills : Str → List Str → Prop
  | _, [] => True
  | buf, chunk :: chunks =>
    (buf ++ chunk).length < sizeofBuf - 1 ∧ NeverFills (unended (buf ++ chunk)) chunks

instance NeverFills.decidable :
    (buf : Str) → (chunks : List Str) → Decidable (NeverFills buf chunks)
  | _, [] => isTrue trivial
  | buf, chunk :: chunks =>
    have := NeverFills.decidable (unended (buf ++ chunk)) chunks
    inferInstanceAs (Decidable (_ ∧ _))

theorem neverFills_append (buf : Str) {as bs : List Str} :
    NeverFills (unended buf) (as ++ bs) ↔
      NeverFills (unended buf) as ∧ NeverFills (unended (buf ++ as.flatten)) bs := by
  induction as generalizing buf with
  | nil => simp [NeverFills]
  | cons a as ih =>
      rw [List.cons_append, NeverFills, NeverFills, ih, List.flatten_cons, ← List.append_assoc,
        unended_append (buf ++ a), unended_append buf a, ← unended_append (unended buf ++ a),
        and_assoc]

/-! ## One call -/

/-- What a call does, on text without terminators. -/
inductive Fetches (dest_sz : ℕ) : Str → List Read → LineCall → Prop
  | line {l rest : Str} (hl : '\n' ∉ l) :
      Fetches dest_sz (l ++ '\n' :: rest) []
        { result := .line (l.take (dest_sz - 1)), buf := rest, counts := [] }
  | stops {buf : Str} {r : Read} {result : LineResult} (hbuf : '\n' ∉ buf)
      (hr : r.chunk? = none) (hresult : result.events = []) :
      Fetches dest_sz buf [r] { result, buf, counts := [] }
  | more {buf chunk : Str} {reads : List Read} {call : LineCall} (hbuf : '\n' ∉ buf)
      (hroom : (buf ++ chunk).length < sizeofBuf - 1)
      (hcall : Fetches dest_sz (buf ++ chunk) reads call) :
      Fetches dest_sz buf (.bytes chunk :: reads)
        { call with counts := (buf ++ chunk).length :: call.counts }
  | full {buf chunk : Str} {reads : List Read} {call : LineCall} (hbuf : '\n' ∉ buf)
      (hfull : (buf ++ chunk).length = sizeofBuf - 1) (hcall : Fetches dest_sz [] reads call) :
      Fetches dest_sz buf (.bytes chunk :: reads)
        { call with counts := (buf ++ chunk).length :: call.counts }

theorem strchr_eq_none_iff {s : Str} (hnul : '\x00' ∉ s) : strchr s '\n' = none ↔ '\n' ∉ s := by
  simp [strchr, cstr_eq_self hnul]

theorem strchr_eq_some {s : Str} (hnul : '\x00' ∉ s) {i : ℕ} (h : strchr s '\n' = some i) :
    ∃ l rest, s = l ++ '\n' :: rest ∧ '\n' ∉ l ∧ l.length = i := by
  rw [strchr, cstr_eq_self hnul] at h
  split at h
  · rename_i hmem
    obtain ⟨l, rest, rfl, hl⟩ := List.eq_append_cons_of_mem hmem
    refine ⟨l, rest, rfl, hl, ?_⟩
    rw [← Option.some.inj h, List.idxOf_append_of_notMem hl, List.idxOf_cons_self, Nat.add_zero]
  · cases h

/-- The line that stands before the newline, cut to the room in `dest`. -/
theorem takeLine_eq {dest_sz : ℕ} {l rest : Str} (hnul : '\x00' ∉ l) :
    takeLine dest_sz (l ++ '\n' :: rest) l.length =
      { result := .line (l.take (dest_sz - 1)), buf := rest, counts := [] } := by
  have hdest : (if dest_sz > l.length then (l ++ '\n' :: rest).take l.length
      else (l ++ '\n' :: rest).take (dest_sz - 1)) = l.take (dest_sz - 1) := by
    split
    · rw [List.take_left, List.take_of_length_le (by omega)]
    · rw [List.take_append_of_le_length (by omega)]
  have hrest : (l ++ '\n' :: rest).drop (l.length + 1) = rest := by
    rw [← List.drop_drop, List.drop_left, List.drop_one, List.tail_cons]
  simp only [takeLine, hdest, hrest]
  rw [cstr_eq_self fun h => hnul (List.mem_of_mem_take h)]

theorem getNextLine_found {dest_sz : ℕ} {buf : Str} {p_search : ℕ} {i : ℕ}
    (hi : strchr (buf.drop p_search) '\n' = some i) (reads : List Read) :
    getNextLine dest_sz buf p_search reads =
      if reads = [] then some (takeLine dest_sz buf (p_search + i)) else none := by
  unfold getNextLine
  rw [hi]

/-- The line before the first newline of the buffer. -/
theorem fetches_found {dest_sz : ℕ} {buf : Str} {p_search i : ℕ}
    (hsearch : '\n' ∉ buf.take p_search) (hnul : '\x00' ∉ buf)
    (hi : strchr (buf.drop p_search) '\n' = some i) :
    Fetches dest_sz buf [] (takeLine dest_sz buf (p_search + i)) := by
  obtain ⟨l, rest, hdrop, hl, rfl⟩ :=
    strchr_eq_some (fun hmem => hnul (List.mem_of_mem_drop hmem)) hi
  have hsplit : buf = (buf.take p_search ++ l) ++ '\n' :: rest := by
    rw [List.append_assoc, ← hdrop, List.take_append_drop]
  have hlen : (buf.take p_search ++ l).length = p_search + l.length := by
    have hpos := congrArg List.length hdrop
    simp only [List.length_drop, List.length_append, List.length_cons] at hpos
    rw [List.length_append, List.length_take]
    omega
  have hline : '\n' ∉ buf.take p_search ++ l := by
    rw [List.mem_append, not_or]
    exact ⟨hsearch, hl⟩
  generalize buf.take p_search ++ l = line at hsplit hlen hline
  subst hsplit
  rw [← hlen, takeLine_eq fun hmem => hnul (List.mem_append_left _ hmem)]
  exact .line hline

/-- What a call does, as the code says it. -/
theorem fetches_of_getNextLine {dest_sz : ℕ} {buf : Str} {p_search : ℕ} {reads : List Read}
    {call : LineCall} (hsearch : '\n' ∉ buf.take p_search) (hnul : '\x00' ∉ buf)
    (hchunks : '\x00' ∉ (readChunks reads).flatten)
    (h : getNextLine dest_sz buf p_search reads = some call) :
    Fetches dest_sz buf reads call := by
  induction reads generalizing buf p_search call with
  | nil =>
      cases hi : strchr (buf.drop p_search) '\n' with
      | none =>
          unfold getNextLine at h
          simp [hi] at h
      | some i =>
          rw [getNextLine_found hi, if_pos rfl] at h
          obtain rfl := Option.some.inj h
          exact fetches_found hsearch hnul hi
  | cons r reads ih =>
      cases hi : strchr (buf.drop p_search) '\n' with
      | some i => simp [getNextLine_found hi] at h
      | none =>
          have hbuf : '\n' ∉ buf := by
            rw [strchr_eq_none_iff fun hmem => hnul (List.mem_of_mem_drop hmem)] at hi
            rw [← List.take_append_drop p_search buf, List.mem_append, not_or]
            exact ⟨hsearch, hi⟩
          unfold getNextLine at h
          simp only [hi] at h
          cases r with
          | again | error | eof =>
              obtain ⟨rfl, hcall⟩ := Option.ite_none_right_eq_some.mp h
              obtain rfl := Option.some.inj hcall
              exact .stops hbuf rfl rfl
          | bytes chunk =>
              rw [readChunks_bytes, List.flatten_cons, List.mem_append, not_or] at hchunks
              obtain ⟨⟨hne, hsize⟩, hcall⟩ := Option.ite_none_right_eq_some.mp h
              obtain ⟨call', hcall', rfl⟩ := Option.map_eq_some_iff.mp hcall
              have hpos := List.length_pos_iff.mpr hne
              have hroom : buf.length + chunk.length ≤ sizeofBuf - 1 := by
                change chunk.length ≤ 256 - buf.length - 1 at hsize
                change _ ≤ 255
                omega
              rw [← List.length_append] at hcall' ⊢ hroom
              split at hcall'
              · rename_i hfull
                exact .full hbuf hfull (ih (by simp) (by simp) hchunks.2 hcall')
              · exact .more hbuf (by omega) (ih (by simpa using hbuf)
                  (by simpa using ⟨hnul, hchunks.1⟩) hchunks.2 hcall')

/-! ## What a call keeps -/

/-- The lines that a call returns: one or none. -/
def LineResult.lines : LineResult → List Str
  | .line dest => [dest]
  | .none | .exit => []

theorem LineResult.lines_of_events {result : LineResult} (h : result.events = []) :
    result.lines = [] := by
  cases result with
  | line dest => cases h
  | none | exit => rfl

variable {dest_sz : ℕ} {buf : Str} {reads : List Read} {call : LineCall}

/-- While no read fills the buffer, every line of the text is returned or still in the buffer. -/
theorem Fetches.lines_eq (h : Fetches dest_sz buf reads call)
    (hfill : NeverFills (unended buf) (readChunks reads)) :
    call.result.lines ++ (endedLines call.buf).map (List.take (dest_sz - 1)) =
        (endedLines (buf ++ (readChunks reads).flatten)).map (List.take (dest_sz - 1)) ∧
      unended call.buf = unended (buf ++ (readChunks reads).flatten) ∧
      ∀ n ∈ call.counts, n < sizeofBuf - 1 := by
  induction h with
  | line hl =>
      simp [endedLines_line hl, unended_line hl, LineResult.lines]
  | @stops buf r result hbuf hr hresult =>
      have hchunks : readChunks [r] = [] := by simp [readChunks, hr]
      simp [hchunks, LineResult.lines_of_events hresult]
  | @more buf chunk reads call hbuf hroom _ ih =>
      rw [unended_last hbuf, readChunks_bytes, NeverFills] at hfill
      obtain ⟨hlines, hrest, hcounts⟩ := ih hfill.2
      rw [readChunks_bytes, List.flatten_cons, ← List.append_assoc]
      exact ⟨hlines, hrest, List.forall_mem_cons.mpr ⟨hroom, hcounts⟩⟩
  | @full buf chunk reads call hbuf hfull =>
      rw [unended_last hbuf, readChunks_bytes, NeverFills] at hfill
      exact absurd hfill.1 (by omega)

/-- A call that returns no line leaves none in the buffer. -/
theorem Fetches.drained (h : Fetches dest_sz buf reads call) (hnone : call.result.lines = []) :
    '\n' ∉ call.buf := by
  induction h with
  | line hl => cases hnone
  | stops hbuf => exact hbuf
  | more _ _ _ ih | full _ _ _ ih => exact ih hnone

theorem Fetches.mem_of_mem_buf (h : Fetches dest_sz buf reads call) {c : Char} (hc : c ∈ call.buf) :
    c ∈ buf ∨ c ∈ (readChunks reads).flatten := by
  induction h with
  | line hl => exact .inl (List.mem_append_right _ (List.mem_cons_of_mem _ hc))
  | stops hbuf => exact .inl hc
  | more _ _ _ ih =>
      have hmem := ih hc
      rw [List.mem_append, or_assoc] at hmem
      simpa using hmem
  | full _ _ _ ih =>
      have hmem := ih hc
      rw [readChunks_bytes, List.flatten_cons, List.mem_append]
      exact .inr (.inr (hmem.resolve_left List.not_mem_nil))

/-- No call makes up lines. -/
theorem Fetches.count_le (h : Fetches dest_sz buf reads call) :
    call.result.lines.length + call.buf.count '\n' ≤
      buf.count '\n' + (readChunks reads).flatten.count '\n' := by
  induction h with
  | line hl =>
      simp only [LineResult.lines, List.length_singleton, List.count_append,
        List.count_eq_zero_of_not_mem hl, List.count_cons_self, readChunks_nil, List.flatten_nil,
        List.count_nil]
      omega
  | stops _ _ hresult => simp [LineResult.lines_of_events hresult]
  | more _ _ _ ih =>
      simp only [List.count_append, readChunks_bytes, List.flatten_cons] at ih ⊢
      omega
  | full _ _ _ ih =>
      simp only [List.count_append, List.count_nil, readChunks_bytes, List.flatten_cons] at ih ⊢
      omega

/-- When no line of the text fills the buffer by itself, a read that fills it loses a line. -/
theorem Fetches.count_lt (h : Fetches dest_sz buf reads call)
    (hlines : ∀ l ∈ lines (unended buf ++ (readChunks reads).flatten), l.length < sizeofBuf - 1)
    (hfill : ¬NeverFills (unended buf) (readChunks reads)) :
    call.result.lines.length + call.buf.count '\n' <
      buf.count '\n' + (readChunks reads).flatten.count '\n' := by
  induction h with
  | line hl => exact absurd trivial hfill
  | @stops buf r result hbuf hr hresult =>
      have hchunks : readChunks [r] = [] := by simp [readChunks, hr]
      rw [hchunks] at hfill
      exact absurd trivial hfill
  | @more buf chunk reads call hbuf hroom _ ih =>
      rw [unended_last hbuf, readChunks_bytes, NeverFills] at hfill
      rw [unended_last hbuf, readChunks_bytes, List.flatten_cons, ← List.append_assoc,
        lines_append] at hlines
      have hlt := ih (fun l hl => hlines l (List.mem_append_right _ hl))
        fun hrest => hfill ⟨hroom, hrest⟩
      simp only [List.count_append, readChunks_bytes, List.flatten_cons] at hlt ⊢
      omega
  | @full buf chunk reads call hbuf hfull hcall _ =>
      have hle := hcall.count_le
      have hmem : '\n' ∈ chunk := by
        by_contra hno
        obtain ⟨l, hl, hlen⟩ := exists_line_of_prefix (l := buf ++ chunk)
          (by simp [hbuf, hno]) (fun hnil => by simp [hnil, sizeofBuf] at hfull)
          (readChunks reads).flatten
        rw [unended_last hbuf, readChunks_bytes, List.flatten_cons, ← List.append_assoc] at hlines
        have hlt := hlines l hl
        omega
      have hpos := List.count_pos_iff.mpr hmem
      simp only [List.count_append, List.count_nil, readChunks_bytes, List.flatten_cons] at hle ⊢
      omega

/-! ## Successive calls -/

/-- The chunks that the calls of a run read, and their text. -/
def inputChunks (t : List (Entry LineReader (List Read) LineEvent)) : List Str :=
  t.flatMap fun x => readChunks x.input

def inputText (t : List (Entry LineReader (List Read) LineEvent)) : Str := (inputChunks t).flatten

/-- The lines returned, and the values of `n_bytes_in_buf`. -/
def LineEvent.line? : LineEvent → Option Str
  | .line dest => some dest
  | .filled _ => none

def returnedLines (es : List LineEvent) : List Str := es.filterMap LineEvent.line?

/-- The lines returned, with those that the next calls will find in the buffer, are the complete
lines of the text, in order, each cut to 79 characters; none is left when a call returns
false, and the buffer was never full. -/
structure Delivers (t : List (Entry LineReader (List Read) LineEvent)) (s : LineReader) : Prop where
  lines_eq : returnedLines (events t) ++ (endedLines s.buf).map (List.take 79) =
    (endedLines (inputText t)).map (List.take 79)
  all_of_none : (∀ x ∈ t.getLast?, returnedLines x.events = []) →
    returnedLines (events t) = (endedLines (inputText t)).map (List.take 79)
  counts_lt : ∀ n, .filled n ∈ events t → n < 255

variable {t : List (Entry LineReader (List Read) LineEvent)} {s : LineReader}

@[simp] theorem inputChunks_snoc (reads : List Read) (es : List LineEvent) :
    inputChunks (t ++ [⟨s, reads, es⟩]) = inputChunks t ++ readChunks reads := by
  simp [inputChunks]

@[simp] theorem inputText_snoc (reads : List Read) (es : List LineEvent) :
    inputText (t ++ [⟨s, reads, es⟩]) = inputText t ++ (readChunks reads).flatten := by
  simp [inputText]

@[simp] theorem returnedLines_append (es fs : List LineEvent) :
    returnedLines (es ++ fs) = returnedLines es ++ returnedLines fs := List.filterMap_append

@[simp] theorem returnedLines_counts (counts : List ℕ) :
    returnedLines (counts.map .filled) = [] := by
  simp [returnedLines, LineEvent.line?]

@[simp] theorem returnedLines_result (result : LineResult) :
    returnedLines result.events = result.lines := by
  cases result <;> rfl

theorem LineReader.Step.fetches {s' : LineReader} {reads : List Read} {es : List LineEvent}
    (h : s.Step reads s' es) (hnul : '\x00' ∉ s.buf)
    (hchunks : '\x00' ∉ (readChunks reads).flatten) :
    ∃ call, Fetches 80 s.buf reads call ∧ s'.buf = call.buf ∧
      es = call.counts.map .filled ++ call.result.events := by
  obtain ⟨-, call, hcall, rfl, rfl⟩ := h
  exact ⟨call, fetches_of_getNextLine (by simp) hnul hchunks hcall, rfl, rfl⟩

theorem nul_not_mem_buf (h : Run LineReader.Step .init t s) (hnul : '\x00' ∉ inputText t) :
    '\x00' ∉ s.buf := by
  induction h with
  | nil => simp [LineReader.init]
  | @snoc t s s' reads es hrun hstep ih =>
      rw [inputText_snoc, List.mem_append, not_or] at hnul
      have hbuf := ih hnul.1
      obtain ⟨call, hcall, hs', -⟩ := hstep.fetches hbuf hnul.2
      rw [hs']
      exact fun hmem => (hcall.mem_of_mem_buf hmem).elim hbuf hnul.2

/-- Without a read that fills the buffer, the chunks do not matter. -/
theorem delivers_of_neverFills (h : Run LineReader.Step .init t s) (hnul : '\x00' ∉ inputText t)
    (hfill : NeverFills [] (inputChunks t)) :
    Delivers t s ∧ unended s.buf = unended (inputText t) := by
  induction h with
  | nil => exact ⟨⟨rfl, fun _ => rfl, fun n hn => by simp at hn⟩, rfl⟩
  | @snoc t s s' reads es hrun hstep ih =>
      rw [inputText_snoc, List.mem_append, not_or] at hnul
      rw [inputChunks_snoc] at hfill
      obtain ⟨hold, hnew⟩ := (neverFills_append []).mp hfill
      obtain ⟨hd, htail⟩ := ih hnul.1 hold
      obtain ⟨call, hcall, hs', rfl⟩ := hstep.fetches (nul_not_mem_buf hrun hnul.1) hnul.2
      change NeverFills (unended (inputText t)) (readChunks reads) at hnew
      rw [← htail] at hnew
      obtain ⟨hlines, hrest, hcounts⟩ := hcall.lines_eq hnew
      have hall : returnedLines (events t) ++ call.result.lines ++
          (endedLines call.buf).map (List.take 79) =
            (endedLines (inputText t ++ (readChunks reads).flatten)).map (List.take 79) := by
        rw [List.append_assoc, hlines, endedLines_append s.buf, List.map_append,
          ← List.append_assoc, hd.lines_eq, htail, endedLines_append (inputText t),
          List.map_append]
      refine ⟨⟨?_, ?_, ?_⟩, ?_⟩
      · simpa [hs'] using hall
      · intro hnone
        have hnil : call.result.lines = [] := by simpa using hnone
        rw [endedLines_last (hcall.drained hnil), List.map_nil, List.append_nil] at hall
        simpa using hall
      · intro n hn
        rw [events_append, events_singleton, List.mem_append, List.mem_append] at hn
        rcases hn with hn | hn | hn
        · exact hd.counts_lt n hn
        · obtain ⟨m, hm, heq⟩ := List.mem_map.mp hn
          cases heq
          exact hcounts n hm
        · cases hr : call.result <;> simp [hr, LineResult.events] at hn
      · rw [hs', hrest, inputText_snoc, unended_append, htail, ← unended_append]

/-- A read that fills the buffer throws a line away, when no line is as long as the buffer. -/
theorem loses_of_fills (h : Run LineReader.Step .init t s) (hnul : '\x00' ∉ inputText t)
    (hlines : ∀ l ∈ lines (inputText t), l.length ≤ 253) (hfill : ¬NeverFills [] (inputChunks t)) :
    (returnedLines (events t)).length + s.buf.count '\n' < (inputText t).count '\n' := by
  induction h with
  | nil => exact absurd trivial hfill
  | @snoc t s s' reads es hrun hstep ih =>
      rw [inputText_snoc] at hnul hlines
      rw [List.mem_append, not_or] at hnul
      obtain ⟨call, hcall, hs', rfl⟩ := hstep.fetches (nul_not_mem_buf hrun hnul.1) hnul.2
      rw [hs', events_append, events_singleton, returnedLines_append, returnedLines_append,
        returnedLines_counts, List.nil_append, returnedLines_result, List.length_append,
        inputText_snoc, List.count_append]
      by_cases hold : NeverFills [] (inputChunks t)
      · -- the first read that fills the buffer is in this call
        obtain ⟨hd, htail⟩ := delivers_of_neverFills hrun hnul.1 hold
        have hcount : (returnedLines (events t)).length + s.buf.count '\n' =
            (inputText t).count '\n' := by
          have hlen := congrArg List.length hd.lines_eq
          simpa [length_endedLines] using hlen
        have hnew : ¬NeverFills (unended s.buf) (readChunks reads) := by
          intro hnew
          rw [htail] at hnew
          rw [inputChunks_snoc] at hfill
          exact hfill ((neverFills_append []).mpr ⟨hold, hnew⟩)
        rw [lines_append] at hlines
        have hlt := hcall.count_lt (fun l hl => ?_) hnew
        · omega
        · have hle := hlines l (List.mem_append_right _ (htail ▸ hl))
          exact Nat.lt_succ_of_le hle |>.trans (by decide)
      · have hlt := ih hnul.1 (length_lines_of_append hlines) hold
        have hle := hcall.count_le
        omega

/-- For every text without terminators whose lines have at most 253 characters, and every way
in which it is read, the calls return its lines exactly when no read fills the buffer. -/
theorem delivers_iff_neverFills (h : Run LineReader.Step .init t s) (hnul : '\x00' ∉ inputText t)
    (hlines : ∀ l ∈ lines (inputText t), l.length ≤ 253) :
    Delivers t s ↔ NeverFills [] (inputChunks t) := by
  constructor
  · intro hd
    by_contra hfill
    have hlt := loses_of_fills h hnul hlines hfill
    have hlen := congrArg List.length hd.lines_eq
    simp only [List.length_append, List.length_map, length_endedLines] at hlen
    omega
  · exact fun hfill => (delivers_of_neverFills h hnul hfill).1

/-- Two lines that come in three chunks, the last of them with a line that is not complete. -/
theorem delivers_iff_neverFills_three :
    ∃ (t : List (Entry LineReader (List Read) LineEvent)) (s : LineReader),
      Run LineReader.Step .init t s ∧
      t.map Entry.input = [[.bytes ['h'], .again],
        [.bytes ['e', 'l'], .bytes ['p', '\n', 'h', '\n', 'o']], []] ∧
      Delivers t s := by
  have hwait : LineReader.Step .init [.bytes ['h'], .again] { buf := ['h'], exited := false }
      [.filled 1] := ⟨rfl, _, rfl, rfl, rfl⟩
  have hhelp : LineReader.Step { buf := ['h'], exited := false }
      [.bytes ['e', 'l'], .bytes ['p', '\n', 'h', '\n', 'o']]
      { buf := ['h', '\n', 'o'], exited := false }
      [.filled 3, .filled 8, .line ['h', 'e', 'l', 'p']] := ⟨rfl, _, rfl, rfl, rfl⟩
  have hnext : LineReader.Step { buf := ['h', '\n', 'o'], exited := false } []
      { buf := ['o'], exited := false } [.line ['h']] := ⟨rfl, _, rfl, rfl, rfl⟩
  have hrun := ((Run.nil.snoc hwait).snoc hhelp).snoc hnext
  exact ⟨_, _, hrun, rfl, (delivers_iff_neverFills hrun (by decide) (by decide)).mpr (by decide)⟩

/-- A setting that the GUI sends when its slider moves. -/
def sliderCommand : Str :=
  ['o', 'v', 'e', 'r', 'h', 'e', 'a', 'd', ' ', '0', '.', '0', '3', '1', '2', '5', '\n']

/-- Fifteen settings are waiting, and one read fills the buffer with them: all are lost. -/
theorem full_read_drops_lines :
    ∃ (t : List (Entry LineReader (List Read) LineEvent)) (s : LineReader),
      Run LineReader.Step .init t s ∧
      t.map Entry.input = [[.bytes (List.replicate 15 sliderCommand).flatten, .again]] ∧
      '\x00' ∉ inputText t ∧ (∀ l ∈ lines (inputText t), l.length ≤ 253) ∧
      returnedLines (events t) = [] ∧ ¬Delivers t s := by
  refine ⟨_, .init, Run.nil.snoc ⟨rfl, { result := .none, buf := [], counts := [255] }, ?_, rfl,
    rfl⟩, rfl, ?_, ?_, rfl, fun hd => ?_⟩
  · decide +kernel
  · decide +kernel
  · decide +kernel
  · exact absurd (hd.all_of_none (by simp [returnedLines, LineEvent.line?, LineResult.events]))
      (by decide +kernel)

end RqRoute
