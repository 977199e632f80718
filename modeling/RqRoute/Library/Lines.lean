import Mathlib.Data.List.Infix
import Mathlib.Data.List.TakeWhile

/-! # Text streams

A stream is the text not read yet. `fgets` takes a piece off it; `lines` is what the
text means to a reader that takes whole lines. -/

namespace Text

abbrev Str := List Char

/-- The first piece of a text: at most `n` characters, and nothing past a newline. -/
def splitPiece : ℕ → Str → Str × Str
  | 0, text => ([], text)
  | _ + 1, [] => ([], [])
  | n + 1, c :: text =>
    if c = '\n' then ([c], text)
    else (c :: (splitPiece n text).1, (splitPiece n text).2)

/-- `fgets` with room for `size` bytes, one of them for the terminator: the characters
stored, and the rest of the stream. At the end of the stream nothing is stored. -/
def fgets (size : ℕ) (text : Str) : Option (Str × Str) :=
  if text = [] ∨ size = 0 then none else some (splitPiece (size - 1) text)

/-- The part of a buffer that string functions see. -/
def cstr (s : Str) : Str := s.takeWhile (· ≠ '\x00')

/-- The lines of a text without their newlines; the last one need not have any. -/
def lines : Str → List Str
  | [] => []
  | c :: text =>
    if c = '\n' then [] :: lines text
    else
      match lines text with
      | [] => [[c]]
      | l :: ls => (c :: l) :: ls

/-- The lines of a text that end in a newline, and what stands after the last newline. -/
def cutLines : Str → List Str × Str
  | [] => ([], [])
  | c :: text =>
    if c = '\n' then ([] :: (cutLines text).1, (cutLines text).2)
    else
      match (cutLines text).1 with
      | [] => ([], c :: (cutLines text).2)
      | l :: ls => ((c :: l) :: ls, (cutLines text).2)

def endedLines (text : Str) : List Str := (cutLines text).1

def unended (text : Str) : Str := (cutLines text).2

/-! ## Pieces -/

theorem cstr_eq_self {s : Str} (h : '\x00' ∉ s) : cstr s = s := by
  refine List.takeWhile_eq_self_iff.mpr fun c hc => ?_
  rw [decide_eq_true_eq]
  rintro rfl
  exact h hc

theorem splitPiece_append (n : ℕ) (text : Str) :
    (splitPiece n text).1 ++ (splitPiece n text).2 = text := by
  induction n generalizing text with
  | zero => rfl
  | succ n ih =>
      cases text with
      | nil => rfl
      | cons c text =>
          by_cases hc : c = '\n'
          · simp [splitPiece, hc]
          · simp [splitPiece, hc, ih]

/-- A piece that holds anything was taken off the stream. -/
theorem fgets_lt {size : ℕ} {text buf rest : Str} (h : fgets size text = some (buf, rest))
    (hbuf : buf ≠ []) : rest.length < text.length := by
  unfold fgets at h
  split at h
  · cases h
  · have happ := splitPiece_append (size - 1) text
    rw [Option.some.inj h] at happ
    have hlen := congrArg List.length happ
    have hpos := List.length_pos_iff.mpr hbuf
    simp only [List.length_append] at hlen
    omega

theorem splitPiece_line {l : Str} (hl : '\n' ∉ l) {n : ℕ} (hn : l.length < n) (rest : Str) :
    splitPiece n (l ++ '\n' :: rest) = (l ++ ['\n'], rest) := by
  induction l generalizing n with
  | nil =>
      obtain ⟨n, rfl⟩ := Nat.exists_eq_succ_of_ne_zero (by omega : n ≠ 0)
      simp [splitPiece]
  | cons c l ih =>
      obtain ⟨n, rfl⟩ := Nat.exists_eq_succ_of_ne_zero (by omega : n ≠ 0)
      obtain ⟨hc, hl⟩ := List.ne_and_not_mem_of_not_mem_cons hl
      have hlen : l.length < n := by simpa using hn
      simp [splitPiece, Ne.symm hc, ih hl hlen]

theorem splitPiece_last {l : Str} (hl : '\n' ∉ l) {n : ℕ} (hn : l.length ≤ n) :
    splitPiece n l = (l, []) := by
  induction l generalizing n with
  | nil => cases n <;> rfl
  | cons c l ih =>
      obtain ⟨n, rfl⟩ := Nat.exists_eq_succ_of_ne_zero (by simp at hn; omega : n ≠ 0)
      obtain ⟨hc, hl⟩ := List.ne_and_not_mem_of_not_mem_cons hl
      have hlen : l.length ≤ n := by simpa using hn
      simp [splitPiece, Ne.symm hc, ih hl hlen]

/-! ## Lines -/

@[simp] theorem lines_nil : lines [] = [] := rfl

theorem lines_line {l : Str} (hl : '\n' ∉ l) (rest : Str) :
    lines (l ++ '\n' :: rest) = l :: lines rest := by
  induction l with
  | nil => simp [lines]
  | cons c l ih =>
      obtain ⟨hc, hl⟩ := List.ne_and_not_mem_of_not_mem_cons hl
      simp [lines, Ne.symm hc, ih hl]

theorem lines_last {l : Str} (hl : '\n' ∉ l) (hne : l ≠ []) : lines l = [l] := by
  induction l with
  | nil => exact absurd rfl hne
  | cons c l ih =>
      obtain ⟨hc, hl⟩ := List.ne_and_not_mem_of_not_mem_cons hl
      by_cases hnil : l = []
      · simp [lines, hnil, Ne.symm hc]
      · simp [lines, Ne.symm hc, ih hl hnil]

theorem newline_not_mem_of_mem_lines {text l : Str} (h : l ∈ lines text) : '\n' ∉ l := by
  induction text generalizing l with
  | nil => cases h
  | cons c text ih =>
      unfold lines at h
      split at h
      · rcases List.mem_cons.mp h with rfl | h
        · exact List.not_mem_nil
        · exact ih h
      · rename_i hc
        split at h
        · obtain rfl := List.mem_singleton.mp h
          simp [Ne.symm hc]
        · rename_i k ks hks
          rw [hks] at ih
          rcases List.mem_cons.mp h with rfl | h
          · simp [Ne.symm hc, ih List.mem_cons_self]
          · exact ih (List.mem_cons_of_mem _ h)

/-- A text that begins in the middle of a line has a line that goes on from there. -/
theorem exists_line_of_prefix {l : Str} (hl : '\n' ∉ l) (hne : l ≠ []) (rest : Str) :
    ∃ k ∈ lines (l ++ rest), l.length ≤ k.length := by
  by_cases hnl : '\n' ∈ rest
  · obtain ⟨m, rest, rfl, hm⟩ := List.eq_append_cons_of_mem hnl
    refine ⟨l ++ m, ?_, by simp⟩
    rw [← List.append_assoc, lines_line (by simp [hl, hm])]
    exact List.mem_cons_self
  · refine ⟨l ++ rest, ?_, by simp⟩
    rw [lines_last (by simp [hl, hnl]) (by simp [hne])]
    exact List.mem_singleton_self _

/-- The lines of a text that was put together from lines. -/
theorem lines_flatMap {ls : List Str} (h : ∀ l ∈ ls, '\n' ∉ l) :
    lines (ls.flatMap (· ++ ['\n'])) = ls := by
  induction ls with
  | nil => rfl
  | cons l ls ih =>
      rw [List.flatMap_cons, List.append_assoc, List.singleton_append,
        lines_line (h l List.mem_cons_self), ih fun k hk => h k (List.mem_cons_of_mem _ hk)]

/-- The first line of a text: what `fgets` takes off it when there is room for the line, its
newline and the terminator. Only the last line may do without the newline. -/
theorem exists_first_line {text : Str} (h : text ≠ []) :
    ∃ l tail rest, '\n' ∉ l ∧ (tail = ['\n'] ∨ tail = [] ∧ l ≠ []) ∧
      lines text = l :: lines rest ∧ rest.length < text.length ∧
      ∀ size, l.length + 2 ≤ size → fgets size text = some (l ++ tail, rest) := by
  by_cases hnl : '\n' ∈ text
  · obtain ⟨l, rest, rfl, hl⟩ := List.eq_append_cons_of_mem hnl
    refine ⟨l, ['\n'], rest, hl, .inl rfl, lines_line hl rest, ?_, fun size hsize => ?_⟩
    · simp only [List.length_append, List.length_cons]
      omega
    · rw [fgets, if_neg (by simp only [h, false_or]; omega), splitPiece_line hl (by omega)]
  · refine ⟨text, [], [], hnl, .inr ⟨rfl, h⟩, lines_last hnl h, ?_, fun size hsize => ?_⟩
    · exact List.length_pos_iff.mpr h
    · rw [fgets, if_neg (by simp only [h, false_or]; omega), splitPiece_last hnl (by omega),
        List.append_nil]

/-! ## Ended lines -/

theorem cutLines_line {l : Str} (hl : '\n' ∉ l) (rest : Str) :
    cutLines (l ++ '\n' :: rest) = (l :: endedLines rest, unended rest) := by
  induction l with
  | nil => simp [cutLines, endedLines, unended]
  | cons c l ih =>
      obtain ⟨hc, hl⟩ := List.ne_and_not_mem_of_not_mem_cons hl
      simp [cutLines, Ne.symm hc, ih hl]

theorem cutLines_last {l : Str} (hl : '\n' ∉ l) : cutLines l = ([], l) := by
  induction l with
  | nil => rfl
  | cons c l ih =>
      obtain ⟨hc, hl⟩ := List.ne_and_not_mem_of_not_mem_cons hl
      simp [cutLines, Ne.symm hc, ih hl]

theorem endedLines_line {l : Str} (hl : '\n' ∉ l) (rest : Str) :
    endedLines (l ++ '\n' :: rest) = l :: endedLines rest := by
  rw [endedLines, cutLines_line hl]

theorem unended_line {l : Str} (hl : '\n' ∉ l) (rest : Str) :
    unended (l ++ '\n' :: rest) = unended rest := by
  rw [unended, cutLines_line hl]

@[simp] theorem endedLines_last {l : Str} (hl : '\n' ∉ l) : endedLines l = [] := by
  rw [endedLines, cutLines_last hl]

@[simp] theorem unended_last {l : Str} (hl : '\n' ∉ l) : unended l = l := by
  rw [unended, cutLines_last hl]

/-- A text is empty of newlines or has a first line. -/
theorem induction_on_lines {motive : Str → Prop} (text : Str)
    (last : ∀ l, '\n' ∉ l → motive l)
    (line : ∀ l rest, '\n' ∉ l → motive rest → motive (l ++ '\n' :: rest)) : motive text := by
  induction hn : text.length using Nat.strong_induction_on generalizing text with
  | _ n ih =>
      by_cases hnl : '\n' ∈ text
      · obtain ⟨l, rest, rfl, hl⟩ := List.eq_append_cons_of_mem hnl
        refine line l rest hl (ih _ ?_ rest rfl)
        simp only [List.length_append, List.length_cons] at hn
        omega
      · exact last text hnl

/-- What no line contains is not in the text. -/
theorem not_mem_of_lines {c : Char} (hc : c ≠ '\n') {text : Str} (h : ∀ l ∈ lines text, c ∉ l) :
    c ∉ text := by
  induction text using induction_on_lines with
  | last l hl =>
      intro hmem
      rw [lines_last hl (List.ne_nil_of_mem hmem)] at h
      exact h l (List.mem_singleton_self l) hmem
  | line l rest hl ih =>
      rw [lines_line hl, List.forall_mem_cons] at h
      simp [h.1, ih h.2, hc]

/-- A text that is read in two parts: the second part continues the last line of the first. -/
theorem endedLines_append (a b : Str) :
    endedLines (a ++ b) = endedLines a ++ endedLines (unended a ++ b) := by
  induction a using induction_on_lines with
  | last l hl => simp [hl]
  | line l rest hl ih =>
      rw [List.append_assoc, List.cons_append, endedLines_line hl, endedLines_line hl,
        unended_line hl, ih, List.cons_append]

theorem unended_append (a b : Str) : unended (a ++ b) = unended (unended a ++ b) := by
  induction a using induction_on_lines with
  | last l hl => rw [unended_last hl]
  | line l rest hl ih =>
      rw [List.append_assoc, List.cons_append, unended_line hl, unended_line hl, ih]

theorem length_endedLines (text : Str) : (endedLines text).length = text.count '\n' := by
  induction text using induction_on_lines with
  | last l hl => simp [hl, List.count_eq_zero_of_not_mem]
  | line l rest hl ih =>
      simp [endedLines_line hl, ih, List.count_eq_zero_of_not_mem hl]

theorem newline_not_mem_unended (text : Str) : '\n' ∉ unended text := by
  induction text using induction_on_lines with
  | last l hl => simp [hl]
  | line l rest hl ih => rwa [unended_line hl]

theorem lines_append (a b : Str) : lines (a ++ b) = endedLines a ++ lines (unended a ++ b) := by
  induction a using induction_on_lines with
  | last l hl => simp [hl]
  | line l rest hl ih =>
      rw [List.append_assoc, List.cons_append, lines_line hl, ih, endedLines_line hl,
        unended_line hl, List.cons_append]

/-- A bound on the lines of a text bounds those of every part that was read first. -/
theorem length_lines_of_append {a b : Str} {n : ℕ} (h : ∀ l ∈ lines (a ++ b), l.length ≤ n) :
    ∀ l ∈ lines a, l.length ≤ n := by
  rw [lines_append] at h
  intro l hl
  have hsplit := lines_append a []
  rw [List.append_nil, List.append_nil] at hsplit
  rw [hsplit] at hl
  rcases List.mem_append.mp hl with hended | hlast
  · exact h l (List.mem_append_left _ hended)
  · by_cases hnil : unended a = []
    · rw [hnil] at hlast
      cases hlast
    · rw [lines_last (newline_not_mem_unended a) hnil] at hlast
      obtain rfl := List.mem_singleton.mp hlast
      obtain ⟨k, hk, hle⟩ := exists_line_of_prefix (newline_not_mem_unended a) hnil b
      exact hle.trans (h k (List.mem_append_right _ hk))

end Text
