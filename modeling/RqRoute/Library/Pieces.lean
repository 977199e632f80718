import RqRoute.Library.Lines

/-! # Texts in pieces

A reader with a buffer takes a text in pieces: a line that does not fit comes in several of
them. -/

namespace Text

/-- The pieces of at most `n` characters, when the first one has room for `room`. -/
def piecesFrom (n : ℕ) : ℕ → Str → List Str
  | _, [] => []
  | room, c :: text =>
    if c = '\n' ∨ room ≤ 1 then [c] :: piecesFrom n n text
    else
      match piecesFrom n (room - 1) text with
      | [] => [[c]]
      | p :: ps => (c :: p) :: ps

/-- What the calls of `fgets` store one after the other. -/
def pieces (n : ℕ) (text : Str) : List Str := piecesFrom n n text

/-- The lines of a text with their newlines. -/
def rawLines : Str → List Str
  | [] => []
  | c :: text =>
    if c = '\n' then [c] :: rawLines text
    else
      match rawLines text with
      | [] => [[c]]
      | r :: rs => (c :: r) :: rs

/-- The newline, if there is one, is the last character. -/
def NewlineLast (r : Str) : Prop := ∀ i, r[i]? = some '\n' → i + 1 = r.length

/-! ## Pieces one by one -/

theorem piecesFrom_eq (n : ℕ) {room : ℕ} (hroom : 0 < room) {text : Str} (h : text ≠ []) :
    piecesFrom n room text = (splitPiece room text).1 :: pieces n (splitPiece room text).2 := by
  induction text generalizing room with
  | nil => exact absurd rfl h
  | cons c text ih =>
      obtain ⟨room, rfl⟩ := Nat.exists_eq_succ_of_ne_zero (by omega : room ≠ 0)
      by_cases hc : c = '\n'
      · simp [piecesFrom, splitPiece, hc, pieces]
      · by_cases hlast : room = 0
        · simp [piecesFrom, splitPiece, hc, hlast, pieces]
        · by_cases hnil : text = []
          · subst hnil
            cases room <;> simp [piecesFrom, splitPiece, hc, pieces]
          · have hrec := ih (by omega : 0 < room) hnil
            simp [piecesFrom, splitPiece, hc, hlast, hrec]

theorem pieces_eq {n : ℕ} (hn : 0 < n) {text : Str} (h : text ≠ []) :
    pieces n text = (splitPiece n text).1 :: pieces n (splitPiece n text).2 :=
  piecesFrom_eq n hn h

/-- What a call of `fgets` takes is the next piece. -/
theorem pieces_of_fgets {n : ℕ} (hn : 0 < n) {text p rest : Str}
    (h : fgets (n + 1) text = some (p, rest)) : pieces n text = p :: pieces n rest := by
  unfold fgets at h
  split at h
  · cases h
  · rename_i hne
    rw [pieces_eq hn fun hnil => hne (.inl hnil)]
    rw [Nat.add_sub_cancel, Option.some.injEq] at h
    rw [h]

theorem splitPiece_length_le (n : ℕ) (text : Str) : (splitPiece n text).1.length ≤ n := by
  induction n generalizing text with
  | zero => simp [splitPiece]
  | succ n ih =>
      cases text with
      | nil => simp [splitPiece]
      | cons c text =>
          by_cases hc : c = '\n'
          · simp [splitPiece, hc]
          · simpa [splitPiece, hc] using ih text

theorem length_of_fgets {n : ℕ} {text p rest : Str} (h : fgets n text = some (p, rest)) :
    p.length < n := by
  unfold fgets at h
  split at h
  · cases h
  · rename_i hne
    have hle := splitPiece_length_le (n - 1) text
    rw [Option.some.inj h] at hle
    have hn : n ≠ 0 := fun hn => hne (.inr hn)
    simp only at hle
    omega

@[simp] theorem pieces_nil (n : ℕ) : pieces n [] = [] := rfl

theorem piecesFrom_ne_nil (n room : ℕ) {text : Str} (h : text ≠ []) :
    piecesFrom n room text ≠ [] := by
  cases text with
  | nil => exact absurd rfl h
  | cons c text =>
      unfold piecesFrom
      split
      · simp
      · split <;> simp

/-- A newline ends its piece. -/
theorem piecesFrom_line (n room : ℕ) (l rest : Str) :
    piecesFrom n room (l ++ '\n' :: rest) = piecesFrom n room (l ++ ['\n']) ++ pieces n rest := by
  induction l generalizing room with
  | nil => simp [piecesFrom, pieces]
  | cons c l ih =>
      rw [List.cons_append, List.cons_append, piecesFrom, piecesFrom]
      by_cases hend : c = '\n' ∨ room ≤ 1
      · rw [if_pos hend, if_pos hend, ih, List.cons_append]
      · obtain ⟨p, ps, hps⟩ := List.exists_cons_of_ne_nil
          (piecesFrom_ne_nil n (room - 1) (by simp : l ++ ['\n'] ≠ []))
        rw [if_neg hend, if_neg hend, ih, hps]
        rfl

theorem pieces_line (n : ℕ) (l rest : Str) :
    pieces n (l ++ '\n' :: rest) = pieces n (l ++ ['\n']) ++ pieces n rest :=
  piecesFrom_line n n l rest

/-! ## The pieces of a line -/

theorem NewlineLast.drop {r : Str} (h : NewlineLast r) (n : ℕ) : NewlineLast (r.drop n) := by
  intro i hi
  rw [List.getElem?_drop] at hi
  have hlast := h _ hi
  rw [List.length_drop]
  omega

theorem newlineLast_line {l : Str} (hl : '\n' ∉ l) : NewlineLast (l ++ ['\n']) := by
  intro i hi
  rw [List.length_append, List.length_singleton]
  by_cases hlt : i < l.length
  · rw [List.getElem?_append_left hlt] at hi
    exact absurd (List.mem_of_getElem? hi) hl
  · have hbound := (List.getElem?_eq_some_iff.mp hi).1
    rw [List.length_append, List.length_singleton] at hbound
    omega

theorem newlineLast_last {l : Str} (hl : '\n' ∉ l) : NewlineLast l :=
  fun _ hi => absurd (List.mem_of_getElem? hi) hl

theorem splitPiece_of_newlineLast {r : Str} (h : NewlineLast r) (n : ℕ) :
    splitPiece n r = (r.take n, r.drop n) := by
  induction n generalizing r with
  | zero => rfl
  | succ n ih =>
      cases r with
      | nil => rfl
      | cons c r =>
          by_cases hc : c = '\n'
          · have hlen := h 0 (by simp [hc])
            have hnil : r = [] := List.length_eq_zero_iff.mp (by simpa using hlen.symm)
            simp [splitPiece, hc, hnil]
          · have hrec : splitPiece n r = (r.take n, r.drop n) := ih (h.drop 1)
            simp [splitPiece, hc, hrec]

/-- The pieces of a line start at the multiples of the size. -/
theorem forall_mem_pieces_iff {n : ℕ} (hn : 0 < n) {r : Str} (h : NewlineLast r) {P : Str → Prop} :
    (∀ p ∈ pieces n r, P p) ↔ ∀ k, n * k < r.length → P ((r.drop (n * k)).take n) := by
  induction hlen : r.length using Nat.strong_induction_on generalizing r with
  | _ len ih =>
      by_cases hnil : r = []
      · subst hnil
        simp at hlen
        simp [← hlen]
      · have hpos := List.length_pos_iff.mpr hnil
        rw [pieces_eq hn hnil, splitPiece_of_newlineLast h, List.forall_mem_cons,
          ih (r.length - n) (by omega) (h.drop n) (by rw [List.length_drop])]
        simp only [List.drop_drop]
        constructor
        · rintro ⟨hfirst, hrest⟩ k hk
          cases k with
          | zero => simpa using hfirst
          | succ k =>
              rw [Nat.mul_succ] at hk ⊢
              rw [Nat.add_comm]
              exact hrest k (by omega)
        · intro hall
          refine ⟨by simpa using hall 0 (by omega), fun k hk => ?_⟩
          have hnext := hall (k + 1) (by rw [Nat.mul_succ]; omega)
          rwa [Nat.mul_succ, Nat.add_comm] at hnext

/-- A line that fits is one piece. -/
theorem pieces_of_le {n : ℕ} {r : Str} (h : NewlineLast r) (hne : r ≠ []) (hle : r.length ≤ n) :
    pieces n r = [r] := by
  have hpos := List.length_pos_iff.mpr hne
  rw [pieces_eq (by omega) hne, splitPiece_of_newlineLast h, List.take_of_length_le hle,
    List.drop_of_length_le hle, pieces_nil]

/-! ## Lines with their newlines -/

@[simp] theorem rawLines_nil : rawLines [] = [] := rfl

theorem rawLines_line {l : Str} (hl : '\n' ∉ l) (rest : Str) :
    rawLines (l ++ '\n' :: rest) = (l ++ ['\n']) :: rawLines rest := by
  induction l with
  | nil => simp [rawLines]
  | cons c l ih =>
      obtain ⟨hc, hl⟩ := List.ne_and_not_mem_of_not_mem_cons hl
      simp [rawLines, Ne.symm hc, ih hl]

theorem rawLines_last {l : Str} (hl : '\n' ∉ l) (hne : l ≠ []) : rawLines l = [l] := by
  induction l with
  | nil => exact absurd rfl hne
  | cons c l ih =>
      obtain ⟨hc, hl⟩ := List.ne_and_not_mem_of_not_mem_cons hl
      by_cases hnil : l = []
      · simp [rawLines, hnil, Ne.symm hc]
      · simp [rawLines, Ne.symm hc, ih hl hnil]

/-- A line as it stands in the text: with its newline, or without one at the end. -/
structure RawLine (l r : Str) : Prop where
  noNewline : '\n' ∉ l
  eq : r = l ++ ['\n'] ∨ r = l ∧ l ≠ []

namespace RawLine

variable {l r : Str}

theorem newlineLast (h : RawLine l r) : NewlineLast r := by
  rcases h.eq with rfl | ⟨rfl, -⟩
  · exact newlineLast_line h.noNewline
  · exact newlineLast_last h.noNewline

theorem ne_nil (h : RawLine l r) : r ≠ [] := by
  rcases h.eq with rfl | ⟨rfl, hne⟩
  · simp
  · exact hne

theorem length_le (h : RawLine l r) : r.length ≤ l.length + 1 := by
  rcases h.eq with rfl | ⟨rfl, -⟩
  · simp
  · exact Nat.le_succ _

theorem eq_newline_iff (h : RawLine l r) : r = ['\n'] ↔ l = [] := by
  rcases h.eq with rfl | ⟨rfl, hne⟩
  · simp
  · refine iff_of_false (fun hr => h.noNewline ?_) hne
    simp [hr]

theorem head_iff (h : RawLine l r) {c : Char} (hc : c ≠ '\n') :
    r.head? = some c ↔ l.head? = some c := by
  rcases h.eq with rfl | ⟨rfl, hne⟩
  · cases l with
    | nil => simpa using Ne.symm hc
    | cons d l => simp
  · rfl

end RawLine

/-- An induction on the lines of a text, with what each of them adds. -/
theorem induction_on_rawLines {motive : Str → Prop} (text : Str) (nil : motive [])
    (cons : ∀ l r rest, RawLine l r → lines (r ++ rest) = l :: lines rest →
      rawLines (r ++ rest) = r :: rawLines rest →
      (∀ n, pieces n (r ++ rest) = pieces n r ++ pieces n rest) → motive rest →
      motive (r ++ rest)) : motive text := by
  induction text using induction_on_lines with
  | last l hl =>
      by_cases hne : l = []
      · rw [hne]
        exact nil
      · have hlast := cons l l [] ⟨hl, .inr ⟨rfl, hne⟩⟩
        rw [List.append_nil] at hlast
        exact hlast (lines_last hl hne) (rawLines_last hl hne)
          (fun n => by rw [pieces_nil, List.append_nil]) nil
  | line l rest hl ih =>
      have hline := cons l (l ++ ['\n']) rest ⟨hl, .inl rfl⟩
      rw [List.append_assoc, List.singleton_append] at hline
      exact hline (lines_line hl rest) (rawLines_line hl rest) (fun n => pieces_line n l rest) ih

end Text
