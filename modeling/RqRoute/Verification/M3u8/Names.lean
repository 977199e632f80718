import RqRoute.Library.Pieces
import RqRoute.Model.NameBuffer

/-! # The names of a playlist

What the two parsers make of a text whose lines fit into their buffer: the names are the
lines that do not start with a hash. -/

namespace RqRoute

open Checked Text

/-- The names that a text lists. -/
def playlistNames (text : Str) : List Str := (lines text).filter fun l => l.head? ≠ some '#'

/-- The lines fit into the buffer of 40 characters, and are text. -/
structure Listing (text : Str) : Prop where
  short : ∀ l ∈ lines text, l.length ≤ 38
  noNul : ∀ l ∈ lines text, '\x00' ∉ l

/-- A listing whose directives can be read: a number follows every `#EXTINF:`. -/
structure Playlist (text : Str) : Prop extends Listing text where
  durations : ∀ l ∈ lines text, extinf <+: l → (sscanfLg (l.drop extinf.length)).isSome

/-! ## Numbers at the end of a line -/

theorem takeWhile_append_newline {p : Char → Bool} (hp : p '\n' = false) (s : Str) :
    (s ++ ['\n']).takeWhile p = s.takeWhile p := by
  induction s with
  | nil => simp [hp]
  | cons c s ih =>
      by_cases hc : p c = true
      · simp [hc, ih]
      · simp [hc]

theorem dropWhile_append_newline {p : Char → Bool} (hp : p '\n' = false) (s : Str) :
    (s ++ ['\n']).dropWhile p = s.dropWhile p ++ ['\n'] := by
  induction s with
  | nil => simp [hp]
  | cons c s ih =>
      by_cases hc : p c = true
      · simp [hc, ih]
      · simp [hc]

theorem scanMantissa_append_newline {p : Char → Bool} (hp : p '\n' = false) {s : Str}
    (h : (scanMantissa p s).isSome) : (scanMantissa p (s ++ ['\n'])).isSome := by
  unfold scanMantissa at h ⊢
  simp only [takeWhile_append_newline hp, dropWhile_append_newline hp] at h ⊢
  cases hrest : s.dropWhile p with
  | nil => simpa [hrest] using h
  | cons c rest =>
      rw [hrest] at h
      by_cases hc : c = '.'
      · subst hc
        simpa [takeWhile_append_newline hp] using h
      · simpa [hc] using h

theorem scanWord_append_newline {word : Str} (hword : '\n' ∉ word) (s : Str) :
    scanWord word (s ++ ['\n']) = (scanWord word s).map fun r => (r.1, r.2 ++ ['\n']) := by
  unfold scanWord
  simp only
  by_cases hlen : word.length ≤ s.length
  · rw [List.take_append_of_le_length hlen, List.drop_append_of_le_length hlen]
    split <;> rfl
  · -- the text is shorter than the word, and the newline is no part of the word
    have hall : (s ++ ['\n']).take word.length = s ++ ['\n'] :=
      List.take_of_length_le (by rw [List.length_append, List.length_singleton]; omega)
    rw [hall, List.take_of_length_le (by omega), if_neg, if_neg]
    · rfl
    · intro heq
      have := congrArg List.length heq
      rw [List.length_map] at this
      omega
    · rintro rfl
      refine hword ?_
      rw [List.map_append]
      exact List.mem_append_right _ List.mem_cons_self

/-- The newline does not go on with a word. -/
theorem isSome_scanInf_append_newline {s : Str} (h : (scanInf s).isSome) :
    (scanInf (s ++ ['\n'])).isSome := by
  unfold scanInf at h ⊢
  rw [scanWord_append_newline (by decide)]
  cases hword : scanWord ['i', 'n', 'f'] s with
  | none => simp [hword] at h
  | some r =>
      obtain ⟨head, rest⟩ := r
      have hnext : rest.head?.map Char.toLower ≠ some 'i' := by
        intro hgoes
        simp only [hword, Option.bind_eq_bind, Option.bind_some, if_pos hgoes] at h
        cases h
      have hnext' : (rest ++ ['\n']).head?.map Char.toLower ≠ some 'i' := by
        cases rest with
        | nil => decide
        | cons c rest => exact hnext
      simp only [Option.map_some, Option.bind_eq_bind, Option.bind_some, if_neg hnext',
        Option.isSome_some]

/-- When a number is read at all; how far its exponent goes does not matter. -/
theorem isSome_scanMagnitude {s : Str} :
    (scanMagnitude s).isSome ↔
      match scanWord ['0', 'x'] s with
      | some (_, rest) => (scanMantissa isHexDigit rest).isSome ∨ rest.head? = some '.'
      | none => (scanMantissa Char.isDigit s).isSome ∨
          (scanWord ['i', 'n', 'f', 'i', 'n', 'i', 't', 'y'] s).isSome ∨ (scanInf s).isSome ∨
          (scanWord ['n', 'a', 'n'] s).isSome := by
  unfold scanMagnitude
  cases hword : scanWord ['0', 'x'] s with
  | some x =>
      obtain ⟨head, rest⟩ := x
      cases hhex : scanMantissa isHexDigit rest <;> simp [hhex]
  | none => cases hdec : scanMantissa Char.isDigit s <;> simp

theorem isSome_scanMagnitude_append_newline {s : Str} (h : (scanMagnitude s).isSome) :
    (scanMagnitude (s ++ ['\n'])).isSome := by
  rw [isSome_scanMagnitude] at h ⊢
  rw [scanWord_append_newline (by decide)]
  cases hword : scanWord ['0', 'x'] s with
  | some x =>
      obtain ⟨head, rest⟩ := x
      rw [hword] at h
      rcases h with hmant | hpoint
      · exact .inl (scanMantissa_append_newline (by decide) hmant)
      · refine .inr ?_
        simp only
        rw [List.head?_append, hpoint, Option.some_or]
  | none =>
      rw [hword] at h
      simp only [Option.map_none]
      rw [scanWord_append_newline (by decide), scanWord_append_newline (by decide),
        Option.isSome_map, Option.isSome_map]
      exact h.imp (scanMantissa_append_newline (by decide))
        (Or.imp_right (Or.imp_left isSome_scanInf_append_newline))

/-- The newline that ends a line does not keep a number from being read. -/
theorem isSome_sscanfLg_append_newline {s : Str} (h : (sscanfLg s).isSome) :
    (sscanfLg (s ++ ['\n'])).isSome := by
  unfold sscanfLg at h ⊢
  rw [List.dropWhile_append]
  cases hrest : s.dropWhile isSpace with
  | nil =>
      rw [hrest] at h
      exact absurd h (by decide)
  | cons c rest =>
      simp only [hrest, List.isEmpty_cons, Bool.false_eq_true, ↓reduceIte, List.cons_append,
        List.head?_cons, Option.some.injEq, Option.isSome_map] at h ⊢
      split at h <;> rename_i hsign
      · simp only [hsign, ↓reduceIte] at h ⊢
        exact isSome_scanMagnitude_append_newline h
      · simp only [hsign, ↓reduceIte] at h ⊢
        exact isSome_scanMagnitude_append_newline h

/-! ## One line -/

/-- A line of text as it stands in the buffer. -/
structure Buffered (l r : Str) : Prop extends RawLine l r where
  noNul : '\x00' ∉ l

namespace Buffered

variable {l r : Str}

theorem cstr_eq (h : Buffered l r) : cstr r = r := by
  refine cstr_eq_self ?_
  rcases h.eq with rfl | ⟨rfl, -⟩
  · simpa using h.noNul
  · exact h.noNul

theorem chopNewline_eq (h : Buffered l r) : chopNewline r = .ok l := by
  rw [chopNewline, h.cstr_eq]
  rcases h.eq with rfl | ⟨rfl, hne⟩
  · simp [check]
  · have hlast : r.getLast? ≠ some '\n' := fun hlast =>
      h.noNewline (List.mem_of_getLast? hlast)
    simp [check, hlast, List.length_pos_iff.mpr hne]

theorem extinf_iff (h : Buffered l r) : extinf <+: cstr r ↔ extinf <+: l := by
  rw [h.cstr_eq]
  rcases h.eq with rfl | ⟨rfl, -⟩
  · rw [List.prefix_concat_iff, or_iff_right]
    rintro heq
    have hmem : '\n' ∈ extinf := by simp [heq]
    exact absurd hmem (by decide)
  · rfl

theorem isSome_sscanfLg (h : Buffered l r) (hx : extinf <+: l)
    (hnum : (sscanfLg (l.drop extinf.length)).isSome) :
    (sscanfLg ((cstr r).drop extinf.length)).isSome := by
  rw [h.cstr_eq]
  rcases h.eq with rfl | ⟨rfl, -⟩
  · rw [List.drop_append_of_le_length hx.length_le]
    exact isSome_sscanfLg_append_newline hnum
  · exact hnum

end Buffered

/-! ## The parsers, line by line -/

theorem isSome_parseExtinf_iff (duration r : Str) :
    (InMemory.parseExtinf duration r).isSome ↔
      (extinf <+: r → (sscanfLg (r.drop extinf.length)).isSome) := by
  rw [InMemory.parseExtinf, List.prefix_iff_eq_take]
  by_cases hx : r.take extinf.length = extinf
  · simp [hx]
  · rw [if_neg hx]
    exact iff_of_true rfl fun heq => absurd heq.symm hx

theorem m3u8GetNextEnt_of_fgets {size : ℕ} {duration text r rest : Str}
    (h : fgets size text = some (r, rest)) :
    m3u8GetNextEnt size duration text =
      if (cstr r).take extinf.length = extinf then
        match sscanfLg ((cstr r).drop extinf.length) with
        | none => .ok { found := false, duration, filename := cstr r, rest }
        | some d => m3u8GetNextEnt size d rest
      else if r.head? = some '#' then m3u8GetNextEnt size duration rest
      else chopNewline r >>= fun filename =>
        .ok { found := true, duration, filename, rest } := by
  rw [m3u8GetNextEnt]
  split
  · rename_i hnone
    rw [h] at hnone
    cases hnone
  · rename_i hsome
    rw [h] at hsome
    cases hsome
    split
    · split <;> simp_all
    · rfl

theorem dummyM3u8GetNextEnt_of_fgets {size : ℕ} {text r rest : Str}
    (h : fgets size text = some (r, rest)) :
    dummyM3u8GetNextEnt size text =
      if r.head? = some '#' then dummyM3u8GetNextEnt size rest
      else chopNewline r >>= fun filename =>
        .ok { found := true, duration := [], filename, rest } := by
  rw [dummyM3u8GetNextEnt]
  split
  · rename_i hnone
    rw [h] at hnone
    cases hnone
  · rename_i hsome
    rw [h] at hsome
    cases hsome
    rfl

/-- A parser, by what it does with what `fgets` stored. -/
structure Reads (parse : Str → Str → Option Str) (n : ℕ)
    (next : Str → Str → Except Fault NextEnt) : Prop where
  done : ∀ {fp}, fgets n fp = none → ∀ duration,
    next duration fp = .ok { found := false, duration, filename := [], rest := fp }
  round : ∀ {fp r rest}, fgets n fp = some (r, rest) → ∀ duration,
    next duration fp =
      match parse duration (cstr r) with
      | none => .ok { found := false, duration, filename := cstr r, rest }
      | some d =>
        if r.head? = some '#' then next d rest
        else chopNewline r >>= fun filename =>
          .ok { found := true, duration := d, filename, rest }

theorem reads_m3u8GetNextEnt (n : ℕ) : Reads InMemory.parseExtinf n (m3u8GetNextEnt n) := by
  refine ⟨fun {fp} h d => ?_, fun {fp r rest} h d => ?_⟩
  · rw [m3u8GetNextEnt]
    split
    · rfl
    · rename_i hsome
      rw [h] at hsome
      cases hsome
  · rw [m3u8GetNextEnt_of_fgets h, InMemory.parseExtinf]
    by_cases hx : (cstr r).take extinf.length = extinf
    · have hhash : r.head? = some '#' := by
        obtain ⟨t, rfl⟩ := (List.prefix_iff_eq_take.mpr hx.symm).trans (List.takeWhile_prefix _)
        rfl
      cases hnum : sscanfLg ((cstr r).drop extinf.length) with
      | none => simp only [if_pos hx]
      | some number => simp only [if_pos hx, if_pos hhash]
    · simp only [if_neg hx]

theorem reads_dummyM3u8GetNextEnt (n : ℕ) : Reads (fun duration _ => some duration) n
    fun duration fp => (dummyM3u8GetNextEnt n fp).map ({ · with duration }) := by
  refine ⟨fun {fp} h d => ?_, fun {fp r rest} h d => ?_⟩
  · rw [dummyM3u8GetNextEnt]
    split
    · rfl
    · rename_i hsome
      rw [h] at hsome
      cases hsome
  · rw [dummyM3u8GetNextEnt_of_fgets h]
    by_cases hhash : r.head? = some '#'
    · simp only [if_pos hhash]
    · simp only [if_neg hhash]
      cases chopNewline r <;> rfl

/-! ## The parsers on a whole text -/

theorem playlistNames_of_lines {text l rest : Str} (h : lines text = l :: lines rest) :
    playlistNames text =
      if l.head? = some '#' then playlistNames rest else l :: playlistNames rest := by
  rw [playlistNames, h, List.filter_cons]
  by_cases hl : l.head? = some '#' <;> simp [hl, playlistNames]

theorem Listing.mono {text rest : Str} (h : Listing text) (hsub : lines rest ⊆ lines text) :
    Listing rest :=
  ⟨fun k hk => h.short k (hsub hk), fun k hk => h.noNul k (hsub hk)⟩

theorem Listing.noNul_text {text : Str} (h : Listing text) : '\x00' ∉ text :=
  not_mem_of_lines (by decide) h.noNul

theorem Playlist.mono {text rest : Str} (h : Playlist text) (hsub : lines rest ⊆ lines text) :
    Playlist rest :=
  ⟨h.toListing.mono hsub, fun k hk => h.durations k (hsub hk)⟩

/-- The first line of a listing, as the parsers find it in their buffer. -/
theorem Listing.exists_buffered {text : Str} (h : Listing text) (hne : text ≠ []) :
    ∃ l r rest, Buffered l r ∧ lines text = l :: lines rest ∧ rest.length < text.length ∧
      fgets 40 text = some (r, rest) := by
  obtain ⟨l, tail, rest, hnl, htail, hlines, hlt, hget⟩ := exists_first_line hne
  have hmem : l ∈ lines text := hlines ▸ List.mem_cons_self
  refine ⟨l, l ++ tail, rest, ⟨⟨hnl, ?_⟩, h.noNul l hmem⟩, hlines, hlt, hget 40 ?_⟩
  · rcases htail with rfl | ⟨rfl, hl⟩
    · exact .inl rfl
    · exact .inr ⟨List.append_nil l, hl⟩
  · have := h.short l hmem
    omega

/-- What a call that found an entry has done. -/
structure NextEnt.Names (e : NextEnt) (text : Str) : Prop where
  found : e.found = true
  names_eq : playlistNames text = e.filename :: playlistNames e.rest
  rest_lt : e.rest.length < text.length

/-- A parser that takes every line finds the names one by one. -/
theorem Listing.reads {parse : Str → Str → Option Str} {next : Str → Str → Except Fault NextEnt}
    (hnext : Reads parse 40 next) {text : Str} (h : Listing text)
    (hparse : ∀ l ∈ lines text, ∀ r, Buffered l r → ∀ d, (parse d (cstr r)).isSome)
    (duration : Str) :
    ∃ e, next duration text = .ok e ∧
      (e.found = false ∧ playlistNames text = [] ∨
        e.Names text ∧ lines e.rest ⊆ lines text) := by
  induction hn : text.length using Nat.strong_induction_on generalizing text duration with
  | _ n ih =>
      by_cases hne : text = []
      · subst hne
        exact ⟨_, hnext.done rfl duration, .inl ⟨rfl, rfl⟩⟩
      · obtain ⟨l, r, rest, hbuf, hlines, hlt, hget⟩ := h.exists_buffered hne
        have hsub : lines rest ⊆ lines text := hlines ▸ List.subset_cons_self l (lines rest)
        obtain ⟨d, hd⟩ := Option.isSome_iff_exists.mp
          (hparse l (hlines ▸ List.mem_cons_self) r hbuf duration)
        rw [hnext.round hget, hd]
        by_cases hhash : l.head? = some '#'
        · -- a line with a hash leads to the next round
          obtain ⟨e, he, hcase⟩ := ih _ (by omega) (h.mono hsub)
            (fun k hk => hparse k (hsub hk)) d rfl
          simp only [if_pos ((hbuf.head_iff (by decide)).mpr hhash)]
          rw [playlistNames_of_lines hlines, if_pos hhash]
          refine ⟨e, he, hcase.imp_right fun hfound => ⟨⟨hfound.1.found, ?_, ?_⟩, ?_⟩⟩
          · rw [playlistNames_of_lines hlines, if_pos hhash, hfound.1.names_eq]
          · exact hfound.1.rest_lt.trans hlt
          · exact List.Subset.trans hfound.2 hsub
        · simp only [if_neg ((hbuf.head_iff (by decide)).not.mpr hhash), hbuf.chopNewline_eq,
            ok_bind]
          refine ⟨_, rfl, .inr ⟨⟨rfl, ?_, hlt⟩, hsub⟩⟩
          rw [playlistNames_of_lines hlines, if_neg hhash]

/-- `m3u8_get_next_ent` finds the names of a playlist one by one. -/
theorem Playlist.m3u8GetNextEnt {text : Str} (h : Playlist text) (duration : Str) :
    ∃ e, m3u8GetNextEnt 40 duration text = .ok e ∧
      (e.found = false ∧ playlistNames text = [] ∨ e.Names text ∧ Playlist e.rest) := by
  have hparse : ∀ l ∈ lines text, ∀ r, Buffered l r → ∀ d,
      (InMemory.parseExtinf d (cstr r)).isSome := by
    intro l hl r hbuf d
    rw [isSome_parseExtinf_iff, hbuf.extinf_iff]
    exact fun hx => hbuf.isSome_sscanfLg hx (h.durations l hl hx)
  obtain ⟨e, he, hcase⟩ := h.toListing.reads (reads_m3u8GetNextEnt 40) hparse duration
  exact ⟨e, he, hcase.imp_right fun hfound => ⟨hfound.1, h.mono hfound.2⟩⟩

/-- `dummy_m3u8_get_next_ent` finds the names of any listing. -/
theorem Listing.dummyM3u8GetNextEnt {text : Str} (h : Listing text) :
    ∃ e, dummyM3u8GetNextEnt 40 text = .ok e ∧
      (e.found = false ∧ playlistNames text = [] ∨ e.Names text ∧ Listing e.rest) := by
  obtain ⟨e', he', hcase⟩ := h.reads (reads_dummyM3u8GetNextEnt 40)
    (fun _ _ _ _ _ => rfl) []
  obtain ⟨e, he, rfl⟩ := map_eq_ok.mp he'
  exact ⟨e, he, hcase.imp_right fun hfound =>
    ⟨⟨hfound.1.found, hfound.1.names_eq, hfound.1.rest_lt⟩, h.mono hfound.2⟩⟩

/-! ## The filtered text -/

theorem lines_dummyPlaylist (text : Str) :
    lines (dummyPlaylist text) = (lines text).filter fun l => ¬extinfMark <:+: l :=
  lines_flatMap fun _ hl => newline_not_mem_of_mem_lines (List.mem_of_mem_filter hl)

theorem Listing.dummyPlaylist {text : Str} (h : Listing text) : Listing (dummyPlaylist text) := by
  constructor <;> intro l hl <;> rw [lines_dummyPlaylist] at hl
  · exact h.short l (List.mem_of_mem_filter hl)
  · exact h.noNul l (List.mem_of_mem_filter hl)

/-- The filter takes no name away, when no name contains the pattern. -/
theorem playlistNames_dummyPlaylist {text : Str}
    (h : ∀ name ∈ playlistNames text, ¬extinfMark <:+: name) :
    playlistNames (dummyPlaylist text) = playlistNames text := by
  rw [playlistNames, lines_dummyPlaylist, List.filter_filter, playlistNames]
  refine List.filter_congr fun l hl => ?_
  by_cases hhash : l.head? = some '#'
  · simp [hhash]
  · have hname : l ∈ playlistNames text := List.mem_filter.mpr ⟨hl, by simpa using hhash⟩
    simp [hhash, h l hname]

end RqRoute
