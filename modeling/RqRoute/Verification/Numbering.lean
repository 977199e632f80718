import RqRoute.Verification.NameBuffer

/-! # Numbers of the segments

The sender numbers the names of `list.m3u8` as it meets them in its buffer, and the receiver
those of the dummy playlist as it stores them. Both get the same names in the same order, as
long as the lines fit into the sender's buffer and the size of the receiver's table can be
doubled. -/

namespace RqRoute

open Checked Memory Text

/-! ## The sender -/

/-- The loop of `send_segments` transmits the names of the playlist under increasing
numbers. -/
theorem sendSegmentsFrom_eq (xmit : Str → ℤ → Xmit Unit) {directory : Str} {p : ℕ} {text : Str}
    (h : Playlist text) (duration : Str) {buf : Buffer Char}
    (hpath : InMemory.Path directory p buf) {k : ℕ}
    (hk : k + (playlistNames text).length < 2 ^ 31) {x : Xmit Unit}
    (hx : InMemory.sendSegmentsFrom xmit p k duration text buf = .ok x) :
    x = ((playlistNames text).zipIdx k).forM fun x => xmit (directory ++ '/' :: x.1) x.2 := by
  induction hn : text.length using Nat.strong_induction_on
    generalizing text duration buf k x with
  | _ n ih =>
      obtain ⟨m, hm, hsends⟩ := InMemory.sendSegmentsFrom_cases hx
      obtain ⟨e', he', hshows⟩ := InMemory.m3u8GetNextEnt_shows hm
      obtain ⟨e, he, hcase⟩ := h.m3u8GetNextEnt duration
      obtain rfl : e' = e := Except.ok.inj (he'.symm.trans he)
      rcases hcase with ⟨hend, hnil⟩ | ⟨hnames, hrest⟩
      · cases hsends with
        | listed => rw [hnil]; rfl
        | failed hfound | going hfound =>
            rw [hshows.found, hend] at hfound
            cases hfound
      · have hfound := hshows.found.trans hnames.found
        have hname : stringAt m.buf 0 = directory ++ '/' :: e'.filename := by
          rw [(hpath.keeps hshows.keeps).stringAt_zero, hshows.filename hfound]
        rw [hnames.names_eq, List.zipIdx_cons]
        change x = (xmit (directory ++ '/' :: e'.filename) k >>= fun _ =>
          ((playlistNames e'.rest).zipIdx (k + 1)).forM _)
        cases hsends with
        | listed hend =>
            rw [hfound] at hend
            cases hend
        | failed _ hresult =>
            rw [hname] at hresult ⊢
            exact (Xmit.bind_of_error hresult _).symm
        | going _ hlt _ hnext =>
            rw [hnames.names_eq, List.length_cons] at hk
            have hnbr : toInt ((k : ℤ) + 1) = (k + 1 : ℕ) := toInt_of_fits (by
              unfold FitsInt
              omega)
            rw [hnbr, hshows.rest] at hnext
            rw [hname, ih _ (by rw [← hn]; exact hnames.rest_lt) hrest m.duration
              (hpath.keeps hshows.keeps) (by omega) hnext rfl]

theorem sendSegments_eq {fresh : ℕ → Char} {xmit : Str → ℤ → Xmit Unit} {dirname text : Str}
    (h : Playlist text) (hlen : (playlistNames text).length < 2 ^ 31) {x : Xmit Unit}
    (hx : InMemory.sendSegments fresh xmit dirname (some text) = .ok x) :
    x = (playlistNames text).zipIdx.forM fun x => xmit (cstr dirname ++ '/' :: x.1) x.2 := by
  obtain ⟨buf, hbuf, -, hpath⟩ := InMemory.exists_directoryPath fresh dirname lenPbuf
    InMemory.listM3u8 (by decide)
  rw [InMemory.sendSegments, hbuf, ok_bind] at hx
  exact sendSegmentsFrom_eq xmit h [] hpath (k := 0) (by omega) hx

/-! ## The receiver's table -/

/-- The table with its entries stored, while its size is a power of two up to 2^30. -/
structure Loaded (directory : Str) (names : List Str) (s : SegmentListLoad) : Prop where
  count : s.L.n_segments = names.length
  arrsz_eq : s.arrsz = s.L.segments.size
  room : ∃ m, s.L.segments.size * 2 ^ m = 2 ^ 30
  lt : names.length < s.L.segments.size
  entries : ∀ i (h : i < names.length),
    s.L.segments.cell i = some { file_name := directory ++ '/' :: names[i] }

theorem loaded_init (directory : Str) : Loaded directory [] segmentListLoadInit :=
  ⟨rfl, rfl, ⟨26, rfl⟩, by decide, fun i h => absurd h (Nat.not_lt_zero i)⟩

namespace Loaded

variable {directory : Str} {names : List Str} {s : SegmentListLoad}

theorem size_le (h : Loaded directory names s) : s.L.segments.size ≤ 2 ^ 30 := by
  obtain ⟨m, hm⟩ := h.room
  exact Nat.le_of_dvd (by decide) ⟨_, hm.symm⟩

/-- The entries of the array once another name has been stored. -/
theorem entries_append (h : Loaded directory names s) (name : Str) {i : ℕ}
    (hi : i < (names ++ [name]).length) :
    (s.L.segments.blit names.length
        [some { file_name := directory ++ '/' :: name }]).cell i =
      some { file_name := directory ++ '/' :: (names ++ [name])[i] } := by
  rw [Buffer.cell_blit_singleton]
  by_cases hlast : i = names.length
  · subst hlast
    simp
  · have hlt : i < names.length := by
      rw [List.length_append, List.length_singleton] at hi
      omega
    rw [if_neg hlast, h.entries i hlt, List.getElem_append_left hlt]

/-- Storing one more name, in terms of the array before and after. -/
theorem append_eq (h : Loaded directory names s) (name : Str) :
    segmentListAppend s (directory ++ '/' :: name) =
      let segments := s.L.segments.blit names.length
        [some { file_name := directory ++ '/' :: name }]
      if (names.length + 1 : ℤ) = s.arrsz then
        .ok {
          L := { n_segments := names.length + 1
                 segments := allocSegments (toInt (s.arrsz * 2)) segments.cell }
          arrsz := toInt (s.arrsz * 2) }
      else .ok { s with L := { n_segments := names.length + 1, segments } } := by
  have hle := h.size_le
  have hlt := h.lt
  have hnext : toInt ((names.length : ℤ) + 1) = names.length + 1 := toInt_of_fits (by
    unfold FitsInt
    omega)
  rw [segmentListAppend, check_bind (by rw [h.count]; omega), h.count, Int.toNat_natCast,
    Buffer.store?_of_lt hlt, orElse_some, ok_bind]
  simp only [hnext, pure_eq_ok]

/-- Another name is stored while there are fewer than 2^30. -/
theorem append (h : Loaded directory names s) (name : Str) (hlen : names.length + 1 < 2 ^ 30) :
    ∃ s', segmentListAppend s (directory ++ '/' :: name) = .ok s' ∧
      Loaded directory (names ++ [name]) s' := by
  obtain ⟨m, hm⟩ := h.room
  have hlt := h.lt
  have hcount : ((names ++ [name]).length : ℤ) = names.length + 1 := by simp
  rw [h.append_eq]
  by_cases hfull : (names.length + 1 : ℤ) = s.arrsz
  · have hsize : s.L.segments.size = names.length + 1 := by
      have := h.arrsz_eq
      omega
    obtain ⟨m, rfl⟩ := Nat.exists_eq_succ_of_ne_zero (show m ≠ 0 by
      rintro rfl
      omega)
    have hdouble : s.L.segments.size * 2 * 2 ^ m = 2 ^ 30 := by
      rw [← hm, Nat.pow_succ, Nat.mul_assoc, Nat.mul_comm 2]
    have hle : s.L.segments.size * 2 ≤ 2 ^ 30 := Nat.le_of_dvd (by decide) ⟨_, hdouble.symm⟩
    have hint : toInt (s.arrsz * 2) = (s.L.segments.size * 2 : ℕ) := by
      rw [h.arrsz_eq, toInt_of_fits (by unfold FitsInt; omega)]
      omega
    simp only [if_pos hfull, hint]
    have halloc : ∀ cell, allocSegments (s.L.segments.size * 2 : ℕ) cell =
        { size := s.L.segments.size * 2, cell } := fun cell => if_neg (by omega)
    refine ⟨_, rfl, hcount.symm, ?_, ⟨m, ?_⟩, ?_, fun i hi => ?_⟩
    · rw [halloc]
    · rw [halloc]
      exact hdouble
    · rw [halloc, List.length_append, List.length_singleton]
      change names.length + 1 < s.L.segments.size * 2
      omega
    · rw [halloc]
      exact h.entries_append name hi
  · simp only [if_neg hfull]
    refine ⟨_, rfl, hcount.symm, h.arrsz_eq, ⟨m, hm⟩, ?_, fun i hi => h.entries_append name hi⟩
    have harrsz := h.arrsz_eq
    rw [List.length_append, List.length_singleton]
    change names.length + 1 < s.L.segments.size
    omega

/-- The doubling of an array of 2^30 entries overflows, and the array is lost. -/
theorem append_overflow (h : Loaded directory names s) (name : Str)
    (hlen : names.length + 1 = 2 ^ 30) :
    ∃ s', segmentListAppend s (directory ++ '/' :: name) = .ok s' ∧
      s'.L.n_segments = 2 ^ 30 ∧ s'.L.segments.size = 0 := by
  have hle := h.size_le
  have hlt := h.lt
  have harrsz : s.arrsz = 2 ^ 30 := by
    rw [h.arrsz_eq]
    omega
  have hfull : (names.length + 1 : ℤ) = s.arrsz := by omega
  refine ⟨_, (h.append_eq name).trans (if_pos hfull), ?_, ?_⟩
  · change (names.length + 1 : ℤ) = 2 ^ 30
    omega
  · rw [harrsz]
    rfl

/-- The names of a listing are stored one after the other. -/
theorem foldlM (h : Loaded directory names s) (more : List Str)
    (hlen : names.length + more.length < 2 ^ 30) :
    ∃ s', more.foldlM (fun s name => segmentListAppend s (directory ++ '/' :: name)) s = .ok s' ∧
      Loaded directory (names ++ more) s' := by
  induction more generalizing names s with
  | nil => exact ⟨s, rfl, by simpa using h⟩
  | cons name more ih =>
      rw [List.length_cons] at hlen
      obtain ⟨s₁, hs₁, h₁⟩ := h.append name (by omega)
      obtain ⟨s₂, hs₂, h₂⟩ := ih h₁ (by rw [List.length_append, List.length_singleton]; omega)
      refine ⟨s₂, ?_, by simpa using h₂⟩
      rw [List.foldlM_cons, hs₁, ok_bind, hs₂]

end Loaded

/-- The names that the loop of `segment_list_load` copies out of its buffer. -/
theorem segmentListNames_eq {directory : Str} {p : ℕ} {text : Str} (h : Listing text)
    {buf : Buffer Char} (hpath : InMemory.Path directory p buf) (hroom : p + maxlenFn ≤ buf.size) :
    InMemory.segmentListNames p text buf =
      .ok ((playlistNames text).map fun name => directory ++ '/' :: name) := by
  induction hn : text.length using Nat.strong_induction_on generalizing text buf with
  | _ n ih =>
      obtain ⟨e, he, hcase⟩ := h.dummyM3u8GetNextEnt
      have hagrees := InMemory.getNextEnt_agrees (p := p) (reads_dummyM3u8GetNextEnt maxlenFn) []
        text buf
      rw [maxlenFn, he] at hagrees
      obtain ⟨m, hm, hshows⟩ := hagrees.of_fits (InMemory.getNextEnt_fits hroom)
      have hrest : m.rest = e.rest := hshows.rest
      have hsame : m.found = e.found := hshows.found
      rw [InMemory.segmentListNames, InMemory.dummyM3u8GetNextEnt, maxlenFn, hm, ok_bind, hsame]
      rcases hcase with ⟨hend, hnil⟩ | ⟨hnames, hlist⟩
      · rw [hend, hnil]
        rfl
      · have hname : stringAt m.buf 0 = directory ++ '/' :: e.filename := by
          rw [(hpath.keeps hshows.keeps).stringAt_zero,
            hshows.filename (hsame.trans hnames.found)]
        rw [if_pos hnames.found, hrest, dif_pos hnames.rest_lt,
          ih _ (by rw [← hn]; exact hnames.rest_lt) hlist (hpath.keeps hshows.keeps)
            (by rw [hshows.keeps.size]; exact hroom) rfl, ok_bind, hnames.names_eq, hname]
        rfl

/-- They are stored one after the other. -/
theorem segmentListLoad_eq (fresh : ℕ → Char) (directory : Str) {text : Str} (h : Listing text) :
    InMemory.segmentListLoad fresh directory (some text) =
        .ok (some ((playlistNames text).map fun name => cstr directory ++ '/' :: name)) ∧
      segmentListLoad (cstr directory) (some text) =
        ((playlistNames text).foldlM (fun s name =>
          segmentListAppend s (cstr directory ++ '/' :: name)) segmentListLoadInit).map
            fun s => some s.L := by
  have hmem : InMemory.segmentListLoad fresh directory (some text) =
      .ok (some ((playlistNames text).map fun name => cstr directory ++ '/' :: name)) := by
    obtain ⟨buf, hbuf, hsize, hpath⟩ := InMemory.exists_directoryPath fresh directory
      (maxlenFn + 2) InMemory.dummyPlaylistM3u8 (by decide)
    rw [InMemory.segmentListLoad, hbuf, ok_bind]
    simp only [segmentListNames_eq h hpath (by omega), ok_bind, pure_eq_ok]
  refine ⟨hmem, ?_⟩
  rw [InMemory.segmentListLoad_refines fresh directory text hmem, List.foldlM_map]

/-! ## Both ends -/

/-- Both ends number the segments by `names`: the sender transmits entry `i` under number `i`, and
the receiver reads these names and finds entry `i` in entry `i` of its table, which has no
others. -/
def NumberedBy (names : List Str) (text : Str) : Prop :=
  (∀ fresh xmit dirname, InMemory.sendSegments fresh xmit dirname (some text) =
      .ok (names.zipIdx.forM fun x => xmit (cstr dirname ++ '/' :: x.1) x.2)) ∧
    ∀ fresh directory,
      InMemory.segmentListLoad fresh directory (some (dummyPlaylist text)) =
          .ok (some (names.map fun name => cstr directory ++ '/' :: name)) ∧
        ∃ L, segmentListLoad (cstr directory) (some (dummyPlaylist text)) = .ok (some L) ∧
          L.n_segments = names.length ∧
          ∀ i (h : i < names.length),
            L.segments.load? i = some (some { file_name := cstr directory ++ '/' :: names[i] })

/-- The table of a dummy playlist. -/
theorem exists_loaded {text : Str} (h : Playlist text)
    (hpattern : ∀ name ∈ playlistNames text, ¬extinfMark <:+: name)
    (hlen : (playlistNames text).length < 2 ^ 30) (directory : Str) :
    ∃ s, segmentListLoad (cstr directory) (some (dummyPlaylist text)) = .ok (some s.L) ∧
      Loaded (cstr directory) (playlistNames text) s := by
  obtain ⟨s, hs, hloaded⟩ := (loaded_init (cstr directory)).foldlM (playlistNames text)
    (by simpa using hlen)
  refine ⟨s, ?_, hloaded⟩
  rw [(segmentListLoad_eq (fun _ => ' ') directory h.toListing.dummyPlaylist).2,
    playlistNames_dummyPlaylist hpattern, hs]
  rfl

/-- For every playlist with fewer than 2^30 names, none of which contains the pattern, and with
pieces that are shorter than what `fgets` may store, both ends number the segments by these
names. -/
theorem numberedBy_of_lt {text : Str} (h : Playlist text)
    (hshort : ∀ r ∈ pieces 39 text, r.length < 39)
    (hpattern : ∀ name ∈ playlistNames text, ¬extinfMark <:+: name)
    (hlen : (playlistNames text).length < 2 ^ 30) : NumberedBy (playlistNames text) text := by
  constructor
  · intro fresh xmit dirname
    obtain ⟨x, hx⟩ := InMemory.exists_sendSegments fresh xmit dirname h.toListing.noNul_text
      (InMemory.narrow_of_forall hshort)
    rw [hx, sendSegments_eq h (by omega) hx]
  · intro fresh directory
    refine ⟨?_, ?_⟩
    · rw [(segmentListLoad_eq fresh directory h.toListing.dummyPlaylist).1,
        playlistNames_dummyPlaylist hpattern]
    · obtain ⟨s, hs, hloaded⟩ := exists_loaded h hpattern hlen directory
      refine ⟨s.L, hs, hloaded.count, fun i hi => ?_⟩
      have hlt := hloaded.lt
      rw [Buffer.load?_of_lt (Nat.lt_trans hi hlt), hloaded.entries i hi]

/-- With 2^30 names the table is lost while it is built. -/
theorem not_numberedBy_of_eq {text : Str} (h : Playlist text)
    (hpattern : ∀ name ∈ playlistNames text, ¬extinfMark <:+: name)
    (hlen : (playlistNames text).length = 2 ^ 30) (names : List Str) : ¬NumberedBy names text := by
  rintro ⟨-, hload⟩
  obtain ⟨-, L, hL, hcount, hentries⟩ := hload (fun _ => ' ') []
  obtain ⟨last, hsplit⟩ : ∃ last, playlistNames text = (playlistNames text).dropLast ++ [last] := by
    refine ⟨(playlistNames text).getLast ?_, (List.dropLast_append_getLast _).symm⟩
    intro hnil
    rw [hnil] at hlen
    exact absurd hlen (by decide)
  have hinit : (playlistNames text).dropLast.length + 1 = 2 ^ 30 := by
    have hpos : 0 < (playlistNames text).length := by
      rw [hlen]
      decide
    rw [List.length_dropLast, Nat.sub_add_cancel hpos, hlen]
  obtain ⟨s, hs, hloaded⟩ := (loaded_init []).foldlM (playlistNames text).dropLast (by
    rw [List.length_nil]
    omega)
  obtain ⟨s', hs', hcount', hsize⟩ := hloaded.append_overflow last hinit
  have hlist : segmentListLoad (cstr []) (some (dummyPlaylist text)) = .ok (some s'.L) := by
    rw [(segmentListLoad_eq (fun _ => ' ') [] h.toListing.dummyPlaylist).2,
      playlistNames_dummyPlaylist hpattern, hsplit, List.foldlM_append]
    simp only [cstr, List.takeWhile_nil, hs, ok_bind, List.foldlM_cons, hs', List.foldlM_nil]
    rfl
  obtain rfl := Option.some.inj (Except.ok.inj (hL.symm.trans hlist))
  have hpos : 0 < names.length := by omega
  have hnone : s'.L.segments.load? 0 = none := by
    rw [Buffer.load?, hsize]
    rfl
  rw [hentries 0 hpos] at hnone
  cases hnone

/-- Where a piece fills what `fgets` may store, the sender leaves its buffer. -/
theorem not_numberedBy_of_not_narrow {text : Str} (h : ¬InMemory.Narrow (pieces 39 text))
    (names : List Str) : ¬NumberedBy names text := by
  rintro ⟨hsend, -⟩
  have hok := hsend (fun _ => ' ') (fun _ _ => pure ()) []
  rw [InMemory.sendSegments_of_not_narrow _ (fun _ _ => rfl) [] h] at hok
  cases hok

/-- A text of `n` lines with the same name. -/
def sameNames (n : ℕ) : Str := (List.replicate n ['a']).flatMap (· ++ ['\n'])

theorem lines_sameNames (n : ℕ) : lines (sameNames n) = List.replicate n ['a'] :=
  lines_flatMap fun l hl => by
    rw [(List.mem_replicate.mp hl).2]
    decide

theorem playlistNames_sameNames (n : ℕ) :
    playlistNames (sameNames n) = List.replicate n ['a'] := by
  rw [playlistNames, lines_sameNames, List.filter_eq_self]
  intro l hl
  rw [(List.mem_replicate.mp hl).2]
  decide

theorem playlist_sameNames (n : ℕ) : Playlist (sameNames n) := by
  refine ⟨⟨?_, ?_⟩, ?_⟩ <;> intro l hl <;>
    rw [lines_sameNames, List.mem_replicate] at hl <;> rw [hl.2] <;> decide

theorem pattern_sameNames (n : ℕ) :
    ∀ name ∈ playlistNames (sameNames n), ¬extinfMark <:+: name := by
  intro name hname
  rw [playlistNames_sameNames] at hname
  rw [(List.mem_replicate.mp hname).2]
  decide

/-- A line of 38 characters. -/
def fullLine : Str := List.replicate 38 'a' ++ ['\n']

/-- A text with too many lines, and a text with a line that is too long. -/
theorem tooLong_not_numbered :
    (Playlist (sameNames (2 ^ 30)) ∧
      (∀ name ∈ playlistNames (sameNames (2 ^ 30)), ¬extinfMark <:+: name) ∧
      ∀ names, ¬NumberedBy names (sameNames (2 ^ 30))) ∧
    Playlist fullLine ∧ (∀ name ∈ playlistNames fullLine, ¬extinfMark <:+: name) ∧
      ∀ names, ¬NumberedBy names fullLine := by
  have hlen : (playlistNames (sameNames (2 ^ 30))).length = 2 ^ 30 := by
    rw [playlistNames_sameNames, List.length_replicate]
  have hfull : Playlist fullLine := ⟨⟨by decide, by decide⟩, by decide⟩
  have hwide : ¬InMemory.Narrow (pieces 39 fullLine) := fun h => absurd h.1 (by decide)
  exact ⟨⟨playlist_sameNames _, pattern_sameNames _,
      not_numberedBy_of_eq (playlist_sameNames _) (pattern_sameNames _) hlen⟩,
    hfull, by decide, not_numberedBy_of_not_narrow hwide⟩

/-- A playlist with a header, a directive, an empty line and two names. -/
def shortList : Str :=
  ['#', 'M', '\n', '#', 'E', 'X', 'T', 'I', 'N', 'F', ':', '9', '.', '5', ',', '\n', 'a', '\n',
    '\n', 'b']

theorem shortList_numbered : NumberedBy [['a'], [], ['b']] shortList :=
  numberedBy_of_lt (show Playlist shortList from ⟨⟨by decide, by decide⟩, by decide⟩) (by decide)
    (by decide) (by decide)

end RqRoute
