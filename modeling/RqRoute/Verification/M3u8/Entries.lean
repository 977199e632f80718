import RqRoute.Verification.M3u8.Names

/-! # The names that the playlist readers return

The readers decide on each piece that `fgets` takes off the text whether it is a comment. They
return the names of the text exactly when no line is blank, every piece of a comment looks
like a comment, and no name follows a directive that cannot be read in its piece. -/

namespace RqRoute

open Checked Text

/-! ## Calls one after the other -/

/-- The names that calls of `m3u8_get_next_ent` return until one returns false. -/
def m3u8Entries (duration fp : Str) : Except Fault (List Str) := do
  let e ← m3u8GetNextEnt 40 duration fp
  if e.found then
    if _h : e.rest.length < fp.length then
      let names ← m3u8Entries e.duration e.rest
      return e.filename :: names
    else .error .endlessLoop
  else return []
termination_by fp.length

/-- The names that calls of `dummy_m3u8_get_next_ent` return until one returns false. -/
def dummyEntries (fp : Str) : Except Fault (List Str) := do
  let e ← dummyM3u8GetNextEnt 40 fp
  if e.found then
    if _h : e.rest.length < fp.length then
      let names ← dummyEntries e.rest
      return e.filename :: names
    else .error .endlessLoop
  else return []
termination_by fp.length

/-- The file-name lines of a text. -/
def nameLines (text : Str) : List Str :=
  (lines text).filter fun l => l ≠ [] ∧ l.head? ≠ some '#'

/-! ## The readers on pieces -/

/-- A piece without the newline that ends it. -/
def chop (r : Str) : Str := if r.getLast? = some '\n' then r.dropLast else r

/-- The pieces that `dummy_m3u8_get_next_ent` takes for names. -/
def dummyNames (ps : List Str) : List Str := (ps.filter fun p => p.head? ≠ some '#').map chop

/-- The pieces that `m3u8_get_next_ent` takes for names. -/
def m3u8Names : List Str → List Str
  | [] => []
  | p :: ps =>
    if extinf <+: p then
      if (sscanfLg (p.drop extinf.length)).isSome then m3u8Names ps else []
    else if p.head? = some '#' then m3u8Names ps
    else chop p :: m3u8Names ps

theorem chopNewline_eq {r : Str} (hnul : '\x00' ∉ r) (hne : r ≠ []) :
    chopNewline r = .ok (chop r) := by
  rw [chopNewline, cstr_eq_self hnul, check_bind (List.length_pos_iff.mpr hne)]
  rfl

/-- The first piece of a text, and what is left. -/
theorem exists_fgets {text : Str} (hnul : '\x00' ∉ text) (hne : text ≠ []) :
    ∃ p rest, fgets 40 text = some (p, rest) ∧ pieces 39 text = p :: pieces 39 rest ∧ p ≠ [] ∧
      '\x00' ∉ p ∧ '\x00' ∉ rest ∧ rest.length < text.length := by
  have happ := splitPiece_append 39 text
  have hfgets : fgets 40 text = some (splitPiece 39 text) := if_neg (by simp [hne])
  have hp : (splitPiece 39 text).1 ≠ [] := by
    cases text with
    | nil => exact absurd rfl hne
    | cons c text =>
        unfold splitPiece
        split <;> simp
  rw [← happ, List.mem_append, not_or] at hnul
  exact ⟨_, _, hfgets, pieces_eq (by decide) hne, hp, hnul.1, hnul.2, fgets_lt hfgets hp⟩

/-- What a call that found an entry has left of the pieces. -/
structure NextEnt.Takes (e : NextEnt) (text : Str) (names : List Str → List Str) : Prop where
  found : e.found = true
  names_eq : names (pieces 39 text) = e.filename :: names (pieces 39 e.rest)
  rest_lt : e.rest.length < text.length
  noNul : '\x00' ∉ e.rest

/-- The names among the pieces, by what a parser does with the first of them. -/
structure NamesOf (parse : Str → Str → Option Str) (names : List Str → List Str) : Prop where
  nil : names [] = []
  cons : ∀ duration p ps,
    names (p :: ps) =
      match parse duration p with
      | none => []
      | some _ => if p.head? = some '#' then names ps else chop p :: names ps

theorem namesOf_m3u8Names : NamesOf InMemory.parseExtinf m3u8Names := by
  refine ⟨rfl, fun duration p ps => ?_⟩
  have htake : p.take extinf.length = extinf ↔ extinf <+: p := by
    rw [List.prefix_iff_eq_take, eq_comm]
  by_cases hx : extinf <+: p
  · have hhash : p.head? = some '#' := by
      obtain ⟨t, rfl⟩ := hx
      rfl
    cases hnum : sscanfLg (p.drop extinf.length) <;>
      simp [m3u8Names, InMemory.parseExtinf, htake, hx, hhash, hnum]
  · simp [m3u8Names, InMemory.parseExtinf, htake, hx]

theorem namesOf_dummyNames : NamesOf (fun duration _ => some duration) dummyNames := by
  refine ⟨rfl, fun duration p ps => ?_⟩
  by_cases hhash : p.head? = some '#' <;> simp [dummyNames, hhash]

/-- A call takes the pieces off the text up to the first name. -/
theorem Reads.takes {parse : Str → Str → Option Str} {next : Str → Str → Except Fault NextEnt}
    (hnext : Reads parse 40 next) {names : List Str → List Str} (hnames : NamesOf parse names)
    {text : Str} (hnul : '\x00' ∉ text) (duration : Str) :
    ∃ e, next duration text = .ok e ∧
      (e.found = false ∧ names (pieces 39 text) = [] ∨ e.Takes text names) := by
  induction hn : text.length using Nat.strong_induction_on generalizing text duration with
  | _ n ih =>
      by_cases hne : text = []
      · subst hne
        exact ⟨_, hnext.done rfl duration, .inl ⟨rfl, hnames.nil⟩⟩
      · obtain ⟨p, rest, hget, hpieces, hp, hpnul, hrest, hlt⟩ := exists_fgets hnul hne
        have hcons := hnames.cons duration p (pieces 39 rest)
        rw [hnext.round hget, cstr_eq_self hpnul, hpieces]
        cases hparse : parse duration p with
        | none =>
            rw [hparse] at hcons
            exact ⟨_, rfl, .inl ⟨rfl, hcons⟩⟩
        | some d =>
            rw [hparse] at hcons
            by_cases hhash : p.head? = some '#'
            · -- a comment leads to the next round
              obtain ⟨e, he, hcase⟩ := ih _ (by omega) hrest d rfl
              simp only [if_pos hhash] at hcons ⊢
              rw [hcons]
              refine ⟨e, he, hcase.imp_right fun ht => ?_⟩
              refine ⟨ht.found, ?_, ht.rest_lt.trans hlt, ht.noNul⟩
              rw [hpieces, hcons, ht.names_eq]
            · simp only [if_neg hhash, chopNewline_eq hpnul hp, ok_bind] at hcons ⊢
              refine ⟨_, rfl, .inr ⟨rfl, ?_, hlt, hrest⟩⟩
              rw [hpieces, hcons]

theorem dummyEntries_eq {text : Str} (hnul : '\x00' ∉ text) :
    dummyEntries text = .ok (dummyNames (pieces 39 text)) := by
  induction hn : text.length using Nat.strong_induction_on generalizing text with
  | _ n ih =>
      obtain ⟨e', he', hcase⟩ := (reads_dummyM3u8GetNextEnt 40).takes namesOf_dummyNames hnul []
      obtain ⟨e, he, rfl⟩ := map_eq_ok.mp he'
      rw [dummyEntries, he, ok_bind]
      rcases hcase with ⟨hnone, hnames⟩ | ht
      · rw [hnone, hnames]
        rfl
      · rw [ht.found, if_pos rfl, dif_pos ht.rest_lt, ih _ (by have := ht.rest_lt; omega) ht.noNul
          rfl, ok_bind, ht.names_eq]
        rfl

theorem m3u8Entries_eq {text : Str} (hnul : '\x00' ∉ text) (duration : Str) :
    m3u8Entries duration text = .ok (m3u8Names (pieces 39 text)) := by
  induction hn : text.length using Nat.strong_induction_on generalizing text duration with
  | _ n ih =>
      obtain ⟨e, he, hcase⟩ := (reads_m3u8GetNextEnt 40).takes namesOf_m3u8Names hnul duration
      rw [m3u8Entries, he, ok_bind]
      rcases hcase with ⟨hnone, hnames⟩ | ht
      · rw [hnone, hnames]
        rfl
      · rw [ht.found, if_pos rfl, dif_pos ht.rest_lt, ih _ (by have := ht.rest_lt; omega) ht.noNul
          _ rfl, ok_bind, ht.names_eq]
        rfl

/-! ## Line by line -/

/-- Every piece of a comment looks like a comment: the characters at which the buffer cuts the
line, its newline included, are hashes. -/
def LooksLikeComment (r : Str) : Prop := ∀ k, 39 * k < r.length → r[39 * k]? = some '#'

/-- A number follows every `#EXTINF:` that a piece starts with. -/
def DirectivesRead (r : Str) : Prop :=
  ∀ k, 39 * k < r.length → extinf <+: (r.drop (39 * k)).take 39 →
    (sscanfLg (((r.drop (39 * k)).take 39).drop extinf.length)).isSome

/-- What the readers need of a text. -/
structure ReadsWhole (text : Str) : Prop where
  noBlank : ∀ r ∈ rawLines text, r ≠ ['\n']
  comments : ∀ r ∈ rawLines text, r.head? = some '#' → LooksLikeComment r
  directives : (rawLines text).Pairwise fun r r' =>
    r.head? = some '#' → ¬DirectivesRead r → r'.head? = some '#'

/-- What a line adds to the names of its text. -/
def lineNames (l : Str) : List Str := if l ≠ [] ∧ l.head? ≠ some '#' then [l] else []

theorem nameLines_of_lines {text l rest : Str} (h : lines text = l :: lines rest) :
    nameLines text = lineNames l ++ nameLines rest := by
  rw [nameLines, h, List.filter_cons, lineNames, nameLines]
  by_cases hl : l ≠ [] ∧ l.head? ≠ some '#' <;> simp [hl]

theorem dummyNames_append (ps qs : List Str) :
    dummyNames (ps ++ qs) = dummyNames ps ++ dummyNames qs := by
  simp [dummyNames]

theorem dummyNames_eq_nil_iff {ps : List Str} :
    dummyNames ps = [] ↔ ∀ p ∈ ps, p.head? = some '#' := by
  simp [dummyNames, List.filter_eq_nil_iff]

section
variable {l r : Str}

theorem chop_of_rawLine (h : RawLine l r) : chop r = l := by
  unfold chop
  rcases h.eq with rfl | ⟨rfl, -⟩
  · simp
  · rw [if_neg fun hlast => h.noNewline (List.mem_of_getLast? hlast)]

theorem looksLikeComment_iff (h : RawLine l r) :
    LooksLikeComment r ↔ ∀ p ∈ pieces 39 r, p.head? = some '#' := by
  rw [forall_mem_pieces_iff (by decide) h.newlineLast]
  simp [LooksLikeComment, List.head?_take, List.head?_drop]

theorem directivesRead_iff (h : RawLine l r) :
    DirectivesRead r ↔ ∀ p ∈ pieces 39 r, extinf <+: p →
      (sscanfLg (p.drop extinf.length)).isSome := by
  rw [forall_mem_pieces_iff (by decide) h.newlineLast]
  rfl

/-- A name is read as it is. -/
theorem pieces_name (h : RawLine l r) (hlen : l.length ≤ 38) : pieces 39 r = [r] :=
  pieces_of_le h.newlineLast h.ne_nil (h.length_le.trans (by omega))

/-- The readers find the name of a line, if it is one; and nothing else exactly when the line is
neither blank nor a comment with a piece that does not look like one. -/
theorem dummyNames_line_iff (h : RawLine l r)
    (hname : l ≠ [] → l.head? ≠ some '#' → l.length ≤ 38) :
    (lineNames l).length ≤ (dummyNames (pieces 39 r)).length ∧
      (dummyNames (pieces 39 r) = lineNames l ↔
        r ≠ ['\n'] ∧ (r.head? = some '#' → LooksLikeComment r)) := by
  by_cases hblank : l = []
  · -- the empty name
    have hr := h.eq_newline_iff.mpr hblank
    subst hblank hr
    exact ⟨by simp [lineNames], iff_of_false (by decide) fun hne => hne.1 rfl⟩
  · by_cases hhash : l.head? = some '#'
    · have hnone : lineNames l = [] := by simp [lineNames, hhash]
      rw [hnone, dummyNames_eq_nil_iff, ← looksLikeComment_iff h, h.head_iff (by decide)]
      refine ⟨Nat.zero_le _, fun hall => ⟨h.eq_newline_iff.not.mpr hblank, fun _ => hall⟩, ?_⟩
      exact fun hall => hall.2 hhash
    · have hnames : dummyNames (pieces 39 r) = lineNames l := by
        rw [pieces_name h (hname hblank hhash)]
        simp [dummyNames, lineNames, h.head_iff, hhash, hblank, chop_of_rawLine h]
      rw [hnames, h.head_iff (by decide)]
      exact ⟨Nat.le_refl _, iff_of_true rfl
        ⟨h.eq_newline_iff.not.mpr hblank, fun hhead => absurd hhead hhash⟩⟩

end

/-! ## The whole text -/

theorem length_nameLines_le {text : Str} (hnames : ∀ l ∈ nameLines text, l.length ≤ 38) :
    (nameLines text).length ≤ (dummyNames (pieces 39 text)).length := by
  induction text using induction_on_rawLines with
  | nil => simp [nameLines]
  | cons l r rest h hlines hraw hpieces ih =>
      rw [nameLines_of_lines hlines] at hnames ⊢
      rw [hpieces, dummyNames_append, List.length_append, List.length_append]
      have hline := (dummyNames_line_iff h fun hne hhash =>
        hnames l (by simp [lineNames, hne, hhash])).1
      have hrest := ih fun k hk => hnames k (List.mem_append_right _ hk)
      omega

/-- The second reader returns the names of the text exactly when every line is read as it is
meant. -/
theorem dummyNames_eq_nameLines_iff {text : Str} (hnames : ∀ l ∈ nameLines text, l.length ≤ 38) :
    dummyNames (pieces 39 text) = nameLines text ↔
      ∀ r ∈ rawLines text, r ≠ ['\n'] ∧ (r.head? = some '#' → LooksLikeComment r) := by
  induction text using induction_on_rawLines with
  | nil => simp [nameLines, dummyNames]
  | cons l r rest h hlines hraw hpieces ih =>
      rw [nameLines_of_lines hlines] at hnames ⊢
      have hrestNames : ∀ k ∈ nameLines rest, k.length ≤ 38 := fun k hk =>
        hnames k (List.mem_append_right _ hk)
      obtain ⟨hlen, hline⟩ := dummyNames_line_iff h fun hne hhash =>
        hnames l (by simp [lineNames, hne, hhash])
      have hrest := length_nameLines_le hrestNames
      rw [hpieces, dummyNames_append, hraw, List.forall_mem_cons, ← hline, ← ih hrestNames]
      constructor
      · intro heq
        have hsum := congrArg List.length heq
        rw [List.length_append, List.length_append] at hsum
        exact List.append_inj heq (by omega)
      · rintro ⟨hl, hr⟩
        rw [hl, hr]

theorem m3u8Names_comment {ps : List Str} (qs : List Str) (hhash : ∀ p ∈ ps, p.head? = some '#') :
    ((∀ p ∈ ps, extinf <+: p → (sscanfLg (p.drop extinf.length)).isSome) →
      m3u8Names (ps ++ qs) = m3u8Names qs) ∧
    ((¬∀ p ∈ ps, extinf <+: p → (sscanfLg (p.drop extinf.length)).isSome) →
      m3u8Names (ps ++ qs) = []) := by
  induction ps with
  | nil => exact ⟨fun _ => rfl, fun hno => absurd (fun p hp => by cases hp) hno⟩
  | cons p ps ih =>
      obtain ⟨hp, hps⟩ := List.forall_mem_cons.mp hhash
      obtain ⟨hall, hsome⟩ := ih hps
      rw [List.cons_append, m3u8Names, List.forall_mem_cons]
      by_cases hx : extinf <+: p
      · rw [if_pos hx]
        by_cases hnum : (sscanfLg (p.drop extinf.length)).isSome
        · rw [if_pos hnum]
          exact ⟨fun h => hall h.2, fun h => hsome fun hrest => h ⟨fun _ => hnum, hrest⟩⟩
        · rw [if_neg hnum]
          exact ⟨fun h => absurd (h.1 hx) hnum, fun _ => rfl⟩
      · rw [if_neg hx, if_pos hp]
        exact ⟨fun h => hall h.2, fun h => hsome fun hrest => h ⟨fun hpx => absurd hpx hx, hrest⟩⟩

theorem nameLines_eq_nil_iff {text : Str} (hblank : ∀ r ∈ rawLines text, r ≠ ['\n']) :
    nameLines text = [] ↔ ∀ r ∈ rawLines text, r.head? = some '#' := by
  induction text using induction_on_rawLines with
  | nil => simp [nameLines]
  | cons l r rest h hlines hraw hpieces ih =>
      rw [hraw, List.forall_mem_cons] at hblank
      have hne : l ≠ [] := h.eq_newline_iff.not.mp hblank.1
      rw [nameLines_of_lines hlines, hraw, List.forall_mem_cons, List.append_eq_nil_iff,
        ih hblank.2, h.head_iff (by decide)]
      simp [lineNames, hne]

/-- The first reader stops at a directive that it cannot read. -/
theorem m3u8Names_eq_nameLines_iff {text : Str} (hnames : ∀ l ∈ nameLines text, l.length ≤ 38)
    (hblank : ∀ r ∈ rawLines text, r ≠ ['\n'])
    (hcomments : ∀ r ∈ rawLines text, r.head? = some '#' → LooksLikeComment r) :
    m3u8Names (pieces 39 text) = nameLines text ↔ (rawLines text).Pairwise fun r r' =>
      r.head? = some '#' → ¬DirectivesRead r → r'.head? = some '#' := by
  induction text using induction_on_rawLines with
  | nil => simp [nameLines, m3u8Names]
  | cons l r rest h hlines hraw hpieces ih =>
      rw [hraw, List.forall_mem_cons] at hblank hcomments
      rw [nameLines_of_lines hlines] at hnames ⊢
      have hrec := ih (fun k hk => hnames k (List.mem_append_right _ hk)) hblank.2 hcomments.2
      have hne : l ≠ [] := h.eq_newline_iff.not.mp hblank.1
      rw [hpieces, hraw, List.pairwise_cons]
      by_cases hhash : r.head? = some '#'
      · have hl : l.head? = some '#' := (h.head_iff (by decide)).mp hhash
        obtain ⟨hall, hsome⟩ := m3u8Names_comment (pieces 39 rest)
          ((looksLikeComment_iff h).mp (hcomments.1 hhash))
        rw [← directivesRead_iff h] at hall hsome
        have hnone : lineNames l = [] := by simp [lineNames, hl]
        rw [hnone, List.nil_append]
        by_cases hread : DirectivesRead r
        · rw [hall hread, hrec]
          exact ⟨fun hp => ⟨fun r' _ _ hno => absurd hread hno, hp⟩, fun hp => hp.2⟩
        · rw [hsome hread, eq_comm, nameLines_eq_nil_iff hblank.2]
          constructor
          · intro hend
            refine ⟨fun r' hr' _ _ => hend r' hr', List.pairwise_of_forall_mem_list ?_⟩
            exact fun a _ b hb _ _ => hend b hb
          · exact fun hp r' hr' => hp.1 r' hr' hhash hread
      · have hl : l.head? ≠ some '#' := (h.head_iff (by decide)).not.mp hhash
        have hline : lineNames l = [l] := by simp [lineNames, hl, hne]
        have hx : ¬extinf <+: r := by
          rintro ⟨t, rfl⟩
          exact hhash rfl
        have hlen : l.length ≤ 38 := hnames l (by simp [hline])
        rw [pieces_name h hlen, hline, List.singleton_append, List.singleton_append, m3u8Names,
          if_neg hx, if_neg hhash, chop_of_rawLine h, List.cons_inj_right, hrec]
        exact ⟨fun hp => ⟨fun r' _ hr => absurd hr hhash, hp⟩, fun hp => hp.2⟩

/-! ## The theorem -/

/-- Both readers return exactly the file-name lines of a text, in order, and then false, exactly
when no line is blank, the pieces of every comment look like comments, and no name follows a
directive that cannot be read. -/
theorem entries_iff_readsWhole {text : Str} (hnul : '\x00' ∉ text)
    (hnames : ∀ l ∈ nameLines text, l.length ≤ 38) (duration : Str) :
    (m3u8Entries duration text = .ok (nameLines text) ∧
      dummyEntries text = .ok (nameLines text)) ↔ ReadsWhole text := by
  rw [m3u8Entries_eq hnul, dummyEntries_eq hnul, Except.ok.injEq, Except.ok.injEq,
    dummyNames_eq_nameLines_iff hnames]
  constructor
  · rintro ⟨hfirst, hlines⟩
    have hblank := fun r hr => (hlines r hr).1
    have hcomments := fun r hr => (hlines r hr).2
    exact ⟨hblank, hcomments, (m3u8Names_eq_nameLines_iff hnames hblank hcomments).mp hfirst⟩
  · rintro ⟨hblank, hcomments, hdirectives⟩
    exact ⟨(m3u8Names_eq_nameLines_iff hnames hblank hcomments).mpr hdirectives,
      fun r hr => ⟨hblank r hr, hcomments r hr⟩⟩

def directoryList : Str :=
  ['#', 'M', '\n', '#', 'E', 'X', 'T', 'I', 'N', 'F', ':', '2', ',', '\n', 'a', '\n', 'b']

theorem entries_iff_readsWhole_two :
    m3u8Entries [] directoryList = .ok [['a'], ['b']] ∧
      dummyEntries directoryList = .ok [['a'], ['b']] := by
  have hlen : ∀ r ∈ rawLines directoryList, r.length ≤ 39 := by decide
  have hnum : ∀ r ∈ rawLines directoryList, extinf <+: r.take 39 →
    (sscanfLg ((r.take 39).drop extinf.length)).isSome := by decide
  have hread : ReadsWhole directoryList := by
    refine ⟨by decide, fun r hr hhash k hk => ?_, ?_⟩
    · have := hlen r hr
      obtain rfl : k = 0 := by omega
      rwa [List.head?_eq_getElem?] at hhash
    · refine List.pairwise_of_forall_mem_list fun r hr _ _ _ hno => absurd (fun k hk => ?_) hno
      have := hlen r hr
      obtain rfl : k = 0 := by omega
      exact hnum r hr
  exact (entries_iff_readsWhole (by decide) (by decide) []).mpr hread

/-- A comment of 41 characters, a blank line, and one name: the end of the comment and an empty
name are returned as well. -/
def commentedList : Str := '#' :: List.replicate 40 'x' ++ ['\n', '\n', 'a', '\n']

theorem comment_and_blank_returned :
    '\x00' ∉ commentedList ∧ (∀ l ∈ nameLines commentedList, l.length ≤ 38) ∧
      (∀ l ∈ lines commentedList, extinf <+: l → (sscanfLg (l.drop extinf.length)).isSome) ∧
      nameLines commentedList = [['a']] ∧
      m3u8Entries [] commentedList = .ok [['x', 'x'], [], ['a']] ∧
      dummyEntries commentedList = .ok [['x', 'x'], [], ['a']] := by
  have hnul : '\x00' ∉ commentedList := by decide
  refine ⟨hnul, by decide, by decide, by decide, ?_, ?_⟩
  · rw [m3u8Entries_eq hnul]
    rfl
  · rw [dummyEntries_eq hnul]
    rfl

end RqRoute
