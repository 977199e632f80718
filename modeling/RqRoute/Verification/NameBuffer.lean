import RqRoute.Model.NameBuffer
import RqRoute.Verification.M3u8.Entries
import RqRoute.Verification.Sender.Emission

/-! # The buffers of the file names

One round of the readers is described once: what it stores, and how it ends. The rounds of
all calls then say when a store leaves its buffer, and that the names in memory are those of
the readers that work on texts. -/

namespace RqRoute.InMemory

open Checked Memory Text

/-! ## One round -/

/-- What a store from offset `p` on leaves of a buffer. -/
structure Keeps (p : ℕ) (b b' : Buffer Char) : Prop where
  size : b'.size = b.size
  below : b'.slice 0 p = b.slice 0 p

namespace Keeps

variable {p : ℕ} {b b' b'' : Buffer Char}

theorem trans (h : Keeps p b b') (h' : Keeps p b' b'') : Keeps p b b'' :=
  ⟨h'.size.trans h.size, h'.below.trans h.below⟩

theorem of_storeString {s : Str} (h : storeString b p s = some b') : Keeps p b b' :=
  ⟨size_of_storeString h, slice_of_storeString h (Nat.le_refl p)⟩

theorem of_blit (xs : Str) {i : ℕ} (hi : p ≤ i) : Keeps p b (b.blit i xs) :=
  ⟨Buffer.size_blit b i xs, Buffer.slice_blit_of_disjoint b (.inl (by omega))⟩

end Keeps

theorem chopNewline_nil {buf : Buffer Char} {p : ℕ} (h : stringAt buf p = []) :
    chopNewline buf p = .error .entryLength := by
  simp [chopNewline, h, check]

/-- The name that is left in memory is the one of the text. -/
theorem exists_chopNewline {buf : Buffer Char} {p : ℕ} {r : Str} (hstr : stringAt buf p = cstr r)
    (hne : cstr r ≠ []) : ∃ buf' filename, chopNewline buf p = .ok buf' ∧
      RqRoute.chopNewline r = .ok filename ∧ stringAt buf' p = filename ∧ Keeps p buf buf' := by
  have hpos := List.length_pos_iff.mpr hne
  obtain ⟨l, hl⟩ := Nat.exists_eq_succ_of_ne_zero hpos.ne'
  have hlen : (stringAt buf p).length = l + 1 := by rw [hstr, hl]
  have hlast : buf.cell (p + l) = '\n' ↔ (cstr r).getLast? = some '\n' := by
    have hcell := getElem?_stringAt (b := buf) (p := p) (i := l) (by omega)
    rw [hstr] at hcell
    rw [List.getLast?_eq_getElem?, hl, Nat.succ_sub_one, hcell, Option.some.injEq]
  have hin : p + l < buf.size := by
    have := (slice_stringAt buf p).2
    omega
  rw [chopNewline, RqRoute.chopNewline, hlen, check_bind (Nat.succ_pos l), check_bind hpos,
    Nat.add_sub_cancel]
  by_cases hnl : (cstr r).getLast? = some '\n'
  · rw [if_pos (hlast.mpr hnl), Buffer.store?_of_lt hin, if_pos hnl]
    exact ⟨_, _, rfl, rfl, by rw [stringAt_chop hlen, hstr], .of_blit _ (Nat.le_add_right p l)⟩
  · rw [if_neg (hlast.not.mpr hnl), if_neg hnl]
    exact ⟨_, _, rfl, rfl, hstr, ⟨rfl, rfl⟩⟩

section
variable (parse : Str → Str → Option Str) (n p : ℕ)

/-- How a round ends that took `r` off the stream. -/
inductive Round (duration r rest : Str) (buf : Buffer Char) : Except Fault NextEnt → Prop
  | wide (hwide : buf.size ≤ p + r.length) : Round duration r rest buf (.error .outOfBounds)
  | unparsed {buf' : Buffer Char} (hfits : p + r.length < buf.size) (hkeeps : Keeps p buf buf')
      (hparse : parse duration (cstr r) = none) :
      Round duration r rest buf (.ok { found := false, duration, rest, buf := buf' })
  | comment {buf' : Buffer Char} {d : Str} (hfits : p + r.length < buf.size)
      (hkeeps : Keeps p buf buf') (hparse : parse duration (cstr r) = some d)
      (hhash : r.head? = some '#') :
      Round duration r rest buf (getNextEnt parse n p d rest buf')
  | empty {d : Str} (hfits : p + r.length < buf.size) (hparse : parse duration (cstr r) = some d)
      (hnil : cstr r = []) : Round duration r rest buf (.error .entryLength)
  | name {buf' : Buffer Char} {d filename : Str} (hfits : p + r.length < buf.size)
      (hkeeps : Keeps p buf buf') (hparse : parse duration (cstr r) = some d)
      (hhash : r.head? ≠ some '#') (hne : cstr r ≠ [])
      (hchop : RqRoute.chopNewline r = .ok filename) (hstr : stringAt buf' p = filename) :
      Round duration r rest buf (.ok { found := true, duration := d, rest, buf := buf' })

variable {n}

theorem getNextEnt_of_none {fp : Str} (h : fgets n fp = none) (duration : Str)
    (buf : Buffer Char) :
    getNextEnt parse n p duration fp buf =
      .ok { found := false, duration, rest := fp, buf } := by
  rw [getNextEnt, h]
  rfl

theorem getNextEnt_round {fp r rest : Str} (h : fgets n fp = some (r, rest)) (duration : Str)
    (buf : Buffer Char) :
    Round parse n p duration r rest buf (getNextEnt parse n p duration fp buf) := by
  rw [getNextEnt, h]
  simp only
  by_cases hwide : buf.size ≤ p + r.length
  · rw [storeString_eq_none hwide]
    exact .wide hwide
  · have hfits : p + r.length < buf.size := by omega
    have hstore := storeString_of_lt hfits
    have hkeeps := Keeps.of_storeString hstore
    have hstr := stringAt_of_storeString hstore
    have hcell := cell_of_storeString hstore
    rw [hstore, orElse_some, ok_bind, hstr]
    generalize buf.blit p (r ++ ['\x00']) = buf' at hkeeps hstr hcell ⊢
    cases hparse : parse duration (cstr r) with
    | none => exact .unparsed hfits hkeeps hparse
    | some d =>
        have hhash : buf'.cell p = '#' ↔ r.head? = some '#' := by
          rw [hcell]
          cases r <;> simp
        simp only
        by_cases hc : r.head? = some '#'
        · rw [if_pos (hhash.mpr hc), dif_pos (fgets_lt h (ne_nil_of_head? hc))]
          exact .comment hfits hkeeps hparse hc
        · rw [if_neg (hhash.not.mpr hc)]
          by_cases hnil : cstr r = []
          · rw [chopNewline_nil (hstr.trans hnil), error_bind]
            exact .empty hfits hparse hnil
          · obtain ⟨buf'', filename, hmem, hchop, hname, hchopped⟩ := exists_chopNewline hstr hnil
            rw [hmem, ok_bind]
            exact .name hfits (hkeeps.trans hchopped) hparse hc hnil hchop hname

end

/-! ## The readers that work on texts -/

/-- The call in memory and the call on texts, side by side. -/
structure Shows (p : ℕ) (buf : Buffer Char) (m : NextEnt) (e : RqRoute.NextEnt) : Prop where
  found : m.found = e.found
  duration : m.duration = e.duration
  rest : m.rest = e.rest
  filename : m.found = true → stringAt m.buf p = e.filename
  keeps : Keeps p buf m.buf

/-- A store leaves the buffer, or both calls end alike. -/
inductive Agrees (p : ℕ) (buf : Buffer Char) :
    Except Fault NextEnt → Except Fault RqRoute.NextEnt → Prop
  | wide (res : Except Fault RqRoute.NextEnt) : Agrees p buf (.error .outOfBounds) res
  | fault (f : Fault) : Agrees p buf (.error f) (.error f)
  | shows {m : NextEnt} {e : RqRoute.NextEnt} (h : Shows p buf m e) : Agrees p buf (.ok m) (.ok e)

namespace Agrees

variable {p : ℕ} {buf buf' : Buffer Char} {call : Except Fault NextEnt}
  {res : Except Fault RqRoute.NextEnt}

theorem keeps (h : Agrees p buf' call res) (hkeeps : Keeps p buf buf') :
    Agrees p buf call res := by
  cases h with
  | wide res => exact .wide res
  | fault f => exact .fault f
  | shows h => exact .shows { h with keeps := hkeeps.trans h.keeps }

theorem of_ok {m : NextEnt} (h : Agrees p buf (.ok m) res) :
    ∃ e, res = .ok e ∧ Shows p buf m e := by
  cases h with
  | shows h => exact ⟨_, rfl, h⟩

theorem of_fits {e : RqRoute.NextEnt} (h : Agrees p buf call (.ok e))
    (hfits : call ≠ .error .outOfBounds) : ∃ m, call = .ok m ∧ Shows p buf m e := by
  cases h with
  | wide => exact absurd rfl hfits
  | shows h => exact ⟨_, rfl, h⟩

end Agrees

section
variable {parse : Str → Str → Option Str} {n p : ℕ}
  {next : Str → Str → Except Fault RqRoute.NextEnt}

theorem getNextEnt_agrees (hnext : Reads parse n next) (duration fp : Str) (buf : Buffer Char) :
    Agrees p buf (getNextEnt parse n p duration fp buf) (next duration fp) := by
  induction hlen : fp.length using Nat.strong_induction_on generalizing fp duration buf with
  | _ len ih =>
      cases hget : fgets n fp with
      | none =>
          rw [getNextEnt_of_none parse p hget, hnext.done hget duration]
          exact .shows ⟨rfl, rfl, rfl, nofun, ⟨rfl, rfl⟩⟩
      | some piece =>
          obtain ⟨r, rest⟩ := piece
          have hround := getNextEnt_round parse p hget duration buf
          rw [hnext.round hget]
          generalize getNextEnt parse n p duration fp buf = call at hround ⊢
          cases hround with
          | wide => exact .wide _
          | unparsed _ hkeeps hparse =>
              rw [hparse]
              exact .shows ⟨rfl, rfl, rfl, nofun, hkeeps⟩
          | @comment buf' d _ hkeeps hparse hhash =>
              have hlt := fgets_lt hget (ne_nil_of_head? hhash)
              simp only [hparse, if_pos hhash]
              exact (ih _ (by omega) d rest buf' rfl).keeps hkeeps
          | empty _ hparse hnil =>
              have hhash : r.head? ≠ some '#' := by
                intro hhash
                obtain ⟨t, rfl⟩ := List.head?_eq_some_iff.mp hhash
                simp [cstr] at hnil
              have hempty : RqRoute.chopNewline r = .error .entryLength := by
                simp [RqRoute.chopNewline, hnil, check]
              simp only [hparse, if_neg hhash, hempty, error_bind]
              exact .fault _
          | name _ hkeeps hparse hhash _ hchop hstr =>
              simp only [hparse, if_neg hhash, hchop, ok_bind]
              exact .shows ⟨rfl, rfl, rfl, fun _ => hstr, hkeeps⟩

theorem getNextEnt_shows (hnext : Reads parse n next) {duration fp : Str} {buf : Buffer Char}
    {m : NextEnt} (h : getNextEnt parse n p duration fp buf = .ok m) :
    ∃ e, next duration fp = .ok e ∧ Shows p buf m e := by
  have hagrees := getNextEnt_agrees (p := p) hnext duration fp buf
  rw [h] at hagrees
  exact hagrees.of_ok

theorem m3u8GetNextEnt_shows {duration fp : Str} {buf : Buffer Char} {m : NextEnt}
    (h : m3u8GetNextEnt n p duration fp buf = .ok m) :
    ∃ e, RqRoute.m3u8GetNextEnt n duration fp = .ok e ∧ Shows p buf m e :=
  getNextEnt_shows (reads_m3u8GetNextEnt n) h

/-! ## Stores inside the buffer -/

/-- A call with room for all that `fgets` may store. -/
theorem getNextEnt_fits {duration fp : Str} {buf : Buffer Char} (hroom : p + n ≤ buf.size) :
    getNextEnt parse n p duration fp buf ≠ .error .outOfBounds := by
  induction hlen : fp.length using Nat.strong_induction_on generalizing fp duration buf with
  | _ len ih =>
      intro h
      cases hget : fgets n fp with
      | none =>
          rw [getNextEnt_of_none parse p hget] at h
          cases h
      | some piece =>
          obtain ⟨r, rest⟩ := piece
          have hround := getNextEnt_round parse p hget duration buf
          have hr := length_of_fgets hget
          rw [h] at hround
          generalize hres : Except.error Fault.outOfBounds = res at hround
          cases hround with
          | wide hwide => omega
          | unparsed | empty | name => cases hres
          | comment _ hkeeps _ hhash =>
              have hlt := fgets_lt hget (ne_nil_of_head? hhash)
              exact ih _ (by omega) (by rw [hkeeps.size]; exact hroom) rfl hres.symm

end

/-! ## The pieces that the sender reads -/

/-- The reading goes on after this piece: a directive can be parsed, and a name is not empty. -/
def ReadOn (r : Str) : Prop :=
  cstr r ≠ [] ∧ (extinf <+: cstr r → (sscanfLg ((cstr r).drop extinf.length)).isSome)

/-- Every piece has fewer than 39 characters, up to the one that the reading ends with. -/
def Narrow : List Str → Prop
  | [] => True
  | r :: ps => r.length < 39 ∧ (ReadOn r → Narrow ps)

/-- A piece that the reading goes on from does not count when it is short. -/
theorem narrow_cons_iff {r : Str} {ps : List Str} (hr : r.length < 39) (hon : ReadOn r) :
    Narrow (r :: ps) ↔ Narrow ps :=
  ⟨fun h => h.2 hon, fun h => ⟨hr, fun _ => h⟩⟩

theorem narrow_of_forall {ps : List Str} (h : ∀ r ∈ ps, r.length < 39) : Narrow ps := by
  induction ps with
  | nil => trivial
  | cons r ps ih =>
      obtain ⟨hr, hps⟩ := List.forall_mem_cons.mp h
      exact ⟨hr, fun _ => ih hps⟩

/-- A call of the sender, whose buffer is one byte shorter than what `fgets` may fill: it leaves
the buffer, ends the reading, or finds a name. -/
theorem m3u8GetNextEnt_narrow {p : ℕ} (duration fpp : Str) {buf : Buffer Char}
    (hroom : buf.size + 1 = p + lenPbuf) :
    ¬Narrow (pieces 39 fpp) ∧
        m3u8GetNextEnt lenPbuf p duration fpp buf = .error .outOfBounds ∨
      Narrow (pieces 39 fpp) ∧
        m3u8GetNextEnt lenPbuf p duration fpp buf = .error .entryLength ∨
      ∃ m, m3u8GetNextEnt lenPbuf p duration fpp buf = .ok m ∧
        (m.found = false ∧ Narrow (pieces 39 fpp) ∨
          m.found = true ∧ m.rest.length < fpp.length ∧
            (Narrow (pieces 39 fpp) ↔ Narrow (pieces 39 m.rest))) := by
  induction hlen : fpp.length using Nat.strong_induction_on generalizing fpp duration buf with
  | _ len ih =>
      subst hlen
      rw [m3u8GetNextEnt] at ih ⊢
      cases hget : fgets lenPbuf fpp with
      | none =>
          have hnil : fpp = [] := by simpa [fgets, lenPbuf] using hget
          rw [getNextEnt_of_none _ p hget]
          exact .inr (.inr ⟨_, rfl, .inl ⟨rfl, by rw [hnil]; trivial⟩⟩)
      | some piece =>
          obtain ⟨r, rest⟩ := piece
          have hround := getNextEnt_round parseExtinf p hget duration buf
          have hr : r.length < 40 := length_of_fgets hget
          have hparse := isSome_parseExtinf_iff duration (cstr r)
          have hfull : buf.size + 1 = p + 40 := hroom
          rw [pieces_of_fgets (by decide) hget]
          generalize getNextEnt parseExtinf lenPbuf p duration fpp buf = result at hround ⊢
          cases hround with
          | wide hwide =>
              refine .inl ⟨fun h => ?_, rfl⟩
              have := h.1
              omega
          | unparsed hfits _ hnone =>
              refine .inr (.inr ⟨_, rfl, .inl ⟨rfl, by omega, fun hon => ?_⟩⟩)
              have hsome := hparse.mpr hon.2
              rw [hnone] at hsome
              cases hsome
          | comment hfits hkeeps hsome hhash =>
              have hlt := fgets_lt hget (ne_nil_of_head? hhash)
              have hne : cstr r ≠ [] := by
                obtain ⟨t, rfl⟩ := List.head?_eq_some_iff.mp hhash
                simp [cstr]
              have hon : ReadOn r := ⟨hne, hparse.mp (by rw [hsome]; rfl)⟩
              rw [narrow_cons_iff (by omega) hon]
              have hkept : _ + 1 = p + lenPbuf := hkeeps.size.symm ▸ hroom
              refine (ih _ hlt _ _ hkept rfl).imp_right (Or.imp_right ?_)
              rintro ⟨m, hm, hend | ⟨hfound, hrest, hsame⟩⟩
              · exact ⟨m, hm, .inl hend⟩
              · exact ⟨m, hm, .inr ⟨hfound, hrest.trans hlt, hsame⟩⟩
          | empty hfits _ hnil =>
              exact .inr (.inl ⟨⟨by omega, fun hon => absurd hnil hon.1⟩, rfl⟩)
          | name hfits hkeeps hsome hhash hne hchop hstr =>
              have hlt := fgets_lt hget fun hnil => hne (by rw [hnil]; rfl)
              have hon : ReadOn r := ⟨hne, hparse.mp (by rw [hsome]; rfl)⟩
              exact .inr (.inr ⟨_, rfl, .inr ⟨rfl, hlt, narrow_cons_iff (by omega) hon⟩⟩)

/-- What a call finds in a narrow text without terminators leaves such a text behind. -/
theorem exists_m3u8GetNextEnt {p : ℕ} (duration : Str) {fpp : Str} {buf : Buffer Char}
    (hroom : buf.size + 1 = p + lenPbuf) (hnul : '\x00' ∉ fpp) (hnarrow : Narrow (pieces 39 fpp)) :
    ∃ m, m3u8GetNextEnt lenPbuf p duration fpp buf = .ok m ∧ m.buf.size = buf.size ∧
      (m.found = true →
        m.rest.length < fpp.length ∧ '\x00' ∉ m.rest ∧ Narrow (pieces 39 m.rest)) := by
  obtain ⟨e, he, htakes⟩ := (reads_m3u8GetNextEnt lenPbuf).takes namesOf_m3u8Names hnul duration
  have hagrees := getNextEnt_agrees (p := p) (reads_m3u8GetNextEnt lenPbuf) duration fpp buf
  rw [he] at hagrees
  have hcase := m3u8GetNextEnt_narrow duration fpp hroom
  obtain ⟨m, hm, hshows⟩ := hagrees.of_fits fun hwide => by
    rcases hcase with ⟨hno, -⟩ | ⟨-, hempty⟩ | ⟨m, hm, -⟩
    · exact hno hnarrow
    · cases hwide.symm.trans hempty
    · cases hwide.symm.trans hm
  refine ⟨m, hm, hshows.keeps.size, fun hfound => ?_⟩
  rcases hcase with ⟨hno, -⟩ | ⟨-, hempty⟩ | ⟨m', hm', ⟨hend, -⟩ | ⟨-, hlt, hsame⟩⟩
  · exact absurd hnarrow hno
  · cases hm.symm.trans hempty
  · obtain rfl : m = m' := Except.ok.inj (hm.symm.trans hm')
    rw [hfound] at hend
    cases hend
  · obtain rfl : m = m' := Except.ok.inj (hm.symm.trans hm')
    refine ⟨hlt, ?_, hsame.mp hnarrow⟩
    rcases htakes with ⟨hend, -⟩ | htakes
    · rw [← hshows.found, hfound] at hend
      cases hend
    · rw [hshows.rest]
      exact htakes.noNul

/-- How the loop goes on after a call. -/
inductive Sends (xmit : Str → ℤ → Xmit Unit) (p : ℕ) (file_nbr : ℤ) (fpp : Str) (m : NextEnt) :
    Xmit Unit → Prop
  | listed (hend : m.found = false) : Sends xmit p file_nbr fpp m (pure ())
  | failed {stop : Stop} (hfound : m.found = true)
      (hresult : (xmit (stringAt m.buf 0) file_nbr).result = .error stop) :
      Sends xmit p file_nbr fpp m (xmit (stringAt m.buf 0) file_nbr)
  | going {next : Xmit Unit} (hfound : m.found = true) (hlt : m.rest.length < fpp.length)
      (hresult : (xmit (stringAt m.buf 0) file_nbr).result = .ok ())
      (hnext : sendSegmentsFrom xmit p (toInt (file_nbr + 1)) m.duration m.rest m.buf = .ok next) :
      Sends xmit p file_nbr fpp m (xmit (stringAt m.buf 0) file_nbr >>= fun _ => next)

theorem sendSegmentsFrom_cases {xmit : Str → ℤ → Xmit Unit} {p : ℕ} {file_nbr : ℤ}
    {duration fpp : Str} {buf : Buffer Char} {x : Xmit Unit}
    (h : sendSegmentsFrom xmit p file_nbr duration fpp buf = .ok x) :
    ∃ m, m3u8GetNextEnt lenPbuf p duration fpp buf = .ok m ∧ Sends xmit p file_nbr fpp m x := by
  rw [sendSegmentsFrom] at h
  obtain ⟨m, hm, h⟩ := bind_eq_ok.mp h
  refine ⟨m, hm, ?_⟩
  cases hfound : m.found with
  | false =>
      rw [hfound] at h
      cases h
      exact .listed hfound
  | true =>
      rw [hfound, if_pos rfl] at h
      cases hresult : (xmit (stringAt m.buf 0) file_nbr).result with
      | error stop =>
          simp only [hresult, pure_eq_ok, Except.ok.injEq] at h
          subst h
          exact .failed hfound hresult
      | ok u =>
          simp only [hresult] at h
          by_cases hlt : m.rest.length < fpp.length
          · rw [dif_pos hlt] at h
            obtain ⟨next, hnext, h⟩ := bind_eq_ok.mp h
            cases h
            exact .going hfound hlt hresult hnext
          · rw [dif_neg hlt] at h
            cases h

theorem exists_sendSegmentsFrom {p : ℕ} (xmit : Str → ℤ → Xmit Unit) (file_nbr : ℤ)
    (duration : Str) {fpp : Str} {buf : Buffer Char} (hroom : buf.size + 1 = p + lenPbuf)
    (hnul : '\x00' ∉ fpp) (hnarrow : Narrow (pieces 39 fpp)) :
    ∃ x, sendSegmentsFrom xmit p file_nbr duration fpp buf = .ok x := by
  induction hlen : fpp.length using Nat.strong_induction_on
    generalizing fpp duration buf file_nbr with
  | _ len ih =>
      subst hlen
      obtain ⟨m, hm, hsize, hleft⟩ := exists_m3u8GetNextEnt duration hroom hnul hnarrow
      rw [sendSegmentsFrom, hm, ok_bind]
      cases hfound : m.found with
      | false => exact ⟨_, rfl⟩
      | true =>
          obtain ⟨hlt, hnul', hnarrow'⟩ := hleft hfound
          obtain ⟨next, hnext⟩ := ih _ hlt (toInt (file_nbr + 1)) m.duration
            (by rw [hsize]; exact hroom) hnul' hnarrow' rfl
          rw [if_pos rfl]
          simp only
          cases hresult : (xmit (stringAt m.buf 0) file_nbr).result with
          | error stop => exact ⟨_, rfl⟩
          | ok u =>
              simp only [dif_pos hlt, hnext]
              exact ⟨_, rfl⟩

/-- The loop stays inside its buffer, whatever it transmits, when the pieces are narrow; and
leaves it otherwise, when everything can be transmitted. -/
theorem sendSegmentsFrom_narrow {p : ℕ} (xmit : Str → ℤ → Xmit Unit) (file_nbr : ℤ)
    (duration fpp : Str) {buf : Buffer Char} (hroom : buf.size + 1 = p + lenPbuf) :
    (Narrow (pieces 39 fpp) →
      sendSegmentsFrom xmit p file_nbr duration fpp buf ≠ .error .outOfBounds) ∧
    ((∀ filename n, (xmit filename n).result = .ok ()) → ¬Narrow (pieces 39 fpp) →
      sendSegmentsFrom xmit p file_nbr duration fpp buf = .error .outOfBounds) := by
  induction hlen : fpp.length using Nat.strong_induction_on
    generalizing fpp duration buf file_nbr with
  | _ len ih =>
      subst hlen
      rw [sendSegmentsFrom]
      rcases m3u8GetNextEnt_narrow duration fpp hroom with
        ⟨hwide, he⟩ | ⟨hnarrow, he⟩ | ⟨m, he, ⟨hfound, hnarrow⟩ | ⟨hfound, hlt, hsame⟩⟩
      · rw [he]
        exact ⟨fun h => absurd h hwide, fun _ _ => rfl⟩
      · rw [he]
        refine ⟨fun _ h => ?_, fun _ h => absurd hnarrow h⟩
        cases h
      · rw [he, ok_bind, hfound]
        refine ⟨fun _ h => ?_, fun _ h => absurd hnarrow h⟩
        cases h
      · obtain ⟨e, -, hshows⟩ := m3u8GetNextEnt_shows he
        have hroom' : m.buf.size + 1 = p + lenPbuf := by rw [hshows.keeps.size]; exact hroom
        rw [he, ok_bind, hfound, if_pos rfl, hsame]
        simp only
        have hrec := ih _ hlt (toInt (file_nbr + 1)) m.duration m.rest hroom' rfl
        cases hres : (xmit (stringAt m.buf 0) file_nbr).result with
        | error e =>
            refine ⟨fun _ h => ?_, fun hxmit => ?_⟩
            · cases h
            · rw [hxmit] at hres
              cases hres
        | ok u =>
            rw [dif_pos hlt]
            refine ⟨fun hnarrow h => ?_, fun hxmit hwide => ?_⟩
            · rcases bind_eq_error.mp h with h | ⟨_, -, h⟩
              · exact hrec.1 hnarrow h
              · cases h
            · rw [hrec.2 hxmit hwide]
              rfl

/-! ## The names of the two models -/

/-- The buffer holds a directory and a slash, up to offset `p`. -/
structure Path (directory : Str) (p : ℕ) (buf : Buffer Char) : Prop where
  noNul : '\x00' ∉ directory
  below : buf.slice 0 p = directory ++ ['/']
  le_size : p ≤ buf.size

namespace Path

variable {directory : Str} {p : ℕ} {buf buf' : Buffer Char}

theorem keeps (h : Path directory p buf) (hkeeps : Keeps p buf buf') : Path directory p buf' :=
  ⟨h.noNul, hkeeps.below.trans h.below, hkeeps.size ▸ h.le_size⟩

theorem stringAt_zero (h : Path directory p buf) :
    stringAt buf 0 = directory ++ '/' :: stringAt buf p := by
  have hnul : '\x00' ∉ buf.slice 0 p := by
    rw [h.below]
    simpa using h.noNul
  rw [Text.stringAt_zero h.le_size hnul, h.below, List.append_assoc, List.singleton_append]

end Path

theorem exists_directoryPath (fresh : ℕ → Char) (directory : Str) (room : ℕ) (listing : Str)
    (hroom : listing.length + 1 < room) :
    ∃ buf, directoryPath fresh directory room listing = .ok buf ∧
      buf.size = (cstr directory).length + room ∧
      Path (cstr directory) ((cstr directory).length + 1) buf := by
  have hnul := nul_not_mem_cstr directory
  rw [directoryPath]
  generalize cstr directory = d at hnul ⊢
  have hcopy : storeString { size := d.length + room, cell := fresh } 0 d = some _ :=
    storeString_of_lt (by simp only; omega)
  have hcopied : stringAt _ 0 = cstr d := stringAt_of_storeString hcopy
  have hsize := size_of_storeString hcopy
  rw [hcopy, orElse_some, ok_bind]
  generalize Buffer.blit _ 0 (d ++ ['\x00']) = b at hcopied hsize ⊢
  have hbelow : b.slice 0 d.length = d := by
    have := (slice_stringAt b 0).1
    rwa [hcopied, cstr_eq_self hnul] at this
  have hslash : b.store? d.length '/' = some _ :=
    Buffer.store?_of_lt (by rw [hsize]; simp only; omega) _
  have hpath : (b.blit d.length ['/']).slice 0 (d.length + 1) = d ++ ['/'] := by
    have hlast := b.slice_blit_self d.length ['/']
    rw [Buffer.slice_append, Buffer.slice_blit_of_disjoint b (.inl (by omega)), hbelow,
      Nat.zero_add]
    exact congrArg (d ++ ·) hlast
  have hlisting : storeString (b.blit d.length ['/']) (d.length + 1) listing = some _ :=
    storeString_of_lt (by rw [Buffer.size_blit, hsize]; simp only; omega)
  rw [hslash, orElse_some, ok_bind, hlisting]
  have hkeeps := Keeps.of_storeString hlisting
  refine ⟨_, rfl, hkeeps.size.trans hsize, hnul, hkeeps.below.trans hpath, ?_⟩
  rw [hkeeps.size, Buffer.size_blit, hsize]
  simp only
  omega

/-- The receiver's table is built from the names in its buffer. -/
theorem segmentListNames_refines {directory : Str} {p : ℕ} (s : SegmentListLoad) (fp : Str)
    {buf : Buffer Char} {names : List Str} (hpath : Path directory p buf)
    (h : segmentListNames p fp buf = .ok names) :
    segmentListEntries directory s fp = names.foldlM segmentListAppend s := by
  induction hlen : fp.length using Nat.strong_induction_on generalizing fp buf names s with
  | _ len ih =>
      subst hlen
      rw [segmentListNames] at h
      obtain ⟨m, hm, h⟩ := bind_eq_ok.mp h
      obtain ⟨e', he', hshows⟩ := getNextEnt_shows (reads_dummyM3u8GetNextEnt maxlenFn) hm
      obtain ⟨e, he, rfl⟩ := map_eq_ok.mp he'
      rw [segmentListEntries, he, ok_bind, show e.found = m.found from hshows.found.symm]
      cases hfound : m.found with
      | false =>
          rw [hfound] at h
          cases h
          rfl
      | true =>
          have hname : directory ++ '/' :: e.filename = stringAt m.buf 0 := by
            rw [(hpath.keeps hshows.keeps).stringAt_zero, hshows.filename hfound]
          have hrest : e.rest = m.rest := hshows.rest.symm
          rw [hfound, if_pos rfl] at h
          rw [if_pos rfl, hname, hrest]
          by_cases hlt : m.rest.length < fp.length
          · rw [dif_pos hlt] at h
            obtain ⟨more, hmore, h⟩ := bind_eq_ok.mp h
            cases h
            rw [List.foldlM_cons]
            simp only [dif_pos hlt]
            refine bind_congr fun s' => ?_
            exact ih _ hlt s' m.rest (hpath.keeps hshows.keeps) hmore rfl
          · rw [dif_neg hlt] at h
            cases h

theorem segmentListLoad_refines (fresh : ℕ → Char) (directory fp : Str) {names : List Str}
    (h : segmentListLoad fresh directory (some fp) = .ok (some names)) :
    RqRoute.segmentListLoad (cstr directory) (some fp) =
      (names.foldlM segmentListAppend segmentListLoadInit).map fun s => some s.L := by
  obtain ⟨buf, hbuf, -, hpath⟩ := exists_directoryPath fresh directory (maxlenFn + 2)
      dummyPlaylistM3u8 (by decide)
  rw [segmentListLoad, hbuf, ok_bind] at h
  obtain ⟨more, hmore, h⟩ := bind_eq_ok.mp h
  cases h
  rw [RqRoute.segmentListLoad, segmentListNames_refines _ fp hpath hmore]
  cases names.foldlM segmentListAppend segmentListLoadInit <;> rfl

/-! ## Both buffers -/

theorem segmentListNames_fits {p : ℕ} {fp : Str} {buf : Buffer Char}
    (hroom : p + maxlenFn ≤ buf.size) : segmentListNames p fp buf ≠ .error .outOfBounds := by
  induction hlen : fp.length using Nat.strong_induction_on generalizing fp buf with
  | _ len ih =>
      subst hlen
      intro h
      rw [segmentListNames] at h
      rcases bind_eq_error.mp h with h | ⟨m, hm, h⟩
      · exact getNextEnt_fits hroom h
      · obtain ⟨e, -, hshows⟩ := getNextEnt_shows (reads_dummyM3u8GetNextEnt maxlenFn) hm
        have hkept : p + maxlenFn ≤ m.buf.size := by rw [hshows.keeps.size]; exact hroom
        split at h
        · split at h
          · rename_i hlt
            rcases bind_eq_error.mp h with h | ⟨_, -, h⟩
            · exact ih _ hlt hkept rfl h
            · cases h
          · cases h
        · cases h

theorem exists_sendSegments (fresh : ℕ → Char) (xmit : Str → ℤ → Xmit Unit) (dirname : Str)
    {text : Str} (hnul : '\x00' ∉ text) (hnarrow : Narrow (pieces 39 text)) :
    ∃ x, sendSegments fresh xmit dirname (some text) = .ok x := by
  obtain ⟨buf, hbuf, hsize, -⟩ := exists_directoryPath fresh dirname lenPbuf listM3u8
      (by decide)
  rw [sendSegments, hbuf, ok_bind]
  exact exists_sendSegmentsFrom xmit 0 [] (by omega) hnul hnarrow

theorem sendSegments_of_not_narrow (fresh : ℕ → Char) {xmit : Str → ℤ → Xmit Unit}
    (hxmit : ∀ filename n, (xmit filename n).result = .ok ()) (dirname : Str) {text : Str}
    (hwide : ¬Narrow (pieces 39 text)) :
    sendSegments fresh xmit dirname (some text) = .error .outOfBounds := by
  obtain ⟨buf, hbuf, hsize, -⟩ := exists_directoryPath fresh dirname lenPbuf listM3u8
      (by decide)
  rw [sendSegments, hbuf, ok_bind]
  exact (sendSegmentsFrom_narrow xmit 0 [] text (by omega)).2 hxmit hwide

/-- The receiver never stores outside of `fullpath`. The sender stays inside `fnam_buf`, whatever
it transmits, exactly when every piece that it reads has fewer than 39 characters. -/
theorem staysInBuffer_iff_narrow (fresh : ℕ → Char) (directory dirname : Str)
    (fp fpp : Option Str) :
    segmentListLoad fresh directory fp ≠ .error .outOfBounds ∧
      ((∀ xmit, sendSegments fresh xmit dirname fpp ≠ .error .outOfBounds) ↔
        ∀ text ∈ fpp, Narrow (pieces 39 text)) := by
  constructor
  · obtain ⟨buf, hbuf, hsize, -⟩ := exists_directoryPath fresh directory (maxlenFn + 2)
      dummyPlaylistM3u8 (by decide)
    rw [segmentListLoad, hbuf, ok_bind]
    intro h
    cases fp with
    | none => cases h
    | some fp =>
        rcases bind_eq_error.mp h with h | ⟨_, -, h⟩
        · exact segmentListNames_fits (by omega) h
        · cases h
  · obtain ⟨buf, hbuf, hsize, -⟩ := exists_directoryPath fresh dirname lenPbuf listM3u8
      (by decide)
    cases fpp with
    | none =>
        refine iff_of_true (fun xmit h => ?_) fun _ h => by cases h
        rw [sendSegments, hbuf, ok_bind] at h
        cases h
    | some text =>
        simp only [Option.mem_def, Option.some.injEq, forall_eq']
        constructor
        · intro hstays
          by_contra hwide
          exact hstays (fun _ _ => pure ())
            (sendSegments_of_not_narrow fresh (fun _ _ => rfl) dirname hwide)
        · intro hnarrow xmit
          rw [sendSegments, hbuf, ok_bind]
          exact (sendSegmentsFrom_narrow xmit 0 [] text (by omega)).1 hnarrow

/-- A line of 39 characters fills what `fgets` may store, and its terminator falls off the end of
the buffer. -/
theorem fullPiece_overflows :
    sendSegments (fun _ => ' ') (fun _ _ => pure ()) ['d']
      (some (List.replicate 39 'a' ++ ['\n'])) = .error .outOfBounds := by
  have hwide : ¬Narrow (pieces 39 (List.replicate 39 'a' ++ ['\n'])) := fun h =>
    absurd h.1 (by decide)
  exact sendSegments_of_not_narrow _ (fun _ _ => rfl) ['d'] hwide

end RqRoute.InMemory
