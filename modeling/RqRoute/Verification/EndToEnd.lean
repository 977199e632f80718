import RqRoute.Verification.Numbering
import RqRoute.Verification.Receiver.InOrder

/-! # From the playlist to the player

The sender reads a playlist and transmits its files; the receiver numbers them by the dummy
playlist that was made of the same text. Over a network that loses nothing and keeps the order,
the player gets the files, byte by byte and in their order, except for the last one. -/

namespace RqRoute

open Checked Memory Text Transition Xmit

variable {M : Type}

/-! ## All source symbols arrive -/

/-- The source symbols come first, so they are among those that are kept. -/
theorem SendsSources.sourceIds_subset {content : List UInt8} (hsmall : SmallFile content.length)
    {sent : List Datagram} {file_nbr : ℤ}
    (h : SendsSources sent (segSymbols content.length) (sourceDatagram content file_nbr)) :
    sourceIds (segSymbols content.length) ⊆ firstSymbols content sent := by
  obtain ⟨repair, rfl, -⟩ := h
  have hids : symbolIds content
      ((List.range (segSymbols content.length)).map (sourceDatagram content file_nbr)) =
        sourceIds (segSymbols content.length) := by
    rw [symbolIds, List.map_map]
    refine List.map_congr_left fun j hj => ?_
    have hlt := List.mem_range.mp hj
    have hK := hsmall.symbols.2.2.1
    have hid := symbId_source hK (j := j) (by omega) content.length file_nbr
    rw [Function.comp_apply, sourceDatagram, hid]
  have hlen : (sourceIds (segSymbols content.length)).length ≤ segSymbols content.length + 30 := by
    rw [length_sourceIds]
    omega
  intro id hid
  rw [firstSymbols, symbolIds, List.map_append, ← symbolIds, ← symbolIds, hids,
    List.eraseDups_append, Dedup.eraseDups_of_nodup (nodup_sourceIds _), List.take_append,
    List.take_of_length_le hlen]
  exact List.mem_append_left _ hid

/-! ## The stream of a playlist -/

/-- A list that is put together from pieces of which all but one are empty. -/
theorem flatMap_range_single {α : Type*} {n f : ℕ} (hf : f < n) {g : ℕ → List α}
    (hnil : ∀ i < n, i ≠ f → g i = []) : (List.range n).flatMap g = g f := by
  induction n with
  | zero => exact absurd hf (Nat.not_lt_zero f)
  | succ n ih =>
      rw [List.range_succ, List.flatMap_append, List.flatMap_singleton]
      rcases Nat.lt_succ_iff_lt_or_eq.mp hf with hlt | rfl
      · rw [ih hlt fun i hi => hnil i (by omega), hnil n (by omega) (by omega), List.append_nil]
      · rw [List.flatMap_eq_nil_iff.mpr fun i hi => ?_, List.nil_append]
        have hlt := List.mem_range.mp hi
        exact hnil i (by omega) (by omega)

section
variable {sender : Host M} {files : List (List UInt8)} {nExtra : ℕ → ℤ}

/-- What the stream has of a file is what its transmission sent. -/
theorem ofFile_transmission (hlen : files.length ≤ 65536) (hsmall : SmallFiles files) {f : ℕ}
    (hf : f < files.length) :
    ofFile f (transmission sender files nExtra) =
      (xmitFile sender files[f]? f (nExtra f)).sent := by
  have hself : ∀ g < files.length, ofFile f (xmitFile sender files[g]? g (nExtra g)).sent =
      if g = f then (xmitFile sender files[g]? g (nExtra g)).sent else [] := by
    intro g hg
    have htoi : ∀ d ∈ (xmitFile sender files[g]? g (nExtra g)).sent, d.header.toi.toNat = g :=
      fun d hd => toi_of_mem_sent hlen hsmall hg hd
    split
    · rename_i heq
      exact List.filter_eq_self.mpr fun d hd => decide_eq_true ((htoi d hd).trans heq)
    · rename_i hne
      refine List.filter_eq_nil_iff.mpr fun d hd hf' => hne ?_
      rw [← htoi d hd, of_decide_eq_true hf']
  rw [transmission, ofFile, List.filter_flatMap, flatMap_range_single hf fun g hg hne => ?_]
  · exact (hself f hf).trans (if_pos rfl)
  · exact (hself g hg).trans (if_neg hne)

/-- The transmissions of all files run to their ends. -/
def AllTransmitted (sender : Host M) (files : List (List UInt8)) (nExtra : ℕ → ℤ) : Prop :=
  ∀ f < files.length, (xmitFile sender files[f]? f (nExtra f)).result = .ok ()

theorem AllTransmitted.sendsSources (h : AllTransmitted sender files nExtra)
    (hsmall : SmallFiles files) {f : ℕ} (hf : f < files.length) :
    SendsSources (xmitFile sender files[f]? f (nExtra f)).sent (segSymbols files[f].length)
      (sourceDatagram files[f] f) := by
  have hok := h f hf
  rw [List.getElem?_eq_getElem hf] at hok ⊢
  exact xmitFile_of_ok (hsmall _ (List.getElem_mem hf)) hok

/-- Something of every file is under way. -/
theorem AllTransmitted.exists_mem (h : AllTransmitted sender files nExtra)
    (hlen : files.length ≤ 65536) (hsmall : SmallFiles files) {f : ℕ} (hf : f < files.length) :
    ∃ d ∈ transmission sender files nExtra, d.header.toi.toNat = f := by
  obtain ⟨repair, hsent, -⟩ := h.sendsSources hsmall hf
  have hpos := (hsmall _ (List.getElem_mem hf)).symbols.2.1
  have hmem : sourceDatagram files[f] f 0 ∈ ofFile f (transmission sender files nExtra) := by
    rw [ofFile_transmission hlen hsmall hf, hsent]
    exact List.mem_append_left _ (List.mem_map_of_mem (List.mem_range.mpr hpos))
  obtain ⟨hd, htoi⟩ := List.mem_filter.mp hmem
  exact ⟨_, hd, of_decide_eq_true htoi⟩

/-- Nothing is missing before any file, and every file but the last one is overtaken. -/
theorem AllTransmitted.passed_iff (h : AllTransmitted sender files nExtra)
    (hlen : files.length ≤ 65536) (hsmall : SmallFiles files) (f : ℕ) :
    Unbroken (transmission sender files nExtra) f ∧ Overtaken (transmission sender files nExtra) f ↔
      f + 1 < files.length := by
  constructor
  · rintro ⟨-, d, hd, hlt, -⟩
    have := ((sent_of_mem_transmission hd).genuine hlen hsmall).toi_lt
    omega
  · intro hlt
    obtain ⟨d, hd, htoi⟩ := h.exists_mem hlen hsmall hlt
    refine ⟨fun g hg => h.exists_mem hlen hsmall (by omega), d, hd, by omega, ?_⟩
    unfold segstateSetN
    omega

end

/-! ## Both ends -/

/-- The files that a playlist names, in its order. -/
def Lists (files : Str → Option (List UInt8)) (directory text : Str)
    (contents : List (List UInt8)) : Prop :=
  (playlistNames text).map (fun name => files (directory ++ '/' :: name)) = contents.map some

section
variable {sender : Host M} {files : Str → Option (List UInt8)} {nExtra : ℤ → ℤ}
  {directory text : Str} {contents : List (List UInt8)}

theorem Lists.length_eq (h : Lists files directory text contents) :
    (playlistNames text).length = contents.length := by
  simpa using congrArg List.length h

theorem Lists.get_eq (h : Lists files directory text contents) {f : ℕ}
    (hf : f < (playlistNames text).length) :
    files (directory ++ '/' :: (playlistNames text)[f]) = contents[f]? := by
  have hentry := congrArg (fun l => l[f]?) h
  rw [List.getElem?_eq_getElem (h.length_eq ▸ hf)]
  simpa [List.getElem?_eq_getElem hf, List.getElem?_eq_getElem (h.length_eq ▸ hf)] using hentry

theorem flatMap_names_eq (hfiles : Lists files directory text contents) :
    ((playlistNames text).zipIdx.flatMap fun x =>
        (xmitNamed sender files nExtra (directory ++ '/' :: x.1) x.2).sent) =
      transmission sender contents fun f => nExtra f := by
  rw [transmission, List.flatMap_def, List.flatMap_def]
  refine congrArg List.flatten (List.ext_getElem (by simpa using hfiles.length_eq) fun f hf _ => ?_)
  have hlt : f < (playlistNames text).length := by simpa using hf
  simp only [List.getElem_map, List.getElem_zipIdx, List.getElem_range, Nat.zero_add, xmitNamed,
    hfiles.get_eq hlt]

/-- What a sender transmits of its playlist; the whole of it when it gets to the end. -/
theorem sendSegments_sent {fresh : ℕ → Char} {dirname : Str} (htext : Playlist text)
    (hfiles : Lists files (cstr dirname) text contents) (hlen : contents.length ≤ 65536)
    {x : Xmit Unit} (hx : InMemory.sendSegments fresh (xmitNamed sender files nExtra) dirname
      (some text) = .ok x) :
    x.sent <+: transmission sender contents (fun f => nExtra f) ∧
      (x.result = .ok () → x.sent = transmission sender contents (fun f => nExtra f) ∧
        AllTransmitted sender contents fun f => nExtra f) := by
  have hnames := hfiles.length_eq
  rw [sendSegments_eq htext (by omega) hx, ← flatMap_names_eq hfiles]
  refine ⟨sent_forM_le _ _, fun hok => ?_⟩
  have hall := result_forM_eq_ok.mp hok
  refine ⟨sent_forM hall, fun f hf => ?_⟩
  have hlt : f < (playlistNames text).length := hnames ▸ hf
  rw [← hfiles.get_eq hlt]
  refine hall ((playlistNames text)[f], f) ?_
  rw [List.mk_mem_zipIdx_iff_getElem?]
  exact List.getElem?_eq_getElem hlt

end

/-- Of a stream in which nothing is missing, all files but the last come out as they were. -/
theorem AllTransmitted.output {sender host : Host M} (codec : CodecContract host.toRqApi)
    (stale : StaleFree host.toRqApi) (hsame : sender.toRqApi = host.toRqApi)
    {contents : List (List UInt8)} (hn : 1 ≤ contents.length) (hlen : contents.length ≤ 65536)
    (hsmall : SmallFiles contents) {nExtra : ℕ → ℤ} (hall : AllTransmitted sender contents nExtra)
    {L : SegmentList} {ready_fd : ℤ}
    {t : List (Entry (Receiver M × List Datagram) Input Event)} {R : Receiver M}
    (hrun : Run (LosslessStep L host)
      (Receiver.init host ready_fd, transmission sender contents nExtra) t (R, []))
    (hquiet : R.Quiet) :
    R.SS.min_file_nbr = contents.length - 1 ∧ written (events t) = contents.dropLast.flatten := by
  obtain ⟨hnonneg, hpassed, outs, hrestored, hwritten⟩ :=
    in_order_output codec stale hsame hlen hsmall (fun d hd => sent_of_mem_transmission hd)
      (transmission_sorted hlen hsmall) hrun hquiet
  have hlt : ∀ f : ℕ, f < R.SS.min_file_nbr ↔ f + 1 < contents.length := fun f =>
    (hpassed f).trans (hall.passed_iff hlen hsmall f)
  have hmin : R.SS.min_file_nbr = contents.length - 1 := by
    have hlast := hlt (R.SS.min_file_nbr.toNat - 1)
    have hnext := hlt R.SS.min_file_nbr.toNat
    omega
  refine ⟨hmin, ?_⟩
  have hcount : R.SS.min_file_nbr.toNat = contents.dropLast.length := by
    rw [List.length_dropLast]
    omega
  rw [hwritten, hcount, List.flatMap_def]
  refine congrArg List.flatten (List.ext_getElem (by simp) fun f hf hf' => ?_)
  rw [List.getElem_map, List.getElem_range, List.getElem_dropLast]
  rw [List.length_dropLast] at hf'
  have hfile : f < contents.length := by omega
  refine (hrestored f _ (List.getElem?_eq_getElem hfile) ((hlt f).mpr (by omega))).complete ?_
  rw [ofFile_transmission hlen hsmall hfile]
  exact (hall.sendsSources hsmall hfile).sourceIds_subset (hsmall _ (List.getElem_mem hfile))

end RqRoute
