import RqRoute.Verification.Receiver.Isolation
import RqRoute.Verification.Receiver.Traffic
import RqRoute.Verification.Transfer

/-! # What the player gets

The files of a playlist come out one after the other, each of them as the transfer of that
file alone would leave it. -/

namespace RqRoute

open Checked Memory Chunks Dedup Segstateset Transition

variable {M : Type}

/-! ## One segment -/

/-- The way out of `codeblockstate_get_data` for a segment that was fed `ds`. -/
def segmentExit (host : Host M) (file_nbr : ℤ) (file_len : ℕ) (ds : List Datagram) :
    Except Fault DataExit := do
  let S ← segstateInit host file_nbr file_len
  let S ← addPackets S (packetsOf ds)
  let C ← orElse S.cbstates.head? .outOfBounds
  let sz := (S.P.T * S.P.K_large).toNat
  let r ← codeblockstateGetData host C sz
    { codec_mem := .zero host, data_out := { size := sz, cell := host.freshByte } }
  return r.1

/-- The file with the source symbols zeroed that did not arrive in time. -/
def withGaps (content : List UInt8) (ds : List Datagram) : List UInt8 :=
  blot 1024 0 (fun i => decide ((i : ℤ) ∈ firstSymbols content ds)) content

/-- `out` is what the datagrams `ds` restore of a file. -/
structure Restored (host : Host M) (file_nbr : ℤ) (content : List UInt8) (ds : List Datagram)
    (out : List UInt8) : Prop where
  length_eq : out.length = content.length
  exit : ∃ exit, segmentExit host file_nbr content.length ds = .ok exit ∧
    (exit.ret = true → out = content) ∧
    (exit = .tooFew ∨ exit = .insuffIds → out = withGaps content ds)
  complete : sourceIds (segSymbols content.length) ⊆ firstSymbols content ds → out = content
  few : (symbolIds content ds).eraseDups.length < segSymbols content.length →
    out = withGaps content ds

/-- Every datagram is one that a transmission of the file sends, whatever the overhead was. -/
def AllEmitted (sender : Host M) (content : List UInt8) (file_nbr : ℤ) (ds : List Datagram) :
    Prop := ∀ d ∈ ds, ∃ nExtra, EmittedBy sender content file_nbr nExtra d

/-- The number of repair symbols of a transmission that sends any is bounded by its memory. -/
theorem EmittedBy.bounded {sender : Host M} {content : List UInt8} {file_nbr nExtra : ℤ}
    {d : Datagram} (h : EmittedBy sender content file_nbr nExtra d) :
    ∃ n, n * 1024 < 2 ^ 31 ∧ EmittedBy sender content file_nbr n d := by
  rcases h with hsource | ⟨j, hj, hfit, hrepair⟩
  · exact ⟨0, by decide, .inl hsource⟩
  · refine ⟨nExtra, ?_, .inr ⟨j, hj, hfit, hrepair⟩⟩
    unfold FitsInt at hfit
    omega

namespace AllEmitted

variable {sender host : Host M} {content : List UInt8} {file_nbr : ℤ} {ds : List Datagram}

theorem packets (hsmall : SmallFile content.length) (hnbr : 0 ≤ file_nbr ∧ file_nbr < 65536)
    (h : AllEmitted sender content file_nbr ds) :
    ∀ p ∈ packetsOf ds, PacketFor file_nbr content.length p := by
  intro p hp
  obtain ⟨d, hd, rfl⟩ := List.mem_map.mp hp
  obtain ⟨nExtra, hem⟩ := h d hd
  have htoi := hem.toi
  rw [Int.emod_eq_of_lt hnbr.1 hnbr.2] at htoi
  exact ⟨htoi, hem.tos hsmall, hem.payload_le⟩

theorem storesSymbols (codec : CodecContract host.toRqApi) (hsame : sender.toRqApi = host.toRqApi)
    (hsmall : SmallFile content.length) (h : AllEmitted sender content file_nbr ds) :
    StoresSymbols codec (segSymbols content.length) 1024 (sourceSym content)
      (keptSymbols content ds) := by
  intro p hp
  have hfirst := List.mem_of_find?_eq_some (find?_of_mem_retainAll hp)
  obtain ⟨q, hq, rfl⟩ := List.mem_map.mp hfirst
  obtain ⟨d, hd, rfl⟩ := List.mem_map.mp hq
  obtain ⟨nExtra, hem⟩ := h d hd
  obtain ⟨n, hbound, hem⟩ := hem.bounded
  exact hem.payload_eq codec hsame hsmall hbound

/-- A segment of its own that is fed these datagrams restores the file from them, and what it
restores is what it writes. -/
theorem restored (codec : CodecContract host.toRqApi) (hsame : sender.toRqApi = host.toRqApi)
    (hsmall : SmallFile content.length) (hnbr : 0 ≤ file_nbr ∧ file_nbr < 65536)
    (h : AllEmitted sender content file_nbr ds) :
    ∃ out, Restored host file_nbr content ds out ∧
      (ds ≠ [] → LoneOutput host file_nbr ds out) := by
  have hinit : segstateInit host file_nbr content.length = .ok _ :=
    (segstateInit_eq_ok_iff (by unfold SmallFile at hsmall; omega)).mpr ⟨hsmall, rfl⟩
  obtain ⟨S, hadd, hrec, -, hclosed⟩ :=
    addPackets_receives host file_nbr hsmall (packetsOf ds) (h.packets hsmall hnbr)
  obtain ⟨C, exit, m, -, hC, hholds, hget, hspec, -⟩ :=
    hrec.prepareOutput hclosed host 0 (.zero host)
  change C.Holds _ _ (keptSymbols content ds) at hholds
  change DataSpec _ _ _ _ (keptSymbols content ds) _ _ _ _ at hspec
  obtain ⟨hret, hblot⟩ := hspec.source codec hsmall hholds (h.storesSymbols codec hsame hsmall)
  rw [keys_keptSymbols] at hblot
  have hexit : segmentExit host file_nbr content.length ds = .ok exit := by
    have hsz : (S.P.T * S.P.K_large).toNat = segSymbols content.length * 1024 := by
      rw [hrec.P_eq]
      simp only [oneBlock]
      omega
    rw [segmentExit, hinit, ok_bind, hadd, ok_bind, hC]
    simp only [List.head?_cons, orElse_some, ok_bind, hsz]
    change (codeblockstateGetData host C _ { codec_mem := _, data_out := freshOutput host _ } >>=
      _) = _
    rw [hget]
    rfl
  refine ⟨m.data_out.slice 0 content.length, ⟨by simp, ⟨exit, hexit, hret, hblot⟩, ?_, ?_⟩, ?_⟩
  · intro hall
    refine hret ?_
    rw [hspec.all_iff.mpr (allSource_keptSymbols hall)]
    rfl
  · intro hfew
    refine hblot (.inl (hspec.few_iff.mpr ?_))
    have hlen := congrArg List.length (keys_keptSymbols content ds)
    rw [List.length_map, firstSymbols, List.length_take] at hlen
    omega
  · intro hne fd ws
    obtain ⟨first, rest, rfl⟩ := List.exists_cons_of_ne_nil hne
    obtain ⟨nExtra, hem⟩ := h first List.mem_cons_self
    obtain ⟨C', exit', m', T, hC', -, hget', -, hprep, hwrites, hfd, hbuf⟩ :=
      hrec.readyForWrite.prepareOutput hclosed host fd (.zero host)
    obtain rfl : C' = C := by
      have hsingle := hC'.symm.trans hC
      simpa using hsingle
    obtain ⟨rfl, rfl⟩ := Prod.mk.inj (Except.ok.inj (hget'.symm.trans hget))
    have hopen : T.out_fd ≠ -1 := by
      rw [hfd]
      omega
    rw [loneOutput, List.head?_cons, orElse_some, ok_bind, hem.tos hsmall, hinit, ok_bind, hadd,
      ok_bind, hprep, ok_bind, hwrites.writeAll_start hopen, hbuf, Buffer.length_slice]

/-- What a segment of its own writes of these datagrams, is what they restore. -/
theorem restored_of_lone (codec : CodecContract host.toRqApi)
    (hsame : sender.toRqApi = host.toRqApi) (hsmall : SmallFile content.length)
    (hnbr : 0 ≤ file_nbr ∧ file_nbr < 65536) (h : AllEmitted sender content file_nbr ds)
    {out : List UInt8} (hlone : LoneOutput host file_nbr ds out) :
    Restored host file_nbr content ds out := by
  obtain ⟨out', hrestored, hlone'⟩ := h.restored codec hsame hsmall hnbr
  have hne : ds ≠ [] := by
    rintro rfl
    cases hlone 0 []
  have heq := Prod.mk.inj (Except.ok.inj
    ((hlone 0 [out.length + out'.length]).symm.trans (hlone' hne 0 [out.length + out'.length])))
  rw [List.sum_singleton, List.take_of_length_le (by omega),
    List.take_of_length_le (by omega)] at heq
  exact heq.1 ▸ hrestored

end AllEmitted

/-! ## The order of the bytes -/

/-- Everything that is written, in the order in which it is. -/
def written (es : List Event) : List UInt8 :=
  es.flatMap fun
    | .wrote _ bytes => bytes
    | _ => []

@[simp] theorem written_append (es es' : List Event) :
    written (es ++ es') = written es ++ written es' := List.flatMap_append

theorem Receiver.Starts.written {host : Host M} {R R' : Receiver M} {opened : Option ℕ}
    {es : List Event} (h : R.Starts host opened es R') : written es = [] := by
  cases h <;> rfl

theorem Receiver.Gets.written {host : Host M} {R R' : Receiver M} {d : Datagram}
    {opened : Option ℕ} {es : List Event} (h : R.Gets host d opened es R') : written es = [] := by
  cases h with
  | outside | known | first => rfl
  | newest _ _ _ _ _ _ hstart => rw [written_append, hstart.written]; rfl

/-- A pass writes to the first segment only. -/
theorem Receiver.Step.written {L : SegmentList} {host : Host M} {R R' : Receiver M} {i : Input}
    {es : List Event} (hs : R.Step L host i R' es) :
    written es = bytesWritten R.SS.min_file_nbr es ∧
      ∀ f, f ≠ R.SS.min_file_nbr → bytesWritten f es = [] := by
  obtain ⟨-, -, hpass⟩ := step_iff.mp hs
  cases hpass with
  | recv _ _ hgets =>
      exact ⟨by rw [hgets.written, hgets.bytesWritten], fun f _ => hgets.bytesWritten f⟩
  | write _ hwrites =>
      cases hwrites with
      | more =>
          refine ⟨by simp [RqRoute.written, bytesWritten], fun f hf => ?_⟩
          rw [(bytesWritten_wrote _ _ _).1, if_neg hf.symm]
      | last _ _ _ hstart =>
          refine ⟨?_, fun f hf => ?_⟩
          · rw [written_append, bytesWritten_append, hstart.written, hstart.bytesWritten]
            simp [RqRoute.written, bytesWritten]
          · rw [bytesWritten_append, hstart.bytesWritten, (bytesWritten_wrote _ _ _).2,
              if_neg hf.symm, List.append_nil]
  | startWrite _ hstart =>
      exact ⟨by rw [hstart.written, hstart.bytesWritten], fun f _ => hstart.bytesWritten f⟩
  | signalReady => exact ⟨rfl, fun _ _ => rfl⟩

/-- The bytes of the segments in the order of their numbers, up to the one that is open. -/
def inOrder (min_file_nbr : ℤ) (es : List Event) : List UInt8 :=
  ((List.range min_file_nbr.toNat).flatMap fun f : ℕ => bytesWritten f es) ++
    bytesWritten min_file_nbr es

/-- Nothing is written out of order. -/
theorem written_of_run {L : SegmentList} {host : Host M} {ready_fd : ℤ} {R : Receiver M}
    {t : List (Entry (Receiver M) Input Event)}
    (h : Run (Receiver.Step L host) (Receiver.init host ready_fd) t R) :
    written (events t) = inOrder R.SS.min_file_nbr (events t) ∧
      ∀ f, R.SS.min_file_nbr < f → bytesWritten f (events t) = [] := by
  induction h with
  | nil => exact ⟨rfl, fun _ _ => rfl⟩
  | @snoc t R R' i es hrun hstep ih =>
      obtain ⟨horder, hlater⟩ := ih
      obtain ⟨hes, hothers⟩ := hstep.written
      have hinv := inv_of_run hrun
      have hnonneg := hinv.min_nonneg
      -- the closed segments get nothing more
      have hclosed : ((List.range R.SS.min_file_nbr.toNat).flatMap fun f : ℕ =>
          bytesWritten f (events t ++ es)) =
            (List.range R.SS.min_file_nbr.toNat).flatMap fun f : ℕ =>
              bytesWritten f (events t) := by
        refine List.flatMap_congr fun f hf => ?_
        have hlt := List.mem_range.mp hf
        rw [bytesWritten_append, hothers f (by omega), List.append_nil]
      have hold : written (events t ++ es) = inOrder R.SS.min_file_nbr (events t ++ es) := by
        rw [written_append, horder, hes, inOrder, inOrder, hclosed, bytesWritten_append,
          List.append_assoc]
      have hnew : ∀ f, R.SS.min_file_nbr < f → bytesWritten f (events t ++ es) = [] := by
        intro f hf
        rw [bytesWritten_append, hlater f hf, hothers f (by omega), List.append_nil]
      have hevents : events (t ++ [⟨R, i, es⟩]) = events t ++ es := by simp
      rw [hevents]
      rcases hstep.min_file_nbr hinv with heq | ⟨heq, -⟩
      · rw [heq]
        exact ⟨hold, hnew⟩
      · have hsucc : (R.SS.min_file_nbr + 1).toNat = R.SS.min_file_nbr.toNat + 1 := by omega
        have hcast : (R.SS.min_file_nbr.toNat : ℤ) = R.SS.min_file_nbr := by omega
        rw [heq]
        refine ⟨?_, fun f hf => hnew f (by omega)⟩
        rw [hold, inOrder, inOrder, hsucc, List.range_succ, List.flatMap_append,
          List.flatMap_singleton, hcast, hnew (R.SS.min_file_nbr + 1) (by omega), List.append_nil]

/-! ## The whole output -/

/-- What arrives of a file was sent of it. -/
theorem emitted_of_run {sender host : Host M} {files : List (List UInt8)}
    (hlen : files.length ≤ 65536) (hsmall : SmallFiles files) {L : SegmentList} {ready_fd : ℤ}
    {R : Receiver M} {t : List (Entry (Receiver M) Input Event)}
    (h : Run (SmoothStep sender files L host) (Receiver.init host ready_fd) t R) {f : ℕ}
    {content : List UInt8} (hf : files[f]? = some content) :
    AllEmitted sender content f (arrivals f t) := by
  intro d hd
  obtain ⟨x, hx, hd⟩ := List.mem_flatMap.mp hd
  obtain ⟨-, -, -, ⟨-, hfrom, -⟩⟩ := h.of_mem hx
  obtain ⟨hrecv, hadm⟩ := List.mem_filter.mp hd
  obtain ⟨htoi, -⟩ := of_decide_eq_true hadm
  unfold Receiver.received at hrecv
  split at hrecv
  · rename_i e htask hpkt
    rcases hfrom htask with herr | ⟨e', hsent, hpkt'⟩
    · rw [hpkt] at herr
      cases herr
    · obtain rfl : e = e' := Recv.packet.inj (hpkt.symm.trans hpkt')
      have hgen := hsent.genuine hlen hsmall
      rw [hgen.cutDatagram_eq] at hrecv
      obtain rfl : d = e := by simpa using hrecv
      obtain ⟨g, content', nExtra, hg, hmem⟩ := hsent
      have hem := xmitFile_sent (hsmall _ (List.mem_of_getElem? hg)) hmem
      have hlt := (List.getElem?_eq_some_iff.mp hg).1
      obtain rfl : g = f := by
        have := hem.toi
        omega
      obtain rfl := Option.some.inj (hg.symm.trans hf)
      exact ⟨nExtra, hem⟩
  · simp at hrecv

/-- The window stays within the playlist. -/
theorem min_le_length {sender host : Host M} {files : List (List UInt8)}
    (hlen : files.length ≤ 65536) (hsmall : SmallFiles files) {L : SegmentList} {ready_fd : ℤ}
    {R : Receiver M} {t : List (Entry (Receiver M) Input Event)}
    (h : Run (PlaylistStep sender files L host) (Receiver.init host ready_fd) t R) :
    R.SS.min_file_nbr ≤ files.length := by
  induction h with
  | nil => exact Int.natCast_nonneg _
  | snoc hrun hstep ih =>
      obtain ⟨hinv, hcar⟩ := carries_of_run hlen hsmall hrun
      rcases hstep.2.min_file_nbr hinv with heq | ⟨heq, -, S, hS, -⟩
      · rw [heq]
        exact ih
      · have hlt := hinv.min_lt hcar (hinv.started_of_lookup hS)
        omega

/-- What has been written of a segment is a part of what a segment of its own would write, and
all of it once the segment is behind the window. -/
theorem History.written {host : Host M} {SS : Segstateset} {f : ℤ} {ds : List Datagram}
    {out : List UInt8} (h : History host SS f ds out) :
    out = [] ∧ SS.min_file_nbr ≤ f ∨
      ∃ whole, LoneOutput host f ds whole ∧ out <+: whole ∧
        (f < SS.min_file_nbr → out = whole) := by
  cases h with
  | ahead hle => exact .inl ⟨rfl, hle⟩
  | gathered hS => exact .inl ⟨rfl, (inWindow_iff.mp (lookup_inWindow hS)).1⟩
  | @drained S file_len offs _ hS hwrites hlone =>
      have hle := (inWindow_iff.mp (lookup_inWindow hS)).1
      refine .inr ⟨_, hlone, ?_, fun hlt => by omega⟩
      rw [← Buffer.take_slice _ _ (Nat.le_of_lt hwrites.offs_lt)]
      exact List.take_prefix ..
  | retired _ hlone => exact .inr ⟨out, hlone, List.prefix_rfl, fun _ => rfl⟩

/-- The output of every file, as far as it is written. -/
theorem restored_of_run {sender host : Host M} (codec : CodecContract host.toRqApi)
    (stale : StaleFree host.toRqApi) (hsame : sender.toRqApi = host.toRqApi)
    {files : List (List UInt8)} (hlen : files.length ≤ 65536) (hsmall : SmallFiles files)
    {L : SegmentList} {ready_fd : ℤ} {R : Receiver M} {t : List (Entry (Receiver M) Input Event)}
    (h : Run (SmoothStep sender files L host) (Receiver.init host ready_fd) t R) (f : ℕ) :
    ∃ out, (∀ content, files[f]? = some content → Restored host f content (arrivals f t) out) ∧
      (f < R.SS.min_file_nbr → bytesWritten f (events t) = out) ∧
      bytesWritten f (events t) <+: out := by
  cases hf : files[f]? with
  | none =>
      refine ⟨bytesWritten f (events t), fun content hc => ?_, fun _ => rfl, List.prefix_rfl⟩
      cases hc
  | some content =>
      have hcontent := hsmall _ (List.mem_of_getElem? hf)
      have hnbr : (0 : ℤ) ≤ f ∧ (f : ℤ) < 65536 := by
        have := (List.getElem?_eq_some_iff.mp hf).1
        omega
      have hem := emitted_of_run hlen hsmall h hf
      have hhist := history_of_run stale rfl
        (h.mono fun _ _ _ _ hs => ⟨hs.1, hs.2.2⟩) hnbr.1
      rcases hhist.written with ⟨hnil, hle⟩ | ⟨whole, hlone, hpart, hall⟩
      · obtain ⟨out, hout, -⟩ := hem.restored codec hsame hcontent hnbr
        refine ⟨out, fun c hc => Option.some.inj hc ▸ hout, fun hlt => by omega, ?_⟩
        rw [hnil]
        exact List.nil_prefix
      · have hout := hem.restored_of_lone codec hsame hcontent hnbr hlone
        exact ⟨whole, fun c hc => Option.some.inj hc ▸ hout, hall, hpart⟩

/-- Everything that has been written, when the closed segments are known. -/
theorem written_eq {L : SegmentList} {host : Host M} {ready_fd : ℤ} {R : Receiver M}
    {t : List (Entry (Receiver M) Input Event)}
    (h : Run (Receiver.Step L host) (Receiver.init host ready_fd) t R) {outs : ℕ → List UInt8}
    (houts : ∀ f : ℕ, f < R.SS.min_file_nbr → bytesWritten f (events t) = outs f) :
    written (events t) = (List.range R.SS.min_file_nbr.toNat).flatMap outs ++
      bytesWritten R.SS.min_file_nbr (events t) := by
  rw [(written_of_run h).1, inOrder]
  congr 1
  refine List.flatMap_congr fun f hf => houts f ?_
  have hlt := List.mem_range.mp hf
  omega

/-- For any losses, any order and any repetitions of the datagrams of a playlist: what the
receiver has written so far are the files that are behind it, in their order, each as its own
datagrams restore it, and a part of the next one, again as its datagrams restore it. -/
theorem stream_integrity {sender host : Host M} (codec : CodecContract host.toRqApi)
    (stale : StaleFree host.toRqApi) (hsame : sender.toRqApi = host.toRqApi)
    {files : List (List UInt8)} (hlen : files.length ≤ 65536) (hsmall : SmallFiles files)
    {L : SegmentList} {ready_fd : ℤ} {R : Receiver M} {t : List (Entry (Receiver M) Input Event)}
    (h : Run (SmoothStep sender files L host) (Receiver.init host ready_fd) t R) :
    R.SS.min_file_nbr.toNat ≤ files.length ∧
      ∃ outs : ℕ → List UInt8,
        (∀ (f : ℕ) content, files[f]? = some content →
          Restored host f content (arrivals f t) (outs f)) ∧
        ∃ part, part <+: outs R.SS.min_file_nbr.toNat ∧
          written (events t) = (List.range R.SS.min_file_nbr.toNat).flatMap outs ++ part := by
  have hplay := h.mono fun _ _ _ _ hs => hs.2
  have hmin := min_le_length hlen hsmall hplay
  have hnonneg := (carries_of_run hlen hsmall hplay).1.min_nonneg
  have hcast : (R.SS.min_file_nbr.toNat : ℤ) = R.SS.min_file_nbr := by omega
  choose outs hrestored hclosed hpart using restored_of_run codec stale hsame hlen hsmall h
  refine ⟨by omega, outs, hrestored, _, hpart R.SS.min_file_nbr.toNat, ?_⟩
  rw [hcast]
  exact written_eq (h.mono fun _ _ _ _ hs => hs.2.2) hclosed

/-- Packets of two files arrive, the deadline passes, and the first file is written. -/
theorem stream_integrity_tiny :
    ∃ (t : List (Entry (Receiver RepetitionMem) Input Event)) (R : Receiver RepetitionMem)
      (out part : List UInt8),
      R.SS.min_file_nbr = 1 ∧ Restored repetitionHost 0 [0] (arrivals 0 t) out ∧
      written (events t) = out ++ part := by
  obtain ⟨t, R, R₁, es₁, hrun, -, -, hstep₁, hctl₁⟩ := tiny_timeout repetitionHost repetitionHost
    (n := 2) (by decide) (L := tinyList 2) (-1) [0, 1] (by decide) (by decide) rfl (by decide)
    (by decide) (by decide) (by decide)
  have hrun₁ := hrun.snoc hstep₁
  have hinv₁ := inv_of_run (hrun₁.mono fun _ _ _ _ hs => hs.2.2)
  have hmin₁ : R₁.SS.min_file_nbr = 0 := congrArg Control.min hctl₁
  have hfd₁ : R₁.out_fd ≠ -1 := of_decide_eq_true (congrArg Control.writing hctl₁)
  obtain ⟨n, R₂, es₂, hstep₂, hctl₂⟩ := hinv₁.exists_finish repetitionHost (L := tinyList 2) hfd₁
    (by rw [hmin₁]; decide)
  rw [hctl₁] at hctl₂
  have hmin₂ : R₂.SS.min_file_nbr = 1 := congrArg Control.min hctl₂
  have hrun₂ := hrun₁.snoc ⟨⟨by simp [writeInput], by simp [writeInput]⟩,
    fromPlaylist_write hfd₁ n, hstep₂⟩
  obtain ⟨-, outs, hrestored, part, -, hwritten⟩ :=
    stream_integrity repetitionContract repetitionStaleFree rfl (by decide) (smallFiles_tiny 2)
      hrun₂
  rw [hmin₂] at hwritten
  exact ⟨_, R₂, outs 0, part, hmin₂, hrestored 0 [0] rfl, by simpa using hwritten⟩

end RqRoute
