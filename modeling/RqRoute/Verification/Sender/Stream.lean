import RqRoute.Verification.Sender.FileSize
import RqRoute.Verification.Sender.Interactive

/-! # The stream of packets

A file is sent in two parts, its source symbols and its repair symbols, and each of them is sent
as a whole or not at all, whatever the codec does. So the headers of everything that a run sends
are known from the files it has begun. -/

namespace RqRoute

open Checked Memory Text Transition Xmit

variable {M : Type}

/-! ## Work between the sending -/

theorem Xmit.bind_of_ok {α β : Type} {x : Xmit α} {a : α} (h : x.result = .ok a)
    (f : α → Xmit β) :
    (x >>= f).sent = x.sent ++ (f a).sent ∧ (x >>= f).result = (f a).result := by
  refine ⟨sent_bind_of_ok h, ?_⟩
  change (Xmit.bind x f).result = _
  rw [Xmit.bind, h]

/-- The computation sends nothing. It gives something with the property `Q`, or it returns false,
which it does only if `p`. -/
structure Silent {α : Type} (p : Prop) (x : Xmit α) (Q : α → Prop) : Prop where
  sent : x.sent = []
  result : (∃ a, x.result = .ok a ∧ Q a) ∨ p ∧ x.result = .error .failed

section
variable {α β : Type} {p : Prop} {Q : α → Prop} {R : β → Prop}

theorem Silent.pure {a : α} (h : Q a) : Silent p (Xmit.pure a) Q := ⟨rfl, .inl ⟨a, rfl, h⟩⟩

theorem Silent.mono {x : Xmit α} {p' : Prop} (hx : Silent p x Q) (hp : p → p') :
    Silent p' x Q :=
  ⟨hx.sent, hx.result.imp_right (And.imp_left hp)⟩

theorem Silent.runNofail {rc : ℤ} {a : α} (hrc : rc < 0 → p) (h : Q a) :
    Silent p (Xmit.runNofail rc a) Q := by
  unfold Xmit.runNofail
  split
  · rename_i hneg
    exact ⟨rfl, .inr ⟨hrc hneg, rfl⟩⟩
  · exact Silent.pure h

/-- Where it gives something it does not count. -/
theorem Silent.bind_eq {x : Xmit α} (hx : Silent p x Q) {a : α} (ha : x.result = .ok a)
    (f : α → Xmit β) : (x >>= f) = f a := by
  obtain ⟨sent, result⟩ := x
  obtain rfl : sent = [] := hx.sent
  obtain rfl : result = .ok a := ha
  rfl

theorem Silent.bind {x : Xmit α} {f : α → Xmit β} (hx : Silent p x Q)
    (hf : ∀ a, Q a → Silent p (f a) R) : Silent p (x >>= f) R := by
  rcases hx.result with ⟨a, ha, hQ⟩ | ⟨hp, hfailed⟩
  · obtain ⟨hsent, hresult⟩ := hf a hQ
    refine ⟨by rw [sent_bind_of_ok ha, hx.sent, hsent]; rfl, ?_⟩
    rcases hresult with ⟨b, hb, hR⟩ | ⟨hp, hfailed⟩
    · exact .inl ⟨b, result_bind_eq_ok.mpr ⟨a, ha, hb⟩, hR⟩
    · refine .inr ⟨hp, ?_⟩
      change (Xmit.bind x f).result = _
      rw [Xmit.bind, ha]
      exact hfailed
  · obtain ⟨hsent, hresult⟩ := sent_bind_of_error (f := f) hfailed
    exact ⟨hsent.trans hx.sent, .inr ⟨hp, hresult⟩⟩

end

/-- Some call of the codec returns an error. -/
inductive RqApi.Refuses (api : RqApi M) : Prop
  | interGetMemSizes {K n : ℤ} (h : (api.interGetMemSizes K n).1 < 0)
  | outGetMemSizes {n : ℤ} (h : (api.outGetMemSizes n).1 < 0)
  | interInit {K n : ℤ} {mem : M} {size : ℕ} (h : (api.interInit K n mem size).1 < 0)
  | interAddIds {mem : M} {id n : ℤ} (h : (api.interAddIds mem id n).1 < 0)
  | interCompile {work prog : M} {size : ℕ} (h : (api.interCompile work prog size).1 < 0)
  | interExecute {prog : M} {T : ℕ} {src out : Bytes} {n k : ℕ}
      (h : (api.interExecute prog T src n out k).1 < 0)
  | outInit {K : ℤ} {mem : M} {size : ℕ} (h : (api.outInit K mem size).1 < 0)
  | outAddIds {mem : M} {id n : ℤ} (h : (api.outAddIds mem id n).1 < 0)
  | outCompile {work prog : M} {size : ℕ} (h : (api.outCompile work prog size).1 < 0)
  | outExecute {prog : M} {T : ℕ} {src out : Bytes} {n : ℕ}
      (h : (api.outExecute prog T src out n).1 < 0)

section
variable (host : Host M) (sizes : XmitSizes) (P : CodingParams) (nExtra : ℤ)

theorem silent_xmitSizes :
    Silent (0 < nExtra ∧ host.Refuses) (xmitSizes host P nExtra) fun _ => True := by
  unfold xmitSizes
  split
  · rename_i hpos
    refine Silent.bind (Q := fun _ => True) ?_ fun _ _ => ?_
    · exact .runNofail (fun h => ⟨hpos, .interGetMemSizes h⟩) trivial
    · refine Silent.bind (Q := fun _ => True) ?_ fun _ _ => .pure trivial
      exact .runNofail (fun h => ⟨hpos, .outGetMemSizes h⟩) trivial
  · exact .pure trivial

/-- The source block stays as it is. -/
theorem silent_repairPrograms (K : ℕ) (m : XmitMem M) :
    Silent host.Refuses (repairPrograms host sizes K nExtra m)
      fun m' => m'.srcBlock.size = m.srcBlock.size := by
  let Q : XmitMem M → Prop := fun m' => m'.srcBlock.size = m.srcBlock.size
  unfold repairPrograms
  refine Silent.bind (Q := Q) (.runNofail .interInit rfl) fun m₁ h₁ => ?_
  refine Silent.bind (Q := Q) (.runNofail .interAddIds h₁) fun m₂ h₂ => ?_
  refine Silent.bind (Q := Q) (.runNofail .interCompile h₂) fun m₃ h₃ => ?_
  refine Silent.bind (Q := Q) (.runNofail .outInit h₃) fun m₄ h₄ => ?_
  refine Silent.bind (Q := Q) (.runNofail .outAddIds h₄) fun m₅ h₅ => ?_
  exact .runNofail .outCompile h₅

theorem silent_repairSymbols (m : XmitMem M) :
    Silent host.Refuses (repairSymbols host sizes P m)
      fun m' => m'.srcBlock.size = m.srcBlock.size := by
  let Q : XmitMem M → Prop := fun m' => m'.srcBlock.size = m.srcBlock.size
  unfold repairSymbols
  refine Silent.bind (Q := Q) (.runNofail .interExecute rfl) fun m₁ h₁ => ?_
  exact .runNofail .outExecute h₁

end

/-! ## One file -/

/-- The headers of the first `n` symbols of a file. -/
def symbolHeaders (ens_id : UInt16) (fsiz file_nbr : ℤ) (n : ℕ) : List RouteHeader :=
  (List.range n).map fun j =>
    { ens_id
      toi := UInt16.ofNat (file_nbr % 65536).toNat
      payload_id := UInt32.ofNat (j * 1024)
      tos := UInt32.ofNat fsiz.toNat }

def sourceHeaders (fsiz file_nbr : ℤ) : List RouteHeader :=
  symbolHeaders routeEnsIdSource fsiz file_nbr (symbolCount fsiz).toNat

def repairHeaders (fsiz file_nbr nExtra : ℤ) : List RouteHeader :=
  symbolHeaders routeEnsIdRepair fsiz file_nbr nExtra.toNat

def headers (ds : List Datagram) : List RouteHeader := ds.map Datagram.header

@[simp] theorem headers_append (ds ds' : List Datagram) :
    headers (ds ++ ds') = headers ds ++ headers ds' := List.map_append

/-- Symbols that lie in the source block are sent. -/
theorem forM_xmitSymbol (ens_id : UInt16) (K fsiz file_nbr : ℤ) {n : ℕ} {b : Buffer UInt8}
    {size : ℕ → ℕ} (hsize : ∀ j, size j ≤ 1024) (hn : 1024 * n ≤ b.size) :
    headers ((List.range n).forM fun j =>
        xmitSymbol (xmitHeader ens_id (oneBlock K) fsiz file_nbr j) 1024 b j (size j)).sent =
        symbolHeaders ens_id fsiz file_nbr n ∧
      ((List.range n).forM fun j =>
        xmitSymbol (xmitHeader ens_id (oneBlock K) fsiz file_nbr j) 1024 b j (size j)).result =
        .ok () := by
  have hsend : ∀ j ∈ List.range n,
      xmitSymbol (xmitHeader ens_id (oneBlock K) fsiz file_nbr j) 1024 b j (size j) =
        send { header := xmitHeader ens_id (oneBlock K) fsiz file_nbr j
               payload := b.slice (1024 * j) (size j) } := by
    intro j hj
    have hlt := List.mem_range.mp hj
    have hle := hsize j
    exact xmitSymbol_eq (hle.trans (by decide)) (by omega)
  obtain ⟨hsent, hresult⟩ := forM_send _ hsend
  refine ⟨?_, hresult⟩
  rw [hsent, headers, List.map_map]
  rfl

/-- Two parts, of which the second is missing only if `p`. -/
inductive Parts {α : Type} (p : Prop) (source repair : List RouteHeader) (x : Xmit α) : Prop
  | whole {a : α} (hsent : headers x.sent = source ++ repair) (hresult : x.result = .ok a)
  | cut (hp : p) (hsent : headers x.sent = source) (hresult : x.result = .error .failed)

section
variable {α β : Type} {p : Prop} {source repair : List RouteHeader}

/-- What is sent before belongs to the first part. -/
theorem Parts.bind {x : Xmit α} {f : α → Xmit β} {a : α} (hx : x.result = .ok a)
    (h : Parts p source repair (f a)) : Parts p (headers x.sent ++ source) repair (x >>= f) := by
  obtain ⟨hsent, hresult⟩ := bind_of_ok hx f
  cases h with
  | whole hsent' hresult' =>
      refine .whole ?_ (hresult.trans hresult')
      rw [hsent, headers_append, hsent', List.append_assoc]
  | cut hp hsent' hresult' =>
      refine .cut hp ?_ (hresult.trans hresult')
      rw [hsent, headers_append, hsent']

/-- Silent work stands between the two. -/
theorem Parts.of_silent {x : Xmit α} {f : α → Xmit β} {Q : α → Prop} (hx : Silent p x Q)
    (h : ∀ a, Q a → Parts p [] repair (f a)) : Parts p [] repair (x >>= f) := by
  rcases hx.result with ⟨a, ha, hQ⟩ | ⟨hp, hfailed⟩
  · have hnext := (h a hQ).bind ha
    rwa [hx.sent] at hnext
  · obtain ⟨hsent, hresult⟩ := sent_bind_of_error (f := f) hfailed
    exact .cut hp (by rw [hsent, hx.sent]; rfl) hresult

theorem Parts.map {x : Xmit α} (g : α → β) (h : Parts p source repair x) :
    Parts p source repair (x >>= fun a => Pure.pure (g a)) := by
  cases h with
  | whole hsent hresult => exact .whole (by rwa [sent_bind_pure]) (bind_of_ok hresult _).2
  | cut hp hsent hresult => exact .cut hp (by rwa [sent_bind_pure]) (sent_bind_of_error hresult).2

end

/-- A code block that was read: its source symbols, and unless the codec refuses, all repair
symbols. -/
theorem xmitBlock_parts (host : Host M) (sizes : XmitSizes) {K : ℕ} (fsiz file_nbr nExtra : ℤ)
    {m m₀ : XmitMem M} {sz_read : ℕ} (hread : readBlock (oneBlock K) K 0 m = .ok (sz_read, m₀))
    (hK : 1024 * K ≤ m₀.srcBlock.size) (hextra : 1024 * nExtra.toNat ≤ m₀.srcBlock.size) :
    Parts (0 < nExtra ∧ host.Refuses) (symbolHeaders routeEnsIdSource fsiz file_nbr K)
      (repairHeaders fsiz file_nbr nExtra)
      (xmitBlock host sizes (oneBlock K) fsiz file_nbr nExtra m 0) := by
  have hK' : ((oneBlock K).K_large - if ((0 : ℕ) : ℤ) ≥ (oneBlock K).n_large then 1 else 0).toNat =
      K := by
    simp [oneBlock]
  have hT : (oneBlock K).T.toNat = 1024 := rfl
  obtain ⟨hsource, hsent⟩ := forM_xmitSymbol routeEnsIdSource K fsiz file_nbr
    (fun j => sourcePayloadSize_le 1024 sz_read j) hK
  have hrepair : ∀ m' : XmitMem M, m'.srcBlock.size = m₀.srcBlock.size →
      Parts (0 < nExtra ∧ host.Refuses) [] (repairHeaders fsiz file_nbr nExtra)
        ((List.range nExtra.toNat).forM (fun j =>
          xmitSymbol (xmitHeader routeEnsIdRepair (oneBlock K) fsiz file_nbr j) 1024
            m'.srcBlock j 1024) >>= fun _ => pure m') := by
    intro m' hm'
    obtain ⟨hsent', hresult'⟩ := forM_xmitSymbol routeEnsIdRepair K fsiz file_nbr
      (fun _ => le_refl 1024) (hextra.trans_eq hm'.symm)
    refine .whole ?_ (bind_of_ok hresult' _).2
    rw [sent_bind_pure, hsent']
    rfl
  simp only [xmitBlock, hK', hT]
  rw [← List.nil_append (symbolHeaders _ _ _ _), ← hsource, ← List.append_nil (headers _)]
  refine Parts.bind (result_lift_eq_ok.mpr hread) ?_
  refine Parts.bind hsent ?_
  by_cases hpos : nExtra > 0
  · rw [if_pos hpos, if_pos (.inl trivial)]
    refine Parts.of_silent ((silent_repairPrograms ..).mono (.intro hpos)) fun m₁ h₁ => ?_
    refine Parts.of_silent ((silent_repairSymbols ..).mono (.intro hpos)) fun m₂ h₂ => ?_
    exact hrepair m₂ (h₂.trans h₁)
  · rw [if_neg hpos]
    refine .whole ?_ (result_pure _)
    rw [repairHeaders, Int.toNat_of_nonpos (not_lt.mp hpos)]
    rfl

/-- What can keep a file from being sent as a whole: its size, more repair symbols than fit into
memory that an `int` can measure, or the codec. -/
def CutsShort (host : Host M) (fsiz nExtra : ℤ) : Prop :=
  ¬(1 ≤ fsiz ∧ fsiz ≤ maxFileSize) ∨ 2 ^ 21 ≤ nExtra ∨ 0 < nExtra ∧ host.Refuses

structure SendsFile (host : Host M) (fsiz file_nbr nExtra : ℤ) (x : Xmit Unit) : Prop where
  whole : x.result = .ok () → (1 ≤ fsiz ∧ fsiz ≤ maxFileSize) ∧ nExtra < 2 ^ 21 ∧
    headers x.sent = sourceHeaders fsiz file_nbr ++ repairHeaders fsiz file_nbr nExtra
  cut : x.result ≠ .ok () → CutsShort host fsiz nExtra ∧
    (headers x.sent = [] ∨ headers x.sent = sourceHeaders fsiz file_nbr)

/-- Nothing is sent before the sizes are known to be right. -/
theorem SendsFile.of_error {host : Host M} {fsiz file_nbr nExtra : ℤ} {x : Xmit Unit} {e : Stop}
    (hwhy : CutsShort host fsiz nExtra) (hsent : x.sent = []) (hresult : x.result = .error e) :
    SendsFile host fsiz file_nbr nExtra x where
  whole hok := by
    rw [hresult] at hok
    cases hok
  cut _ := ⟨hwhy, .inl (by rw [hsent]; rfl)⟩

theorem SendsFile.of_parts {host : Host M} {fsiz file_nbr nExtra : ℤ} {x : Xmit Unit}
    (hfsiz : 1 ≤ fsiz ∧ fsiz ≤ maxFileSize) (hfew : nExtra < 2 ^ 21)
    (h : Parts (0 < nExtra ∧ host.Refuses) (sourceHeaders fsiz file_nbr)
      (repairHeaders fsiz file_nbr nExtra) x) : SendsFile host fsiz file_nbr nExtra x where
  whole hok := by
    cases h with
    | whole hsent => exact ⟨hfsiz, hfew, hsent⟩
    | cut _ _ hresult =>
        rw [hresult] at hok
        cases hok
  cut hno := by
    cases h with
    | whole _ hresult => exact absurd hresult hno
    | cut hp hsent => exact ⟨.inr (.inr hp), .inr hsent⟩

section
variable {content : List UInt8} {fsiz : ℤ}

/-- A file whose size is that of one code block can be read whole. -/
theorem exists_readBlock (hlen : toInt content.length = fsiz)
    (hfsiz : 1 ≤ fsiz ∧ fsiz ≤ maxFileSize) {K : ℕ} (hK : K = symbolCount fsiz) {m : XmitMem M}
    (hsize : K * 1024 ≤ m.srcBlock.size) (hrest : m.rest = content) :
    ∃ sz_read m₀, readBlock (oneBlock K) K 0 m = .ok (sz_read, m₀) ∧
      m₀.srcBlock.size = m.srcBlock.size := by
  subst hlen
  by_cases hlong : content.length < 2 ^ 32
  · have hsmall := (toInt_small_iff hlong).mp hfsiz
    obtain rfl : K = segSymbols content.length := by
      rw [hsmall.toInt_eq, ← hsmall.symbols.1] at hK
      exact_mod_cast hK
    obtain ⟨m₀, hread, -, hsize₀, -⟩ := readBlock_eq hsmall hsize hrest
    exact ⟨_, m₀, hread, hsize₀⟩
  · obtain ⟨-, hle, -, -⟩ := symbolCount_bounds hfsiz.1 hfsiz.2
    obtain ⟨m₀, hread, hsize₀⟩ := readBlock_of_le hsize (by rw [hrest]; omega)
    exact ⟨_, m₀, hread, hsize₀⟩

/-- The one code block of such a file. -/
theorem xmitBlock_parts_of_size (host : Host M) (sizes : XmitSizes)
    (hlen : toInt content.length = fsiz) (hfsiz : 1 ≤ fsiz ∧ fsiz ≤ maxFileSize)
    (file_nbr nExtra : ℤ) {m : XmitMem M}
    (hsize : m.srcBlock.size = (1024 * max (symbolCount fsiz) nExtra).toNat)
    (hrest : m.rest = content) :
    Parts (0 < nExtra ∧ host.Refuses) (sourceHeaders fsiz file_nbr)
      (repairHeaders fsiz file_nbr nExtra)
      (xmitBlock host sizes (oneBlock (symbolCount fsiz)) fsiz file_nbr nExtra m 0) := by
  obtain ⟨hlow, -, -, -⟩ := symbolCount_bounds hfsiz.1 hfsiz.2
  obtain ⟨K, hK⟩ := Int.eq_ofNat_of_zero_le (by omega : 0 ≤ symbolCount fsiz)
  rw [hK] at hsize
  obtain ⟨sz_read, m₀, hread, hsize₀⟩ := exists_readBlock hlen hfsiz hK.symm
    (by rw [hsize]; omega) hrest
  rw [sourceHeaders, hK, Int.toNat_natCast]
  refine xmitBlock_parts host sizes _ file_nbr nExtra hread ?_ ?_
  · rw [hsize₀, hsize]
    omega
  · rw [hsize₀, hsize]
    omega

theorem sendsFile_of_size (host : Host M) (hlen : toInt content.length = fsiz)
    (hfsiz : 1 ≤ fsiz ∧ fsiz ≤ maxFileSize) (file_nbr nExtra : ℤ) :
    SendsFile host fsiz file_nbr nExtra (xmitContent host content fsiz file_nbr nExtra) := by
  obtain ⟨hlow, hhigh, -, -⟩ := symbolCount_bounds hfsiz.1 hfsiz.2
  rw [xmitContent, paramDeriv_of_small hfsiz.1 hfsiz.2, lift_ok_bind]
  have hsizes := silent_xmitSizes host (oneBlock (symbolCount fsiz)) nExtra
  rcases hsizes.result with ⟨sizes, hok, -⟩ | ⟨hp, hfailed⟩
  · rw [hsizes.bind_eq hok]
    have hfits : FitsInt (1024 * max (symbolCount fsiz) nExtra) ↔ nExtra < 2 ^ 21 := by
      unfold FitsInt
      omega
    by_cases hfew : nExtra < 2 ^ 21
    · have hchecked : check (FitsInt (1024 * max (symbolCount fsiz) nExtra)) Fault.intOverflow =
          .ok () := check_eq_ok.mpr (hfits.mpr hfew)
      refine SendsFile.of_parts hfsiz hfew ?_
      change Parts _ _ _ (Xmit.lift (check (FitsInt (1024 * max (symbolCount fsiz) nExtra)) _) >>=
        fun _ => (xmitBlock host sizes _ _ _ _ _ 0 >>= fun m => pure m) >>= fun _ => pure ())
      rw [hchecked, lift_ok_bind]
      exact Parts.map _ (Parts.map id
        (xmitBlock_parts_of_size host sizes hlen hfsiz file_nbr nExtra rfl rfl))
    · have hstop : (Xmit.lift (check (FitsInt (1024 * max (symbolCount fsiz) nExtra))
          Fault.intOverflow)).result = .error (.fault .intOverflow) := by
        rw [check, if_neg (hfits.not.mpr hfew)]
        rfl
      obtain ⟨hsent, hresult⟩ := sent_bind_of_error (f := fun _ => _) hstop
      exact .of_error (.inr (.inl (not_lt.mp hfew))) hsent hresult
  · obtain ⟨hsent, hresult⟩ := sent_bind_of_error (f := fun _ => _) hfailed
    exact .of_error (.inr (.inr hp)) (hsent.trans hsizes.sent) hresult

end

/-- A file is sent as a whole, or cut short for one of the reasons. -/
theorem sendsFile (host : Host M) (file : Option (List UInt8)) (file_nbr nExtra : ℤ) :
    SendsFile host (getFileSize file) file_nbr nExtra (xmitFile host file file_nbr nExtra) := by
  rw [xmitFile]
  generalize hfsiz : getFileSize file = fsiz
  by_cases hneg : fsiz < 0
  · rw [if_pos hneg]
    exact .of_error (.inl (by omega)) rfl rfl
  · rw [if_neg hneg]
    by_cases hzero : fsiz = 0
    · rw [if_pos hzero]
      exact .of_error (.inl (by omega)) rfl rfl
    · rw [if_neg hzero]
      cases file with
      | none =>
          rw [getFileSize] at hfsiz
          omega
      | some content =>
          rw [getFileSize] at hfsiz
          by_cases hsize : 1 ≤ fsiz ∧ fsiz ≤ maxFileSize
          · exact sendsFile_of_size host hfsiz hsize file_nbr nExtra
          · have hfits : FitsInt fsiz := hfsiz ▸ fitsInt_toInt _
            have hstop : (Xmit.lift (paramDeriv fsiz)).result =
                .error (.fault .paramDerivBlocks) := by
              rw [paramDeriv_of_not_small hfits hsize]
              rfl
            obtain ⟨hsent, hresult⟩ := sent_bind_of_error (f := fun _ => _) hstop
            exact .of_error (.inl hsize) hsent hresult

/-! ## Runs of the sender -/

variable {host : Host M} {files : Str → Option (List UInt8)} {strtod : Str → ℚ}
  {mul : ℚ → ℚ → ℚ} {t : List SendEntry} {s s' : SendLoop} {i : SendInput} {es : List SendEvent}

/-- The files that were begun: the size found, and the number of repair symbols wanted. -/
def begun (mul : ℚ → ℚ → ℚ) (files : Str → Option (List UInt8)) (t : List SendEntry) :
    List (ℤ × ℤ) :=
  t.filterMap fun x =>
    match x.input with
    | .file e _ => some (getFileSize (files (stringAt e.buf 0)), x.before.nExtra mul files e)
    | .listed | .due _ | .idle _ | .console _ _ => none

/-- Only the last 16 bits of a file number are in the headers. -/
theorem symbolHeaders_congr {file_nbr file_nbr' : ℤ} (h : file_nbr % 65536 = file_nbr' % 65536)
    (ens_id : UInt16) (fsiz : ℤ) (n : ℕ) :
    symbolHeaders ens_id fsiz file_nbr n = symbolHeaders ens_id fsiz file_nbr' n := by
  rw [symbolHeaders, h]
  rfl

theorem SendsFile.congr {fsiz nExtra file_nbr file_nbr' : ℤ} {x : Xmit Unit}
    (hx : SendsFile host fsiz file_nbr nExtra x) (h : file_nbr % 65536 = file_nbr' % 65536) :
    SendsFile host fsiz file_nbr' nExtra x := by
  have hsource : sourceHeaders fsiz file_nbr = sourceHeaders fsiz file_nbr' :=
    symbolHeaders_congr h ..
  have hrepair : repairHeaders fsiz file_nbr nExtra = repairHeaders fsiz file_nbr' nExtra :=
    symbolHeaders_congr h ..
  refine ⟨fun hok => ?_, fun hno => ?_⟩
  · rw [← hsource, ← hrepair]
    exact hx.whole hok
  · rw [← hsource]
    exact hx.cut hno

/-- The headers of a file that is sent whole. -/
def fileHeaders (file_nbr : ℕ) (file : ℤ × ℤ) : List RouteHeader :=
  sourceHeaders file.1 file_nbr ++ repairHeaders file.1 file_nbr file.2

/-- And of one file after the other. -/
def streamHeaders (begun : List (ℤ × ℤ)) : List RouteHeader :=
  begun.zipIdx.flatMap fun x => fileHeaders x.2 x.1

example : (streamHeaders [(1025, 1), (1, 0)]).map (fun h => (h.ens_id, h.toi, h.payload_id)) =
    [(routeEnsIdSource, 0, 0), (routeEnsIdSource, 0, 1024), (routeEnsIdRepair, 0, 0),
      (routeEnsIdSource, 1, 0)] := by decide

theorem streamHeaders_snoc (fs : List (ℤ × ℤ)) (f : ℤ × ℤ) :
    streamHeaders (fs ++ [f]) = streamHeaders fs ++ fileHeaders fs.length f := by
  simp [streamHeaders, List.zipIdx_append]

/-- The size and the repair symbols of a file that was sent whole. -/
def Sendable (file : ℤ × ℤ) : Prop := (1 ≤ file.1 ∧ file.1 ≤ maxFileSize) ∧ file.2 < 2 ^ 21

/-- The headers so far are those of the files begun. -/
structure SendLoop.Streams (host : Host M) (mul : ℚ → ℚ → ℚ) (files : Str → Option (List UInt8))
    (t : List SendEntry) (s : SendLoop) : Prop where
  nbr : s.phase = .ready → s.file_nbr % 65536 = (begun mul files t).length % 65536
  next : s.phase = .waiting → (s.file_nbr + 1) % 65536 = (begun mul files t).length % 65536
  going : s.phase ≠ .stopped false → (∀ f ∈ begun mul files t, Sendable f) ∧
    headers (offered t) = streamHeaders (begun mul files t)
  cut : s.phase = .stopped false → ∃ fs f, begun mul files t = fs ++ [f] ∧
    (∀ f ∈ fs, Sendable f) ∧ CutsShort host f.1 f.2 ∧
      (headers (offered t) = streamHeaders fs ∨
        headers (offered t) = streamHeaders fs ++ sourceHeaders f.1 fs.length)

/-- A step that sends nothing. -/
theorem SendLoop.Streams.pause (h : s.Streams host mul files t)
    (hbegun : begun mul files [⟨s, i, es⟩] = []) (hoffered : i.offered = [])
    (hphase : s.phase ≠ .stopped false) (hphase' : s'.phase ≠ .stopped false)
    (hnbr : s'.phase = .ready → s'.file_nbr % 65536 = (begun mul files t).length % 65536)
    (hnext : s'.phase = .waiting →
      (s'.file_nbr + 1) % 65536 = (begun mul files t).length % 65536) :
    s'.Streams host mul files (t ++ [⟨s, i, es⟩]) := by
  have hsame : begun mul files (t ++ [⟨s, i, es⟩]) = begun mul files t := by
    rw [begun, List.filterMap_append]
    exact (congrArg _ hbegun).trans (List.append_nil _)
  refine ⟨?_, ?_, fun _ => ?_, fun hcut => absurd hcut hphase'⟩
  · rwa [hsame]
  · rwa [hsame]
  · rw [hsame, offered_snoc, hoffered, List.append_nil]
    exact h.going hphase

/-- What the next file adds to the stream, whether it is sent whole or not. -/
theorem SendLoop.Streams.transmits (h : s.Streams host mul files t)
    {e : InMemory.NextEnt}
    {calls : List (UdpCall Datagram)} {net : UdpState} {ues : List (UdpEvent Datagram)}
    (es : List SendEvent) (hphase : s.phase = .ready)
    (hsends : Transmits s.net (s.xmit host mul files e).sent calls net ues) :
    ∃ f, begun mul files (t ++ [⟨s, .file e calls, es⟩]) = begun mul files t ++ [f] ∧
      headers (offered (t ++ [⟨s, .file e calls, es⟩])) =
        streamHeaders (begun mul files t) ++ headers (s.xmit host mul files e).sent ∧
      SendsFile host f.1 (begun mul files t).length f.2 (s.xmit host mul files e) := by
  refine ⟨(getFileSize (files (stringAt e.buf 0)), s.nExtra mul files e),
    List.filterMap_append, ?_, (sendsFile host _ s.file_nbr _).congr (h.nbr hphase)⟩
  rw [offered_snoc, headers_append, (h.going (by simp [hphase])).2, SendInput.offered,
    hsends.wire.1]

theorem SendLoop.Streams.step (h : s.Streams host mul files t)
    (hs : SendLoop.Step host files strtod mul s i s' es) :
    s'.Streams host mul files (t ++ [⟨s, i, es⟩]) := by
  cases hs with
  | @file e calls net es hphase hent hfound hint hsends hok =>
      obtain ⟨f, hbegun, hheaders, hfile⟩ := h.transmits (es.map .udp) hphase hsends
      obtain ⟨hsize, hfew, hwhole⟩ := hfile.whole hok
      have hnbr : s.file_nbr % 65536 = (begun mul files t).length % 65536 := h.nbr hphase
      refine ⟨nofun, fun _ => ?_, fun _ => ⟨?_, ?_⟩, nofun⟩
      · change (s.file_nbr + 1) % 65536 = _
        rw [hbegun, List.length_append, List.length_singleton]
        omega
      · rw [hbegun]
        intro g hg
        rcases List.mem_append.mp hg with hold | hnew
        · exact (h.going (by simp [hphase])).1 g hold
        · obtain rfl := List.mem_singleton.mp hnew
          exact ⟨hsize, hfew⟩
      · rw [hbegun, hheaders, streamHeaders_snoc, hwhole]
        rfl
  | @fails e calls net es hphase hent hfound hint hsends hfails =>
      obtain ⟨f, hbegun, hheaders, hfile⟩ := h.transmits (es.map .udp) hphase hsends
      obtain ⟨hwhy, hsent⟩ := hfile.cut hfails
      refine ⟨nofun, nofun, fun hno => absurd rfl hno, fun _ => ?_⟩
      refine ⟨_, f, hbegun, (h.going (by simp [hphase])).1, hwhy, ?_⟩
      rw [hheaders]
      rcases hsent with hnone | hsource
      · exact .inl (by rw [hnone, List.append_nil])
      · exact .inr (by rw [hsource])
  | listed hphase => exact h.pause rfl rfl (by simp [hphase]) (by simp) (by simp) (by simp)
  | due hphase =>
      refine h.pause rfl rfl (by simp [hphase]) (by simp) (fun _ => ?_) (by simp)
      have hnext := h.next hphase
      change toInt (s.file_nbr + 1) % 65536 = _
      unfold toInt
      omega
  | idle hphase =>
      exact h.pause rfl rfl (by simp [hphase]) (by simp [hphase]) (by simp [hphase])
        fun _ => h.next hphase
  | @console t1 calls c cs clock hphase =>
      refine h.pause rfl rfl (by simp [hphase]) ?_ ?_ fun _ => h.next hphase
      · dsimp only
        split <;> simp
      · dsimp only
        split <;> simp

end RqRoute
