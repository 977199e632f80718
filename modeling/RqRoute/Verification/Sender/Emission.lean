import RqRoute.Library.Chunks
import RqRoute.Model.Receiver
import RqRoute.Model.Sender
import RqRoute.Verification.Segstate.Receive

/-! # What a transmission sends

Every datagram of `xmit_file`: its header, and where its payload comes from. -/

namespace RqRoute

open Checked Memory Chunks

variable {M : Type}

/-! ## Computations that send -/

namespace Xmit

variable {α β : Type}

theorem lift_ok_bind (a : α) (f : α → Xmit β) : (lift (.ok a) >>= f) = f a := rfl

theorem mem_sent_bind {x : Xmit α} {f : α → Xmit β} {d : Datagram} :
    d ∈ (x >>= f).sent ↔ d ∈ x.sent ∨ ∃ a, x.result = .ok a ∧ d ∈ (f a).sent := by
  change d ∈ (Xmit.bind x f).sent ↔ _
  cases hx : x.result with
  | error e => simp [Xmit.bind, hx]
  | ok a => simp [Xmit.bind, hx]

theorem result_bind_eq_ok {x : Xmit α} {f : α → Xmit β} {b : β} :
    (x >>= f).result = .ok b ↔ ∃ a, x.result = .ok a ∧ (f a).result = .ok b := by
  change (Xmit.bind x f).result = _ ↔ _
  cases hx : x.result with
  | error e => simp [Xmit.bind, hx]
  | ok a => simp [Xmit.bind, hx]

theorem sent_bind_of_ok {x : Xmit α} {f : α → Xmit β} {a : α} (h : x.result = .ok a) :
    (x >>= f).sent = x.sent ++ (f a).sent := by
  change (Xmit.bind x f).sent = _
  rw [Xmit.bind, h]

theorem sent_bind_of_error {x : Xmit α} {f : α → Xmit β} {e : Stop} (h : x.result = .error e) :
    (x >>= f).sent = x.sent ∧ (x >>= f).result = .error e := by
  change (Xmit.bind x f).sent = _ ∧ (Xmit.bind x f).result = _
  rw [Xmit.bind, h]
  exact ⟨rfl, rfl⟩

theorem bind_of_error {x : Xmit α} {e : Stop} (h : x.result = .error e) (f : α → Xmit α) :
    (x >>= f) = x := by
  change Xmit.bind x f = x
  cases x
  simp_all [Xmit.bind]

@[simp] theorem sent_pure (a : α) : (pure a : Xmit α).sent = [] := rfl

@[simp] theorem result_pure (a : α) : (pure a : Xmit α).result = .ok a := rfl

@[simp] theorem sent_failed : (failed : Xmit α).sent = [] := rfl

@[simp] theorem sent_lift (x : Except Fault α) : (lift x).sent = [] := rfl

@[simp] theorem result_lift_eq_ok {x : Except Fault α} {a : α} :
    (lift x).result = .ok a ↔ x = .ok a := by
  cases x <;> simp [lift, Except.mapError]

@[simp] theorem sent_runNofail (rc : ℤ) (a : α) : (runNofail rc a).sent = [] := by
  unfold runNofail
  split <;> rfl

@[simp] theorem result_runNofail_eq_ok {rc : ℤ} {a b : α} :
    (runNofail rc a).result = .ok b ↔ 0 ≤ rc ∧ a = b := by
  unfold runNofail
  split
  · rename_i hneg
    simp [failed, Int.not_le.mpr hneg]
  · rename_i hpos
    simp [Xmit.pure, Int.not_lt.mp hpos]

/-- What a loop sends, its rounds send. -/
theorem of_mem_sent_forM {γ : Type} {xs : List γ} {f : γ → Xmit Unit} {d : Datagram}
    (h : d ∈ (xs.forM f).sent) : ∃ x ∈ xs, d ∈ (f x).sent := by
  induction xs with
  | nil => simp at h
  | cons x xs ih =>
      change d ∈ (f x >>= fun _ => xs.forM f).sent at h
      rw [mem_sent_bind] at h
      rcases h with h | ⟨_, -, h⟩
      · exact ⟨x, List.mem_cons_self, h⟩
      · obtain ⟨y, hy, hd⟩ := ih h
        exact ⟨y, List.mem_cons_of_mem _ hy, hd⟩

@[simp] theorem sent_bind_pure (x : Xmit α) (g : α → β) :
    (x >>= fun a => pure (g a)).sent = x.sent := by
  cases h : x.result with
  | ok a => rw [sent_bind_of_ok h, sent_pure, List.append_nil]
  | error e => rw [(sent_bind_of_error h).1]

/-- A loop whose rounds send one datagram each. -/
theorem forM_send {γ : Type} {xs : List γ} {f : γ → Xmit Unit} (g : γ → Datagram)
    (h : ∀ x ∈ xs, f x = send (g x)) :
    (xs.forM f).sent = xs.map g ∧ (xs.forM f).result = .ok () := by
  induction xs with
  | nil => exact ⟨rfl, rfl⟩
  | cons x xs ih =>
      obtain ⟨hsent, hresult⟩ := ih fun y hy => h y (List.mem_cons_of_mem _ hy)
      have hx := h x List.mem_cons_self
      change (f x >>= fun _ => xs.forM f).sent = _ ∧ (f x >>= fun _ => xs.forM f).result = _
      rw [hx, sent_bind_of_ok rfl, hsent, result_bind_eq_ok]
      exact ⟨rfl, (), rfl, hresult⟩

/-- A loop runs to its end when its rounds do. -/
theorem result_forM_eq_ok {γ : Type} {xs : List γ} {f : γ → Xmit Unit} :
    (xs.forM f).result = .ok () ↔ ∀ x ∈ xs, (f x).result = .ok () := by
  induction xs with
  | nil => exact iff_of_true rfl fun x hx => absurd hx List.not_mem_nil
  | cons x xs ih =>
      change (f x >>= fun _ => xs.forM f).result = _ ↔ _
      rw [result_bind_eq_ok, List.forall_mem_cons, ih]
      exact ⟨fun ⟨_, hx, hxs⟩ => ⟨hx, hxs⟩, fun ⟨hx, hxs⟩ => ⟨(), hx, hxs⟩⟩

/-- And then it sends what they send. -/
theorem sent_forM {γ : Type} {xs : List γ} {f : γ → Xmit Unit}
    (h : ∀ x ∈ xs, (f x).result = .ok ()) : (xs.forM f).sent = xs.flatMap fun x => (f x).sent := by
  induction xs with
  | nil => rfl
  | cons x xs ih =>
      obtain ⟨hx, hxs⟩ := List.forall_mem_cons.mp h
      change (f x >>= fun _ => xs.forM f).sent = _
      rw [sent_bind_of_ok hx, ih hxs, List.flatMap_cons]

/-- In any case it sends a beginning of that. -/
theorem sent_forM_le {γ : Type} (xs : List γ) (f : γ → Xmit Unit) :
    (xs.forM f).sent <+: xs.flatMap fun x => (f x).sent := by
  induction xs with
  | nil => exact List.prefix_refl _
  | cons x xs ih =>
      change (f x >>= fun _ => xs.forM f).sent <+: _
      rw [List.flatMap_cons]
      cases hx : (f x).result with
      | ok a =>
          rw [sent_bind_of_ok hx]
          exact (List.prefix_append_right_inj _).mpr ih
      | error e =>
          rw [(sent_bind_of_error hx).1]
          exact List.prefix_append _ _

end Xmit

open Xmit

/-! ## Headers -/

theorem toi_xmitHeader (ens_id : UInt16) (P : CodingParams) (fsiz file_nbr : ℤ) (j : ℕ) :
    ((xmitHeader ens_id P fsiz file_nbr j).toi.toNat : ℤ) = file_nbr % 65536 := by
  simp only [xmitHeader, UInt16.toNat_ofNat']
  omega

theorem tos_xmitHeader (ens_id : UInt16) (P : CodingParams) (file_nbr : ℤ) (j : ℕ)
    {file_len : ℕ} (h : file_len < 2 ^ 32) :
    (xmitHeader ens_id P file_len file_nbr j).tos.toNat = file_len := by
  simp only [xmitHeader, UInt32.toNat_ofNat', Int.toNat_natCast]
  omega

theorem payload_id_xmitHeader (ens_id : UInt16) (K : ℤ) (fsiz file_nbr : ℤ) {j : ℕ}
    (h : j * 1024 < 2 ^ 32) :
    (xmitHeader ens_id (oneBlock K) fsiz file_nbr j).payload_id.toNat / 1024 = j := by
  have hT : (oneBlock K).T.toNat = 1024 := rfl
  simp only [xmitHeader, UInt32.toNat_ofNat', hT]
  omega

theorem symbId_source {K j : ℕ} (hK : K ≤ 50000) (hj : j * 1024 < 2 ^ 32) (fsiz file_nbr : ℤ) :
    symbId (oneBlock K) (xmitHeader routeEnsIdSource (oneBlock K) fsiz file_nbr j) = j := by
  have hens : (xmitHeader routeEnsIdSource (oneBlock K) fsiz file_nbr j).ens_id =
      routeEnsIdSource := rfl
  rw [symbId_oneBlock hK, if_pos hens, payload_id_xmitHeader _ _ _ _ hj]

theorem symbId_repair {K j : ℕ} (hK : K ≤ 50000) (hj : j * 1024 < 2 ^ 32) (fsiz file_nbr : ℤ) :
    symbId (oneBlock K) (xmitHeader routeEnsIdRepair (oneBlock K) fsiz file_nbr j) = K + j := by
  have hens : (xmitHeader routeEnsIdRepair (oneBlock K) fsiz file_nbr j).ens_id ≠
      routeEnsIdSource := by
    simp [xmitHeader, routeEnsIdRepair, routeEnsIdSource]
  rw [symbId_oneBlock hK, if_neg hens, payload_id_xmitHeader _ _ _ _ hj]
  push_cast
  rfl

/-! ## The source block -/

/-- The memory holds the file, cut into symbols. -/
def HoldsSource (content : List UInt8) (b : Buffer UInt8) : Prop :=
  ∀ i < segSymbols content.length, b.slice (i * 1024) 1024 = padSym 1024 (chunk 1024 content i)

theorem xmitSymbol_eq {header : RouteHeader} {T : ℕ} {b : Buffer UInt8} {j n : ℕ}
    (hn : n ≤ payloadMaxsz) (hread : T * j + n ≤ b.size) :
    xmitSymbol header T b j n = send { header, payload := b.slice (T * j) n } := by
  rw [xmitSymbol, if_neg (by omega), Buffer.read?_of_le hread]
  rfl

theorem sourcePayloadSize_le (T sz_read j : ℕ) : sourcePayloadSize T sz_read j ≤ T := by
  unfold sourcePayloadSize
  split <;> omega

theorem xmitSymbol_sent {header : RouteHeader} {T : ℕ} {b : Buffer UInt8} {j n : ℕ}
    {d : Datagram} (h : d ∈ (xmitSymbol header T b j n).sent) :
    d = { header, payload := b.slice (T * j) n } := by
  unfold xmitSymbol at h
  split at h
  · simp at h
  · rw [mem_sent_bind] at h
    rcases h with h | ⟨payload, hread, h⟩
    · simp at h
    · rw [result_lift_eq_ok, orElse_eq_ok, Buffer.read?] at hread
      split at hread
      · rw [Option.some.inj hread]
        simpa [send] using h
      · cases hread

theorem readBlock_eq {content : List UInt8} (hsmall : SmallFile content.length) {m : XmitMem M}
    (hsize : segSymbols content.length * 1024 ≤ m.srcBlock.size) (hrest : m.rest = content) :
    ∃ m', readBlock (oneBlock (segSymbols content.length)) (segSymbols content.length) 0 m =
        .ok (content.length, m') ∧
      HoldsSource content m'.srcBlock ∧ m'.srcBlock.size = m.srcBlock.size ∧
      m'.interWork = m.interWork ∧ m'.outWork = m.outWork := by
  obtain ⟨-, h₁, -, h₃, h₄⟩ := hsmall.symbols
  have hT : (oneBlock (segSymbols content.length)).T.toNat = 1024 := rfl
  have htake : content.take (1024 * segSymbols content.length) = content :=
    List.take_of_length_le (by omega)
  refine ⟨{ m with
    srcBlock := m.srcBlock.blit 0 (fill (segSymbols content.length * 1024) 0 content)
    rest := content.drop (1024 * segSymbols content.length) }, ?_, ?_, rfl, rfl, rfl⟩
  · have hwrite : m.srcBlock.write? 0 content = some (m.srcBlock.blit 0 content) :=
      Buffer.write?_of_le (by omega)
    rw [readBlock]
    simp only [hT, hrest, htake, hwrite, orElse_some, ok_bind]
    by_cases hfull : content.length < 1024 * segSymbols content.length
    · rw [if_pos hfull, check_bind (by rfl), check_bind (by omega), Buffer.write?_of_le (by
        simp only [Buffer.size_blit, List.length_replicate]
        omega), orElse_some, ok_bind]
      have hjoin := m.srcBlock.blit_blit 0 content
        (List.replicate (1024 * segSymbols content.length - content.length) 0)
      rw [Nat.add_zero] at hjoin
      rw [hjoin, Nat.mul_comm 1024]
      rfl
    · have hnil : fill (segSymbols content.length * 1024) 0 content = content := by
        rw [fill, Nat.sub_eq_zero_of_le (by omega)]
        simp
      rw [if_neg hfull, hnil]
      rfl
  · intro i hi
    exact slice_blit_fill m.srcBlock 0 h₄ hi

/-! ## The datagrams of a file -/

/-- The datagram of source symbol `j`. -/
def sourceDatagram (content : List UInt8) (file_nbr : ℤ) (j : ℕ) : Datagram :=
  { header := xmitHeader routeEnsIdSource (oneBlock (segSymbols content.length)) content.length
      file_nbr j
    payload := chunk 1024 content j }

/-- The memory after the repair symbols of a file were computed. -/
def RepairBlock (host : Host M) (content : List UInt8) (nExtra : ℤ) (b : Buffer UInt8) : Prop :=
  ∃ sizes m m₁ m₂, HoldsSource content m.srcBlock ∧
    (repairPrograms host sizes (segSymbols content.length) nExtra m).result = .ok m₁ ∧
    (repairSymbols host sizes (oneBlock (segSymbols content.length)) m₁).result = .ok m₂ ∧
    b = m₂.srcBlock

/-- A source datagram, or one of the repair symbols. -/
def EmittedBy (host : Host M) (content : List UInt8) (file_nbr nExtra : ℤ) (d : Datagram) : Prop :=
  (∃ j < segSymbols content.length, d = sourceDatagram content file_nbr j) ∨
    ∃ j < nExtra.toNat, FitsInt (1024 * max (segSymbols content.length : ℤ) nExtra) ∧
      ∃ b, RepairBlock host content nExtra b ∧
        d = { header := xmitHeader routeEnsIdRepair (oneBlock (segSymbols content.length))
                content.length file_nbr j
              payload := b.slice (1024 * j) 1024 }

@[simp] theorem sent_repairPrograms (host : Host M) (sizes : XmitSizes) (K : ℕ) (nExtra : ℤ)
    (m : XmitMem M) : (repairPrograms host sizes K nExtra m).sent = [] := by
  rw [List.eq_nil_iff_forall_not_mem]
  intro d
  simp [repairPrograms, mem_sent_bind]

@[simp] theorem sent_repairSymbols (host : Host M) (sizes : XmitSizes) (P : CodingParams)
    (m : XmitMem M) : (repairSymbols host sizes P m).sent = [] := by
  rw [List.eq_nil_iff_forall_not_mem]
  intro d
  simp [repairSymbols, mem_sent_bind]

@[simp] theorem sent_xmitSizes (host : Host M) (P : CodingParams) (nExtra : ℤ) :
    (xmitSizes host P nExtra).sent = [] := by
  rw [List.eq_nil_iff_forall_not_mem]
  intro d
  unfold xmitSizes
  split <;> simp [mem_sent_bind]

/-- The payload of a source symbol is what the file has of it. -/
theorem source_payload {content : List UInt8} (hsmall : SmallFile content.length)
    {b : Buffer UInt8} (hb : HoldsSource content b) {j : ℕ} (hj : j < segSymbols content.length) :
    b.slice (1024 * j) (sourcePayloadSize 1024 content.length j) = chunk 1024 content j := by
  obtain ⟨-, h₁, -, h₃, h₄⟩ := hsmall.symbols
  have hlt : 1024 * j < content.length := by omega
  have hrest : sizeSub content.length (1024 * j) = content.length - 1024 * j :=
    sizeSub_of_le (Nat.le_of_lt hlt) (Nat.lt_of_le_of_lt h₄ hsmall.bytes_lt)
  have hlen : (chunk 1024 content j).length = sourcePayloadSize 1024 content.length j := by
    rw [sourcePayloadSize, hrest, chunk, List.length_take, List.length_drop, Nat.mul_comm j]
    split <;> omega
  have hfull := hb j hj
  rw [Nat.mul_comm] at hfull
  rw [← hlen, ← Buffer.take_slice b (1024 * j) (length_chunk_le 1024 content j), hfull]
  exact take_fill 1024 0 (chunk 1024 content j)

/-- Source datagrams, and after them nothing but repair datagrams. -/
def SendsSources (sent : List Datagram) (K : ℕ) (source : ℕ → Datagram) : Prop :=
  ∃ repair, sent = (List.range K).map source ++ repair ∧
    ∀ d ∈ repair, d.header.ens_id = routeEnsIdRepair

/-- A code block that was read is sent symbol by symbol. -/
theorem xmitBlock_sendsSources (host : Host M) (sizes : XmitSizes) {K : ℕ}
    (fsiz file_nbr nExtra : ℤ) {m m₀ : XmitMem M} {sz_read : ℕ}
    (hread : readBlock (oneBlock K) K 0 m = .ok (sz_read, m₀))
    (hsize : K * 1024 ≤ m₀.srcBlock.size) :
    SendsSources (xmitBlock host sizes (oneBlock K) fsiz file_nbr nExtra m 0).sent K fun j =>
      { header := xmitHeader routeEnsIdSource (oneBlock K) fsiz file_nbr j
        payload := m₀.srcBlock.slice (1024 * j) (sourcePayloadSize 1024 sz_read j) } := by
  have hK : ((oneBlock K).K_large - if ((0 : ℕ) : ℤ) ≥ (oneBlock K).n_large then 1 else 0).toNat =
      K := by
    simp [oneBlock]
  have hT : (oneBlock K).T.toNat = 1024 := rfl
  have hsend : ∀ j ∈ List.range K,
      xmitSymbol (xmitHeader routeEnsIdSource (oneBlock K) fsiz file_nbr j) 1024 m₀.srcBlock j
        (sourcePayloadSize 1024 sz_read j) = send _ := fun j hj => by
    have hlt := List.mem_range.mp hj
    have hle := sourcePayloadSize_le 1024 sz_read j
    exact xmitSymbol_eq (hle.trans (by decide)) (by omega)
  have hloop := forM_send _ hsend
  simp only [xmitBlock, hK, hT]
  rw [sent_bind_of_ok (result_lift_eq_ok.mpr hread), sent_lift, List.nil_append]
  simp only
  rw [sent_bind_of_ok hloop.2, hloop.1]
  refine ⟨_, rfl, fun d hd => ?_⟩
  split at hd
  · simp only [true_or, if_true, mem_sent_bind, sent_repairPrograms, sent_repairSymbols,
      List.not_mem_nil, false_or, sent_pure, and_false, exists_false, or_false] at hd
    obtain ⟨_, -, _, -, hd⟩ := hd
    obtain ⟨j, -, hd⟩ := of_mem_sent_forM hd
    rw [xmitSymbol_sent hd]
    rfl
  · simp at hd

theorem xmitBlock_sent {host : Host M} {sizes : XmitSizes} {content : List UInt8}
    (hsmall : SmallFile content.length) {file_nbr nExtra : ℤ}
    (hfit : FitsInt (1024 * max (segSymbols content.length : ℤ) nExtra)) {m : XmitMem M}
    (hsize : segSymbols content.length * 1024 ≤ m.srcBlock.size) (hrest : m.rest = content)
    {d : Datagram}
    (h : d ∈ (xmitBlock host sizes (oneBlock (segSymbols content.length)) content.length file_nbr
      nExtra m 0).sent) :
    EmittedBy host content file_nbr nExtra d := by
  obtain ⟨m₀, hread, hsrc, -⟩ := readBlock_eq hsmall hsize hrest
  have hK : ((oneBlock (segSymbols content.length)).K_large -
      if ((0 : ℕ) : ℤ) ≥ (oneBlock (segSymbols content.length)).n_large then 1 else 0).toNat =
        segSymbols content.length := by
    simp [oneBlock]
  have hT : (oneBlock (segSymbols content.length)).T.toNat = 1024 := rfl
  simp only [xmitBlock, hK, hread, hT, mem_sent_bind, sent_lift, result_lift_eq_ok,
    List.not_mem_nil, false_or, Except.ok.injEq, exists_eq_left'] at h
  rcases h with h | ⟨_, -, h⟩
  · obtain ⟨j, hj, hd⟩ := of_mem_sent_forM h
    have hj' : j < segSymbols content.length := List.mem_range.mp hj
    rw [xmitSymbol_sent hd, source_payload hsmall hsrc hj']
    exact .inl ⟨j, hj', rfl⟩
  · split at h
    · rename_i hpos
      simp only [true_or, if_true, mem_sent_bind, sent_repairPrograms, sent_repairSymbols,
        List.not_mem_nil, false_or, sent_pure, and_false, exists_false, or_false] at h
      obtain ⟨m₁, hprog, m₂, hsym, h⟩ := h
      obtain ⟨j, hj, hd⟩ := of_mem_sent_forM h
      exact .inr ⟨j, List.mem_range.mp hj, hfit, m₂.srcBlock,
        ⟨sizes, m₀, m₁, m₂, hsrc, hprog, hsym, rfl⟩, xmitSymbol_sent hd⟩
    · simp at h

theorem SmallFile.bounds {file_len : ℕ} (h : SmallFile file_len) :
    1 ≤ (file_len : ℤ) ∧ (file_len : ℤ) ≤ maxFileSize := by
  unfold SmallFile at h
  unfold maxFileSize
  omega

theorem xmitFile_eq {host : Host M} {content : List UInt8} (hsmall : SmallFile content.length)
    (file_nbr nExtra : ℤ) :
    xmitFile host (some content) file_nbr nExtra =
      xmitContent host content content.length file_nbr nExtra := by
  have hpos := hsmall.bounds.1
  rw [xmitFile]
  simp only [getFileSize, hsmall.toInt_eq, Option.getD_some]
  rw [if_neg (by omega), if_neg (by omega)]

/-- A transmission in one code block sends nothing at all, or that code block; without repair
symbols it is the block. -/
theorem xmitContent_sent (host : Host M) (content : List UInt8) {fsiz : ℤ}
    (hfsiz : 1 ≤ fsiz ∧ fsiz ≤ maxFileSize) {K : ℕ} (hK : (K : ℤ) = symbolCount fsiz)
    (file_nbr nExtra : ℤ) :
    (nExtra ≠ 0 ∧ (xmitContent host content fsiz file_nbr nExtra).sent = []) ∨
      ∃ sizes m, FitsInt (1024 * max (K : ℤ) nExtra) ∧ K * 1024 ≤ m.srcBlock.size ∧
        m.rest = content ∧
        (xmitContent host content fsiz file_nbr nExtra).sent =
          (xmitBlock host sizes (oneBlock K) fsiz file_nbr nExtra m 0).sent := by
  obtain ⟨hlow, hhigh, -, -⟩ := symbolCount_bounds hfsiz.1 hfsiz.2
  have hP := paramDeriv_of_small hfsiz.1 hfsiz.2
  rw [← hK] at hP hlow hhigh
  rw [xmitContent, sent_bind_of_ok (result_lift_eq_ok.mpr hP), sent_lift, List.nil_append]
  cases hs : (xmitSizes host (oneBlock K) nExtra).result with
  | error e =>
      refine .inl ⟨?_, ?_⟩
      · rintro rfl
        cases hs
      · rw [(sent_bind_of_error hs).1, sent_xmitSizes]
  | ok sizes =>
      rw [sent_bind_of_ok hs, sent_xmitSizes, List.nil_append]
      by_cases hfit : FitsInt ((oneBlock K).T *
          max (oneBlock K).K_large nExtra)
      · have hsize : K * 1024 ≤ ((oneBlock K).T *
            max (oneBlock K).K_large nExtra).toNat := by
          simp only [oneBlock]
          omega
        refine .inr ⟨sizes, {
          interWork := host.freshWork, interProg := host.freshWork, interBlock := host.freshByte
          outWork := host.freshWork, outProg := host.freshWork
          srcBlock := {
            size := ((oneBlock K).T *
              max (oneBlock K).K_large nExtra).toNat
            cell := host.freshByte }
          rest := content }, hfit, hsize, rfl, ?_⟩
        rw [sent_bind_of_ok (a := ()) (result_lift_eq_ok.mpr (check_eq_ok.mpr hfit)), sent_lift,
          List.nil_append]
        change ((xmitBlock host sizes _ _ _ _ _ 0 >>= fun m => pure m) >>=
          fun _ => pure ()).sent = _
        rw [sent_bind_pure, sent_bind_pure]
      · refine .inl ⟨?_, ?_⟩
        · rintro rfl
          refine hfit ?_
          unfold FitsInt
          simp only [oneBlock]
          omega
        · have hcheck : (Xmit.lift (check (FitsInt ((oneBlock K).T *
              max (oneBlock K).K_large nExtra)) Fault.intOverflow)).result =
                .error (.fault .intOverflow) := by
            rw [check, if_neg hfit]
            rfl
          rw [(sent_bind_of_error hcheck).1, sent_lift]

/-- Everything that `xmit_file` sends for a file. -/
theorem xmitFile_sent {host : Host M} {content : List UInt8} (hsmall : SmallFile content.length)
    {file_nbr nExtra : ℤ} {d : Datagram}
    (h : d ∈ (xmitFile host (some content) file_nbr nExtra).sent) :
    EmittedBy host content file_nbr nExtra d := by
  rw [xmitFile_eq hsmall] at h
  rcases xmitContent_sent host content hsmall.bounds hsmall.symbols.1 file_nbr nExtra with
    ⟨-, hnone⟩ | ⟨sizes, m, hfit, hsize, hrest, hsent⟩
  · rw [hnone] at h
    cases h
  · rw [hsent] at h
    exact xmitBlock_sent hsmall hfit hsize hrest h

/-- The first symbol of a file is sent, whatever the codec does. -/
theorem first_mem_sent (host : Host M) {content : List UInt8} (hsmall : SmallFile content.length)
    (file_nbr : ℤ) :
    sourceDatagram content file_nbr 0 ∈ (xmitFile host (some content) file_nbr 0).sent := by
  obtain ⟨-, h₁, -, -, -⟩ := hsmall.symbols
  rw [xmitFile_eq hsmall]
  rcases xmitContent_sent host content hsmall.bounds hsmall.symbols.1 file_nbr 0 with
    ⟨hne, -⟩ | ⟨sizes, m, -, hsize, hrest, hsent⟩
  · exact absurd rfl hne
  · obtain ⟨m₀, hread, hsrc, hsize₀, -⟩ := readBlock_eq hsmall hsize hrest
    obtain ⟨repair, hsource, -⟩ := xmitBlock_sendsSources host sizes content.length file_nbr 0
      hread (by rw [hsize₀]; exact hsize)
    have hfirst := source_payload hsmall hsrc h₁
    rw [hsent, hsource, sourceDatagram, ← hfirst]
    exact List.mem_append_left _ (List.mem_map_of_mem (List.mem_range.mpr h₁))

/-- A transmission that runs to its end sends the whole code block. -/
theorem xmitFile_of_ok {host : Host M} {content : List UInt8} (hsmall : SmallFile content.length)
    {file_nbr nExtra : ℤ} (hok : (xmitFile host (some content) file_nbr nExtra).result = .ok ()) :
    SendsSources (xmitFile host (some content) file_nbr nExtra).sent
      (segSymbols content.length) (sourceDatagram content file_nbr) := by
  have hP := paramDeriv_of_small hsmall.bounds.1 hsmall.bounds.2
  rw [← hsmall.symbols.1] at hP
  rw [xmitFile_eq hsmall] at hok ⊢
  simp only [xmitContent, result_bind_eq_ok, result_lift_eq_ok, hP, Except.ok.injEq,
    exists_eq_left', check_eq_ok] at hok
  obtain ⟨sizes, hsizes, _, hfit, -⟩ := hok
  have hsize : segSymbols content.length * 1024 ≤ ((oneBlock (segSymbols content.length)).T *
      max (oneBlock (segSymbols content.length)).K_large nExtra).toNat := by
    simp only [oneBlock]
    omega
  obtain ⟨m₀, hread, hsrc, hsize₀, -⟩ := readBlock_eq hsmall (m := {
    interWork := host.freshWork, interProg := host.freshWork, interBlock := host.freshByte
    outWork := host.freshWork, outProg := host.freshWork
    srcBlock := {
      size := ((oneBlock (segSymbols content.length)).T *
        max (oneBlock (segSymbols content.length)).K_large nExtra).toNat
      cell := host.freshByte }
    rest := content }) hsize rfl
  obtain ⟨repair, hsource, hrepair⟩ := xmitBlock_sendsSources host sizes content.length file_nbr
    nExtra hread (by rw [hsize₀]; exact hsize)
  refine ⟨repair, ?_, hrepair⟩
  rw [xmitContent, sent_bind_of_ok (result_lift_eq_ok.mpr hP), sent_lift, List.nil_append,
    sent_bind_of_ok hsizes, sent_xmitSizes, List.nil_append,
    sent_bind_of_ok (a := ()) (result_lift_eq_ok.mpr (check_eq_ok.mpr hfit)), sent_lift,
    List.nil_append]
  change ((xmitBlock host sizes _ _ _ _ _ 0 >>= fun m => pure m) >>= fun _ => pure ()).sent = _
  rw [sent_bind_pure, sent_bind_pure]
  refine hsource.trans (congrArg (· ++ repair) (List.map_congr_left fun j hj => ?_))
  rw [sourceDatagram, ← source_payload hsmall hsrc (List.mem_range.mp hj)]

/-- Without repair symbols the transmission of a code block cannot fail. -/
theorem xmitBlock_without_repair (host : Host M) (sizes : XmitSizes) {content : List UInt8}
    (hsmall : SmallFile content.length) (file_nbr : ℤ) {nExtra : ℤ} (hno : nExtra ≤ 0)
    {m : XmitMem M} (hsize : segSymbols content.length * 1024 ≤ m.srcBlock.size)
    (hrest : m.rest = content) :
    ∃ m', (xmitBlock host sizes (oneBlock (segSymbols content.length)) content.length file_nbr
      nExtra m 0).result = .ok m' := by
  obtain ⟨m', hread, -, hsize', -⟩ := readBlock_eq hsmall hsize hrest
  have hK : ((oneBlock (segSymbols content.length)).K_large -
      if ((0 : ℕ) : ℤ) ≥ (oneBlock (segSymbols content.length)).n_large then 1 else 0).toNat =
        segSymbols content.length := by
    simp [oneBlock]
  have hT : (oneBlock (segSymbols content.length)).T.toNat = 1024 := rfl
  have hsend : ∀ j ∈ List.range (segSymbols content.length),
      xmitSymbol (xmitHeader routeEnsIdSource (oneBlock (segSymbols content.length))
        content.length file_nbr j) 1024 m'.srcBlock j
          (sourcePayloadSize 1024 content.length j) = send _ := fun j hj => by
    have hlt := List.mem_range.mp hj
    have hle := sourcePayloadSize_le 1024 content.length j
    exact xmitSymbol_eq (hle.trans (by decide)) (by omega)
  refine ⟨m', ?_⟩
  simp only [xmitBlock, hK, hT]
  rw [result_bind_eq_ok]
  refine ⟨_, result_lift_eq_ok.mpr hread, ?_⟩
  rw [result_bind_eq_ok]
  refine ⟨(), (forM_send _ hsend).2, ?_⟩
  rw [if_neg (by omega)]
  rfl

/-- Without repair symbols nothing can go wrong. -/
theorem xmitFile_without_repair (host : Host M) {content : List UInt8}
    (hsmall : SmallFile content.length) (file_nbr : ℤ) {nExtra : ℤ} (hno : nExtra ≤ 0) :
    (xmitFile host (some content) file_nbr nExtra).result = .ok () := by
  have hP := paramDeriv_of_small hsmall.bounds.1 hsmall.bounds.2
  rw [← hsmall.symbols.1] at hP
  have hle := hsmall.symbols.2.2.1
  have hfit : FitsInt ((oneBlock (segSymbols content.length)).T *
      max (oneBlock (segSymbols content.length)).K_large nExtra) := by
    unfold FitsInt
    simp only [oneBlock]
    omega
  have hsize : segSymbols content.length * 1024 ≤ ((oneBlock (segSymbols content.length)).T *
      max (oneBlock (segSymbols content.length)).K_large nExtra).toNat := by
    simp only [oneBlock]
    omega
  have hsizes : (xmitSizes host (oneBlock (segSymbols content.length)) nExtra).result =
      .ok ⟨0, 0, 0, 0, 0⟩ := by
    rw [xmitSizes, if_neg (by omega)]
    rfl
  rw [xmitFile_eq hsmall, xmitContent, result_bind_eq_ok]
  refine ⟨_, result_lift_eq_ok.mpr hP, ?_⟩
  rw [result_bind_eq_ok]
  refine ⟨_, hsizes, ?_⟩
  rw [result_bind_eq_ok]
  refine ⟨(), result_lift_eq_ok.mpr (check_eq_ok.mpr hfit), ?_⟩
  obtain ⟨m', hblock⟩ := xmitBlock_without_repair host ⟨0, 0, 0, 0, 0⟩ hsmall file_nbr hno (m := {
    interWork := host.freshWork, interProg := host.freshWork, interBlock := host.freshByte
    outWork := host.freshWork, outProg := host.freshWork
    srcBlock := {
      size := ((oneBlock (segSymbols content.length)).T *
        max (oneBlock (segSymbols content.length)).K_large nExtra).toNat
      cell := host.freshByte }
    rest := content }) hsize rfl
  rw [result_bind_eq_ok]
  refine ⟨m', ?_, rfl⟩
  change (xmitBlock host _ _ _ _ _ _ 0 >>= fun m => pure m).result = _
  exact result_bind_eq_ok.mpr ⟨m', hblock, rfl⟩

/-! ## What the receiver sees of them -/

namespace EmittedBy

variable {host : Host M} {content : List UInt8} {file_nbr nExtra : ℤ} {d : Datagram}

/-- The file number is cut to 16 bits. -/
theorem toi (h : EmittedBy host content file_nbr nExtra d) :
    (d.header.toi.toNat : ℤ) = file_nbr % 65536 := by
  rcases h with ⟨j, -, rfl⟩ | ⟨j, -, -, b, -, rfl⟩ <;> exact toi_xmitHeader ..

theorem tos (hsmall : SmallFile content.length) (h : EmittedBy host content file_nbr nExtra d) :
    d.header.tos.toNat = content.length := by
  have hlt : content.length < 2 ^ 32 := by
    unfold SmallFile at hsmall
    omega
  rcases h with ⟨j, -, rfl⟩ | ⟨j, -, -, b, -, rfl⟩ <;> exact tos_xmitHeader _ _ _ _ hlt

theorem payload_le (h : EmittedBy host content file_nbr nExtra d) : d.payload.length ≤ 1024 := by
  rcases h with ⟨j, -, rfl⟩ | ⟨j, -, -, b, -, rfl⟩
  · exact length_chunk_le ..
  · simp

/-- Nothing of such a datagram is cut off on arrival. -/
theorem cutDatagram_eq {d : Datagram} (h : d.payload.length ≤ 1024) : cutDatagram d = d := by
  have htake : d.payload.take (sizeofPacketbuf - sizeofRouteHeader) = d.payload :=
    List.take_of_length_le (Nat.le_trans h (by decide))
  rw [cutDatagram, htake]

end EmittedBy

end RqRoute
